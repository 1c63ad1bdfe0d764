import StorageRuntime.SpawnJoinProofs

/-!
# when_all — the join

What `when_all` promises to the coroutine that awaits it, read off the invariant of
`SpawnJoin`: it goes on once, with all results in their places, and no task touches the
shared state, which lives in its frame, after that.

* **`when_all_joins`**: for every number of callables that return, and every interleaving.
-/

namespace SpawnJoin

open Interleaving BatonJoin ThreadAffinity

variable {S : Spawner} {E V : Type} {calls : S.Task → Except E V} {t : List (Event S E V)}
  {s s' : State S E V}

/-- The steps of a task, all but the return from `post()`, access the shared state or the waiter's
    node. -/
def Touches (s : State S E V) : Act S → Prop
  | .run _ => True
  | .go i => ¬ (s.task i = .posting ∧ (view s.baton).poster i = .leaving)
  | _ => False

/-! ## Progress -/

/-- A task that is not in `post()` can call it. -/
theorem Inv.can_post (h : Inv calls t s) {i : S.Task} (hi : s.task i ≠ .posting) :
    (AffinityBaton.step s.baton (Call.post i).act).isSome = true := by
  have hout : (view s.baton).poster i = .out := by
    by_contra hne
    exact hi ((h.posting.busy i).mpr hne)
  have hidle := (h.joined.poster i).idle_iff.mpr hout
  simp only [Call.act, AffinityBaton.step, AffinityBaton.State.begin, hidle, if_true]
  rfl

/-- A task that has not ended can go on. -/
theorem Inv.task_progress (h : Inv calls t s) {i : S.Task} (hi : s.task i ≠ .ended) :
    ∃ a, (SpawnJoin.step calls s a).isSome = true := by
  have hpost : s.task i ≠ .posting → ∀ s₁ : State S E V, s₁.baton = s.baton →
      (s₁.post i).isSome = true := by
    intro hne s₁ hbaton
    rw [State.post, hbaton, Option.isSome_map]
    exact h.can_post hne
  cases hp : s.task i with
  | queued =>
    refine ⟨.run i, ?_⟩
    simp only [SpawnJoin.step, State.run, hp]
    split
    · rfl
    · exact hpost (by rw [hp]; rintro ⟨⟩) _ rfl
    · rfl
  | markDone =>
    refine ⟨.go i, ?_⟩
    simp only [SpawnJoin.step, State.go, hp]
    exact hpost (by rw [hp]; rintro ⟨⟩) _ rfl
  | fetchSub =>
    refine ⟨.go i, ?_⟩
    simp only [SpawnJoin.step, State.go, hp]
    split
    · exact hpost (by rw [hp]; rintro ⟨⟩) _ rfl
    · rfl
  | posting =>
    refine ⟨.go i, ?_⟩
    simp only [SpawnJoin.step, State.go, hp, Option.isSome_map]
    exact h.joined.task_runs ((h.posting.busy i).mp hp)
  | readDetached =>
    refine ⟨.go i, ?_⟩
    simp only [SpawnJoin.step, State.go, hp]
    rfl
  | ended => exact absurd hp hi

/-- **Progress**: when nothing can happen any more, the waiter has got its results. -/
theorem Inv.progress (h : Inv calls t s) (hstuck : ∀ a, SpawnJoin.step calls s a = none) :
    s.waiter = .returned := by
  have hnone : ∀ a, (SpawnJoin.step calls s a).isSome = false := fun a => by rw [hstuck a]; rfl
  cases hw : s.waiter with
  | returned => rfl
  | before =>
    have hout : (view s.baton).waiter = .out := by
      by_contra hne
      have := h.waits.inside.mpr hne
      rw [hw] at this
      cases this
    have hidle := h.joined.waiter.idle_iff.mpr hout
    have hawait := hnone .await
    simp only [SpawnJoin.step, hw, Call.act, AffinityBaton.step, AffinityBaton.State.begin,
      hidle, if_true] at hawait
    cases hawait
  | awaiting =>
    have hin := h.waits.inside.mp hw
    by_cases hsusp : (view s.baton).waiter = .suspended
    · -- some task has not ended, since otherwise the waiter would have been let go
      have htask : ∃ i, s.task i ≠ .ended := by
        by_contra hall
        exact (h.ended (not_exists_not.mp hall)).2 hsusp
      obtain ⟨i, hi⟩ := htask
      obtain ⟨a, ha⟩ := h.task_progress hi
      rw [hnone a] at ha
      cases ha
    · have hgo := hnone (.goWaiter ⟨0, .null⟩ false)
      simp only [SpawnJoin.step, hw, Option.isSome_map] at hgo
      have hruns := h.joined.waiter_runs hin hsusp ⟨0, .null⟩ false
      rw [show AffinityBaton.step s.baton (.go .waiter ⟨0, .null⟩ false) =
        AffinityBaton.step s.baton (Call.goWaiter ⟨0, .null⟩ false).act from rfl, hgo] at hruns
      cases hruns

/-! ## The shared state -/

/-- After the waiter is signalled a task can only return from `post()`. -/
theorem Inv.untouched (h : Inv calls t s) {n : Nat} (hS : S = .whenAll n)
    (hsignalled : (view s.baton).waiter = .woken ∨ s.waiter = .returned) {a : Act S}
    (hs : SpawnJoin.step calls s a = some s') : ¬ Touches s a := by
  have hposted := h.waits.posted hsignalled
  have hdecided := h.posting.last (.inr hposted)
  -- the waiter is not suspended, so nobody is waking it
  have hawake : (view s.baton).waiter ≠ .suspended := by
    rcases hsignalled with hwoken | hreturned
    · rw [hwoken]
      rintro ⟨⟩
    · intro hsusp
      have := h.waits.inside.mpr (by rw [hsusp]; rintro ⟨⟩)
      rw [hreturned] at this
      cases this
  cases a with
  | run i =>
    simp only [SpawnJoin.step, State.run] at hs
    split at hs
    · rename_i hq
      have := hdecided i
      rw [hq] at this
      cases this
    · cases hs
  | go i =>
    refine not_not.mpr ?_
    have hi := hdecided i
    cases hp : s.task i with
    | queued | markDone | fetchSub => rw [hp] at hi; cases hi
    | posting =>
      refine ⟨rfl, ?_⟩
      have hbusy := (h.posting.busy i).mp hp
      cases hphase : (view s.baton).poster i with
      | out => exact absurd hphase hbusy
      | exchanging =>
        have := h.posting.first i hphase
        rw [hposted] at this
        cases this
      | waking => exact absurd (h.joined.of_waking hphase).1 hawake
      | leaving => rfl
    | readDetached =>
      have hhas := h.body i
      rw [hp] at hhas
      cases hhas.symm.trans hS
    | ended => simp only [SpawnJoin.step, State.go, hp] at hs; cases hs
  | await | goWaiter n spurious => exact id

/-! ## The join -/

/-- **`when_all` joins.**  For every number of callables that return, and every interleaving of
    their tasks and the waiter: the waiter is signalled and returns at most once; once it is
    signalled all results are in their places and no task touches the shared state any more;
    what it returns is the tuple of the results; and when nothing can happen any more, it has
    been signalled and has returned. -/
theorem when_all_joins {n : Nat} {value : (Spawner.whenAll n).Task → V}
    {t : List (Event (.whenAll n) E V)} {s : State (.whenAll n) E V}
    (h : Exec (machine fun i => .ok (value i)) Always init t s) :
    signalCount t ≤ 1 ∧ (results t).length ≤ 1 ∧
    (1 ≤ signalCount t → (∀ i, s.slots i = some (.ok (value i))) ∧
      ∀ a s', step (fun i => .ok (value i)) s a = some s' → ¬ Touches s a) ∧
    (∀ r ∈ results t, ∀ i, r i = some (.ok (value i))) ∧
    ((∀ a, step (fun i => .ok (value i)) s a = none) →
      signalCount t = 1 ∧ (results t).length = 1) := by
  have hinv := inv_exec (.inr fun i => ⟨value i, rfl⟩) h
  have hsignals := hinv.waits.signals
  have hresults := hinv.results
  refine ⟨?_, ?_, fun hsignalled => ?_, fun r hr => ?_, fun hstuck => ?_⟩
  · rw [hsignals]
    split <;> omega
  · rw [hresults]
    split
    · exact Nat.le_refl 1
    · exact Nat.zero_le 1
  · have hwoken : (view s.baton).waiter = .woken ∨ s.waiter = .returned := by
      by_contra hnot
      rw [hsignals, if_neg hnot] at hsignalled
      omega
    refine ⟨fun i => ?_, fun a s' hs => hinv.untouched rfl hwoken hs⟩
    rw [hinv.slots_eq (hinv.waits.posted hwoken)]
  · rw [hresults] at hr
    split at hr
    · obtain rfl := List.mem_singleton.mp hr
      exact fun i => rfl
    · cases hr
  · have hreturned := hinv.progress hstuck
    rw [hsignals, hresults, if_pos (.inr hreturned), if_pos hreturned]
    exact ⟨rfl, rfl⟩

/-- Two callables; one task is done before the waiter suspends, the other resumes it. -/
def twoTasks : List (Act (.whenAll 2)) :=
  [.run (1 : Fin 2), .go (1 : Fin 2), .await, .goWaiter ⟨0, .online 0⟩ false, .run (0 : Fin 2)] ++
    List.replicate 2 (.goWaiter ⟨0, .online 0⟩ false) ++ List.replicate 5 (.go (0 : Fin 2)) ++
    [.goWaiter ⟨0, .online 0⟩ false]

theorem two_tasks_joined : ∃ t, ∃ s : State (.whenAll 2) Nat Nat,
    Exec (machine fun i => .ok (10 * i.val)) Always init t s ∧
    (results t).map (fun r => (r (0 : Fin 2), r (1 : Fin 2))) = [(some (.ok 0), some (.ok 10))] ∧
    signalCount t ≤ 1 ∧ (results t).length ≤ 1 ∧
    (1 ≤ signalCount t → (∀ i, s.slots i = some (.ok (10 * i.val))) ∧
      ∀ a s', step (fun i => .ok (10 * i.val)) s a = some s' → ¬ Touches s a) ∧
    (∀ r ∈ results t, ∀ i, r i = some (.ok (10 * i.val))) ∧
    ((∀ a, step (fun i => .ok (10 * i.val)) s a = none) →
      signalCount t = 1 ∧ (results t).length = 1) := by
  have hexec : Exec (machine fun i => .ok (10 * i.val)) Always
      (init : State (.whenAll 2) Nat Nat) _ _ := exec_run twoTasks
  exact ⟨_, _, hexec, by decide +kernel, when_all_joins hexec⟩

end SpawnJoin
