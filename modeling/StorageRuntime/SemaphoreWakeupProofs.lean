import StorageRuntime.AffinitySemaphoreProofs
import StorageRuntime.IntrusiveChainProofs

/-!
# AffinitySemaphore — lost and doubled wake-ups

What `acquire()` and `release()` mean to guarantee: nobody stays suspended while a permit is
free, and no suspension is resumed twice.  Three things break it, each shown by a run:

* **`release_leaves_waiter`**: a release wakes one waiter and leaves its permit in the
  counter too, so the waiters behind it stay suspended next to a free permit — even when no
  two calls overlap.
* **`release_between_check_and_push`**: a release that falls between the last check of
  `count_` and the push finds no waiter to wake.
* **`waiter_resumed_twice`**: between the read of `old->next` and the compare-exchange of a
  pop, the node is popped, its owner runs on and pushes it again at the same address; the
  pop then installs a stale link and puts a waiter that was already woken back on the list.

`Orderly` excludes exactly these three steps, each by a condition on the state before it,
and **`no_lost_wakeup_of_orderly`** proves the guarantee for every run without them.  The
invariant: the list is the chain of suspended agents that nobody has popped; a popped one has
exactly one agent about to resume it; and while the list is not empty and a permit is free,
some release has incremented the counter and is still going to look at the list.
-/

namespace AffinitySemaphore

open Function Interleaving IntrusiveChain ThreadAffinity

variable {Agent : Type}

/-- No call is in progress; agents suspended in `acquire()` stay where they are. -/
def Quiescent (s : State Agent) : Prop := ∀ a, s.pc a = .idle ∨ s.pc a = .suspended

/-- How often agent `a` has been resumed since it last suspended. -/
def resumes [DecidableEq Agent] (a : Agent) : List (Event Agent) → Nat
  | [] => 0
  | .suspended b :: t => if b = a then 0 else resumes a t
  | .resumed w _ _ :: t => if w = a then resumes a t + 1 else resumes a t

/-- The condition on a successful push by `a`: no permit is free, or some release is still
    going to look at the list. -/
def PushOk (s : State Agent) : Prop := s.count = 0 ∨ ∃ b, (s.pc b).looking = true

/-- The condition on a successful pop of `old` by `a`, which read `next` as its link: the
    link is still the present one, and the pop empties the list, or no permit is free, or
    another release is still going to look at the list. -/
def PopOk (s : State Agent) (a old : Agent) (next : Option Agent) : Prop :=
  s.next old = next ∧ (s.next old = none ∨ s.count = 0 ∨ ∃ b, b ≠ a ∧ (s.pc b).looking = true)

section Orderly

variable [DecidableEq Agent]

/-- The condition on runs: every push and every pop that takes effect is as above. -/
def Orderly : List (Event Agent) → State Agent → Act Agent → Prop
  | _, s, .go a _ spurious =>
    match s.pc a with
    | .pushCas old => s.waiters = old ∧ spurious = false → PushOk s
    | .releaseCas old next => s.waiters = some old ∧ spurious = false → PopOk s a old next
    | _ => True
  | _, _, _ => True

variable [Fintype Agent]

instance (s : State Agent) : Decidable (PushOk s) :=
  inferInstanceAs (Decidable (_ ∨ _))

instance (s : State Agent) (a old : Agent) (next : Option Agent) :
    Decidable (PopOk s a old next) :=
  inferInstanceAs (Decidable (_ ∧ _))

/-- The step of `Orderly` at `p`. -/
def decideOrderly (s : State Agent) (a : Agent) (spurious : Bool) (p : Pc Agent) :
    Decidable (match p with
      | .pushCas old => s.waiters = old ∧ spurious = false → PushOk s
      | .releaseCas old next => s.waiters = some old ∧ spurious = false → PopOk s a old next
      | _ => True) :=
  match p with
  | .pushCas _ | .releaseCas .. => inferInstanceAs (Decidable (_ ∧ _ → _))
  | .idle | .tryLoad _ | .tryCas .. | .awaitSuspend | .suspended | .releaseAdd | .releaseLoad
  | .releaseNext _ | .wake _ => isTrue trivial

instance (t : List (Event Agent)) (s : State Agent) (act : Act Agent) :
    Decidable (Orderly t s act) :=
  match act with
  | .go a _ spurious => decideOrderly s a spurious (s.pc a)
  | .acquire _ | .tryAcquire _ | .release _ => isTrue trivial

instance (s : State Agent) : Decidable (Quiescent s) :=
  inferInstanceAs (Decidable (∀ _, _ ∨ _))

end Orderly

/-! ## The invariant -/

/-- The list `l` tied to the suspended agents, the counter to the releases under way, and
    both to what was observed. -/
structure WakeInv [DecidableEq Agent] (l : List Agent) (t : List (Event Agent))
    (s : State Agent) : Prop where
  chain : Chain s.next s.waiters l
  listed : ∀ a ∈ l, s.pc a = .suspended
  popped : ∀ r w, s.pc r = .wake w → s.pc w = .suspended ∧ w ∉ l
  once : ∀ r r' w, s.pc r = .wake w → s.pc r' = .wake w → r = r'
  located : ∀ a, s.pc a = .suspended → a ∈ l ∨ ∃ r, s.pc r = .wake a
  covered : l ≠ [] → s.count ≠ 0 → ∃ b, (s.pc b).looking = true
  linked : ∀ a old, s.pc a = .pushCas old → s.next a = old
  resumed : ∀ a, resumes a t ≤ 1 ∧ (s.pc a = .suspended → resumes a t = 0)

theorem wakeInv_init [DecidableEq Agent] (N : Nat) : WakeInv [] [] (init N : State Agent) where
  chain := rfl
  listed _ h := nomatch h
  popped _ _ h := nomatch h
  once _ _ _ h := nomatch h
  located _ h := nomatch h
  covered h := (h rfl).elim
  linked _ _ h := nomatch h
  resumed _ := ⟨Nat.zero_le _, fun _ => rfl⟩

variable [DecidableEq Agent]

@[simp] theorem setPc_self (s : State Agent) (a : Agent) (p : Pc Agent) :
    (s.setPc a p).pc a = p := update_self ..

variable {a : Agent} {p : Pc Agent} {s s' : State Agent} {t : List (Event Agent)} {l : List Agent}

theorem setPc_of_ne (s : State Agent) {b : Agent} (p : Pc Agent) (h : b ≠ a) :
    (s.setPc a p).pc b = s.pc b := update_of_ne h ..

/-- An agent moves on between plain places, writing at most its own node; the counter and
    the permits may change.  What is left to show is that the list is still covered. -/
theorem wakeInv_move (hi : WakeInv l t s) (hold : (s.pc a).Plain) (hnew : p.Plain)
    (hpc : s'.pc = update s.pc a p) (hwait : s'.waiters = s.waiters)
    (hnext : ∀ b, b ≠ a → s'.next b = s.next b) (hlink : ∀ old, p = .pushCas old → s'.next a = old)
    (hcov : l ≠ [] → s'.count ≠ 0 → ∃ b, (s'.pc b).looking = true) : WakeInv l t s' := by
  have hsusp : s.pc a ≠ .suspended := fun h => by rw [h] at hold; exact hold
  -- the suspended agents and the pending resumptions are the same before and after
  have hiff : ∀ b, s'.pc b = .suspended ↔ s.pc b = .suspended := by
    rw [hpc]
    refine forall_update (P := fun b p => p = Pc.suspended ↔ s.pc b = .suspended) (fun _ => Iff.rfl)
      (iff_of_false (fun h => ?_) hsusp)
    rw [h] at hnew; exact hnew
  have hwake : ∀ r w, s'.pc r = .wake w ↔ s.pc r = .wake w := by
    rw [hpc]
    refine forall_update (P := fun r p => ∀ w, p = Pc.wake w ↔ s.pc r = .wake w)
      (fun _ _ => Iff.rfl) (fun w => iff_of_false (fun h => ?_) (fun h => ?_))
    · rw [h] at hnew; exact hnew
    · rw [h] at hold; exact hold
  refine ⟨?_, ?_, ?_, ?_, ?_, hcov, ?_, ?_⟩
  · rw [hwait]
    refine chain_congr (fun b hb => hnext b ?_) hi.chain
    intro hba
    exact hsusp (hba ▸ hi.listed b hb)
  · exact fun b hb => (hiff b).mpr (hi.listed b hb)
  · intro r w hr
    obtain ⟨hw, hl⟩ := hi.popped r w ((hwake r w).mp hr)
    exact ⟨(hiff w).mpr hw, hl⟩
  · exact fun r r' w hr hr' => hi.once r r' w ((hwake r w).mp hr) ((hwake r' w).mp hr')
  · intro b hb
    rcases hi.located b ((hiff b).mp hb) with hl | ⟨r, hr⟩
    · exact .inl hl
    · exact .inr ⟨r, (hwake r b).mpr hr⟩
  · rw [hpc]
    exact forall_update_of_ne (P := fun b p => ∀ old, p = Pc.pushCas old → s'.next b = old)
      (fun b hb old h => (hnext b hb).trans (hi.linked b old h)) hlink
  · exact fun b => ⟨(hi.resumed b).1, fun hb => (hi.resumed b).2 ((hiff b).mp hb)⟩

/-- A push that takes effect. -/
theorem wakeInv_push (hi : WakeInv l t s) (ha : s.pc a = .pushCas s.waiters) (hok : PushOk s) :
    WakeInv (a :: l) (.suspended a :: t) ({ s with waiters := some a }.setPc a .suspended) := by
  refine ⟨chain_push hi.chain (hi.linked a _ ha),
    forall_update_of_ne (P := fun b p => b ∈ a :: l → p = Pc.suspended)
      (fun b hb h => hi.listed b ((List.mem_cons.mp h).resolve_left hb)) (fun _ => rfl),
    fun r w hr => ?_,
    fun r r' w hr hr' => hi.once r r' w (of_update hr nofun).2 (of_update hr' nofun).2,
    fun b hb => ?_, fun _ hc => ?_, fun b old hb => hi.linked b old (of_update hb nofun).2,
    fun b => ?_⟩
  · obtain ⟨hw, hl⟩ := hi.popped r w (of_update hr nofun).2
    have hwa : w ≠ a := ne_of_states hw ha nofun
    exact ⟨(update_of_ne hwa ..).trans hw, fun hm => (List.mem_cons.mp hm).elim hwa hl⟩
  · rcases update_cases id hb with ⟨rfl, -⟩ | ⟨-, hb⟩
    · exact .inl List.mem_cons_self
    · rcases hi.located b hb with hl | ⟨r, hr⟩
      · exact .inl (List.mem_cons_of_mem _ hl)
      · exact .inr ⟨r, update_keep hr ha nofun⟩
  · obtain ⟨b, hb⟩ := hok.resolve_left hc
    have hba : b ≠ a := fun h => by rw [h, ha] at hb; cases hb
    exact ⟨b, by rw [setPc_of_ne _ _ hba]; exact hb⟩
  · rw [resumes]
    by_cases hba : a = b
    · rw [if_pos hba]; exact ⟨Nat.zero_le _, fun _ => rfl⟩
    · rw [if_neg hba, setPc_of_ne _ _ (Ne.symm hba)]; exact hi.resumed b

/-- A pop that takes effect. -/
theorem wakeInv_pop (hi : WakeInv l t s) {old : Agent} {next : Option Agent}
    (ha : s.pc a = .releaseCas old next) (hw : s.waiters = some old) (hok : PopOk s a old next) :
    ∃ l', WakeInv l' t ({ s with waiters := next }.setPc a (.wake old)) := by
  have hch := hi.chain
  rw [hw] at hch
  obtain ⟨l', rfl, hl'⟩ := chain_some hch
  obtain ⟨hnx, hcov⟩ := hok
  have holdS : s.pc old = .suspended := hi.listed old List.mem_cons_self
  have hnd : old ∉ l' := (List.nodup_cons.mp (chain_nodup hi.chain)).1
  -- nobody else was about to resume `old`, which was still listed
  have hfresh : ∀ r, s.pc r ≠ .wake old := fun r hr =>
    (hi.popped r old hr).2 List.mem_cons_self
  refine ⟨l', hnx ▸ hl',
    fun b hb => update_keep (hi.listed b (List.mem_cons_of_mem _ hb)) ha nofun,
    fun r w hr => ?_, fun r r' w hr hr' => ?_, fun b hb => ?_, fun hl hc => ?_,
    fun b old' hb => hi.linked b old' (of_update hb nofun).2,
    forall_update (P := fun b p => resumes b t ≤ 1 ∧ (p = Pc.suspended → resumes b t = 0))
      hi.resumed ⟨(hi.resumed a).1, nofun⟩⟩
  · rcases update_cases id hr with ⟨-, hr⟩ | ⟨-, hr⟩
    · obtain rfl := Pc.wake.inj hr
      exact ⟨update_keep holdS ha nofun, hnd⟩
    · obtain ⟨hwS, hwl⟩ := hi.popped r w hr
      exact ⟨update_keep hwS ha nofun, fun hm => hwl (List.mem_cons_of_mem _ hm)⟩
  · rcases update_cases id hr with ⟨hra, hr⟩ | ⟨-, hr⟩ <;>
      rcases update_cases id hr' with ⟨hra', hr'⟩ | ⟨-, hr'⟩
    · exact hra.trans hra'.symm
    · exact absurd (hr'.trans hr.symm) (hfresh r')
    · exact absurd (hr.trans hr'.symm) (hfresh r)
    · exact hi.once r r' w hr hr'
  · by_cases hbo : b = old
    · exact .inr ⟨a, by rw [setPc_self, hbo]⟩
    · rcases hi.located b (of_update hb nofun).2 with hl | ⟨r, hr⟩
      · exact .inl ((List.mem_cons.mp hl).resolve_left hbo)
      · exact .inr ⟨r, update_keep hr ha nofun⟩
  · rcases hcov with hnone | hzero | ⟨b, hba, hb⟩
    · rw [hnone] at hl'
      exact (hl (chain_none hl')).elim
    · exact (hc hzero).elim
    · exact ⟨b, by rw [setPc_of_ne _ _ hba]; exact hb⟩

/-- Resuming the popped waiter. -/
theorem wakeInv_wake (hi : WakeInv l t s) {w : Agent} (ha : s.pc a = .wake w) (how : Resumption) :
    s.pc w = .suspended ∧ WakeInv l (.resumed w how true :: t) ((s.setPc a .idle).resume w) := by
  obtain ⟨hwS, hwl⟩ := hi.popped a w ha
  refine ⟨hwS, ?_⟩
  have hwa : w ≠ a := ne_of_states hwS ha nofun
  have hw1 : (s.setPc a .idle).pc w = .suspended := (setPc_of_ne _ _ hwa).trans hwS
  rw [resume_of_suspended hw1]
  -- who is neither idle nor `w` afterwards was there before
  have hback : ∀ {b p}, update (update s.pc a .idle) w .idle b = p → .idle ≠ p →
      b ≠ w ∧ b ≠ a ∧ s.pc b = p := fun h hne => by
    obtain ⟨hbw, h⟩ := of_update h hne
    exact ⟨hbw, of_update h hne⟩
  have hstay : ∀ {b}, b ≠ w → b ≠ a → update (update s.pc a .idle) w .idle b = s.pc b :=
    fun hbw hba => by rw [update_of_ne hbw, update_of_ne hba]
  have hne : ∀ {b}, s.pc b = .suspended → b ≠ a := fun hb => ne_of_states hb ha nofun
  refine ⟨hi.chain, fun b hb => ?_, fun r v hr => ?_, fun r r' v hr hr' =>
    hi.once r r' v (hback hr nofun).2.2 (hback hr' nofun).2.2, fun b hb => ?_, fun hl hc => ?_,
    fun b old hb => hi.linked b old (hback hb nofun).2.2, fun b => ?_⟩
  · have hbS := hi.listed b hb
    exact (hstay (fun h => hwl (h ▸ hb)) (hne hbS)).trans hbS
  · obtain ⟨-, hra, hr⟩ := hback hr nofun
    obtain ⟨hv, hl⟩ := hi.popped r v hr
    exact ⟨(hstay (fun h => hra (hi.once r a w (h ▸ hr) ha)) (hne hv)).trans hv, hl⟩
  · obtain ⟨hbw, -, hb⟩ := hback hb nofun
    rcases hi.located b hb with hl | ⟨r, hr⟩
    · exact .inl hl
    · have hra : r ≠ a := fun h => hbw (Pc.wake.inj (hr.symm.trans (h ▸ ha)))
      exact .inr ⟨r, (hstay (ne_of_states hr hwS nofun) hra).trans hr⟩
  · obtain ⟨b, hb⟩ := hi.covered hl hc
    have hba : b ≠ a := fun h => by rw [h, ha] at hb; cases hb
    have hbw : b ≠ w := fun h => by rw [h, hwS] at hb; cases hb
    exact ⟨b, (congrArg Pc.looking (hstay hbw hba)).trans hb⟩
  · rw [resumes]
    by_cases hbw : w = b
    · subst hbw
      rw [if_pos rfl, (hi.resumed w).2 hwS]
      exact ⟨Nat.le_refl _, fun h => absurd rfl (hback h nofun).1⟩
    · rw [if_neg hbw]
      exact ⟨(hi.resumed b).1, fun h => (hi.resumed b).2 (hback h nofun).2.2⟩

/-! ## Every step keeps it -/

/-- The step lemma: orderly, if the step is a push or a pop. -/
theorem wakeInv_step (hi : WakeInv l t s) {act : Act Agent} {o : Option (Event Agent)}
    (hgood : Orderly t s act) (hm : Move s act o s') : ∃ l', WakeInv l' (note t o) s' := by
  cases hm with
  | @move act a p next node hold hnew hnext harr hlooks =>
    refine ⟨l, wakeInv_move hi hold hnew rfl rfl hnext ?_ fun hl hc => ?_⟩
    · rintro old rfl
      exact harr
    · obtain ⟨b, hb⟩ := hi.covered hl hc
      by_cases hba : b = a
      · subst hba
        rcases hlooks hb with hp | hnone
        · exact ⟨b, by rw [setPc_self]; exact hp⟩
        · have hch := hi.chain
          rw [hnone] at hch
          exact (hl (chain_none hch)).elim
      · exact ⟨b, by rw [setPc_of_ne _ _ hba]; exact hb⟩
  | @take _ a k ha =>
    refine ⟨l, wakeInv_move (p := .idle) hi (by rw [ha]; trivial) trivial rfl rfl
      (fun _ _ => rfl) (by rintro _ ⟨⟩) fun hl hc => ?_⟩
    -- taking a permit makes none appear
    have hcount : s.count - 1 ≠ 0 := hc
    obtain ⟨b, hb⟩ := hi.covered hl (by omega)
    have hba : b ≠ a := fun h => by rw [h, ha] at hb; cases hb
    exact ⟨b, by rw [setPc_of_ne _ _ hba]; exact hb⟩
  | @push a n ha =>
    rw [Orderly, ha] at hgood
    exact ⟨a :: l, wakeInv_push hi ha (hgood ⟨rfl, rfl⟩)⟩
  | @add _ a ha =>
    -- the release that adds the permit is the one that will look at the list
    exact ⟨l, wakeInv_move (p := .releaseLoad) hi (by rw [ha]; trivial) trivial rfl rfl
      (fun _ _ => rfl) (by rintro _ ⟨⟩) (fun _ _ => ⟨a, by rw [setPc_self]; rfl⟩)⟩
  | pop ha htop =>
    rw [Orderly, ha] at hgood
    exact wakeInv_pop hi ha htop (hgood ⟨htop, rfl⟩)
  | @wake _ a w ha =>
    obtain ⟨hw, hi'⟩ := wakeInv_wake hi ha (s.node w).resumption
    rw [decide_eq_true hw]
    exact ⟨l, hi'⟩

theorem wakeInv_exec {N : Nat} (h : Exec machine Orderly (init N) t s) : ∃ l, WakeInv l t s :=
  h.invariant (fun t s => ∃ l, WakeInv l t s) ⟨[], wakeInv_init N⟩
    (fun _ _ _ _ ⟨_, hi⟩ hgood hs => wakeInv_step hi hgood (step_moves hs))

/-- **No lost and no doubled wake-up.**  In every orderly run, whatever the initial count and
    the number of agents: when no call is in progress nobody is suspended while a permit is
    free, and at every moment each suspension has been resumed at most once. -/
theorem no_lost_wakeup_of_orderly {N : Nat} {t : List (Event Agent)} {s : State Agent}
    (h : Exec machine Orderly (init N) t s) :
    (Quiescent s → (∃ a, s.pc a = .suspended) → s.available = 0) ∧ ∀ a, resumes a t ≤ 1 := by
  obtain ⟨l, hi⟩ := wakeInv_exec h
  refine ⟨?_, fun a => (hi.resumed a).1⟩
  rintro hq ⟨a, ha⟩
  by_contra hc
  rcases hi.located a ha with hl | ⟨r, hr⟩
  · obtain ⟨b, hb⟩ := hi.covered (List.ne_nil_of_mem hl) hc
    rcases hq b with h | h <;> rw [h] at hb <;> cases hb
  · rcases hq r with h | h <;> rw [h] at hr <;> cases hr

/-- An orderly run of a semaphore with one permit: agent 1 waits for agent 0 and is woken, 2
    takes the permit that the release left in the counter, and 0 then waits. -/
theorem no_lost_wakeup_three : ∃ (t : List (Event (Fin 3))) (s : State (Fin 3)),
      Exec machine Orderly (init 1) t s ∧ Quiescent s ∧ s.pc 0 = .suspended ∧
        s.available = 0 ∧ resumes 1 t ≤ 1 := by
  have hrun : Exec machine Orderly (init 1) _ _ :=
    exec_run (.acquire (0 : Fin 3) :: ops 0 2 ++ .acquire 1 :: ops 1 4
      ++ .release 0 :: ops 0 5 ++ .acquire 2 :: ops 2 2 ++ .acquire 0 :: ops 0 4) (by decide)
  obtain ⟨hlost, honce⟩ := no_lost_wakeup_of_orderly hrun
  exact ⟨_, _, hrun, by decide, by decide, hlost (by decide) ⟨0, by decide⟩, honce 1⟩

/-! ## The three runs that are not orderly -/

/-- **A release wakes one waiter and leaves the others next to a free permit.**  Agent 0 holds
    the one permit, 1 and 2 wait, and 0 releases: the count becomes 1, agent 2 is woken, and
    agent 1 stays suspended.  No two calls overlap. -/
theorem release_leaves_waiter : ∃ (t : List (Event (Fin 3))) (s : State (Fin 3)),
      Exec machine HolderReleases (init 1) t s ∧ Quiescent s ∧ s.pc 1 = .suspended ∧
        s.available = 1 := by
  have hrun : Exec machine HolderReleases (init 1) _ _ :=
    exec_run (.acquire (0 : Fin 3) :: ops 0 2 ++ .acquire 1 :: ops 1 4
      ++ .acquire 2 :: ops 2 4 ++ .release 0 :: ops 0 5) (by decide)
  exact ⟨_, _, hrun, by decide⟩

/-- **A release between the check and the push is missed.**  Agent 1 has found no permit and
    is about to push its node when 0 releases and finds nobody to wake. -/
theorem release_between_check_and_push : ∃ (t : List (Event (Fin 2))) (s : State (Fin 2)),
      Exec machine HolderReleases (init 1) t s ∧ Quiescent s ∧ s.pc 1 = .suspended ∧
        s.available = 1 ∧ woken t = 0 := by
  have hrun : Exec machine HolderReleases (init 1) _ _ :=
    exec_run (.acquire (0 : Fin 2) :: ops 0 2 ++ .acquire 1 :: ops 1 3
      ++ .release 0 :: ops 0 2 ++ ops 1 1) (by decide)
  exact ⟨_, _, hrun, by decide⟩

/-- **A stale link resumes a suspension twice.**  Agents 0 and 1 hold the two permits, and 3
    and then 2 wait.  Agent 0 releases and is held up after reading that 3 follows 2; 1 wakes
    2, and 2 wakes 3.  Agent 2 takes what permits there are and waits once more, at the same
    address; the compare-exchange of 0 succeeds and puts 3 back on the list, and the next
    release resumes 3 a second time for its one suspension. -/
theorem waiter_resumed_twice : ∃ (t : List (Event (Fin 4))) (s : State (Fin 4)),
      Exec machine HolderReleases (init 2) t s ∧ Quiescent s ∧ resumes 3 t = 2 := by
  have hrun : Exec machine HolderReleases (init 2) _ _ :=
    exec_run (.acquire (0 : Fin 4) :: ops 0 2 ++ .acquire 1 :: ops 1 2
      ++ .acquire 3 :: ops 3 4 ++ .acquire 2 :: ops 2 4
      ++ .release 0 :: ops 0 3 ++ .release 1 :: ops 1 5 ++ .release 2 :: ops 2 5
      ++ .tryAcquire 2 :: ops 2 2 ++ .tryAcquire 2 :: ops 2 2 ++ .tryAcquire 2 :: ops 2 2
      ++ .acquire 2 :: ops 2 4 ++ ops 0 2 ++ .release 2 :: ops 2 5) (by decide)
  exact ⟨_, _, hrun, by decide⟩

end AffinitySemaphore
