import Mathlib.Data.Fintype.Basic
import StorageRuntime.AffinityMutexProofs

/-!
# AffinityMutex — no waiter is stranded or resumed twice

`unlock()` reads the link of the top waiter before its compare-exchange.  When two
coroutines hold the lock, which a hand-off to the last waiter brings about, their
`unlock()` calls overlap: the top waiter can be resumed, lock again with the same node and
come to the top again with another link, and the first compare-exchange takes effect.

* **`waiter_stranded_and_doubled`**: a run in which this happens.  The waiter behind the
  node is cut off the stack and never resumed, and a coroutine that holds the lock is put
  on the stack and resumed a second time.
* **`waiters_resumed_once`**: in every run in which no coroutine suspends again while an
  `unlock()` that has read its node is still before its compare-exchange — so whenever
  `unlock()` calls do not overlap — each suspension is ended by one resume or is still on
  the stack, and while nobody holds the lock the stack is empty.  Holders may be several,
  and the last waiter may be handed the lock.
-/

namespace AffinityMutex

open Function Interleaving IntrusiveChain ThreadAffinity

variable {Coro : Type}

/-! ## Suspensions and resumes -/

/-- A suspension of `c` has not been ended by a resume. -/
def Waiting (c : Coro) : List (WaitEvent Coro) → Prop
  | [] => False
  | .suspended d :: t => d = c ∨ Waiting c t
  | .resumed d :: t => d ≠ c ∧ Waiting c t

/-- Each resume ends a suspension, which no other has ended. -/
def ResumedOnce : List (WaitEvent Coro) → Prop
  | [] => True
  | .suspended c :: t => ¬ Waiting c t ∧ ResumedOnce t
  | .resumed c :: t => Waiting c t ∧ ResumedOnce t

section

variable [DecidableEq Coro]

instance decidableWaiting (c : Coro) : (t : List (WaitEvent Coro)) → Decidable (Waiting c t)
  | [] => inferInstanceAs (Decidable False)
  | .suspended _ :: t => @instDecidableOr _ _ _ (decidableWaiting c t)
  | .resumed _ :: t => @instDecidableAnd _ _ _ (decidableWaiting c t)

instance decidableResumedOnce : (t : List (WaitEvent Coro)) → Decidable (ResumedOnce t)
  | [] => inferInstanceAs (Decidable True)
  | .suspended _ :: t => @instDecidableAnd _ _ _ (decidableResumedOnce t)
  | .resumed _ :: t => @instDecidableAnd _ _ _ (decidableResumedOnce t)

end

/-- The trace tied to the places of the coroutines. -/
structure Waits (t : List (WaitEvent Coro)) (s : State Coro) : Prop where
  held : s.word.tag = true → ∃ c, (s.pc c).Holds
  handed : ∀ c, s.pc c = .handed → ∃ u, s.pc u = .wake c
  waiting : ∀ c, Waiting c t ↔ s.pc c = .suspended ∨ s.pc c = .handed
  once : ResumedOnce t

theorem waits_init : Waits [] (init : State Coro) where
  held := by rintro ⟨⟩
  handed := by rintro c ⟨⟩
  waiting _ := iff_of_false id (by rintro (⟨⟨⟩⟩ | ⟨⟨⟩⟩))
  once := trivial

section Machine

variable [DecidableEq Coro]

/-- The mutex as an observer of the suspensions and resumes sees it. -/
def waiterMachine : Machine (State Coro) (Act Coro) (WaitEvent Coro) where
  step := step
  event := waits

/-- The condition on runs: no coroutine suspends while an `unlock()` that has read its node is
    before its compare-exchange. -/
def NoReuse : List (WaitEvent Coro) → State Coro → Act Coro → Prop :=
  fun _ s a => ∀ c, waits s a = some (.suspended c) → ∀ u, ¬ (s.pc u).Reads c

instance [Fintype Coro] (t : List (WaitEvent Coro)) (s : State Coro) (a : Act Coro) :
    Decidable (NoReuse t s a) :=
  inferInstanceAs (Decidable (∀ c, waits s a = some (.suspended c) → ∀ u, ¬ (s.pc u).Reads c))

end Machine

/-! ## The moves keep them tied -/

variable [DecidableEq Coro] {l : List Coro} {t : List (WaitEvent Coro)} {s s' : State Coro}
  {c w : Coro} {a : Act Coro} {o : Option (WaitEvent Coro)}

/-- A coroutine that is not waiting and does not begin to wait. -/
theorem Waits.plain (h : Waits t s) {p : Pc Coro} (hpc : s'.pc = update s.pc c p)
    (hold : (s.pc c).Plain) (hnew : p.Plain) (hheld : s'.word.tag = true → ∃ d, (s'.pc d).Holds) :
    Waits t s' := by
  have hsame : ∀ d q, ¬ q.Plain → (s'.pc d = q ↔ s.pc d = q) := by
    intro d q hq
    rw [hpc]
    exact setPc_eq_iff hold hnew hq
  refine ⟨hheld, fun d hd => ?_, fun d => ?_, h.once⟩
  · obtain ⟨u, hu⟩ := h.handed d ((hsame d _ id).mp hd)
    exact ⟨u, (hsame u _ id).mpr hu⟩
  · exact (h.waiting d).trans (or_congr (hsame d _ id) (hsame d _ id)).symm

/-- The holders are the same when a coroutine keeps what it holds. -/
theorem exists_holds {p : Pc Coro} (hh : p.Holds ↔ (s.pc c).Holds)
    (h : ∃ d, (s.pc d).Holds) : ∃ d, ((s.setPc c p).pc d).Holds := by
  obtain ⟨d, hd⟩ := h
  exact ⟨d, forall_update (P := fun d p => (s.pc d).Holds → Pc.Holds p) (fun _ h => h) hh.mpr d hd⟩

theorem Waits.push (h : Waits t s) (hstack : Stack l s) (hc : s.pc c = .pushCas s.word) :
    Waits (.suspended c :: t) ({ s with word := lockedWord (some c) }.setPc c .suspended) := by
  have hm : Suspends s.pc c (update s.pc c .suspended) := suspends_setPc (by rw [hc]; trivial)
  refine ⟨fun _ => ?_, fun d hd => ?_, fun d => ?_, ?_, h.once⟩
  · -- the word is not 0, so that somebody holds the lock
    have htag : s.word.tag = true := by
      by_contra hfalse
      have htag := Bool.eq_false_iff.mpr hfalse
      exact (hstack.pushing hc).2 (Tagged.eq_zero (hstack.zero htag) htag)
    obtain ⟨d, hd⟩ := h.held htag
    refine ⟨d, ?_⟩
    rwa [setPc_of_ne]
    rintro rfl
    rw [hc] at hd
    exact hd
  · obtain ⟨u, hu⟩ := h.handed d ((hm.handed d).mp hd)
    exact ⟨u, (hm.wake u d).mpr hu⟩
  · rw [Waiting, h.waiting d, ← or_assoc, eq_comm]
    exact or_congr (hm.suspended d).symm (hm.handed d).symm
  · rw [h.waiting c, hc]
    rintro (⟨⟨⟩⟩ | ⟨⟨⟩⟩)

theorem Waits.handOff (h : Waits t s) (hc : (s.pc c).Plain) (hw : s.pc w = .suspended)
    (word : Tagged Coro) :
    Waits t (({ s with word := word }.setPc c (.wake w)).setPc w .handed) := by
  have hm : HandsOver s.pc c w (update (update s.pc c (.wake w)) w .handed) := handsOver_setPc hc hw
  refine ⟨fun _ => ⟨w, ?_⟩, fun d hd => ?_, fun d => ?_, h.once⟩
  · rw [setPc_self]
    trivial
  · rcases (hm.handed d).mp hd with rfl | hd
    · exact ⟨c, (hm.wake c d).mpr (.inl ⟨rfl, rfl⟩)⟩
    · obtain ⟨u, hu⟩ := h.handed d hd
      exact ⟨u, (hm.wake u d).mpr (.inr hu)⟩
  · refine (h.waiting d).trans (Iff.trans ?_ (or_congr (hm.suspended d) (hm.handed d)).symm)
    by_cases hdw : d = w
    · subst hdw
      exact iff_of_true (.inl hw) (.inr (.inl rfl))
    · simp only [hdw, ne_eq, not_false_eq_true, true_and, false_or]

theorem Waits.wake (h : Waits t s) (hc : s.pc c = .wake w) (hw : s.pc w = .handed) :
    Waits (.resumed w :: t) ((s.setPc c .idle).setPc w .holding) := by
  have hm : Resumes s.pc c w (update (update s.pc c .idle) w .holding) := resumes_setPc hc hw
  refine ⟨fun _ => ⟨w, ?_⟩, fun d hd => ?_, fun d => ?_, ?_, h.once⟩
  · rw [setPc_self]
    trivial
  · obtain ⟨hdw, hd⟩ := (hm.handed d).mp hd
    obtain ⟨u, hu⟩ := h.handed d hd
    refine ⟨u, (hm.wake u d).mpr ⟨?_, hu⟩⟩
    rintro rfl
    rw [hc] at hu
    exact hdw (Pc.wake.inj hu).symm
  · rw [Waiting, h.waiting d]
    refine Iff.trans ?_ (or_congr (hm.suspended d) (hm.handed d)).symm
    by_cases hdw : d = w
    · subst hdw
      simp [hw]
    · simp [hdw, Ne.symm hdw]
  · rw [h.waiting w]
    exact .inr hw

theorem Waits.step (h : Waits t s) (hstack : Stack l s) (hm : Move s a o s') :
    Waits (note t o) s' := by
  cases hm with
  | move c p next node hold hnew hh hnext harr =>
    exact h.plain rfl hold hnew fun htag => exists_holds hh (h.held htag)
  | @acquire _ c hc hw => exact h.plain rfl hc trivial fun _ => ⟨c, by rw [setPc_self]; trivial⟩
  | push hc => exact h.push hstack hc
  | release hc hp =>
    refine h.plain rfl (by rw [hc]; trivial) trivial fun htag => ?_
    rw [hstack.link hc, unlockWord, hp] at htag
    cases htag
  | handOff hc hp => exact h.handOff (by rw [hc]; trivial) (hstack.head_suspended hp) _
  | wake hc => exact h.wake hc (hstack.waking hc).1

theorem waits_of_exec (h : Exec waiterMachine NoReuse init t s) :
    (∃ l, Stack l s) ∧ Waits t s := by
  refine h.invariant (fun t s => (∃ l, Stack l s) ∧ Waits t s) ⟨⟨[], stack_init⟩, waits_init⟩ ?_
  rintro t s a s' ⟨⟨l, hstack⟩, hwaits⟩ hgood hs
  exact ⟨hstack.step hgood (step_moves hs), hwaits.step hstack (step_moves hs)⟩

/-- **No waiter is stranded or resumed twice, without reuse under `unlock()`.**  In every run
    in which no coroutine suspends while an `unlock()` that has read its node is before its
    compare-exchange: each resume ends one suspension; a suspension that no resume has ended
    is on the stack or has been popped by an `unlock()` that is about to resume it, and
    nothing else is on the stack; and while nobody holds the lock the stack is empty. -/
theorem waiters_resumed_once (h : Exec waiterMachine NoReuse init t s) :
    ResumedOnce t ∧ (∃ l, Chain s.next s.word.ptr l ∧
      (∀ c, Waiting c t ↔ c ∈ l ∨ ∃ u, s.pc u = .wake c) ∧
      ∀ c ∈ l, ¬ ∃ u, s.pc u = .wake c) ∧
    ((∀ c, ¬ (s.pc c).Holds) → s.word.ptr = none) := by
  obtain ⟨⟨l, hstack⟩, hi⟩ := waits_of_exec h
  have hhanded : ∀ c, s.pc c = .handed ↔ ∃ u, s.pc u = .wake c := by
    intro c
    constructor
    · exact hi.handed c
    · rintro ⟨u, hu⟩
      exact (hstack.waking hu).1
  refine ⟨hi.once, ⟨l, hstack.chain, ?_, ?_⟩, ?_⟩
  · intro c
    rw [hi.waiting c, hstack.mem c, hhanded c]
  · intro c hc
    rw [← hhanded c, (hstack.mem c).mp hc]
    rintro ⟨⟩
  · intro hfree
    refine hstack.zero (Bool.eq_false_iff.mpr fun htag => ?_)
    obtain ⟨c, hc⟩ := hi.held htag
    exact hfree c hc

/-- The schedule in which `c` calls `unlock()` and reads the link of the top waiter. -/
def readTop (c : Coro) : List (Act Coro) :=
  [.unlock c, .go c ⟨0, .null⟩ false, .go c ⟨0, .null⟩ false]

/-- The schedule in which `c` goes on to its compare-exchange and, when it takes effect, to
    the resume. -/
def exchange (c : Coro) : List (Act Coro) := [.go c ⟨0, .null⟩ false, .go c ⟨0, .null⟩ false]

/-- Coroutines 1 and 2 hold the lock and their `unlock()` calls overlap; 3 and 4 wait.  2 pops
    4, so that the compare-exchange of 1 fails; 1 tries again and pops 3, the last one. -/
theorem waiters_resumed_once_overlapping : ∃ (t : List (WaitEvent (Fin 5))) (s : State (Fin 5)),
      Exec waiterMachine NoReuse init t s ∧ s.pc 3 = .holding ∧ s.pc 4 = .holding ∧
      ResumedOnce t ∧ (∃ l, Chain s.next s.word.ptr l ∧
        (∀ c, Waiting c t ↔ c ∈ l ∨ ∃ u, s.pc u = .wake c) ∧
        ∀ c ∈ l, ¬ ∃ u, s.pc u = .wake c) ∧
      ((∀ c, ¬ (s.pc c).Holds) → s.word.ptr = none) := by
  have hexec : Exec waiterMachine NoReuse (init : State (Fin 5)) _ _ :=
    exec_run (take 0 ++ enqueue 1 ++ handOver 0 ++ take 2 ++ enqueue 3 ++ enqueue 4 ++
      readTop 1 ++ handOver 2 ++ exchange 1 ++ exchange 1)
  exact ⟨_, _, hexec, by decide +kernel, by decide +kernel, waiters_resumed_once hexec⟩

/-- **A waiter is stranded and a holder resumed again.**  Coroutines 1 and 2 hold the lock; 3
    and 4 wait, 4 on top.  1 reads the link of 4, which is 3.  2 hands the lock to 4 and 4 to 3;
    0 takes the free lock, and 2 and 4 suspend again, 4 on top of 2.  Now the compare-exchange
    of 1 takes effect: it puts 3 on the stack, which holds the lock, and cuts off 2.  The next
    `unlock()` resumes 3 a second time; 2 is suspended, the stack is empty and nobody is about
    to resume it. -/
theorem waiter_stranded_and_doubled : ∃ (t : List (WaitEvent (Fin 5))) (s : State (Fin 5)),
      Exec waiterMachine Always init t s ∧
      t.count (.suspended 3) = 1 ∧ t.count (.resumed 3) = 2 ∧ ¬ ResumedOnce t ∧
      s.pc 2 = .suspended ∧ Waiting 2 t ∧ s.word.ptr = none ∧ ∀ u, s.pc u ≠ .wake 2 := by
  have hexec : Exec waiterMachine Always (init : State (Fin 5)) _ _ :=
    exec_run (take 0 ++ enqueue 1 ++ handOver 0 ++ take 2 ++ enqueue 3 ++ enqueue 4 ++
      readTop 1 ++ handOver 2 ++ handOver 4 ++ take 0 ++ enqueue 2 ++ enqueue 4 ++ exchange 1 ++
      handOver 0)
  exact ⟨_, _, hexec, by decide +kernel⟩

end AffinityMutex
