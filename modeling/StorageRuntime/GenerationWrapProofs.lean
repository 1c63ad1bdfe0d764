import StorageRuntime.StrandedWorkProofs

/-!
# WorkStealingExecutor — when a sleeping worker's generation comes round

A worker that waits remembers the generation it read and goes on when the
counter has another value.  `park_generation_` has 64 bits, so after `2 ^ 64`
notifications it has the same value again.

**`asleep_after_full_round`**: a worker that was woken and does not get to run
before the last of them tests the old value, finds it unchanged and sleeps on
next to the work that all of them announced.
-/

namespace WorkStealing

open Function Interleaving AdaptiveIdle WordArithmetic

/-- One worker that was woken from its wait for generation 0 to change, and has not run since;
    no call is in progress. -/
def dozing (generation : Nat) (entry : List Nat) (eventFd : Nat) : State 1 Unit Nat where
  running := fun _ => true
  thread := fun _ => .idle (.parkRelock 0)
  localDeque := fun _ => []
  yieldQueue := fun _ => []
  globalEntry := entry
  park := fun _ => ⟨.park, true, generation, eventFd, none⟩
  call := fun _ => .none

theorem eq_dozing {s : State 1 Unit Nat} {generation eventFd : Nat}
    (hrunning : s.running 0 = true) (hthread : s.thread 0 = .idle (.parkRelock 0))
    (hlocal : s.localDeque 0 = []) (hyield : s.yieldQueue 0 = [])
    (hpark : s.park 0 = ⟨.park, true, generation, eventFd, none⟩)
    (hworker : s.call (.worker 0) = .none) (hexternal : s.call (.external ()) = .none) :
    s = dozing generation s.globalEntry eventFd := by
  have hzero : ∀ w : Fin 1, w = 0 := fun w => Subsingleton.elim w 0
  refine State.ext (funext fun w => ?_) (funext fun w => ?_) (funext fun w => ?_)
    (funext fun w => ?_) rfl (funext fun w => ?_) (funext fun a => ?_)
  · rw [hzero w, hrunning]
    rfl
  · rw [hzero w, hthread]
    rfl
  · rw [hzero w, hlocal]
    rfl
  · rw [hzero w, hyield]
    rfl
  · rw [hzero w, hpark]
    rfl
  · cases a with
    | worker w => rw [hzero w, hworker]; rfl
    | external e => exact hexternal

/-- A whole `add` of the external thread. -/
def submission : List (Act 1 Unit Nat) :=
  .add (.external ()) 7 :: List.replicate 8 (.goCall (.external ()) true 0)

/-- A submission increments the generation and leaves the worker as it is; the ring takes the
    item or is full. -/
theorem run_submission (t : List (Event 1 Unit)) (generation : Nat) (entry : List Nat)
    (eventFd : Nat) :
    ∃ s fd, run (machine soloConfig) NoStop submission t (dozing generation entry eventFd) =
        some (.raised 0 :: t, s) ∧
      s = dozing (wadd generation 1) (push true globalCapacity entry 7) fd :=
  ⟨_, _, rfl, eq_dozing rfl rfl rfl rfl rfl rfl rfl⟩

theorem push_ne_nil {room : Bool} {capacity : Nat} {q : List T} {item : T} (hq : q ≠ []) :
    push room capacity q item ≠ [] := by
  rw [push]
  split
  · exact List.append_ne_nil_of_left_ne_nil hq _
  · exact hq

/-- The worker falls asleep and the first submission wakes it. -/
theorem run_first :
    (run (machine soloConfig) NoStop (fallAsleep ++ submission) [] (init 1 Unit Nat)).isSome := by
  decide +kernel

/-- Any number of submissions later. -/
theorem exec_submissions (m : Nat) :
    ∃ (t : List (Event 1 Unit)) (entry : List Nat) (eventFd : Nat), entry ≠ [] ∧
      Exec (machine soloConfig) NoStop (init 1 Unit Nat) t
        (dozing ((1 + m) % wordSize) entry eventFd) := by
  induction m with
  | zero =>
    have hend : (Option.get _ run_first).2 = dozing 1 _ 1 :=
      eq_dozing (by decide +kernel) (by decide +kernel) (by decide +kernel)
        (by decide +kernel) (by decide +kernel) (by decide +kernel) (by decide +kernel)
    exact ⟨_, _, 1, by decide +kernel, hend ▸ exec_run _ run_first⟩
  | succ m ih =>
    obtain ⟨t, entry, fd, hne, hrun⟩ := ih
    obtain ⟨s, fd', hsub, rfl⟩ := run_submission t ((1 + m) % wordSize) entry fd
    have hnext := Exec.extend submission hrun hsub
    rw [wadd, Nat.mod_add_mod] at hnext
    exact ⟨_, _, fd', push_ne_nil hne, hnext⟩

/-- **A full round is not noticed.**  After `2 ^ 64` submissions the worker gets to run: the
    generation is the one it waits to change, and it sleeps on next to the work in the global
    ring, with no call in progress. -/
theorem asleep_after_full_round : ∃ (t : List (Event 1 Unit)) (s : State 1 Unit Nat),
      Exec (machine soloConfig) NoStop (init 1 Unit Nat) t s ∧ (∀ a, s.call a = .none) ∧
      ¬ NothingStranded s := by
  obtain ⟨t, entry, fd, hne, hrun⟩ := exec_submissions (wordSize - 1)
  have hsleeps := Exec.extend [.goWorker 0, .goWorker 0] hrun rfl
  refine ⟨_, _, hsleeps, fun _ => rfl, ?_⟩
  rintro ⟨-, hglobal⟩
  have hcall := hglobal (fun w => ⟨0, by rw [Subsingleton.elim w 0]; rfl⟩) hne
  rcases hcall with ⟨a, ha⟩ | ⟨v, a, p, ha⟩ <;> cases ha

end WorkStealing
