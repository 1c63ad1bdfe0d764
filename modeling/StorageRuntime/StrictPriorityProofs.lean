import StorageRuntime.CyclicSearchProofs
import StorageRuntime.SchedulerProofs

/-!
# StrictPriorityPolicy — which queue a worker serves next

`runtime/strict_priority_policy.cc`: the priorities are tried from P0 to P3, and
within a priority the queues in turn, beginning behind the one that was served
last.

**`strictPriority_spec`**: the policy lets the worker idle exactly if every queue
is shown as empty; otherwise it chooses a queue that is not, and a batch of at
most `max_batch` of what that queue is shown to hold.
-/

namespace Scheduler

/-- The state of the policy; `lastPrio` is `none` for `SIZE_MAX`. -/
structure StrictPriority where
  lastPrio : Option Priority
  lastIdx : Nat
deriving DecidableEq

namespace StrictPriority

/-- The queue has this priority and is not empty. -/
def wants (prio : Priority) (snap : QueueSnapshot) : Bool :=
  snap.priority = prio && 0 < snap.approxCount

/-- `for (prio = 0; prio <= 3; ++prio)`. -/
def choose (maxBatch : Nat) (snaps : List QueueSnapshot) :
    List Priority → StrictPriority → ScheduleDecision × StrictPriority
  | [], _ => (⟨0, 0, true⟩, ⟨none, 0⟩)
  | prio :: prios, st =>
    if snaps.countP (wants prio) = 0 then choose maxBatch snaps prios st
    else
      let last := if st.lastPrio = some prio then st.lastIdx else 0
      match CyclicSearch.find (wants prio) snaps last with
      | none => choose maxBatch snaps prios ⟨some prio, last⟩
      | some (idx, snap) => (⟨idx, min snap.approxCount maxBatch, false⟩, ⟨some prio, idx⟩)

end StrictPriority

open StrictPriority

/-- `StrictPriorityPolicy(max_batch)`. -/
def strictPriority (maxBatch : Nat) : Policy StrictPriority Unit where
  start := ⟨none, 0⟩
  decide st _ snaps :=
    if snaps.length = 0 then (⟨0, 0, true⟩, st)
    else choose maxBatch snaps [.critical, .high, .medium, .low] st

namespace StrictPriority

theorem wants_iff {prio : Priority} {snap : QueueSnapshot} :
    wants prio snap = true ↔ snap.priority = prio ∧ 0 < snap.approxCount := by
  simp [wants]

/-- What is found is to be served. -/
theorem find_wants {snaps : List QueueSnapshot} {prio : Priority} {last idx : Nat}
    {snap : QueueSnapshot} (h : CyclicSearch.find (wants prio) snaps last = some (idx, snap)) :
    snaps[idx]? = some snap ∧ snap.priority = prio ∧ 0 < snap.approxCount := by
  obtain ⟨hget, hwants⟩ := CyclicSearch.find_eq_some h
  exact ⟨hget, wants_iff.mp hwants⟩

/-- A queue is found if there is one to be served. -/
theorem find_wants_ne_none {snaps : List QueueSnapshot} {prio : Priority} (last : Nat)
    (h : snaps.countP (wants prio) ≠ 0) : CyclicSearch.find (wants prio) snaps last ≠ none := by
  obtain ⟨snap, hmem, hwants⟩ := List.countP_pos_iff.mp (Nat.pos_of_ne_zero h)
  exact CyclicSearch.find_ne_none last hmem hwants

/-- What the policy answers to a snapshot. -/
def Answers (maxBatch : Nat) (snaps : List QueueSnapshot) (d : ScheduleDecision) : Prop :=
  (d.idle = true ∧ ∀ snap ∈ snaps, snap.approxCount = 0) ∨
    (d.idle = false ∧ ∃ snap, snaps[d.queueIndex]? = some snap ∧ 0 < snap.approxCount ∧
      d.batchSize = min snap.approxCount maxBatch)

theorem choose_answers {maxBatch : Nat} {snaps : List QueueSnapshot} :
    ∀ (prios : List Priority) (st : StrictPriority),
      (∀ snap ∈ snaps, snap.priority ∉ prios → snap.approxCount = 0) →
      Answers maxBatch snaps (choose maxBatch snaps prios st).1 := by
  intro prios
  induction prios with
  | nil =>
    intro st hrest
    exact .inl ⟨rfl, fun snap hsnap => hrest snap hsnap List.not_mem_nil⟩
  | cons prio prios ih =>
    intro st hrest
    rw [choose]
    split
    next hcount =>
      refine ih st fun snap hsnap hprio => ?_
      by_cases heq : snap.priority = prio
      · have hnot := List.countP_eq_zero.mp hcount snap hsnap
        rw [wants_iff, not_and] at hnot
        exact Nat.eq_zero_of_not_pos (hnot heq)
      · exact hrest snap hsnap (List.not_mem_cons_of_ne_of_not_mem heq hprio)
    next hcount =>
      dsimp only
      split
      next hnone => exact absurd hnone (find_wants_ne_none _ hcount)
      next hfound =>
        obtain ⟨hget, -, hpos⟩ := find_wants hfound
        exact .inr ⟨rfl, _, hget, hpos, rfl⟩

end StrictPriority

/-- **What the policy decides.** -/
theorem strictPriority_spec (maxBatch : Nat) (st : StrictPriority) (snaps : List QueueSnapshot) :
    Answers maxBatch snaps ((strictPriority maxBatch).decide st () snaps).1 := by
  show Answers maxBatch snaps (if snaps.length = 0 then _ else _ : _ × StrictPriority).1
  split
  next hempty =>
    rw [List.eq_nil_of_length_eq_zero hempty]
    exact .inl ⟨rfl, nofun⟩
  next =>
    refine choose_answers _ st fun snap _ hprio => ?_
    cases hp : snap.priority <;> simp [hp] at hprio

end Scheduler
