import StorageRuntime.StrictPriorityProofs

/-!
# The scheduling policies — no queue with work is passed over

`runtime/round_robin_policy.cc` and `runtime/weighted_fair_policy.cc`, beside
`StrictPriorityProofs`.  A policy is asked again and again, with snapshots of any
lengths, and keeps a cursor or virtual times from one call to the next: what it
remembers may belong to a vector of queues that was longer or shorter.

The doubles of the weighted policy are a type with arbitrary operations (`Doubles`), so
the results hold whatever the weights are: zero, negative, infinite or not a number.

**`policies_work_conserving`**: each policy lets the worker idle exactly if every queue
is shown as empty; otherwise it chooses a queue that is not, and a batch of at least one
and at most `max_batch` of its items.  The strict policy chooses among the non-empty
queues one of the highest priority.
-/

namespace Scheduler

/-! ## Round robin -/

/-- `queues[idx].approx_count > 0`. -/
def QueueSnapshot.busy (snap : QueueSnapshot) : Bool := 0 < snap.approxCount

/-- `RoundRobinPolicy(max_batch)`; the state is `last_index_`. -/
def roundRobin (maxBatch : Nat) : Policy Nat Unit where
  start := 0
  decide lastIndex _ snaps :=
    if snaps.length = 0 then (⟨0, 0, true⟩, lastIndex)
    else
      match CyclicSearch.find QueueSnapshot.busy snaps lastIndex with
      | some (idx, snap) => (⟨idx, min snap.approxCount maxBatch, false⟩, idx)
      | none => (⟨0, 0, true⟩, lastIndex)

/-! ## Weighted fair -/

/-- What the weighted policy does with `double`s. -/
structure Doubles (D : Type) where
  zero : D
  one : D
  ofNat : Nat → D
  add : D → D → D
  div : D → D → D
  lt : D → D → Bool

structure WeightedFair (D : Type) where
  virtualTime : List D
  weights : List D

namespace WeightedFair

variable {D : Type} (ar : Doubles D)

/-- The vectors are filled anew where the number of queues has changed. -/
def fit (st : WeightedFair D) (n : Nat) : WeightedFair D where
  virtualTime :=
    if st.virtualTime.length ≠ n then List.replicate n ar.zero else st.virtualTime
  weights := if st.weights.length ≠ n then List.replicate n ar.one else st.weights

/-- The body of the loop over the queues; `none` while `found` is false. -/
def better (st : WeightedFair D) (best : Option (Nat × QueueSnapshot))
    (next : QueueSnapshot × Nat) : Option (Nat × QueueSnapshot) :=
  if 0 < next.1.approxCount then
    match best with
    | none => some (next.2, next.1)
    | some b =>
      if ar.lt (st.virtualTime.getD next.2 ar.zero) (st.virtualTime.getD b.1 ar.zero) then
        some (next.2, next.1)
      else some b
  else best

/-- The non-empty queue with the smallest virtual time. -/
def best (st : WeightedFair D) (snaps : List QueueSnapshot) : Option (Nat × QueueSnapshot) :=
  snaps.zipIdx.foldl (better ar st) none

/-- `virtual_time_[best_idx] += batch / weights_[best_idx]`. -/
def charge (st : WeightedFair D) (idx batch : Nat) : WeightedFair D :=
  { st with
    virtualTime := st.virtualTime.set idx (ar.add (st.virtualTime.getD idx ar.zero)
        (ar.div (ar.ofNat batch) (st.weights.getD idx ar.one))) }

end WeightedFair

open WeightedFair in
/-- `WeightedFairPolicy(weights, max_batch)`. -/
def weightedFair {D : Type} (ar : Doubles D) (weights : List D) (maxBatch : Nat) :
    Policy (WeightedFair D) Unit where
  start := ⟨[], weights⟩
  decide st _ snaps :=
    let st := st.fit ar snaps.length
    match best ar st snaps with
    | none => (⟨0, 0, true⟩, st)
    | some (idx, snap) =>
      let batch := min snap.approxCount maxBatch
      (⟨idx, batch, false⟩, st.charge ar idx batch)

/-! ## What they answer -/

open StrictPriority (Answers)

theorem QueueSnapshot.busy_iff {snap : QueueSnapshot} :
    snap.busy = true ↔ 0 < snap.approxCount := by
  simp [busy]

theorem roundRobin_spec (maxBatch lastIndex : Nat) (snaps : List QueueSnapshot) :
    Answers maxBatch snaps ((roundRobin maxBatch).decide lastIndex () snaps).1 := by
  show Answers maxBatch snaps (if snaps.length = 0 then _ else _ : _ × Nat).1
  split
  next hempty =>
    rw [List.eq_nil_of_length_eq_zero hempty]
    exact .inl ⟨rfl, fun snap hsnap => absurd hsnap List.not_mem_nil⟩
  next =>
    split
    next idx snap hfound =>
      obtain ⟨hget, hbusy⟩ := CyclicSearch.find_eq_some hfound
      exact .inr ⟨rfl, snap, hget, QueueSnapshot.busy_iff.mp hbusy, rfl⟩
    next hnone =>
      refine .inl ⟨rfl, fun snap hsnap => ?_⟩
      by_contra hne
      have hbusy : snap.busy = true := QueueSnapshot.busy_iff.mpr (Nat.pos_of_ne_zero hne)
      exact CyclicSearch.find_ne_none lastIndex hsnap hbusy hnone

namespace WeightedFair

variable {D : Type} (ar : Doubles D) (st : WeightedFair D) {snaps : List QueueSnapshot}

/-- What the loop has found after the queues `seen`: a non-empty one, if there is one. -/
def Found (snaps : List QueueSnapshot) (seen : List (QueueSnapshot × Nat))
    (best : Option (Nat × QueueSnapshot)) : Prop :=
  match best with
  | none => ∀ next ∈ seen, next.1.approxCount = 0
  | some b => snaps[b.1]? = some b.2 ∧ 0 < b.2.approxCount

theorem Found.better {seen : List (QueueSnapshot × Nat)} {best : Option (Nat × QueueSnapshot)}
    {next : QueueSnapshot × Nat} (hnext : snaps[next.2]? = some next.1)
    (h : Found snaps seen best) : Found snaps (seen ++ [next]) (better ar st best next) := by
  rw [WeightedFair.better.eq_def]
  split
  next hbusy =>
    cases best with
    | none => exact ⟨hnext, hbusy⟩
    | some b =>
      dsimp only
      split
      · exact ⟨hnext, hbusy⟩
      · exact h
  next hempty =>
    cases best with
    | none =>
      refine List.forall_mem_append.mpr ⟨h, List.forall_mem_singleton.mpr ?_⟩
      exact Nat.eq_zero_of_not_pos hempty
    | some b => exact h

theorem Found.foldl {seen : List (QueueSnapshot × Nat)} {best : Option (Nat × QueueSnapshot)}
    (rest : List (QueueSnapshot × Nat)) (hrest : ∀ next ∈ rest, snaps[next.2]? = some next.1)
    (h : Found snaps seen best) :
    Found snaps (seen ++ rest) (rest.foldl (WeightedFair.better ar st) best) := by
  induction rest generalizing seen best with
  | nil => rwa [List.append_nil]
  | cons next rest ih =>
    have hstep := h.better ar st (hrest next List.mem_cons_self)
    have htail := ih (fun other hother => hrest other (List.mem_cons_of_mem _ hother)) hstep
    rwa [List.append_assoc] at htail

theorem best_found (snaps : List QueueSnapshot) : Found snaps snaps.zipIdx (best ar st snaps) := by
  have hget : ∀ next ∈ snaps.zipIdx, snaps[next.2]? = some next.1 := by
    intro next hnext
    exact List.mem_zipIdx_iff_getElem?.mp hnext
  have hnone : Found snaps [] none := fun next hnext => absurd hnext List.not_mem_nil
  exact hnone.foldl ar st snaps.zipIdx hget

end WeightedFair

open WeightedFair in
theorem weightedFair_spec {D : Type} (ar : Doubles D) (weights : List D) (maxBatch : Nat)
    (st : WeightedFair D) (snaps : List QueueSnapshot) :
    Answers maxBatch snaps ((weightedFair ar weights maxBatch).decide st () snaps).1 := by
  have hfound := best_found ar (st.fit ar snaps.length) snaps
  simp only [weightedFair]
  split
  next hbest =>
    rw [hbest] at hfound
    refine .inl ⟨rfl, fun snap hsnap => ?_⟩
    obtain ⟨i, hi⟩ := List.mem_iff_getElem?.mp hsnap
    exact hfound (snap, i) (List.mem_zipIdx_iff_getElem?.mpr hi)
  next idx snap hbest =>
    rw [hbest] at hfound
    exact .inr ⟨rfl, snap, hfound.1, hfound.2, rfl⟩

/-! ## The highest priority first -/

/-- The value of the enumerator: 0 is the highest priority. -/
def Priority.rank : Priority → Nat
  | .critical => 0
  | .high => 1
  | .medium => 2
  | .low => 3

/-- No non-empty queue has a higher priority than the one chosen. -/
def HighestFirst (snaps : List QueueSnapshot) (d : ScheduleDecision) : Prop :=
  d.idle = false → ∀ snap, snaps[d.queueIndex]? = some snap →
    ∀ other ∈ snaps, 0 < other.approxCount → snap.priority.rank ≤ other.priority.rank

/-- The priorities still to be tried are in order and cover every non-empty queue. -/
theorem StrictPriority.choose_highest {maxBatch : Nat} {snaps : List QueueSnapshot} :
    ∀ (prios : List Priority) (st : StrictPriority), prios.Pairwise (·.rank ≤ ·.rank) →
      (∀ snap ∈ snaps, 0 < snap.approxCount → snap.priority ∈ prios) →
      HighestFirst snaps (choose maxBatch snaps prios st).1 := by
  intro prios
  induction prios with
  | nil =>
    intro st _ _ hidle
    cases hidle
  | cons prio prios ih =>
    intro st hsorted hcover
    obtain ⟨hfirst, hsorted⟩ := List.pairwise_cons.mp hsorted
    rw [choose]
    split
    next hcount =>
      refine ih st hsorted fun snap hsnap hpos => ?_
      rcases List.mem_cons.mp (hcover snap hsnap hpos) with heq | hmem
      · exact absurd (wants_iff.mpr ⟨heq, hpos⟩) (List.countP_eq_zero.mp hcount snap hsnap)
      · exact hmem
    next hcount =>
      dsimp only
      split
      next hnone => exact absurd hnone (find_wants_ne_none _ hcount)
      next idx found hfound =>
        intro _ snap hget other hother hpos
        obtain ⟨hfoundGet, hprio, -⟩ := find_wants hfound
        obtain rfl : found = snap := Option.some.inj (hfoundGet.symm.trans hget)
        rw [hprio]
        rcases List.mem_cons.mp (hcover other hother hpos) with heq | hmem
        · rw [heq]
        · exact hfirst _ hmem

theorem strictPriority_highest (maxBatch : Nat) (st : StrictPriority) (snaps : List QueueSnapshot) :
    HighestFirst snaps ((strictPriority maxBatch).decide st () snaps).1 := by
  show HighestFirst snaps (if snaps.length = 0 then _ else _ : _ × StrictPriority).1
  split
  next =>
    intro hidle
    cases hidle
  next =>
    refine StrictPriority.choose_highest _ st (by decide) fun snap _ _ => ?_
    cases snap.priority <;> decide

/-! ## Over every sequence of calls -/

/-- The state of the policy after a sequence of calls. -/
def Policy.after {P E : Type} (p : Policy P E) (calls : List (E × List QueueSnapshot)) : P :=
  calls.foldl (fun st call => (p.decide st call.1 call.2).2) p.start

/-- Idle exactly if there is nothing to do; otherwise a non-empty queue and a batch that it
    is shown to hold. -/
def Conserving (maxBatch : Nat) (snaps : List QueueSnapshot) (d : ScheduleDecision) : Prop :=
  (d.idle = true ↔ ∀ snap ∈ snaps, snap.approxCount = 0) ∧
    (d.idle = false → ∃ snap, snaps[d.queueIndex]? = some snap ∧ 0 < snap.approxCount ∧
      1 ≤ d.batchSize ∧ d.batchSize ≤ min snap.approxCount maxBatch)

/-- The policy decides so whatever it was asked before. -/
def Policy.WorkConserving {P E : Type} (p : Policy P E) (maxBatch : Nat) : Prop :=
  ∀ (calls : List (E × List QueueSnapshot)) (env : E) (snaps : List QueueSnapshot),
    Conserving maxBatch snaps (p.decide (p.after calls) env snaps).1

theorem StrictPriority.Answers.conserving {maxBatch : Nat} {snaps : List QueueSnapshot}
    {d : ScheduleDecision} (hmax : 1 ≤ maxBatch) (h : Answers maxBatch snaps d) :
    Conserving maxBatch snaps d := by
  rcases h with ⟨hidle, hzero⟩ | ⟨hbusy, snap, hget, hpos, hbatch⟩
  · refine ⟨⟨fun _ => hzero, fun _ => hidle⟩, fun hbusy => ?_⟩
    rw [hidle] at hbusy
    cases hbusy
  · refine ⟨⟨fun hidle => ?_, fun hzero => ?_⟩, fun _ => ⟨snap, hget, hpos, ?_, ?_⟩⟩
    · rw [hbusy] at hidle
      cases hidle
    · exact absurd (hzero snap (List.mem_of_getElem? hget)) (Nat.ne_of_gt hpos)
    · rw [hbatch]
      exact Nat.le_min.mpr ⟨hpos, hmax⟩
    · exact Nat.le_of_eq hbatch

/-- **The three policies are work-conserving**, from every state that calls with snapshots
    of any lengths lead to, and the strict one serves the highest priority. -/
theorem policies_work_conserving (maxBatch : Nat) (hmax : 1 ≤ maxBatch) :
    ((strictPriority maxBatch).WorkConserving maxBatch ∧ ∀ calls snaps, HighestFirst snaps
        ((strictPriority maxBatch).decide ((strictPriority maxBatch).after calls) () snaps).1) ∧
    (roundRobin maxBatch).WorkConserving maxBatch ∧
    ∀ (D : Type) (ar : Doubles D) (weights : List D),
      (weightedFair ar weights maxBatch).WorkConserving maxBatch := by
  refine ⟨⟨?_, ?_⟩, ?_, ?_⟩
  · intro calls env snaps
    exact (strictPriority_spec maxBatch _ snaps).conserving hmax
  · intro calls snaps
    exact strictPriority_highest maxBatch _ snaps
  · intro calls env snaps
    exact (roundRobin_spec maxBatch _ snaps).conserving hmax
  · intro D ar weights calls env snaps
    exact (weightedFair_spec ar weights maxBatch _ snaps).conserving hmax

/-- A round robin cursor that is left over from five queues, asked about two. -/
theorem policies_work_conserving_stale_cursor :
    (roundRobin 64).after [((), List.replicate 5 ⟨.low, 1⟩), ((), [⟨.low, 0⟩, ⟨.low, 0⟩,
        ⟨.low, 0⟩, ⟨.low, 0⟩, ⟨.low, 3⟩])] = 4 ∧
      Conserving 64 [⟨.low, 0⟩, ⟨.high, 7⟩] ((roundRobin 64).decide ((roundRobin 64).after
        [((), List.replicate 5 ⟨.low, 1⟩), ((), [⟨.low, 0⟩, ⟨.low, 0⟩, ⟨.low, 0⟩, ⟨.low, 0⟩,
          ⟨.low, 3⟩])]) () [⟨.low, 0⟩, ⟨.high, 7⟩]).1 :=
  ⟨by decide, (policies_work_conserving 64 (by decide)).2.1 _ _ _⟩

end Scheduler
