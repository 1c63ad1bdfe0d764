import StorageRuntime.MetricsCollectorProofs

/-!
# CapacityEstimate — `runtime/capacity_estimator.h`

`RealTimeCapacity::estimate` turns the metrics of one `collect()` into rates, a
utilization and a latency.  The arrival and service rates come from the totals,
which are differences; the utilization and the latency come from the entries of the
queues, which are cumulative.  So an interval without any activity has zero rates
and still the utilization of all the work ever recorded.
-/

namespace Metrics

open Interleaving WordArithmetic

/-- `BottleneckAnalysis::Stage`. -/
inductive Stage where
  | net
  | engine
  | disk
  | balanced
deriving DecidableEq

/-- `RealTimeCapacity`. -/
structure Capacity (D : Type) where
  arrivalRate : D
  serviceRatePerCore : D
  utilization : D
  avgQueueDepth : D
  avgLatencyUs : D
  maxThroughput : D
  bottleneck : Stage
  headroomPct : D

section Estimate

variable {D : Type} (ar : Doubles D)

def Capacity.init : Capacity D where
  arrivalRate := ar.zero
  serviceRatePerCore := ar.zero
  utilization := ar.zero
  avgQueueDepth := ar.zero
  avgLatencyUs := ar.zero
  maxThroughput := ar.zero
  bottleneck := .net
  headroomPct := ar.zero

/-- The busy time of all entries. -/
def totalBusyNs (qs : List (QueueMetrics D)) : Nat :=
  qs.foldl (fun n q => wadd n q.totalExecNs) 0

/-- The utilization, at most 1. -/
def utilizationOf (m : RuntimeMetrics D) (activeWorkers : Nat) : D :=
  let u := ar.div (ar.ofNat (totalBusyNs m.perQueue))
    (ar.mul (ar.mul m.elapsedSeconds (ar.lit 1000000000)) (ar.ofNat activeWorkers))
  if ar.lt ar.one u then ar.one else u

/-- The loop over the waiting times: their sum and the number of items. -/
def waits (qs : List (QueueMetrics D)) : D × Nat :=
  qs.foldl (fun (wait, count) q =>
      if 0 < q.enqueuedDelta then
        (ar.add wait (ar.ofNat (q.avgWaitNs * q.enqueuedDelta % wordSize)),
          wadd count q.enqueuedDelta)
      else (wait, count))
    (ar.zero, 0)

def avgLatencyUsOf (qs : List (QueueMetrics D)) : D :=
  let (wait, count) := waits ar qs
  if 0 < count then ar.div (ar.div wait (ar.ofNat count)) (ar.lit 1000) else ar.zero

/-- The 99th percentile of the last entry of a queue. -/
def p99Of (type : QueueType) (qs : List (QueueMetrics D)) : D :=
  qs.foldl (fun p q => if q.type = type then q.p99WaitNs else p) ar.zero

def bottleneckOf (qs : List (QueueMetrics D)) (utilization : D) : Stage :=
  let engineP99 := p99Of ar .engine qs
  let netP99 := p99Of ar .netIo qs
  if ar.lt (ar.mul netP99 (ar.lit 2)) engineP99 ∧ ar.lt ar.zero netP99 then .engine
  else if ar.lt (ar.lit 0.8) utilization then .engine
  else .balanced

def Capacity.estimate (m : RuntimeMetrics D) (activeWorkers : Nat) : Capacity D :=
  if ar.le m.elapsedSeconds ar.zero ∨ activeWorkers = 0 then Capacity.init ar
  else
    let service := ar.div (ar.div (ar.ofNat m.totalExecutedDelta) m.elapsedSeconds)
      (ar.ofNat activeWorkers)
    let utilization := utilizationOf ar m activeWorkers
    { arrivalRate := ar.div (ar.ofNat m.totalEnqueuedDelta) m.elapsedSeconds
      serviceRatePerCore := service
      utilization := utilization
      avgQueueDepth :=
        ar.div utilization (ar.add (ar.sub ar.one utilization) (ar.lit 0.0001))
      avgLatencyUs := avgLatencyUsOf ar m.perQueue
      maxThroughput := ar.mul service (ar.ofNat activeWorkers)
      bottleneck := bottleneckOf ar m.perQueue utilization
      headroomPct := ar.mul (ar.sub ar.one utilization) (ar.lit 100) }

end Estimate

/-! ## An interval without activity -/

/-- The entry of a queue shows no activity. -/
def QueueMetrics.Idle {D : Type} (q : QueueMetrics D) : Prop :=
  q.enqueuedDelta = 0 ∧ q.executedDelta = 0 ∧ q.totalExecNs = 0

section Idle

variable {W D : Type} {ar : Doubles D} {workers : List (Nat × W)} {t : List (Event W D)}
  {s : State W D}

theorem mem_entries_iff {x : Nat × QueueSnapshotPerf} : x ∈ s.entries ar workers ↔
      ∃ y ∈ workers, x.1 = y.1 ∧ ∃ q, (s.perf y.2).queueSnapshot ar q = some x.2 := by
  simp only [State.entries, List.mem_flatMap, List.mem_map, WorkerPerf.snapshot, List.mem_filterMap]
  constructor
  · rintro ⟨y, hy, qs, ⟨q, -, hq⟩, rfl⟩
    exact ⟨y, hy, rfl, q, hq⟩
  · rintro ⟨y, hy, hid, q, hq⟩
    exact ⟨y, hy, x.2, ⟨q, mem_all q, hq⟩, by rw [← hid]⟩

theorem mem_keys {w : W} {q : QueueType} : (w, q) ∈ keys workers ↔ ∃ y ∈ workers, y.2 = w := by
  simp only [keys, List.mem_flatMap, List.mem_map, Prod.mk.injEq]
  constructor
  · rintro ⟨y, hy, r, -, rfl, -⟩
    exact ⟨y, hy, rfl⟩
  · rintro ⟨y, hy, rfl⟩
    exact ⟨y, hy, q, mem_all q, rfl, rfl⟩

/-- Where nothing was enqueued there is no entry. -/
theorem perQueue_eq_nil (h : ∀ k ∈ keys workers, s.enqueuedOf k = 0) :
    (s.gather ar workers).perQueue = [] := by
  rw [(gather_spec ar workers s).2.2, List.map_eq_nil_iff, List.eq_nil_iff_forall_not_mem]
  intro x hx
  obtain ⟨y, hy, -, q, hq⟩ := mem_entries_iff.mp hx
  have hzero : ((s.perf y.2).queues q).enqueuedCount = 0 := h (y.2, q) (mem_keys.mpr ⟨y, hy, rfl⟩)
  simp [WorkerPerf.queueSnapshot, hzero] at hq

/-- The entries show no activity only where nothing was ever enqueued. -/
theorem idle_entries_iff :
    (∀ q ∈ (s.gather ar workers).perQueue, q.Idle) ↔ ∀ k ∈ keys workers, s.enqueuedOf k = 0 := by
  constructor
  · rintro h ⟨w, q⟩ hk
    obtain ⟨y, hy, rfl⟩ := mem_keys.mp hk
    by_contra hne
    have hcount : ((s.perf y.2).queues q).enqueuedCount ≠ 0 := hne
    obtain ⟨qs, hqs⟩ : ∃ qs, (s.perf y.2).queueSnapshot ar q = some qs := by
      simp [WorkerPerf.queueSnapshot, hcount]
    have henq : qs.enqueued = ((s.perf y.2).queues q).enqueuedCount := by
      simp only [WorkerPerf.queueSnapshot, if_neg hcount] at hqs
      rw [← Option.some.inj hqs]
    have hmem : qs.metrics ar ∈ (s.gather ar workers).perQueue := by
      rw [(gather_spec ar workers s).2.2]
      exact List.mem_map.mpr ⟨(y.1, qs), mem_entries_iff.mpr ⟨y, hy, rfl, q, hqs⟩, rfl⟩
    exact hcount (henq ▸ (h _ hmem).1)
  · intro h q hq
    rw [perQueue_eq_nil h] at hq
    cases hq

/-- After a call of `collect()` and before the next record. -/
structure Rested (ar : Doubles D) (workers : List (Nat × W)) (t : List (Event W D))
    (s : State W D) : Prop where
  /-- The baseline is what the counters still show. -/
  last : ∀ m e older, t = .collected m e :: older →
    s.previous.totalEnqueued = (s.gather ar workers).totalEnq ∧
    s.previous.totalExecuted = (s.gather ar workers).totalExe ∧
    m.perQueue = (s.gather ar workers).perQueue
  totals : ∀ m₂ e₂ m₁ e₁ older, t = .collected m₂ e₂ :: .collected m₁ e₁ :: older →
    m₂.totalEnqueuedDelta = 0 ∧ m₂.totalExecutedDelta = 0

/-- What a snapshot shows does not depend on the level. -/
theorem gather_congr {s' : State W D} (h : ∀ w, (s'.perf w).queues = (s.perf w).queues) :
    s'.gather ar workers = s.gather ar workers := by
  have hsnap : ∀ w, (s'.perf w).snapshot ar = (s.perf w).snapshot ar := by
    intro w
    have hqueue : (s'.perf w).queueSnapshot ar = (s.perf w).queueSnapshot ar := by
      funext q
      simp only [WorkerPerf.queueSnapshot, h w]
    rw [WorkerPerf.snapshot, hqueue]
    rfl
  simp only [State.gather, hsnap]

/-- The metrics of `collect()` on counters that still show the baseline. -/
theorem collect_rested (henq : s.previous.totalEnqueued = (s.gather ar workers).totalEnq)
    (hexe : s.previous.totalExecuted = (s.gather ar workers).totalExe) (nowNs : Nat) :
    (s.collect ar workers nowNs).2.totalEnqueuedDelta = 0 ∧
      (s.collect ar workers nowNs).2.totalExecutedDelta = 0 := by
  obtain ⟨hsumEnq, hsumExe, -⟩ := gather_spec ar workers s
  have hword (n : Nat) : n % wordSize < wordSize := Nat.mod_lt n (by decide)
  simp only [State.collect]
  split
  next => exact ⟨rfl, rfl⟩
  next =>
    refine ⟨?_, ?_⟩
    · rw [henq]
      exact wsub_self (hsumEnq ▸ hword _)
    · rw [hexe]
      exact wsub_self (hsumExe ▸ hword _)

theorem collect_perQueue (s : State W D) (nowNs : Nat) :
    (s.collect ar workers nowNs).2.perQueue = (s.gather ar workers).perQueue := by
  simp only [State.collect]
  split <;> rfl

/-- A step in an interval. -/
theorem Rested.step [DecidableEq W] (h : Rested ar workers t s) (act : Act W D) :
    Rested ar workers ((machine ar workers).record s act t) (step ar workers s act) := by
  -- a step that nobody sees leaves the queues and the baseline
  have quiet {s' : State W D} (hprev : s'.previous = s.previous)
      (hqueues : ∀ w, (s'.perf w).queues = (s.perf w).queues) : Rested ar workers t s' := by
    refine ⟨?_, h.totals⟩
    rw [hprev, gather_congr hqueues]
    exact h.last
  -- after a record the newest event is no report
  have recorded {e : Event W D} {s' : State W D} (he : ∀ m x, e ≠ .collected m x) :
      Rested ar workers (e :: t) s' :=
    ⟨fun m x _ heq => absurd (List.cons.inj heq).1 (he m x),
      fun m x _ _ _ heq => absurd (List.cons.inj heq).1 (he m x)⟩
  cases act with
  | setLevel u level =>
    refine quiet rfl (fun w => ?_)
    rcases eq_or_ne w u with rfl | hne
    · simp [Metrics.step, State.record, WorkerPerf.setLevel]
    · simp [Metrics.step, State.record, hne]
  | recordEnqueue u q now | recordDequeue u q enqueueNs now | recordExec u q execNs =>
    exact recorded (fun _ _ he => by cases he)
  | setIoMetrics ops bytes => exact quiet rfl (fun _ => rfl)
  | collect nowNs =>
    have hgather : (Metrics.step ar workers s (.collect nowNs)).gather ar workers =
        s.gather ar workers :=
      gather_congr (fun w => by
        change ((s.collect ar workers nowNs).1.perf w).queues = _
        rw [collect_perf])
    refine ⟨fun m e older heq => ?_, fun m₂ e₂ m₁ e₁ older heq => ?_⟩
    · obtain ⟨hev, -⟩ := List.cons.inj heq
      obtain ⟨rfl, -⟩ := Event.collected.inj hev
      rw [hgather]
      change (s.collect ar workers nowNs).1.previous.totalEnqueued = _ ∧
        (s.collect ar workers nowNs).1.previous.totalExecuted = _ ∧ _
      rw [collect_previous]
      exact ⟨rfl, rfl, collect_perQueue s nowNs⟩
    · obtain ⟨hev, rfl⟩ := List.cons.inj heq
      obtain ⟨rfl, -⟩ := Event.collected.inj hev
      obtain ⟨henq, hexe, -⟩ := h.last m₁ e₁ older rfl
      exact collect_rested henq hexe nowNs

theorem rested_exec [DecidableEq W] (hrun : Exec (machine ar workers) Always (init ar) t s) :
    Rested ar workers t s := by
  refine hrun.invariant (Rested ar workers) ?_ ?_
  · exact ⟨fun _ _ _ heq => (by cases heq), fun _ _ _ _ _ heq => (by cases heq)⟩
  intro t s act s' h _ hstep
  cases hstep
  exact h.step act

end Idle

section Interval

variable {W : Type} {workers : List (Nat × W)} {t : List (Event W ℚ)} {s : State W ℚ}

/-- Without busy time the utilization is zero, however long the interval was. -/
theorem utilizationOf_idle {m : RuntimeMetrics ℚ} {activeWorkers : Nat}
    (hbusy : totalBusyNs m.perQueue = 0) : utilizationOf exact m activeWorkers = 0 := by
  have hzero (x : ℚ) : exact.div (exact.ofNat (totalBusyNs m.perQueue)) x = 0 := by
    rw [hbusy]
    exact zero_div x
  simp only [utilizationOf, hzero]
  rfl

/-- **An idle interval reads as idle** in the totals, and in the entries of the queues exactly
    if nothing was ever enqueued; the utilization is then zero.  For every history of calls
    that ends with two calls of `collect()` and no record between them. -/
theorem idle_interval_reads_idle [DecidableEq W]
    (hrun : Exec (machine exact workers) Always (init exact) t s) {m₁ m₂ : RuntimeMetrics ℚ}
    {e₁ e₂ : Nat} {older : List (Event W ℚ)}
    (ht : t = .collected m₂ e₂ :: .collected m₁ e₁ :: older) (activeWorkers : Nat) :
    (m₂.totalEnqueuedDelta = 0 ∧ m₂.totalExecutedDelta = 0) ∧
    ((∀ q ∈ m₂.perQueue, q.Idle) ↔ ∀ k ∈ keys workers, s.enqueuedOf k = 0) ∧
    ((∀ k ∈ keys workers, s.enqueuedOf k = 0) → totalBusyNs m₂.perQueue = 0 ∧
      (Capacity.estimate exact m₂ activeWorkers).utilization = 0) := by
  have h := rested_exec hrun
  obtain ⟨-, -, hper⟩ := h.last m₂ e₂ _ ht
  refine ⟨h.totals m₂ e₂ m₁ e₁ older ht, ?_, fun hnone => ?_⟩
  · rw [hper]
    exact idle_entries_iff
  · have hbusy : totalBusyNs m₂.perQueue = 0 := by
      rw [hper, perQueue_eq_nil hnone]
      rfl
    refine ⟨hbusy, ?_⟩
    rw [Capacity.estimate]
    split
    next => rfl
    next => exact utilizationOf_idle hbusy

end Interval

/-- Executions are recorded, and nothing was ever enqueued. -/
theorem idle_without_enqueues :
    ∃ (t : List (Event (Fin 2) ℚ)) (s : State (Fin 2) ℚ) (m₁ m₂ : RuntimeMetrics ℚ) (e₁ e₂ : Nat)
      (older : List (Event (Fin 2) ℚ)),
      Exec (machine exact [(0, 0), (1, 1)]) Always (init exact) t s ∧
      t = .collected m₂ e₂ :: .collected m₁ e₁ :: older ∧
      (∀ k ∈ keys [(0, (0 : Fin 2)), (1, 1)], s.enqueuedOf k = 0) ∧
      (∀ q ∈ m₂.perQueue, q.Idle) ∧ (Capacity.estimate exact m₂ 2).utilization = 0 := by
  have hrun : Exec (machine exact [(0, 0), (1, 1)]) Always (init exact : State (Fin 2) ℚ) _ _ :=
    exec_run [.setLevel 0 .trace, .recordExec 0 .engine 500, .collect 1, .setLevel 1 .count,
      .collect 2000000001]
  have h := idle_interval_reads_idle hrun rfl 2
  exact ⟨_, _, _, _, _, _, _, hrun, rfl, by decide +kernel, h.2.1.mpr (by decide +kernel),
    (h.2.2 (by decide +kernel)).2⟩

/-- One item is enqueued and executed in a second; the next interval, of one second and without
    any call, shows it again and a utilization of 1. -/
theorem idle_interval_reads_busy :
    ∃ (t : List (Event (Fin 1) ℚ)) (s : State (Fin 1) ℚ) (m₁ m₂ : RuntimeMetrics ℚ) (e₁ e₂ : Nat)
      (older : List (Event (Fin 1) ℚ)),
      Exec (machine exact [(0, 0)]) Always (init exact) t s ∧
      t = .collected m₂ e₂ :: .collected m₁ e₁ :: older ∧
      m₂.perQueue.map (fun q => (q.enqueuedDelta, q.executedDelta, q.totalExecNs)) =
        [(1, 1, 1000000000)] ∧
      (Capacity.estimate exact m₂ 1).utilization = 1 := by
  have hrun : Exec (machine exact [(0, 0)]) Always (init exact : State (Fin 1) ℚ) _ _ :=
    exec_run [.setLevel 0 .count, .recordEnqueue 0 .engine 0, .recordExec 0 .engine 1000000000,
      .collect 1000000000, .collect 2000000000]
  exact ⟨_, _, _, _, _, _, _, hrun, rfl, by decide +kernel⟩

end Metrics
