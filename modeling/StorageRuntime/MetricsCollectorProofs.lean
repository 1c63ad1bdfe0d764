import Mathlib.Algebra.Order.BigOperators.Group.List
import StorageRuntime.PerfHistogramProofs

/-!
# MetricsCollector — `runtime/worker_perf.h` and `runtime/metrics_collector.h`

Workers record what they enqueue, dequeue and execute in their `WorkerPerf`, and
`MetricsCollector::collect()` goes over the snapshots of the attached workers and
subtracts the totals of the call before.

There is no counter of executed items.  `collect()` takes all enqueued items of a
queue for executed where the average execution time, the recorded time divided by
the number of enqueued items, is not truncated to 0.  So the count falls back when
items are enqueued faster than time is recorded, and it runs ahead of the
executions when items are still waiting.
-/

namespace Metrics

open Function Interleaving WordArithmetic

inductive PerfLevel where
  | none
  | count
  | trace
deriving DecidableEq

/-- The queues; the eighth slot of `WorkerPerf::queues_` belongs to none of them and stays
    empty. -/
inductive QueueType where
  | local
  | affine
  | netIo
  | diskIo
  | engine
  | timer
  | background
deriving DecidableEq

/-- All queues, in the order of their indices. -/
def QueueType.all : List QueueType :=
  [.local, .affine, .netIo, .diskIo, .engine, .timer, .background]

structure QueuePerf where
  enqueuedCount : Nat
  totalWaitNs : Nat
  maxWaitNs : Nat
  totalExecNs : Nat
  waitHist : Histogram
  execHist : Histogram

def QueuePerf.init : QueuePerf := ⟨0, 0, 0, 0, Histogram.init, Histogram.init⟩

structure QueueSnapshotPerf where
  type : QueueType
  enqueued : Nat
  avgWaitNs : Nat
  maxWaitNs : Nat
  avgExecNs : Nat
  p50WaitNs : Nat
  p99WaitNs : Nat
deriving DecidableEq

structure WorkerPerf where
  level : PerfLevel
  queues : QueueType → QueuePerf

namespace WorkerPerf

def init : WorkerPerf := ⟨.none, fun _ => QueuePerf.init⟩

def setLevel (p : WorkerPerf) (level : PerfLevel) : WorkerPerf := { p with level := level }

def modify (p : WorkerPerf) (q : QueueType) (f : QueuePerf → QueuePerf) : WorkerPerf :=
  { p with queues := update p.queues q (f (p.queues q)) }

/-- `record_enqueue` at the time `now`, with the time stamp that it returns. -/
def recordEnqueue (p : WorkerPerf) (q : QueueType) (now : Nat) : WorkerPerf × Nat :=
  if p.level = .none then (p, 0)
  else
    (p.modify q (fun qp => { qp with enqueuedCount := wadd qp.enqueuedCount 1 }),
      if p.level = .trace then now else 0)

/-- `record_dequeue` at the time `now`. -/
def recordDequeue (p : WorkerPerf) (q : QueueType) (enqueueNs now : Nat) : WorkerPerf :=
  if p.level = .none then p
  else
    let wait := if 0 < enqueueNs then wsub now enqueueNs else 0
    p.modify q (fun qp =>
      { qp with
        totalWaitNs := wadd qp.totalWaitNs wait
        maxWaitNs := if qp.maxWaitNs < wait then wait else qp.maxWaitNs
        waitHist :=
          if p.level = .trace ∧ 0 < wait then qp.waitHist.record wait else qp.waitHist })

def recordExec (p : WorkerPerf) (q : QueueType) (execNs : Nat) : WorkerPerf :=
  if p.level = .none then p
  else
    p.modify q (fun qp =>
      { qp with
        totalExecNs := wadd qp.totalExecNs execNs
        execHist := if p.level = .trace then qp.execHist.record execNs else qp.execHist })

/-- The entry of a queue in a snapshot; a queue without enqueued items has none. -/
def queueSnapshot {D : Type} (ar : Doubles D) (p : WorkerPerf) (q : QueueType) :
    Option QueueSnapshotPerf :=
  let qp := p.queues q
  if qp.enqueuedCount = 0 then none
  else some
    { type := q
      enqueued := qp.enqueuedCount
      avgWaitNs := if 0 < qp.enqueuedCount then qp.totalWaitNs / qp.enqueuedCount else 0
      maxWaitNs := qp.maxWaitNs
      avgExecNs := if 0 < qp.enqueuedCount then qp.totalExecNs / qp.enqueuedCount else 0
      p50WaitNs := ar.trunc (qp.waitHist.percentile ar (ar.lit 0.50))
      p99WaitNs := ar.trunc (qp.waitHist.percentile ar (ar.lit 0.99)) }

def snapshot {D : Type} (ar : Doubles D) (p : WorkerPerf) : List QueueSnapshotPerf :=
  QueueType.all.filterMap (p.queueSnapshot ar)

end WorkerPerf

structure QueueMetrics (D : Type) where
  type : QueueType
  enqueuedDelta : Nat
  executedDelta : Nat
  totalExecNs : Nat
  avgWaitNs : Nat
  p50WaitNs : D
  p99WaitNs : D
deriving DecidableEq

structure WorkerUtilization where
  workerId : Nat
  busyNs : Nat
  idleNs : Nat
  parkCount : Nat
deriving DecidableEq

structure RuntimeMetrics (D : Type) where
  snapshotNs : Nat
  elapsedSeconds : D
  totalEnqueuedDelta : Nat
  totalExecutedDelta : Nat
  perQueue : List (QueueMetrics D)
  perWorker : List WorkerUtilization
  ioOpsPerSec : D
  ioBytesPerSec : D
deriving DecidableEq

/-- What `collect()` sums up while it goes over the snapshots. -/
structure Gathered (D : Type) where
  totalEnq : Nat
  totalExe : Nat
  perQueue : List (QueueMetrics D)
  perWorker : List WorkerUtilization

/-- The executed items of a queue, as `collect()` takes them. -/
def QueueSnapshotPerf.executed (qs : QueueSnapshotPerf) : Nat :=
  if 0 < qs.avgExecNs ∧ 0 < qs.enqueued then qs.enqueued else 0

/-- The metrics of a queue: cumulative values, which nothing is subtracted from. -/
def QueueSnapshotPerf.metrics {D : Type} (ar : Doubles D) (qs : QueueSnapshotPerf) :
    QueueMetrics D where
  type := qs.type
  enqueuedDelta := qs.enqueued
  executedDelta := if 0 < qs.avgExecNs then qs.enqueued else 0
  totalExecNs := qs.avgExecNs * qs.enqueued % wordSize
  avgWaitNs := qs.avgWaitNs
  p50WaitNs := ar.ofNat qs.p50WaitNs
  p99WaitNs := ar.ofNat qs.p99WaitNs

/-- The body of the loop over the queues of a snapshot. -/
def Gathered.addQueue {D : Type} (ar : Doubles D) (id : Nat) (g : Gathered D)
    (qs : QueueSnapshotPerf) : Gathered D where
  totalEnq := wadd g.totalEnq qs.enqueued
  totalExe := wadd g.totalExe qs.executed
  perQueue := g.perQueue ++ [qs.metrics ar]
  perWorker := g.perWorker ++
    [{ workerId := id
       busyNs := qs.avgExecNs * qs.enqueued % wordSize
       idleNs := 0
       parkCount := 0 }]

section Collector

variable {W D : Type}

/-- `previous_`. -/
structure Snapshot where
  lastNs : Nat
  totalEnqueued : Nat
  totalExecuted : Nat
deriving DecidableEq

/-- The workers' counters and the collector. -/
structure State (W D : Type) where
  perf : W → WorkerPerf
  previous : Snapshot
  ioOps : D
  ioBytes : D

def init (ar : Doubles D) : State W D where
  perf := fun _ => WorkerPerf.init
  previous := ⟨0, 0, 0⟩
  ioOps := ar.zero
  ioBytes := ar.zero

/-- The loop over the attached workers. -/
def State.gather (ar : Doubles D) (workers : List (Nat × W)) (s : State W D) : Gathered D :=
  workers.foldl (fun g (id, w) => ((s.perf w).snapshot ar).foldl (Gathered.addQueue ar id) g)
    ⟨0, 0, [], []⟩

/-- `collect()` at the time `nowNs`. -/
def State.collect (ar : Doubles D) (workers : List (Nat × W)) (s : State W D) (nowNs : Nat) :
    State W D × RuntimeMetrics D :=
  let g := s.gather ar workers
  let s' := { s with previous := ⟨nowNs, g.totalEnq, g.totalExe⟩ }
  if s.previous.lastNs = 0 then
    (s', { snapshotNs := 0, elapsedSeconds := ar.zero, totalEnqueuedDelta := 0,
           totalExecutedDelta := 0, perQueue := g.perQueue, perWorker := g.perWorker,
           ioOpsPerSec := ar.zero, ioBytesPerSec := ar.zero })
  else
    (s', { snapshotNs := nowNs
           elapsedSeconds :=
             ar.div (ar.ofNat (wsub nowNs s.previous.lastNs)) (ar.lit 1000000000)
           totalEnqueuedDelta := wsub g.totalEnq s.previous.totalEnqueued
           totalExecutedDelta := wsub g.totalExe s.previous.totalExecuted
           perQueue := g.perQueue
           perWorker := g.perWorker
           ioOpsPerSec := s.ioOps
           ioBytesPerSec := s.ioBytes })

inductive Act (W D : Type) where
  | setLevel (w : W) (level : PerfLevel)
  | recordEnqueue (w : W) (q : QueueType) (now : Nat)
  | recordDequeue (w : W) (q : QueueType) (enqueueNs now : Nat)
  | recordExec (w : W) (q : QueueType) (execNs : Nat)
  | setIoMetrics (opsPerSec bytesPerSec : D)
  | collect (nowNs : Nat)

inductive Event (W D : Type) where
  | enqueueCalled (w : W) (q : QueueType)
  | dequeueCalled (w : W) (q : QueueType)
  | execCalled (w : W) (q : QueueType)
  /-- `collect()` returned `m`; the executed items are now taken to be `executed`. -/
  | collected (m : RuntimeMetrics D) (executed : Nat)

variable [DecidableEq W]

def State.record (s : State W D) (w : W) (f : WorkerPerf → WorkerPerf) : State W D :=
  { s with perf := update s.perf w (f (s.perf w)) }

def step (ar : Doubles D) (workers : List (Nat × W)) (s : State W D) : Act W D → State W D
  | .setLevel w level => s.record w (·.setLevel level)
  | .recordEnqueue w q now => s.record w (fun p => (p.recordEnqueue q now).1)
  | .recordDequeue w q enqueue now => s.record w (·.recordDequeue q enqueue now)
  | .recordExec w q execNs => s.record w (·.recordExec q execNs)
  | .setIoMetrics ops bytes => { s with ioOps := ops, ioBytes := bytes }
  | .collect nowNs => (s.collect ar workers nowNs).1

def event (ar : Doubles D) (workers : List (Nat × W)) (s : State W D) :
    Act W D → Option (Event W D)
  | .recordEnqueue w q _ => some (.enqueueCalled w q)
  | .recordDequeue w q _ _ => some (.dequeueCalled w q)
  | .recordExec w q _ => some (.execCalled w q)
  | .collect nowNs =>
    let r := s.collect ar workers nowNs
    some (.collected r.2 r.1.previous.totalExecuted)
  | _ => none

/-- The collector with its attached workers: their ids and their counters. -/
def machine (ar : Doubles D) (workers : List (Nat × W)) :
    Machine (State W D) (Act W D) (Event W D) where
  step s act := some (step ar workers s act)
  event := event ar workers

end Collector

/-! ## What is summed up -/

section Sums

variable {W D : Type} (ar : Doubles D) (workers : List (Nat × W)) (s : State W D)

/-- The entries that `collect()` goes over, with the ids of their workers. -/
def State.entries : List (Nat × QueueSnapshotPerf) :=
  workers.flatMap (fun x => ((s.perf x.2).snapshot ar).map (fun qs => (x.1, qs)))

theorem gather_eq_foldl : s.gather ar workers =
      (s.entries ar workers).foldl (fun g x => g.addQueue ar x.1 x.2) ⟨0, 0, [], []⟩ := by
  rw [State.gather, State.entries, List.foldl_flatMap]
  simp only [List.foldl_map]

/-- The totals are those of the entries, modulo the word size. -/
theorem gather_spec : (s.gather ar workers).totalEnq =
        ((s.entries ar workers).map (fun x => x.2.enqueued)).sum % wordSize ∧
      (s.gather ar workers).totalExe =
        ((s.entries ar workers).map (fun x => x.2.executed)).sum % wordSize ∧
      (s.gather ar workers).perQueue = (s.entries ar workers).map (fun x => x.2.metrics ar) := by
  rw [gather_eq_foldl]
  generalize s.entries ar workers = l
  induction l using List.reverseRecOn with
  | nil => exact ⟨rfl, rfl, rfl⟩
  | append_singleton l x ih =>
    rw [List.foldl_append, List.foldl_cons, List.foldl_nil]
    generalize l.foldl _ _ = g at ih ⊢
    obtain ⟨henq, hexe, hper⟩ := ih
    simp [Gathered.addQueue, henq, hexe, hper, wadd]

/-- The queues of the attached workers. -/
def keys (workers : List (Nat × W)) : List (W × QueueType) :=
  workers.flatMap (fun x => QueueType.all.map (fun q => (x.2, q)))

/-- The number of enqueued items of a queue. -/
def State.enqueuedOf (k : W × QueueType) : Nat := ((s.perf k.1).queues k.2).enqueuedCount

/-- All enqueued items of the attached workers. -/
def State.enqueued : Nat := ((keys workers).map s.enqueuedOf).sum

theorem nodup_all : QueueType.all.Nodup := by decide

theorem mem_all (q : QueueType) : q ∈ QueueType.all := by cases q <;> decide

theorem nodup_keys {workers : List (Nat × W)} (h : (workers.map Prod.snd).Nodup) :
    (keys workers).Nodup := by
  have hprod : keys workers = (workers.map Prod.snd) ×ˢ QueueType.all := by
    change _ = (workers.map Prod.snd).flatMap (fun w => QueueType.all.map (Prod.mk w))
    rw [List.flatMap_map]
    rfl
  rw [hprod]
  exact h.product nodup_all

/-- A sum over the entries is a sum over the queues, where those without an entry add
    nothing. -/
theorem sum_entries (f : QueueSnapshotPerf → Nat) :
    ((s.entries ar workers).map (fun x => f x.2)).sum =
      ((keys workers).map (fun k => (((s.perf k.1).queueSnapshot ar k.2).map f).getD 0)).sum := by
  have hqueues (p : WorkerPerf) (qs : List QueueType) :
      ((qs.filterMap (p.queueSnapshot ar)).map f).sum =
        (qs.map (fun q => ((p.queueSnapshot ar q).map f).getD 0)).sum := by
    induction qs with
    | nil => rfl
    | cons q qs ih =>
      cases hq : p.queueSnapshot ar q <;> simp [hq, ih]
  induction workers with
  | nil => rfl
  | cons x workers ih =>
    have hsplit : s.entries ar (x :: workers) =
        ((s.perf x.2).snapshot ar).map (fun qs => (x.1, qs)) ++ s.entries ar workers := rfl
    have hkeys : keys (x :: workers) =
        QueueType.all.map (fun q => (x.2, q)) ++ keys workers := rfl
    rw [hsplit, hkeys, List.map_append, List.sum_append, List.map_append, List.sum_append, ih,
      List.map_map, List.map_map]
    congr 1
    exact hqueues (s.perf x.2) QueueType.all

/-- What `collect()` takes for the executed items of a queue. -/
theorem executed_eq (p : WorkerPerf) (q : QueueType) :
    ((p.queueSnapshot ar q).map QueueSnapshotPerf.executed).getD 0 =
      if (p.queues q).enqueuedCount ≤ (p.queues q).totalExecNs then (p.queues q).enqueuedCount
      else 0 := by
  unfold WorkerPerf.queueSnapshot
  dsimp only
  split
  next hzero => simp [hzero]
  next hne =>
    have hpos : 0 < (p.queues q).enqueuedCount := Nat.pos_of_ne_zero hne
    simp only [Option.map_some, Option.getD_some, QueueSnapshotPerf.executed, hpos, if_true,
      and_true, Nat.div_pos_iff, true_and]

/-- What `collect()` makes of the baseline. -/
theorem collect_previous (nowNs : Nat) : (s.collect ar workers nowNs).1.previous =
      ⟨nowNs, (s.gather ar workers).totalEnq, (s.gather ar workers).totalExe⟩ := by
  simp only [State.collect]
  split <;> rfl

theorem collect_perf (nowNs : Nat) : (s.collect ar workers nowNs).1.perf = s.perf := by
  simp only [State.collect]
  split <;> rfl

end Sums

/-! ## Counting calls -/

section Counting

variable {K E : Type} [DecidableEq K]

/-- The number of events of key `k`. -/
def callsOf (key : E → Option K) (t : List E) (k : K) : Nat :=
  t.countP (fun e => decide (key e = some k))

/-- The number of events that have a key. -/
def calls (key : E → Option K) (t : List E) : Nat := t.countP (fun e => (key e).isSome)

theorem callsOf_cons (key : E → Option K) (e : E) (t : List E) (k : K) :
    callsOf key (e :: t) k = callsOf key t k + if key e = some k then 1 else 0 := by
  simp [callsOf, List.countP_cons]

/-- An event has one key at most. -/
theorem sum_key_le {ks : List K} (hks : ks.Nodup) (o : Option K) :
    (ks.map (fun k => if o = some k then 1 else 0)).sum ≤ if o.isSome then 1 else 0 := by
  induction ks with
  | nil => exact Nat.zero_le _
  | cons k ks ih =>
    obtain ⟨hk, hks⟩ := List.nodup_cons.mp hks
    rw [List.map_cons, List.sum_cons]
    by_cases ho : o = some k
    · have hrest : (ks.map (fun k' => if o = some k' then 1 else 0)).sum = 0 := by
        refine List.sum_eq_zero (fun n hn => ?_)
        obtain ⟨k', hk', rfl⟩ := List.mem_map.mp hn
        refine if_neg (fun ho' => hk ?_)
        rwa [Option.some.inj (ho.symm.trans ho')]
      rw [hrest, if_pos ho]
      simp [ho]
    · rw [if_neg ho, Nat.zero_add]
      exact ih hks

/-- Different keys share no events. -/
theorem sum_callsOf_le (key : E → Option K) {ks : List K} (hks : ks.Nodup) (t : List E) :
    (ks.map (callsOf key t)).sum ≤ calls key t := by
  induction t with
  | nil =>
    have hzero : callsOf key [] = fun _ => 0 := rfl
    simp [hzero]
  | cons e t ih =>
    have hsplit : (ks.map (callsOf key (e :: t))).sum = (ks.map (callsOf key t)).sum +
          (ks.map (fun k => if key e = some k then 1 else 0)).sum := by
      rw [← List.sum_map_add]
      exact congrArg List.sum (List.map_congr_left (fun k _ => callsOf_cons key e t k))
    rw [hsplit, calls, List.countP_cons]
    exact Nat.add_le_add ih (sum_key_le hks (key e))

theorem callsOf_le_calls (key : E → Option K) (t : List E) (k : K) :
    callsOf key t k ≤ calls key t := by
  have := sum_callsOf_le key (List.nodup_singleton k) t
  simpa using this

end Counting

/-- The queue that a `record_enqueue` is for. -/
def Event.enqueueKey {W D : Type} : Event W D → Option (W × QueueType)
  | .enqueueCalled w q => some (w, q)
  | _ => none

/-- The queue that a `record_exec` is for. -/
def Event.execKey {W D : Type} : Event W D → Option (W × QueueType)
  | .execCalled w q => some (w, q)
  | _ => none

/-! ## Whole runs -/

/-- What the calls of `collect()` reported, newest first: the executed delta, with what the
    executed items were taken to be. -/
def reports {W D : Type} : List (Event W D) → List (Nat × Nat)
  | [] => []
  | .collected m executed :: t => (m.totalExecutedDelta, executed) :: reports t
  | _ :: t => reports t

/-- The newer of two reports tells the growth since the older one. -/
def Grows (newer older : Nat × Nat) : Prop :=
  older.2 ≤ newer.2 ∧ newer.1 = newer.2 - older.2

section Runs

variable {W D : Type} [DecidableEq W] {ar : Doubles D} {workers : List (Nat × W)}
  {t : List (Event W D)} {s s' : State W D}

/-- Whenever `collect()` is called, each queue of the attached workers has at least as many
    `record_exec` calls as enqueued items and at least one nanosecond of recorded time for each
    of these; and the clock does not show 0. -/
def Steady (workers : List (Nat × W)) (t : List (Event W D)) (s : State W D) : Act W D → Prop
  | .collect nowNs => nowNs ≠ 0 ∧ ∀ k ∈ keys workers,
      s.enqueuedOf k ≤ ((s.perf k.1).queues k.2).totalExecNs ∧
      s.enqueuedOf k ≤ callsOf Event.execKey t k
  | _ => True

instance (workers : List (Nat × W)) (t : List (Event W D)) (s : State W D) (act : Act W D) :
    Decidable (Steady workers t s act) :=
  match act with
  | .collect .. => inferInstanceAs (Decidable (_ ∧ _))
  | .setLevel .. | .recordEnqueue .. | .recordDequeue .. | .recordExec .. | .setIoMetrics .. =>
    isTrue trivial

omit [DecidableEq W] in
theorem modify_enqueuedCount (p : WorkerPerf) (q r : QueueType) {f : QueuePerf → QueuePerf}
    (hf : ∀ qp, (f qp).enqueuedCount = qp.enqueuedCount) :
    ((p.modify r f).queues q).enqueuedCount = (p.queues q).enqueuedCount := by
  rcases eq_or_ne q r with rfl | hne
  · simp [WorkerPerf.modify, hf]
  · simp [WorkerPerf.modify, hne]

theorem record_enqueuedOf (u : W) {f : WorkerPerf → WorkerPerf} {k : W × QueueType}
    (hf : ∀ p, ((f p).queues k.2).enqueuedCount = (p.queues k.2).enqueuedCount) :
    (s.record u f).enqueuedOf k = s.enqueuedOf k := by
  rcases eq_or_ne k.1 u with rfl | hne
  · simp [State.record, State.enqueuedOf, hf]
  · simp [State.record, State.enqueuedOf, hne]

/-- A step leaves the number of enqueued items of a queue as it is or counts one more. -/
theorem step_enqueuedOf (act : Act W D) (k : W × QueueType) :
    (step ar workers s act).enqueuedOf k = s.enqueuedOf k ∨
      (∃ now, act = .recordEnqueue k.1 k.2 now) ∧
        (step ar workers s act).enqueuedOf k = wadd (s.enqueuedOf k) 1 := by
  cases act with
  | setLevel u level => exact .inl (record_enqueuedOf (f := (·.setLevel level)) u (fun p => rfl))
  | recordEnqueue u r now =>
    obtain ⟨w, q⟩ := k
    by_cases hcount : w = u ∧ q = r ∧ (s.perf u).level ≠ .none
    · obtain ⟨rfl, rfl, hlevel⟩ := hcount
      refine .inr ⟨⟨now, rfl⟩, ?_⟩
      simp [step, State.record, State.enqueuedOf, WorkerPerf.recordEnqueue, hlevel,
        WorkerPerf.modify]
    · refine .inl ?_
      rcases eq_or_ne w u with rfl | hne
      · simp only [step, State.record, State.enqueuedOf, update_self, WorkerPerf.recordEnqueue]
        split
        next => rfl
        next hlevel =>
          have hqr : q ≠ r := fun h => hcount ⟨rfl, h, hlevel⟩
          simp [WorkerPerf.modify, hqr]
      · simp [step, State.record, State.enqueuedOf, hne]
  | recordDequeue u r enqueueNs now =>
    refine .inl (record_enqueuedOf (f := (·.recordDequeue r enqueueNs now)) u (fun p => ?_))
    dsimp only [WorkerPerf.recordDequeue]
    split
    next => rfl
    next => exact modify_enqueuedCount p k.2 r (fun _ => rfl)
  | recordExec u r execNs =>
    refine .inl (record_enqueuedOf (f := (·.recordExec r execNs)) u (fun p => ?_))
    dsimp only [WorkerPerf.recordExec]
    split
    next => rfl
    next => exact modify_enqueuedCount p k.2 r (fun _ => rfl)
  | setIoMetrics ops bytes => exact .inl rfl
  | collect nowNs =>
    refine .inl ?_
    change ((s.collect ar workers nowNs).1).enqueuedOf k = _
    rw [State.enqueuedOf, collect_perf]
    rfl

/-- What is known after every steady run. -/
structure Counted (workers : List (Nat × W)) (t : List (Event W D)) (s : State W D) : Prop where
  enqueues : ∀ k, s.enqueuedOf k ≤ callsOf Event.enqueueKey t k
  /-- The executed items of the last report were enqueued, and there were `record_exec` calls
      for them. -/
  grown : s.previous.totalExecuted ≤ s.enqueued workers
  backed : s.previous.totalExecuted ≤ calls Event.execKey t
  first : reports t = [] → s.previous.lastNs = 0
  last : ∀ r ∈ (reports t).head?, s.previous.lastNs ≠ 0 ∧ s.previous.totalExecuted = r.2
  chain : (reports t).IsChain Grows

/-- A key that an event adds to. -/
theorem calls_le_record (key : Event W D → Option (W × QueueType)) (act : Act W D) :
    calls key t ≤ calls key ((machine ar workers).record s act t) :=
  ((machine ar workers).suffix_record s act t).sublist.countP_le

/-- No counter comes round while there are fewer than `2 ^ 64` enqueues. -/
theorem Counted.le_step (h : Counted workers t s) (act : Act W D)
    (hlen : calls Event.enqueueKey ((machine ar workers).record s act t) < wordSize)
    (k : W × QueueType) : s.enqueuedOf k ≤ (step ar workers s act).enqueuedOf k ∧
      (step ar workers s act).enqueuedOf k ≤
        callsOf Event.enqueueKey ((machine ar workers).record s act t) k := by
  have hcalls : callsOf Event.enqueueKey t k ≤
      callsOf Event.enqueueKey ((machine ar workers).record s act t) k :=
    ((machine ar workers).suffix_record s act t).sublist.countP_le
  have hold := h.enqueues k
  have hstep : (step ar workers s act).enqueuedOf k = _ ∨ _ := step_enqueuedOf act k
  rcases hstep with heq | ⟨⟨now, rfl⟩, heq⟩
  · rw [heq]
    exact ⟨Nat.le_refl _, hold.trans hcalls⟩
  · have hone : callsOf Event.enqueueKey
        ((machine ar workers).record s (.recordEnqueue k.1 k.2 now) t) k =
          callsOf Event.enqueueKey t k + 1 := by
      rw [Machine.record_some t rfl, callsOf_cons]
      simp [Event.enqueueKey]
    have htotal := callsOf_le_calls Event.enqueueKey
      ((machine ar workers).record s (.recordEnqueue k.1 k.2 now) t) k
    rw [heq, wadd_eq (by omega)]
    omega

omit [DecidableEq W] in
/-- Reports that grow: the first count and the deltas since add up to the last count. -/
theorem sum_deltas {l : List (Nat × Nat)} (h : l.IsChain Grows) {last first : Nat × Nat}
    (hlast : l.head? = some last) (hfirst : l.getLast? = some first) :
    first.2 + (l.dropLast.map Prod.fst).sum = last.2 := by
  induction l generalizing last with
  | nil => cases hlast
  | cons r l ih =>
    cases hlast
    cases l with
    | nil =>
      cases hfirst
      rfl
    | cons r' l =>
      obtain ⟨hgrows, hchain⟩ := List.isChain_cons_cons.mp h
      have hsum := ih hchain rfl (by simpa using hfirst)
      obtain ⟨hle, hdelta⟩ := hgrows
      rw [List.dropLast_cons_cons, List.map_cons, List.sum_cons]
      omega

/-- What a steady `collect()` takes for the executed items. -/
theorem Counted.collects (h : Counted workers t s) (hset : (workers.map Prod.snd).Nodup)
    (hlen : calls Event.enqueueKey t < wordSize)
    (hsteady : ∀ k ∈ keys workers, s.enqueuedOf k ≤ ((s.perf k.1).queues k.2).totalExecNs) :
    (s.gather ar workers).totalExe = s.enqueued workers ∧ s.enqueued workers < wordSize := by
  have hsmall : s.enqueued workers < wordSize := by
    refine Nat.lt_of_le_of_lt ?_ hlen
    refine Nat.le_trans ?_ (sum_callsOf_le Event.enqueueKey (nodup_keys hset) t)
    exact List.sum_le_sum (fun k _ => h.enqueues k)
  refine ⟨?_, hsmall⟩
  rw [(gather_spec ar workers s).2.1, sum_entries]
  have hsame : (keys workers).map (fun k =>
      (((s.perf k.1).queueSnapshot ar k.2).map QueueSnapshotPerf.executed).getD 0) =
        (keys workers).map s.enqueuedOf := by
    refine List.map_congr_left (fun k hk => ?_)
    rw [executed_eq]
    exact if_pos (hsteady k hk)
  rw [hsame]
  exact Nat.mod_eq_of_lt hsmall

/-- A call of `collect()`. -/
theorem Counted.collect (h : Counted workers t s) (hset : (workers.map Prod.snd).Nodup)
    {nowNs : Nat} (hsteady : Steady workers t s (.collect nowNs))
    (hlen : calls Event.enqueueKey ((machine ar workers).record s (.collect nowNs) t) < wordSize) :
    Counted workers ((machine ar workers).record s (.collect nowNs) t)
      (step ar workers s (.collect nowNs)) := by
  obtain ⟨hnow, hqueues⟩ := hsteady
  have hold := (calls_le_record (t := t) Event.enqueueKey (.collect nowNs)).trans_lt hlen
  obtain ⟨hexe, hsmall⟩ : (s.gather ar workers).totalExe = _ ∧ _ :=
    h.collects hset hold (fun k hk => (hqueues k hk).1)
  have hprev : (step ar workers s (.collect nowNs)).previous =
      ⟨nowNs, (s.gather ar workers).totalEnq, s.enqueued workers⟩ := by
    rw [← hexe]
    exact collect_previous ar workers s nowNs
  have henq : (step ar workers s (.collect nowNs)).enqueuedOf = s.enqueuedOf := by
    funext k
    change ((s.collect ar workers nowNs).1).enqueuedOf k = _
    rw [State.enqueuedOf, collect_perf]
    rfl
  have htrace : (machine ar workers).record s (.collect nowNs) t =
      .collected (s.collect ar workers nowNs).2 (s.enqueued workers) :: t := by
    rw [Machine.record_eq_note, ← hexe]
    change .collected _ (s.collect ar workers nowNs).1.previous.totalExecuted :: t = _
    rw [collect_previous]
  rw [htrace]
  refine ⟨fun k => ?_, ?_, ?_, fun hnil => (by cases hnil), fun r hr => ?_, ?_⟩
  · rw [henq, callsOf_cons]
    exact (h.enqueues k).trans (Nat.le_add_right _ _)
  · rw [hprev]
    unfold State.enqueued
    rw [henq]
  · -- each enqueued item has its call of `record_exec`
    rw [hprev, calls, List.countP_cons_of_neg (by simp [Event.execKey])]
    refine Nat.le_trans ?_ (sum_callsOf_le Event.execKey (nodup_keys hset) t)
    exact List.sum_le_sum (fun k hk => (hqueues k hk).2)
  · cases hr
    rw [hprev]
    exact ⟨hnow, rfl⟩
  · rw [reports]
    cases hr : reports t with
    | nil => exact List.isChain_singleton _
    | cons r rs =>
      obtain ⟨hlast, hcount⟩ := h.last r (by rw [hr]; rfl)
      have hle : r.2 ≤ s.enqueued workers := by
        rw [← hcount]
        exact h.grown
      refine List.isChain_cons_cons.mpr ⟨⟨hle, ?_⟩, hr ▸ h.chain⟩
      have hdelta : (s.collect ar workers nowNs).2.totalExecutedDelta =
          wsub (s.gather ar workers).totalExe s.previous.totalExecuted := by
        simp only [State.collect, if_neg hlast]
      rw [hdelta, hexe, hcount, wsub_eq hle hsmall]

/-- What is known, after every steady run. -/
theorem counted_exec (hset : (workers.map Prod.snd).Nodup)
    (hrun : Exec (machine ar workers) (Steady workers) (init ar) t s)
    (hlen : calls Event.enqueueKey t < wordSize) : Counted workers t s := by
  revert hlen
  refine hrun.invariant (fun t s => calls Event.enqueueKey t < wordSize → Counted workers t s) ?_ ?_
  · intro _
    exact ⟨fun _ => Nat.zero_le _, Nat.zero_le _, Nat.zero_le _, fun _ => rfl,
      fun r hr => (by cases hr), List.isChain_nil⟩
  intro t s act s' ih hsteady hstep hnew
  cases hstep
  have h := ih ((calls_le_record Event.enqueueKey act).trans_lt hnew)
  have hle := h.le_step act hnew
  have hexec : calls Event.execKey t ≤
      calls Event.execKey ((machine ar workers).record s act t) := calls_le_record Event.execKey act
  -- all other calls leave the baseline and add no report
  have keeps (hprev : (step ar workers s act).previous = s.previous)
      (hreports : reports ((machine ar workers).record s act t) = reports t) :
      Counted workers ((machine ar workers).record s act t) (step ar workers s act) := by
    refine ⟨fun k => (hle k).2, ?_, ?_, ?_, ?_, ?_⟩
    · rw [hprev]
      exact h.grown.trans (List.sum_le_sum (fun k _ => (hle k).1))
    · rw [hprev]
      exact h.backed.trans hexec
    · rw [hprev, hreports]
      exact h.first
    · rw [hprev, hreports]
      exact h.last
    · rw [hreports]
      exact h.chain
  cases act with
  | collect nowNs => exact h.collect hset hsteady hnew
  | _ => exact keeps rfl rfl

/-- **Executed counts never run backwards**, if whenever `collect()` is called each queue has
    at least as many `record_exec` calls, and at least as many recorded nanoseconds, as
    enqueued items: for every set of workers and every sequence of calls with fewer than
    `2 ^ 64` enqueues, each report is the growth of the executed count since the one before,
    without wrap-around, and the first count with all deltas since is no more than the number
    of `record_exec` calls. -/
theorem executed_never_backwards (ar : Doubles D) (workers : List (Nat × W))
    (hset : (workers.map Prod.snd).Nodup)
    (hrun : Exec (machine ar workers) (Steady workers) (init ar) t s)
    (hlen : calls Event.enqueueKey t < wordSize) :
    (reports t).IsChain Grows ∧ ∀ first, (reports t).getLast? = some first →
        first.2 + ((reports t).dropLast.map Prod.fst).sum ≤ calls Event.execKey t := by
  have h := counted_exec hset hrun hlen
  refine ⟨h.chain, fun first hfirst => ?_⟩
  cases hhead : (reports t).head? with
  | none =>
    rw [List.head?_eq_none_iff.mp hhead] at hfirst
    cases hfirst
  | some last =>
    rw [sum_deltas h.chain hhead hfirst, ← (h.last last hhead).2]
    exact h.backed

end Runs

/-- Two workers, one of which records; three items are enqueued and executed between the
    first two calls of `collect()` and one before the third. -/
def steadyCalls : List (Act (Fin 2) ℚ) :=
  let w : Fin 2 := ⟨0, Nat.two_pos⟩
  List.flatten [[.setLevel w .count, .collect 1],
    List.replicate 3 (.recordEnqueue w .engine 5), List.replicate 3 (.recordExec w .engine 10),
    [.collect 7, .recordEnqueue w .netIo 8, .recordDequeue w .netIo 0 9,
      .recordExec w .netIo 4, .collect 10]]

theorem steady_deltas : ∃ (t : List (Event (Fin 2) ℚ)) (s : State (Fin 2) ℚ),
      Exec (machine exact [(0, 0), (1, 1)]) (Steady [(0, 0), (1, 1)]) (init exact) t s ∧
      reports t = [(1, 4), (3, 3), (0, 0)] ∧ calls Event.execKey t = 4 ∧
      (reports t).IsChain Grows ∧
      ∀ first, (reports t).getLast? = some first →
        first.2 + ((reports t).dropLast.map Prod.fst).sum ≤ calls Event.execKey t := by
  have hrun : Exec (machine exact [(0, 0), (1, 1)]) (Steady [(0, 0), (1, 1)])
      (init exact : State (Fin 2) ℚ) _ _ := exec_run steadyCalls
  exact ⟨_, _, hrun, by decide +kernel, by decide +kernel,
    executed_never_backwards exact _ (by decide) hrun (by decide +kernel)⟩

/-- An item is enqueued and executed in 10 ns; then ten more are enqueued, and the average is
    truncated to 0. -/
def burstCalls : List (Act (Fin 1) ℚ) :=
  List.flatten [[.setLevel 0 .count, .recordEnqueue 0 .engine 0, .recordExec 0 .engine 10,
    .collect 1], List.replicate 10 (.recordEnqueue 0 .engine 0), [.collect 2]]

/-- Five items are enqueued and one of them is executed. -/
def waitingCalls : List (Act (Fin 1) ℚ) :=
  List.flatten [[.setLevel 0 .count, .collect 1],
    List.replicate 5 (.recordEnqueue 0 .engine 0), [.recordExec 0 .engine 10, .collect 2]]

/-- In the burst the executed count falls from 1 to 0, and the delta wraps around; with items
    waiting, `collect()` reports five executions and there was one. -/
theorem executed_backwards : (∃ (t : List (Event (Fin 1) ℚ)) (s : State (Fin 1) ℚ),
      Exec (machine exact [(0, 0)]) Always (init exact) t s ∧
      reports t = [(2 ^ 64 - 1, 0), (0, 1)] ∧ calls Event.execKey t = 1) ∧
    ∃ (t : List (Event (Fin 1) ℚ)) (s : State (Fin 1) ℚ),
      Exec (machine exact [(0, 0)]) Always (init exact) t s ∧
      reports t = [(5, 5), (0, 0)] ∧ calls Event.execKey t = 1 := by
  have hburst : Exec (machine exact [(0, 0)]) Always (init exact : State (Fin 1) ℚ) _ _ :=
    exec_run burstCalls
  have hwaiting : Exec (machine exact [(0, 0)]) Always (init exact : State (Fin 1) ℚ) _ _ :=
    exec_run waitingCalls
  exact ⟨⟨_, _, hburst, by decide +kernel⟩, _, _, hwaiting, by decide +kernel⟩

end Metrics
