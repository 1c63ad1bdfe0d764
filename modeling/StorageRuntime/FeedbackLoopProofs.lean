import StorageRuntime.CapacityEstimateProofs
import StorageRuntime.DebounceProofs
import StorageRuntime.EngineSwapProofs

/-!
# FeedbackLoop — `runtime/feedback_loop.cc`, `runtime/strategy_decider.h` and
`runtime/strategy_executor.h`

Each `tick()` takes the metrics of one `collect()`, estimates the capacity, asks
the decider for a plan and applies a plan that was answered
`consecutive_samples` times in a row.  A tick is given here by the metrics that
`collect()` returned, whatever they are; the doubles are arbitrary.

* The part of `tick()` that counts is a debouncer (`debounced_exec`).
* The decider compares its answer with the plan in force under overload only.
  Under low load, and when the latency is high, it answers the same plan again
  once that plan is in force, and the loop rebuilds all engine queues for it.
-/

namespace FeedbackLoop

open Interleaving WordArithmetic Metrics EngineSwap WorkQueue

inductive DispatchStrategy where
  | directAll
  | dispatchSingle
  | dispatchMultiple
  | mixed
deriving DecidableEq

/-- A plan; `operator==` compares all fields. -/
structure DispatchPlan where
  strategy : DispatchStrategy
  directWorkers : Nat
  dispatchThreads : Nat
  consumersPerDispatch : Nat
deriving DecidableEq

/-- `HardwareTopology::probe().nic_queues`. -/
def nicQueues : Nat := 4

/-! ## StrategyDecider -/

structure DeciderConfig (D : Type) where
  utilizationHigh : D
  utilizationLow : D
  latencyP99Degrade : D
  hysteresis : D

section Decider

variable {D : Type} (ar : Doubles D)

/-- The defaults of `StrategyDeciderConfig`. -/
def DeciderConfig.default : DeciderConfig D where
  utilizationHigh := ar.lit 0.85
  utilizationLow := ar.lit 0.30
  latencyP99Degrade := ar.lit 2.0
  hysteresis := ar.lit 0.1

/-- The plan for overload and for high latency. -/
def directPlan : DispatchPlan := ⟨.directAll, nicQueues, 0, 1⟩

/-- The plan for low load. -/
def singlePlan : DispatchPlan := ⟨.dispatchSingle, 0, 1, nicQueues⟩

/-- `baseline_latency_us_` after the first lines of `decide`. -/
def baselineAfter (baseline : D) (cap : Capacity D) : D :=
  if ar.eq baseline ar.zero ∧ ar.lt ar.zero cap.avgLatencyUs then cap.avgLatencyUs else baseline

/-- The rest of `decide`. -/
def answerOf (cfg : DeciderConfig D) (baseline : D) (cap : Capacity D) (current : DispatchPlan) :
    Option DispatchPlan :=
  if ar.lt (ar.add cfg.utilizationLow cfg.hysteresis) cap.utilization
      ∧ ar.lt cap.utilization (ar.sub cfg.utilizationHigh cfg.hysteresis)
      ∧ ar.lt cap.avgLatencyUs (ar.mul baseline cfg.latencyP99Degrade) then none
  else if ar.lt cfg.utilizationHigh cap.utilization then
    if wadd (wadd current.directWorkers current.dispatchThreads) 1 ≤ nicQueues then
      some directPlan
    else none
  else if ar.lt cap.utilization cfg.utilizationLow then some singlePlan
  else if ar.lt ar.zero baseline
      ∧ ar.lt (ar.mul baseline cfg.latencyP99Degrade) cap.avgLatencyUs then some directPlan
  else none

/-- `decide`, with the baseline that it leaves. -/
def StrategyDecider.decide (cfg : DeciderConfig D) (baseline : D) (cap : Capacity D)
    (current : DispatchPlan) : Option DispatchPlan × D :=
  let baseline := baselineAfter ar baseline cap
  (answerOf ar cfg baseline cap current, baseline)

end Decider

/-! ## StrategyExecutor and apply_plan -/

structure DecisionRecord (D : Type) where
  timestampNs : Nat
  fromPlan : DispatchPlan
  toPlan : DispatchPlan
  utilizationBefore : D
  p99LatencyBefore : D
  reason : String

section Apply

variable {T : Type} [Inhabited T]

/-- The new engine queue of worker `i`. -/
def engineQueue (plan : DispatchPlan) (i : Nat) : Option (Queue T) :=
  if i < plan.directWorkers then make 200000 .local else make 65536 .ring

/-- The turns that `swap_engine_queue` takes: one for each item and one to see that the old
    queue is empty. -/
def turns (w : Worker T) : Nat :=
  match w.queues[w.idxEngine]? with
  | some old => old.items.length + 1
  | none => 0

/-- The body of the loop of `apply_plan`. -/
def rebuild (plan : DispatchPlan) (i : Nat) (w : Worker T) : Option (Worker T) :=
  (engineQueue plan i).bind (fun new => (w.swapEngineQueue new (turns w)).map Prod.snd)

/-- `apply_plan` on a group of workers. -/
def applyPlan (plan : DispatchPlan) (group : List (Worker T)) : List (Worker T) :=
  group.mapIdx (fun i w => (rebuild plan i w).getD w)

/-- No worker is passed over: each gets its new queue. -/
theorem rebuild_isSome (plan : DispatchPlan) (i : Nat) (w : Worker T) :
    (rebuild plan i w).isSome = true := by
  have hmake : ∃ new : Queue T, engineQueue plan i = some new := by
    unfold engineQueue
    split
    · exact ⟨_, rfl⟩
    · exact ⟨_, (Option.some_get (by rfl)).symm⟩
  obtain ⟨new, hnew⟩ := hmake
  rw [rebuild, hnew]
  cases hold : w.queues[w.idxEngine]? with
  | none => simp [Worker.swapEngineQueue, hold]
  | some old =>
    have hturns : old.items.length < turns w := by simp [turns, hold]
    simp [swapEngineQueue_eq hold hturns]

theorem length_applyPlan (plan : DispatchPlan) (group : List (Worker T)) :
    (applyPlan plan group).length = group.length := by
  simp [applyPlan]

end Apply

/-! ## FeedbackLoop -/

/-- The configuration of the loop and of its decider. -/
structure Config (D : Type) where
  consecutiveSamples : Nat
  decider : DeciderConfig D
  small : consecutiveSamples < wordSize

/-- The loop with its decider and its executor. -/
structure State (D T : Type) where
  currentPlan : DispatchPlan
  pendingPlan : Option DispatchPlan
  consecutiveSame : Nat
  tickCount : Nat
  workers : Option (List (Worker T))
  baselineLatencyUs : D
  history : List (DecisionRecord D)

/-- A decision that `tick()` reached. -/
structure Decision (D : Type) where
  metrics : RuntimeMetrics D
  /-- The plan in force. -/
  current : DispatchPlan
  /-- What the decider answered. -/
  answer : Option DispatchPlan
  /-- The plan that `apply_plan` was called with. -/
  attempted : Option DispatchPlan
  /-- What `tick()` returned. -/
  applied : Bool

inductive Act (D T : Type) where
  | bindWorkers (group : Option (List (Worker T)))
  /-- `tick()`, at the time `nowNs`; `collect()` returned `m`. -/
  | tick (m : RuntimeMetrics D) (nowNs : Nat)

inductive Event (D : Type) where
  | bound
  | decided (d : Decision D)

section Loop

variable {D T : Type} (ar : Doubles D)

def init : State D T where
  currentPlan := ⟨.directAll, 4, 0, 0⟩
  pendingPlan := none
  consecutiveSame := 0
  tickCount := 0
  workers := none
  baselineLatencyUs := ar.zero
  history := []

def State.bindWorkers (s : State D T) (group : Option (List (Worker T))) : State D T :=
  { s with
    workers := group
    currentPlan := match group with
      | none => s.currentPlan
      | some g => { s.currentPlan with directWorkers := 0, consumersPerDispatch := g.length } }

/-- `switch_count()`. -/
def State.switchCount (s : State D T) : Nat := s.history.length

def State.activeWorkers (s : State D T) : Nat :=
  match s.workers with
  | none => 1
  | some g => g.length

/-- The reason that is written into the record of a switch. -/
def reasonOf (utilization : D) : String :=
  if ar.lt (ar.lit 0.8) utilization then "overload"
  else if ar.lt utilization (ar.lit 0.3) then "underload"
  else "latency_spike"

variable [Inhabited T]

/-- `apply_plan`, and what follows if it returns true. -/
def State.switchTo (s : State D T) (cap : Capacity D) (nowNs : Nat) (plan : DispatchPlan) :
    State D T :=
  match s.workers with
  | none => s
  | some group =>
    { s with
      workers := some (applyPlan plan group)
      history := s.history ++
        [{ timestampNs := nowNs
           fromPlan := s.currentPlan
           toPlan := plan
           utilizationBefore := cap.utilization
           p99LatencyBefore := cap.avgLatencyUs
           reason := reasonOf ar cap.utilization }]
      currentPlan := plan }

/-- The steps of `tick()` after the decision: the debouncing and the switch. -/
def State.react (cfg : Config D) (s : State D T) (m : RuntimeMetrics D) (cap : Capacity D)
    (nowNs : Nat) : Option DispatchPlan → State D T × Decision D
  | none =>
    ({ s with pendingPlan := none, consecutiveSame := 0 }, ⟨m, s.currentPlan, none, none, false⟩)
  | some plan =>
    let same := if s.pendingPlan = some plan then wadd s.consecutiveSame 1 else 1
    if cfg.consecutiveSamples ≤ same then
      ({ s.switchTo ar cap nowNs plan with pendingPlan := none, consecutiveSame := 0 },
        ⟨m, s.currentPlan, some plan, some plan, s.workers.isSome⟩)
    else
      ({ s with pendingPlan := some plan, consecutiveSame := same },
        ⟨m, s.currentPlan, some plan, none, false⟩)

/-- `tick()`, with the decision that it reached. -/
def State.tick (cfg : Config D) (s : State D T) (m : RuntimeMetrics D) (nowNs : Nat) :
    State D T × Option (Decision D) :=
  let s := { s with tickCount := wadd s.tickCount 1 }
  if ar.lt m.elapsedSeconds ar.one then (s, none)
  else
    let cap := Capacity.estimate ar m s.activeWorkers
    let r := StrategyDecider.decide ar cfg.decider s.baselineLatencyUs cap s.currentPlan
    let x := { s with baselineLatencyUs := r.2 }.react ar cfg m cap nowNs r.1
    (x.1, some x.2)

def machine (cfg : Config D) : Machine (State D T) (Act D T) (Event D) where
  step s act := some (match act with
    | .bindWorkers group => s.bindWorkers group
    | .tick m nowNs => (s.tick ar cfg m nowNs).1)
  event s act := match act with
    | .bindWorkers _ => some .bound
    | .tick m nowNs => (s.tick ar cfg m nowNs).2.map .decided

/-! ## What a tick does -/

/-- The capacity that a tick estimates. -/
def State.capacity (s : State D T) (m : RuntimeMetrics D) : Capacity D :=
  Capacity.estimate ar m s.activeWorkers

/-- The loop when `tick()` has asked the decider. -/
def State.asked (s : State D T) (m : RuntimeMetrics D) : State D T :=
  { s with
    tickCount := wadd s.tickCount 1
    baselineLatencyUs := baselineAfter ar s.baselineLatencyUs (s.capacity ar m) }

/-- What the decider answers. -/
def State.answer (cfg : Config D) (s : State D T) (m : RuntimeMetrics D) : Option DispatchPlan :=
  answerOf ar cfg.decider (baselineAfter ar s.baselineLatencyUs (s.capacity ar m))
    (s.capacity ar m) s.currentPlan

/-- The ways of a tick. -/
inductive TickMove (cfg : Config D) (s : State D T) (m : RuntimeMetrics D) (nowNs : Nat) :
    State D T × Option (Decision D) → Prop where
  /-- The sample is too short. -/
  | short : TickMove cfg s m nowNs ({ s with tickCount := wadd s.tickCount 1 }, none)
  | clears : ar.lt m.elapsedSeconds ar.one ≠ true → s.answer ar cfg m = none →
      TickMove cfg s m nowNs
      ({ s.asked ar m with pendingPlan := none, consecutiveSame := 0 },
        some ⟨m, s.currentPlan, none, none, false⟩)
  | counts {plan : DispatchPlan} (same : Nat) : ar.lt m.elapsedSeconds ar.one ≠ true →
      s.answer ar cfg m = some plan → TickMove cfg s m nowNs
      ({ s.asked ar m with pendingPlan := some plan, consecutiveSame := same },
        some ⟨m, s.currentPlan, some plan, none, false⟩)
  | fires {plan : DispatchPlan} : ar.lt m.elapsedSeconds ar.one ≠ true →
      s.answer ar cfg m = some plan → TickMove cfg s m nowNs
      ({ (s.asked ar m).switchTo ar (s.capacity ar m) nowNs plan with
          pendingPlan := none, consecutiveSame := 0 },
        some ⟨m, s.currentPlan, some plan, some plan, s.workers.isSome⟩)

/-- A tick whose sample is long enough asks the decider. -/
theorem tick_long (cfg : Config D) (s : State D T) {m : RuntimeMetrics D} (nowNs : Nat)
    (hlong : ar.lt m.elapsedSeconds ar.one ≠ true) : s.tick ar cfg m nowNs =
      (((s.asked ar m).react ar cfg m (s.capacity ar m) nowNs (s.answer ar cfg m)).1,
        some ((s.asked ar m).react ar cfg m (s.capacity ar m) nowNs (s.answer ar cfg m)).2) := by
  rw [State.tick, if_neg hlong]
  rfl

theorem tick_moves (cfg : Config D) (s : State D T) (m : RuntimeMetrics D) (nowNs : Nat) :
    TickMove ar cfg s m nowNs (s.tick ar cfg m nowNs) := by
  by_cases hlong : ar.lt m.elapsedSeconds ar.one = true
  · rw [State.tick, if_pos hlong]
    exact .short
  · rw [tick_long ar cfg s nowNs hlong]
    cases hanswer : s.answer ar cfg m with
    | none => exact .clears hlong hanswer
    | some plan =>
      rw [State.react]
      generalize (if (s.asked ar m).pendingPlan = some plan then _ else 1) = same
      split
      · exact .fires hlong hanswer
      · exact .counts same hlong hanswer

end Loop

/-! ## The debouncing -/

/-- The decisions of a run, newest first. -/
def decisions {D : Type} (t : List (Event D)) : List (Decision D) :=
  t.filterMap (fun
    | .decided d => some d
    | .bound => none)

/-- What the debouncer sees of a decision. -/
def Decision.entry {D : Type} (d : Decision D) : Option DispatchPlan × Option DispatchPlan :=
  (d.answer, d.attempted)

/-- What a switch changes. -/
def State.inForce {D T : Type} (s : State D T) :
    DispatchPlan × Option (List (Worker T)) × List (DecisionRecord D) :=
  (s.currentPlan, s.workers, s.history)

section Debouncing

variable {D T : Type} [Inhabited T] {ar : Doubles D} {cfg : Config D} {t : List (Event D)}
  {s : State D T}

/-- What every decision of a tick satisfies, every decision of a run does. -/
theorem decisions_exec {C : List (Event D) → State D T → Act D T → Prop} {P : Decision D → Prop}
    {s₀ : State D T} (hrun : Exec (machine ar cfg) C s₀ t s)
    (hP : ∀ (t : List (Event D)) (s : State D T) (m : RuntimeMetrics D) (nowNs : Nat),
      C t s (.tick m nowNs) → ∀ d ∈ (s.tick ar cfg m nowNs).2, P d) :
    ∀ d, .decided d ∈ t → P d := by
  refine hrun.invariant (fun t _ => ∀ d, .decided d ∈ t → P d)
    (fun _ h => absurd h List.not_mem_nil) ?_
  intro t s act s' ih hc hstep d hd
  rw [Machine.record_eq_note] at hd
  rcases mem_note_iff.mp hd with hnew | hold
  · cases act with
    | bindWorkers group => cases hnew
    | tick m nowNs =>
      obtain ⟨d', hd', heq⟩ := Option.map_eq_some_iff.mp hnew
      cases heq
      exact hP t s m nowNs hc d hd'
  · exact ih d hold

/-- A plan is applied only if it was attempted, and attempted only if it was answered. -/
theorem tick_decision (s : State D T) (m : RuntimeMetrics D) (nowNs : Nat) :
    ∀ d ∈ (s.tick ar cfg m nowNs).2, d.current = s.currentPlan ∧ d.metrics = m ∧
      (d.applied = true → d.attempted.isSome = true) ∧ ∀ plan, d.attempted = some plan →
        ar.lt m.elapsedSeconds ar.one ≠ true ∧ s.answer ar cfg m = some plan := by
  have hm := tick_moves ar cfg s m nowNs
  generalize s.tick ar cfg m nowNs = x at hm ⊢
  cases hm with
  | short => rintro d ⟨⟩
  | clears | counts =>
    rintro d ⟨⟩
    exact ⟨rfl, rfl, fun h => (by cases h), fun plan h => (by cases h)⟩
  | fires hlong hanswer =>
    rintro d ⟨⟩
    exact ⟨rfl, rfl, fun _ => rfl, fun plan h => ⟨hlong, hanswer.trans h⟩⟩

theorem switchTo_unbound (h : s.workers = none) {cap : Capacity D} {nowNs : Nat}
    {plan : DispatchPlan} : s.switchTo ar cap nowNs plan = s := by
  simp only [State.switchTo, h]

end Debouncing

/-- The defaults of the loop and of its decider. -/
def Config.default {D : Type} (ar : Doubles D) : Config D where
  consecutiveSamples := 3
  decider := DeciderConfig.default ar
  small := by decide

/-- Metrics of two seconds in which the engine queue was busy for `busyNs`. -/
def sample (busyNs : Nat) : RuntimeMetrics ℚ where
  snapshotNs := 0
  elapsedSeconds := 2
  totalEnqueuedDelta := 1
  totalExecutedDelta := 1
  perQueue := [⟨.engine, 1, 1, busyNs, 0, 0, 0⟩]
  perWorker := []
  ioOpsPerSec := 0
  ioBytesPerSec := 0

/-- A group of one worker. -/
def oneWorker : List (Worker Nat) := [⟨[.local LocalQueue.new], 0, .indirect⟩]

section Settling

variable {D T : Type} {ar : Doubles D} {cfg : Config D}

/-- A baseline is taken once. -/
theorem baselineAfter_idem (baseline : D) (cap : Capacity D) :
    baselineAfter ar (baselineAfter ar baseline cap) cap = baselineAfter ar baseline cap := by
  by_cases h : ar.eq baseline ar.zero = true ∧ ar.lt ar.zero cap.avgLatencyUs = true
  · simp only [baselineAfter, if_pos h, ite_self]
  · simp only [baselineAfter, if_neg h]

/-- With the answer in force, the decider has no other one for the same capacity. -/
theorem answerOf_settles {dc : DeciderConfig D} {baseline : D} {cap : Capacity D}
    {current plan : DispatchPlan} (h : answerOf ar dc baseline cap current = some plan) :
    answerOf ar dc baseline cap plan = none ∨ answerOf ar dc baseline cap plan = some plan := by
  unfold answerOf at h ⊢
  split at h
  next => cases h
  next hhealthy =>
    rw [if_neg hhealthy]
    split at h
    next hover =>
      rw [if_pos hover]
      split at h
      next =>
        -- there are too few NIC queues to answer `directPlan` while it is in force
        cases h
        exact .inl (if_neg (by decide))
      next => cases h
    next hover =>
      rw [if_neg hover]
      exact .inr h

variable {t : List (Event D)} {s₀ s : State D T}

/-- The decider, when it is asked, never answers the plan in force. -/
def Changing (ar : Doubles D) (cfg : Config D) (_ : List (Event D)) (s : State D T) :
    Act D T → Prop
  | .tick m _ => ar.lt m.elapsedSeconds ar.one ≠ true → s.answer ar cfg m ≠ some s.currentPlan
  | .bindWorkers _ => True

instance (t : List (Event D)) (s : State D T) (act : Act D T) :
    Decidable (Changing ar cfg t s act) :=
  match act with
  | .tick _ _ => inferInstanceAs (Decidable (¬ _ → ¬ _))
  | .bindWorkers _ => isTrue trivial

/-- A decision on the metrics `m`. -/
def Event.On (m : RuntimeMetrics D) : Event D → Prop
  | .decided d => d.metrics = m
  | .bound => False

instance [DecidableEq D] (m : RuntimeMetrics D) (e : Event D) : Decidable (e.On m) :=
  match e with
  | .decided d => inferInstanceAs (Decidable (d.metrics = m))
  | .bound => isFalse id

/-- All decisions of a run were made on the metrics `m`, and no workers were bound. -/
def Constant (m : RuntimeMetrics D) (t : List (Event D)) : Prop := ∀ e ∈ t, e.On m

instance [DecidableEq D] (m : RuntimeMetrics D) (t : List (Event D)) : Decidable (Constant m t) :=
  inferInstanceAs (Decidable (∀ e ∈ t, e.On m))

/-- What is known on constant metrics: the estimate and the answers stay, and after a switch
    the decider has no other plan. -/
structure Settled (ar : Doubles D) (cfg : Config D) (m : RuntimeMetrics D) (s₀ s : State D T) :
    Prop where
  active : s.activeWorkers = s₀.activeWorkers
  baseline : baselineAfter ar s.baselineLatencyUs (s.capacity ar m) =
    baselineAfter ar s₀.baselineLatencyUs (s₀.capacity ar m)
  switches : s.switchCount = s₀.switchCount ∨
    s.switchCount = s₀.switchCount + 1 ∧
      (s.answer ar cfg m = none ∨ s.answer ar cfg m = some s.currentPlan)

variable {m : RuntimeMetrics D}

/-- A state with the same workers, baseline, plan and records. -/
theorem Settled.congr {s' : State D T} (h : Settled ar cfg m s₀ s)
    (hworkers : s'.activeWorkers = s.activeWorkers)
    (hbase : baselineAfter ar s'.baselineLatencyUs (s.capacity ar m) =
      baselineAfter ar s.baselineLatencyUs (s.capacity ar m))
    (hplan : s'.currentPlan = s.currentPlan) (hhistory : s'.history = s.history) :
    Settled ar cfg m s₀ s' := by
  have hcap : s'.capacity ar m = s.capacity ar m := by rw [State.capacity, hworkers]; rfl
  have hanswer : s'.answer ar cfg m = s.answer ar cfg m := by
    rw [State.answer, State.answer, hcap, hbase, hplan]
  refine ⟨hworkers.trans h.active, ?_, ?_⟩
  · rw [hcap, hbase]
    exact h.baseline
  · rw [hanswer, hplan, State.switchCount, hhistory]
    exact h.switches

theorem Settled.asked (h : Settled ar cfg m s₀ s) : Settled ar cfg m s₀ (s.asked ar m) :=
  h.congr rfl (baselineAfter_idem _ _) rfl rfl

theorem answer_asked : (s.asked ar m).answer ar cfg m = s.answer ar cfg m := by
  change answerOf ar cfg.decider
    (baselineAfter ar (baselineAfter ar s.baselineLatencyUs (s.capacity ar m)) (s.capacity ar m))
    (s.capacity ar m) s.currentPlan = _
  rw [baselineAfter_idem]
  rfl

/-- A switch to the answer, which was not in force. -/
theorem Settled.switched {s' : State D T} (h : Settled ar cfg m s₀ s)
    (hanswer : s.answer ar cfg m = some s'.currentPlan)
    (hchange : s'.currentPlan ≠ s.currentPlan) (hworkers : s'.activeWorkers = s.activeWorkers)
    (hbase : s'.baselineLatencyUs = s.baselineLatencyUs)
    (hcount : s'.switchCount = s.switchCount + 1) : Settled ar cfg m s₀ s' := by
  have hcap : s'.capacity ar m = s.capacity ar m := by rw [State.capacity, hworkers]; rfl
  -- there was no switch before: after it the decider had no other plan
  have hfirst : s.switchCount = s₀.switchCount := by
    rcases h.switches with hsame | ⟨-, hnone | hcurrent⟩
    · exact hsame
    · rw [hanswer] at hnone
      cases hnone
    · rw [hanswer] at hcurrent
      exact absurd (Option.some.inj hcurrent) hchange
  refine ⟨hworkers.trans h.active, ?_, .inr ⟨by rw [hcount, hfirst], ?_⟩⟩
  · rw [hcap, hbase]
    exact h.baseline
  · rw [State.answer, hcap, hbase]
    exact answerOf_settles hanswer

variable [Inhabited T]

/-- A tick that applies a plan puts another one in force. -/
theorem changing_inForce {nowNs : Nat} (hchange : Changing ar cfg t s (.tick m nowNs)) :
    (s.tick ar cfg m nowNs).1.inForce = s.inForce ∨
      (s.tick ar cfg m nowNs).1.currentPlan ≠ s.currentPlan := by
  have hm := tick_moves ar cfg s m nowNs
  generalize s.tick ar cfg m nowNs = x at hm ⊢
  cases hm with
  | short | clears | counts => exact .inl rfl
  | fires hlong hanswer =>
    cases hw : (s.asked ar m).workers with
    | none =>
      rw [switchTo_unbound hw]
      exact .inl rfl
    | some group =>
      simp only [State.switchTo, hw]
      exact .inr fun heq => hchange hlong (hanswer.trans (congrArg some heq))

theorem Settled.switchTo (h : Settled ar cfg m s₀ s) {plan : DispatchPlan}
    (hanswer : s.answer ar cfg m = some plan) (hchange : plan ≠ s.currentPlan)
    (cap : Capacity D) (nowNs : Nat) : Settled ar cfg m s₀ { s.switchTo ar cap nowNs plan with
      pendingPlan := none, consecutiveSame := 0 } := by
  cases hw : s.workers with
  | none =>
    rw [switchTo_unbound hw]
    exact h.congr rfl rfl rfl rfl
  | some group =>
    simp only [State.switchTo, hw]
    refine h.switched hanswer hchange ?_ rfl List.length_append
    simp only [State.activeWorkers, hw, length_applyPlan]

/-- A tick on the metrics `m`. -/
theorem Settled.tick (h : Settled ar cfg m s₀ s) {nowNs : Nat}
    (hchange : Changing ar cfg t s (.tick m nowNs)) :
    Settled ar cfg m s₀ (s.tick ar cfg m nowNs).1 := by
  have hm := tick_moves ar cfg s m nowNs
  generalize s.tick ar cfg m nowNs = x at hm ⊢
  cases hm with
  | short => exact h.congr rfl rfl rfl rfl
  | clears | counts => exact h.asked.congr rfl rfl rfl rfl
  | fires hlong hanswer =>
    refine h.asked.switchTo (answer_asked.trans hanswer) (fun heq => hchange hlong ?_) _ nowNs
    rw [hanswer, heq]
    rfl

/-- What is known on constant metrics, after every run. -/
theorem settled_exec (hrun : Exec (machine ar cfg) (Changing ar cfg) s₀ t s)
    (hconst : Constant m t) : Settled ar cfg m s₀ s := by
  revert hconst
  refine hrun.invariant (fun t s => Constant m t → Settled ar cfg m s₀ s)
    (fun _ => ⟨rfl, rfl, .inl rfl⟩) ?_
  intro t s act s' ih hchange hstep hconst
  cases hstep
  have hold : Constant m t :=
    fun e he => hconst e (((machine ar cfg).suffix_record s act t).subset he)
  have h := ih hold
  rw [Machine.record_eq_note] at hconst
  cases act with
  | bindWorkers group => exact absurd (hconst .bound List.mem_cons_self) id
  | tick m' nowNs =>
    cases hd : (s.tick ar cfg m' nowNs).2 with
    | none =>
      have hm := tick_moves ar cfg s m' nowNs
      dsimp only [machine]
      generalize s.tick ar cfg m' nowNs = x at hm hd ⊢
      cases hm with
      | short => exact h.congr rfl rfl rfl rfl
      | _ => cases hd
    | some d =>
      have hon : Event.On m (.decided d) := hconst _ (mem_note_iff.mpr
        (.inl (Option.map_eq_some_iff.mpr ⟨d, hd, rfl⟩)))
      obtain rfl : m' = m := (tick_decision s m' nowNs d hd).2.1.symm.trans hon
      exact h.tick hchange

/-- **The loop settles** if the decider never answers the plan in force: for every group of
    workers and every sequence of metrics, no plan is applied that is in force: a next tick
    leaves the plan, the workers and the records as they are or puts another plan in force.
    Where all decisions are made on the same metrics there is one switch at most, from
    whatever state the loop is in. -/
theorem feedback_settles (ar : Doubles D) (cfg : Config D)
    (hrun : Exec (machine ar cfg) (Changing ar cfg) s₀ t s) :
    (∀ d, .decided d ∈ t → d.applied = true → d.attempted ≠ some d.current) ∧
    (∀ m nowNs, Changing ar cfg t s (.tick m nowNs) →
      (s.tick ar cfg m nowNs).1.inForce = s.inForce ∨
        (s.tick ar cfg m nowNs).1.currentPlan ≠ s.currentPlan) ∧
    ∀ m, Constant m t → s.switchCount ≤ s₀.switchCount + 1 := by
  refine ⟨?_, fun m nowNs => changing_inForce, fun m hconst => ?_⟩
  · refine decisions_exec hrun (fun _ s m nowNs hchange d hd _ heq => ?_)
    obtain ⟨hcurrent, -, -, hanswer⟩ := tick_decision s m nowNs d hd
    rw [hcurrent] at heq
    obtain ⟨hlong, hanswer⟩ := hanswer _ heq
    exact hchange hlong hanswer
  · rcases (settled_exec hrun hconst).switches with h | ⟨h, -⟩ <;> omega

end Settling

/-- A new loop that is bound to a group of one worker. -/
def boundLoop : State ℚ Nat := (init exact).bindWorkers (some oneWorker)

/-- Under overload there is one switch, to `directPlan`. -/
theorem overload_switches_once : ∃ (t : List (Event ℚ)) (s : State ℚ Nat),
      Exec (machine exact (Config.default exact)) (Changing exact (Config.default exact))
        boundLoop t s ∧
      (decisions t).length = 7 ∧ s.currentPlan = directPlan ∧ s.switchCount = 1 ∧
      s.switchCount ≤ boundLoop.switchCount + 1 := by
  have hrun : Exec (machine exact (Config.default exact))
      (Changing exact (Config.default exact)) boundLoop _ _ :=
    exec_run (List.replicate 7 (.tick (sample 2000000000) 1))
  exact ⟨_, _, hrun, by decide +kernel, by decide +kernel, by decide +kernel,
    (feedback_settles exact _ hrun).2.2 (sample 2000000000) (by decide +kernel)⟩

/-- Six idle samples with the default configuration: the loop switches to `singlePlan` at the
    third one, and at the sixth one again. -/
theorem idle_switches_again :
    ∃ (t : List (Event ℚ)) (s : State ℚ Nat) (d : Decision ℚ) (older : List (Event ℚ)),
      Exec (machine exact (Config.default exact)) Always boundLoop t s ∧
      Constant (sample 0) t ∧ boundLoop.switchCount = 0 ∧ s.switchCount = 2 ∧
      t = .decided d :: older ∧ d.applied = true ∧ d.current = singlePlan ∧
      d.attempted = some singlePlan := by
  have hrun : Exec (machine exact (Config.default exact)) Always boundLoop _ _ :=
    exec_run (List.replicate 6 (.tick (sample 0) 1))
  exact ⟨_, _, _, _, hrun, by decide +kernel, rfl, by decide +kernel, rfl, by decide +kernel⟩

end FeedbackLoop
