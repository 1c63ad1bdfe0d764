import Mathlib.Algebra.Order.Ring.Int
import Mathlib.Data.List.Nodup
import StorageRuntime.InterleavingProofs
import StorageRuntime.PriorityQueueProofs

/-!
# Timers — sleeping coroutines wake on time, once and in order

`WorkerTimerState` and `OfflineTimerWheel` keep their nodes in a `std::priority_queue`
whose comparison is reversed, so that the earliest deadline is on top.  `expire(now)` pops
the nodes that are due; the timer coroutine of an `OnlineWorker`, or the global timer
thread, then hands them on one by one.  While it does so nodes may be inserted: by the
callbacks, and into the wheel by other threads.

A node carries the number of its insertion, which nothing reads: two insertions may agree
in all fields.  The queue is any queue with the laws of `PriorityQueue.Queue`, so nodes of
one deadline come in any order.

* **`timers_on_time`**: for every sequence of insertions and passes, each node is handed
  on once, in the first pass at or after its deadline and never earlier, and each pass
  hands its nodes on in the order of their deadlines; on an `OnlineWorker` a sleeping
  coroutine goes to the queue recorded when it suspended, or to the engine queue, and from
  the wheel to the affine queue of the worker on which it suspended.
-/

namespace Timer

open Interleaving PriorityQueue
open scoped List

/-- `TimerNode`.  An index or number is `none` for SIZE_MAX and `onExpire` for an empty
    function; `serial` is the number of the insertion. -/
structure TimerNode where
  deadline : Int
  sourceQueueIdx : Option Nat
  sourceWorkerId : Option Nat
  handle : Nat
  onExpire : Option Nat
  serial : Nat := 0
deriving DecidableEq, Repr

/-- `operator<`: reversed, since `std::priority_queue` puts the largest on top. -/
def TimerNode.less (a b : TimerNode) : Bool := decide (a.deadline > b.deadline)

/-- The test of the loop in `expire`. -/
def TimerNode.due (now : Int) (node : TimerNode) : Bool := decide (node.deadline ≤ now)

/-- The node that `SleepAwaiter::await_suspend` inserts: on an `OnlineWorker` without, on a
    `WorkStealingExecutor` with the number of the worker. -/
def SleepAwaiter.awaitSuspend (deadline : Int) (tlsSourceQueueIdx worker : Option Nat)
    (h : Nat) : TimerNode where
  deadline := deadline
  sourceQueueIdx := tlsSourceQueueIdx
  sourceWorkerId := worker
  handle := h
  onExpire := none

/-! ## Where an expired node goes -/

inductive Dest where
  | callback (f : Nat)
  /-- The queue of this index. -/
  | queue (idx h : Nat)
  /-- The affine queue of this worker. -/
  | affine (worker h : Nat)
  | nowhere
deriving DecidableEq, Repr

/-- What the timer coroutine knows of its `OnlineWorker`. -/
structure Worker where
  queueCount : Nat
  idxEngine : Nat
  idxEngine_lt : idxEngine < queueCount

/-- The queue that the timer coroutine looks up for a node. -/
def Worker.queueOf (w : Worker) (node : TimerNode) : Nat :=
  match node.sourceQueueIdx with
  | some idx => idx
  | none => w.idxEngine

/-- The body of the loop of `timer_coro_fn`; `get_queue` is null for an index out of range. -/
def Worker.timerCoroFn (w : Worker) (node : TimerNode) : Dest :=
  match node.onExpire with
  | some f => .callback f
  | none =>
    if w.queueOf node < w.queueCount then .queue (w.queueOf node) node.handle
    else .nowhere

/-- The body of the loop of the global timer thread; `known` are the workers for which
    `get_handle` has a handle. -/
def globalTimer (known : Nat → Bool) (node : TimerNode) : Dest :=
  match node.onExpire with
  | some f => .callback f
  | none =>
    match node.sourceWorkerId with
    | some worker => if known worker = true then .affine worker node.handle else .nowhere
    | none => .nowhere

/-! ## The machine -/

variable (Q : Queue TimerNode.less)

/-- `pending_`, the nodes of the current pass that are still to be handed on, and the number
    of insertions. -/
structure State where
  pending : Q.Carrier
  expired : List TimerNode
  inserted : Nat

def init : State Q where
  pending := Q.empty
  expired := []
  inserted := 0

variable {Q}

/-- The node as the next insertion puts it in. -/
def State.numbered (s : State Q) (node : TimerNode) : TimerNode :=
  { node with serial := s.inserted }

def State.insert (s : State Q) (node : TimerNode) : State Q :=
  { s with pending := Q.push (s.numbered node) s.pending, inserted := s.inserted + 1 }

/-- `expire(now)`: what it returns, and the queue it leaves. -/
def State.expire (s : State Q) (now : Int) : List TimerNode × Q.Carrier :=
  Q.popWhile (TimerNode.due now) s.pending

/-- A call of `insert`, the call of `expire` that begins a pass, and a turn of the loop over
    what it returned.  Calls on the wheel are atomic, since they hold its mutex. -/
inductive Act where
  | insert (node : TimerNode)
  /-- A coroutine suspends in a `SleepAwaiter`. -/
  | sleep (deadline : Int) (tlsSourceQueueIdx worker : Option Nat) (h : Nat)
  | expire (now : Int)
  | handOn
deriving Repr

inductive Event where
  | inserted (node : TimerNode)
  | expired (now : Int) (nodes : List TimerNode)
  | handed (node : TimerNode) (dest : Dest)
deriving DecidableEq, Repr

def step (s : State Q) : Act → Option (State Q)
  | .insert node => some (s.insert node)
  | .sleep deadline tls worker h =>
    some (s.insert (SleepAwaiter.awaitSuspend deadline tls worker h))
  | .expire now =>
    match s.expired with
    | [] => some { s with pending := (s.expire now).2, expired := (s.expire now).1 }
    | _ :: _ => none
  | .handOn =>
    match s.expired with
    | [] => none
    | _ :: rest => some { s with expired := rest }

def event (dest : TimerNode → Dest) (s : State Q) : Act → Option Event
  | .insert node => some (.inserted (s.numbered node))
  | .sleep deadline tls worker h =>
    some (.inserted (s.numbered (SleepAwaiter.awaitSuspend deadline tls worker h)))
  | .expire now => some (.expired now (s.expire now).1)
  | .handOn => s.expired.head?.map fun node => .handed node (dest node)

variable (Q) in
def machine (dest : TimerNode → Dest) : Machine (State Q) Act Event where
  step := step
  event := event dest

/-- What a step does, with the event that it shows. -/
inductive Move (dest : TimerNode → Dest) (s : State Q) : Option Event → State Q → Prop where
  | insert (node : TimerNode) : Move dest s (some (.inserted (s.numbered node))) (s.insert node)
  | expire (now : Int) : s.expired = [] → Move dest s (some (.expired now (s.expire now).1))
      { s with pending := (s.expire now).2, expired := (s.expire now).1 }
  | handOn {node : TimerNode} {rest : List TimerNode} : s.expired = node :: rest →
      Move dest s (some (.handed node (dest node))) { s with expired := rest }

variable {s : State Q} {t later earlier : List Event} {e : Event} {node : TimerNode}
  {dest : TimerNode → Dest}

theorem step_moves (dest : TimerNode → Dest) {s' : State Q} {a : Act} (h : step s a = some s') :
    Move dest s (event dest s a) s' := by
  cases a with
  | insert _ | sleep _ _ _ _ =>
    cases h
    exact Move.insert _
  | expire now =>
    simp only [step] at h
    split at h
    next hnone =>
      cases h
      exact Move.expire now hnone
    next => cases h
  | handOn =>
    simp only [step] at h
    split at h
    next => cases h
    next node rest hsome =>
      cases h
      rw [event, hsome]
      exact Move.handOn hsome

/-! ## What a run shows -/

/-- The nodes inserted, oldest first. -/
def insertions : List Event → List TimerNode
  | [] => []
  | .inserted node :: t => insertions t ++ [node]
  | _ :: t => insertions t

/-- The nodes returned by `expire`, in the order of the passes. -/
def returned : List Event → List TimerNode
  | [] => []
  | .expired _ nodes :: t => returned t ++ nodes
  | _ :: t => returned t

/-- The nodes handed on, in this order, and where they went. -/
def handedOn : List Event → List (TimerNode × Dest)
  | [] => []
  | .handed node dest :: t => handedOn t ++ [(node, dest)]
  | _ :: t => handedOn t

/-- All passes of `t` were before the deadline. -/
def Early (deadline : Int) (t : List Event) : Prop :=
  ∀ now nodes, Event.expired now nodes ∈ t → now < deadline

/-- What a pass returns: the nodes that are due, in the order of their deadlines, among them
    each node of which it is the first pass at or after the deadline. -/
structure Passes (t : List Event) : Prop where
  due : ∀ now nodes, Event.expired now nodes ∈ t → ∀ node ∈ nodes, node.deadline ≤ now
  ordered : ∀ now nodes, Event.expired now nodes ∈ t →
    nodes.Pairwise fun a b => a.deadline ≤ b.deadline
  first : ∀ later now nodes between node earlier,
    t = later ++ .expired now nodes :: (between ++ .inserted node :: earlier) →
    Early node.deadline between → node.deadline ≤ now → node ∈ nodes

/-- Each node is returned once: not before a pass at or after its deadline, and exactly once
    from then on. -/
structure OnTime (t : List Event) : Prop extends Passes t where
  notYet : ∀ later node earlier, t = later ++ .inserted node :: earlier →
    Early node.deadline later → (returned t).count node = 0
  once : ∀ later node earlier, t = later ++ .inserted node :: earlier →
    ¬ Early node.deadline later → (returned t).count node = 1

/-! ## The account -/

theorem less_eq_false {a b : TimerNode} : a.less b = false ↔ a.deadline ≤ b.deadline := by
  rw [TimerNode.less, decide_eq_false_iff_not, gt_iff_lt, not_lt]

/-- What `expire` does to the queue. -/
theorem expire_taken (s : State Q) (now : Int) :
    Q.Taken (TimerNode.due now) s.pending (s.expire now) := by
  refine Queue.popWhile_taken ?_ s.pending
  intro a b hless hdue
  have hle : a.deadline ≤ b.deadline := less_eq_false.mp hless
  have hnow : b.deadline ≤ now := of_decide_eq_true hdue
  exact decide_eq_true (hle.trans hnow)

theorem early_cons {deadline : Int} (he : ∀ now nodes, e ≠ .expired now nodes) :
    Early deadline (e :: t) ↔ Early deadline t := by
  constructor
  · intro h now nodes hmem
    exact h now nodes (List.mem_cons_of_mem e hmem)
  · intro h now nodes hmem
    rcases List.mem_cons.mp hmem with heq | hmem
    · exact absurd heq.symm (he now nodes)
    · exact h now nodes hmem

theorem early_expired {deadline now : Int} {nodes : List TimerNode} :
    Early deadline (.expired now nodes :: t) ↔ now < deadline ∧ Early deadline t := by
  constructor
  · intro h
    exact ⟨h now nodes List.mem_cons_self,
      fun now' nodes' hmem => h now' nodes' (List.mem_cons_of_mem _ hmem)⟩
  · rintro ⟨hnow, h⟩ now' nodes' hmem
    rcases List.mem_cons.mp hmem with heq | hmem
    · cases heq
      exact hnow
    · exact h now' nodes' hmem

theorem mem_insertions : node ∈ insertions t ↔ Event.inserted node ∈ t := by
  induction t with
  | nil => exact iff_of_false List.not_mem_nil List.not_mem_nil
  | cons e t ih =>
    cases e with
    | inserted n => simp [insertions, ih, or_comm]
    | expired now nodes | handed n dest => simp [insertions, ih]

/-- An insertion at the head of the trace, or further back. -/
theorem split_cons {x : Event} (h : e :: t = later ++ x :: earlier) :
    (later = [] ∧ e = x ∧ t = earlier) ∨
      ∃ later', later = e :: later' ∧ t = later' ++ x :: earlier := by
  cases later with
  | nil =>
    obtain ⟨he, ht⟩ := List.cons.inj h
    exact .inl ⟨rfl, he, ht⟩
  | cons e' later' =>
    obtain ⟨rfl, ht⟩ := List.cons.inj h
    exact .inr ⟨later', rfl, ht⟩

/-- Each node inserted is in `pending_` or has been returned, and it is in `pending_` as long
    as no pass was at or after its deadline; what is handed on goes where the loop sends it. -/
structure Kept (dest : TimerNode → Dest) (t : List Event) (s : State Q) : Prop where
  account : insertions t ~ returned t ++ Q.contents s.pending
  distinct : (insertions t).Nodup
  below : ∀ node, Event.inserted node ∈ t → node.serial < s.inserted
  waiting : ∀ later node earlier, t = later ++ .inserted node :: earlier →
    (node ∈ Q.contents s.pending ↔ Early node.deadline later)
  passes : (handedOn t).map Prod.fst ++ s.expired = returned t
  sent : ∀ p ∈ handedOn t, p.2 = dest p.1

theorem kept_init (dest : TimerNode → Dest) : Kept dest [] (init Q) where
  account := by
    rw [init, Q.contents_empty]
    exact .refl _
  distinct := List.nodup_nil
  below := fun _ h => absurd h List.not_mem_nil
  waiting := fun later node earlier h => absurd h (by simp)
  passes := rfl
  sent := fun _ h => absurd h List.not_mem_nil

theorem Kept.insert (h : Kept dest t s) (node : TimerNode) :
    Kept dest (.inserted (s.numbered node) :: t) (s.insert node) := by
  have hperm := Q.push_perm (s.numbered node) s.pending
  have hfresh : Event.inserted (s.numbered node) ∉ t := fun hmem =>
    Nat.lt_irrefl _ (h.below _ hmem)
  refine ⟨?_, ?_, ?_, ?_, h.passes, h.sent⟩
  · calc insertions t ++ [s.numbered node]
        ~ s.numbered node :: insertions t := List.perm_append_singleton _ _
      _ ~ s.numbered node :: (returned t ++ Q.contents s.pending) := h.account.cons _
      _ ~ returned t ++ s.numbered node :: Q.contents s.pending := List.perm_middle.symm
      _ ~ returned t ++ Q.contents (s.insert node).pending := hperm.symm.append_left _
  · refine List.nodup_append.mpr ⟨h.distinct, List.nodup_singleton _, ?_⟩
    rintro a ha b hb rfl
    rw [List.mem_singleton] at hb
    exact hfresh (hb ▸ mem_insertions.mp ha)
  · intro n hmem
    rcases List.mem_cons.mp hmem with heq | hmem
    · cases heq
      exact Nat.lt_succ_self _
    · exact Nat.lt_succ_of_lt (h.below n hmem)
  · intro later n earlier heq
    have hcontents : n ∈ Q.contents (s.insert node).pending ↔
        n = s.numbered node ∨ n ∈ Q.contents s.pending := by
      rw [State.insert, hperm.mem_iff, List.mem_cons]
    rw [hcontents]
    rcases split_cons heq with ⟨rfl, hn, -⟩ | ⟨later', rfl, ht⟩
    · cases hn
      exact iff_of_true (.inl rfl) (fun _ _ hmem => absurd hmem List.not_mem_nil)
    · rw [early_cons (fun _ _ => by rintro ⟨⟩), ← h.waiting later' n earlier ht]
      refine or_iff_right ?_
      rintro rfl
      exact hfresh (ht ▸ List.mem_append_right _ List.mem_cons_self)

/-- What a pass leaves in the queue. -/
theorem mem_left_iff (s : State Q) (now : Int) (node : TimerNode) :
    node ∈ Q.contents (s.expire now).2 ↔ now < node.deadline ∧ node ∈ Q.contents s.pending := by
  have htaken := expire_taken s now
  constructor
  · intro hmem
    have hlate := of_decide_eq_false (htaken.failed node hmem)
    exact ⟨not_le.mp hlate, htaken.perm.mem_iff.mpr (List.mem_append_right _ hmem)⟩
  · rintro ⟨hlate, hmem⟩
    rcases List.mem_append.mp (htaken.perm.mem_iff.mp hmem) with hout | hleft
    · have hdue := of_decide_eq_true (htaken.passed node hout)
      exact absurd hdue (not_le.mpr hlate)
    · exact hleft

theorem Kept.expire (h : Kept dest t s) (now : Int) (hdone : s.expired = []) :
    Kept dest (.expired now (s.expire now).1 :: t)
      { s with pending := (s.expire now).2, expired := (s.expire now).1 } := by
  refine ⟨?_, h.distinct, ?_, ?_, ?_, h.sent⟩
  · rw [returned, List.append_assoc]
    exact h.account.trans ((expire_taken s now).perm.append_left _)
  · intro node hmem
    rcases List.mem_cons.mp hmem with heq | hmem
    · cases heq
    · exact h.below node hmem
  · intro later node earlier heq
    rcases split_cons heq with ⟨-, hn, -⟩ | ⟨later', rfl, ht⟩
    · cases hn
    · rw [early_expired, ← h.waiting later' node earlier ht]
      exact mem_left_iff s now node
  · have hpasses := h.passes
    rw [hdone, List.append_nil] at hpasses
    rw [handedOn, returned, hpasses]
    · rintro node dest ⟨⟩

theorem Kept.handOn (h : Kept dest t s) {rest : List TimerNode}
    (hnext : s.expired = node :: rest) :
    Kept dest (.handed node (dest node) :: t) { s with expired := rest } := by
  refine ⟨h.account, h.distinct, ?_, ?_, ?_, ?_⟩
  · intro n hmem
    rcases List.mem_cons.mp hmem with heq | hmem
    · cases heq
    · exact h.below n hmem
  · intro later n earlier heq
    rcases split_cons heq with ⟨-, hn, -⟩ | ⟨later', rfl, ht⟩
    · cases hn
    · rw [early_cons (fun _ _ => by rintro ⟨⟩)]
      exact h.waiting later' n earlier ht
  · have hpasses := h.passes
    rw [hnext] at hpasses
    rw [handedOn, List.map_append, List.append_assoc]
    exact hpasses
  · intro p hp
    rcases List.mem_append.mp hp with hold | hnew
    · exact h.sent p hold
    · obtain rfl := List.mem_singleton.mp hnew
      rfl

theorem Kept.step {s' : State Q} {o : Option Event} (h : Kept dest t s) (hm : Move dest s o s') :
    Kept dest (note t o) s' := by
  cases hm with
  | insert node => exact h.insert node
  | expire now hdone => exact h.expire now hdone
  | handOn hnext => exact h.handOn hnext

theorem kept_of_exec (h : Exec (machine Q dest) Always (init Q) t s) : Kept dest t s := by
  refine h.invariant (Kept dest) (kept_init dest) ?_
  intro t s a s' hk _ hs
  exact hk.step (step_moves dest hs)

/-! ## Once, and in the first pass -/

/-- A node inserted is in `pending_` or has been returned, once altogether. -/
theorem Kept.count (h : Kept dest t s) (node : TimerNode) (hmem : Event.inserted node ∈ t) :
    (returned t).count node + (Q.contents s.pending).count node = 1 := by
  rw [← List.count_append, ← h.account.count_eq node]
  exact List.count_eq_one_of_mem h.distinct (mem_insertions.mpr hmem)

theorem Kept.once (h : Kept dest t s) (ht : t = later ++ .inserted node :: earlier)
    (hdue : ¬ Early node.deadline later) : (returned t).count node = 1 := by
  have hcount := h.count node (ht ▸ List.mem_append_right _ List.mem_cons_self)
  have hgone : node ∉ Q.contents s.pending := fun hmem =>
    hdue ((h.waiting later node earlier ht).mp hmem)
  rw [List.count_eq_zero_of_not_mem hgone] at hcount
  exact hcount

theorem Kept.notYet (h : Kept dest t s) (ht : t = later ++ .inserted node :: earlier)
    (hearly : Early node.deadline later) : (returned t).count node = 0 := by
  have hcount := h.count node (ht ▸ List.mem_append_right _ List.mem_cons_self)
  have hpos := List.count_pos_iff.mpr ((h.waiting later node earlier ht).mpr hearly)
  omega

theorem passes_nil : Passes [] where
  due := fun _ _ h => absurd h List.not_mem_nil
  ordered := fun _ _ h => absurd h List.not_mem_nil
  first := fun later _ _ _ _ _ h => absurd h (by simp)

/-- An event that is not a pass changes nothing. -/
theorem Passes.other (h : Passes t) (he : ∀ now nodes, e ≠ .expired now nodes) :
    Passes (e :: t) := by
  have hback : ∀ {now nodes}, Event.expired now nodes ∈ e :: t → Event.expired now nodes ∈ t := by
    intro now nodes hmem
    exact (List.mem_cons.mp hmem).resolve_left fun heq => he now nodes heq.symm
  refine ⟨fun now nodes hmem => h.due now nodes (hback hmem),
    fun now nodes hmem => h.ordered now nodes (hback hmem), ?_⟩
  intro later now nodes between node earlier heq
  rcases split_cons heq with ⟨-, hn, -⟩ | ⟨later', -, ht⟩
  · exact absurd hn (he now nodes)
  · exact h.first later' now nodes between node earlier ht

/-- A pass takes all nodes that are due, in their order. -/
theorem Passes.expire (h : Passes t) (hk : Kept dest t s) (now : Int) :
    Passes (.expired now (s.expire now).1 :: t) := by
  have htaken := expire_taken s now
  refine ⟨?_, ?_, ?_⟩
  · intro now' nodes hmem
    rcases List.mem_cons.mp hmem with heq | hmem
    · cases heq
      exact fun node hnode => of_decide_eq_true (htaken.passed node hnode)
    · exact h.due now' nodes hmem
  · intro now' nodes hmem
    rcases List.mem_cons.mp hmem with heq | hmem
    · cases heq
      exact htaken.ordered.imp less_eq_false.mp
    · exact h.ordered now' nodes hmem
  · intro later now' nodes between node earlier heq hearly hdue
    rcases split_cons heq with ⟨-, hn, ht⟩ | ⟨later', -, ht⟩
    · cases hn
      have hmem := (hk.waiting between node earlier ht).mpr hearly
      rcases List.mem_append.mp (htaken.perm.mem_iff.mp hmem) with hout | hleft
      · exact hout
      · exact absurd hdue (not_le.mpr ((mem_left_iff s now node).mp hleft).1)
    · exact h.first later' now' nodes between node earlier ht hearly hdue

theorem passes_of_exec (h : Exec (machine Q dest) Always (init Q) t s) : Passes t := by
  refine (h.invariant (fun t s => Kept dest t s ∧ Passes t) ⟨kept_init dest, passes_nil⟩ ?_).2
  rintro t s a s' ⟨hk, hp⟩ - hs
  rw [Machine.record_eq_note]
  have hm := step_moves dest hs
  refine ⟨hk.step hm, ?_⟩
  change Move dest s ((machine Q dest).event s a) s' at hm
  generalize (machine Q dest).event s a = o at hm
  cases hm with
  | insert node | handOn _ => exact hp.other (fun _ _ => by rintro ⟨⟩)
  | expire now _ => exact hp.expire hk now

theorem onTime_of_exec (h : Exec (machine Q dest) Always (init Q) t s) : OnTime t := by
  have hk := kept_of_exec h
  exact ⟨passes_of_exec h, fun _ _ _ ht hearly => hk.notYet ht hearly,
    fun _ _ _ ht hdue => hk.once ht hdue⟩

/-! ## Where the nodes go -/

/-- The index that the node recorded is that of a queue of the worker. -/
def Worker.Has (w : Worker) (node : TimerNode) : Prop :=
  ∀ idx, node.sourceQueueIdx = some idx → idx < w.queueCount

theorem Worker.queueOf_lt {w : Worker} (h : w.Has node) : w.queueOf node < w.queueCount := by
  rw [Worker.queueOf]
  split
  next idx hidx => exact h idx hidx
  next => exact w.idxEngine_lt

/-- A node with a callback has it called; a sleeping coroutine is enqueued in the queue of its
    node and in no other. -/
structure Worker.Delivers (w : Worker) (node : TimerNode) (dest : Dest) : Prop where
  callback : ∀ f, node.onExpire = some f → dest = .callback f
  enqueued : node.onExpire = none → w.Has node → dest = .queue (w.queueOf node) node.handle
  nowhere_else : ∀ idx h, dest = .queue idx h → idx = w.queueOf node ∧ h = node.handle

theorem Worker.delivers (w : Worker) (node : TimerNode) :
    w.Delivers node (w.timerCoroFn node) where
  callback := by
    intro f hf
    rw [Worker.timerCoroFn, hf]
  enqueued := by
    intro hnone hhas
    rw [Worker.timerCoroFn, hnone]
    exact if_pos (Worker.queueOf_lt hhas)
  nowhere_else := by
    intro idx h heq
    rw [Worker.timerCoroFn] at heq
    split at heq
    next => cases heq
    next =>
      split at heq
      next =>
        cases heq
        exact ⟨rfl, rfl⟩
      next => cases heq

/-- A node of the wheel with a callback has it called; a sleeping coroutine goes to the affine
    queue of its worker, if that is known, and to no other queue. -/
structure WheelDelivers (known : Nat → Bool) (node : TimerNode) (dest : Dest) : Prop where
  callback : ∀ f, node.onExpire = some f → dest = .callback f
  pushed : node.onExpire = none → ∀ worker, node.sourceWorkerId = some worker →
    known worker = true → dest = .affine worker node.handle
  nowhere_else : ∀ worker h, dest = .affine worker h →
    node.sourceWorkerId = some worker ∧ h = node.handle
  no_queue : ∀ idx h, dest ≠ .queue idx h

theorem wheel_delivers (known : Nat → Bool) (node : TimerNode) :
    WheelDelivers known node (globalTimer known node) := by
  rw [globalTimer]
  split
  next f hf =>
    refine ⟨fun f' hf' => ?_, fun hnone => ?_, by rintro _ _ ⟨⟩, by rintro _ _ ⟨⟩⟩
    · cases hf.symm.trans hf'
      rfl
    · cases hf.symm.trans hnone
  next hnone =>
    have hcallback : ∀ {d} f, node.onExpire = some f → d = Dest.callback f :=
      fun f hf => absurd (hnone.symm.trans hf) (by rintro ⟨⟩)
    split
    next worker hworker =>
      split
      next hknown =>
        refine ⟨hcallback, fun _ w hw _ => ?_, ?_, by rintro _ _ ⟨⟩⟩
        · cases hworker.symm.trans hw
          rfl
        · rintro w h ⟨⟩
          exact ⟨hworker, rfl⟩
      next hunknown =>
        refine ⟨hcallback, fun _ w hw hknown => ?_, by rintro _ _ ⟨⟩, by rintro _ _ ⟨⟩⟩
        cases hworker.symm.trans hw
        exact absurd hknown hunknown
    next hworker =>
      refine ⟨hcallback, fun _ w hw => ?_, by rintro _ _ ⟨⟩, by rintro _ _ ⟨⟩⟩
      cases hworker.symm.trans hw

/-- **Sleeping coroutines wake on time, once and in order.**  For every correct priority
    queue and every sequence of insertions, sleeps and passes, on the timers of an
    `OnlineWorker` and on the offline wheel: each node is returned by one pass, the first at
    or after its deadline, in the order of the deadlines, and the loop hands on what the
    passes return, in this order.

    On the worker a node goes where it says, so a coroutine that has suspended goes to the
    queue recorded then, or to the engine queue; from the wheel it goes to the affine queue of
    the worker on which it suspended, if that is known. -/
theorem timers_on_time (Q : Queue TimerNode.less) : (∀ (w : Worker) (t : List Event) (s : State Q),
      Exec (machine Q w.timerCoroFn) Always (init Q) t s →
        OnTime t ∧ (handedOn t).map Prod.fst ++ s.expired = returned t ∧
        (∀ p ∈ handedOn t, w.Delivers p.1 p.2) ∧
        ∀ deadline tls worker h (s₀ : State Q) dest, (∀ idx ∈ tls, idx < w.queueCount) →
          (s₀.numbered (SleepAwaiter.awaitSuspend deadline tls worker h), dest) ∈ handedOn t →
          dest = .queue (tls.getD w.idxEngine) h) ∧
    (∀ (known : Nat → Bool) (t : List Event) (s : State Q),
      Exec (machine Q (globalTimer known)) Always (init Q) t s →
        OnTime t ∧ (handedOn t).map Prod.fst ++ s.expired = returned t ∧
        (∀ p ∈ handedOn t, WheelDelivers known p.1 p.2) ∧
        ∀ deadline tls worker h (s₀ : State Q) dest, known worker = true →
          (s₀.numbered (SleepAwaiter.awaitSuspend deadline tls (some worker) h), dest) ∈
            handedOn t → dest = .affine worker h) := by
  constructor
  · intro w t s h
    have hk := kept_of_exec h
    have hsent : ∀ p ∈ handedOn t, w.Delivers p.1 p.2 := by
      intro p hp
      rw [hk.sent p hp]
      exact w.delivers p.1
    refine ⟨onTime_of_exec h, hk.passes, hsent, ?_⟩
    intro deadline tls worker h s₀ dest hqueue hp
    refine ((hsent _ hp).enqueued rfl hqueue).trans ?_
    cases tls with
    | none | some idx => rfl
  · intro known t s h
    have hk := kept_of_exec h
    have hsent : ∀ p ∈ handedOn t, WheelDelivers known p.1 p.2 := by
      intro p hp
      rw [hk.sent p hp]
      exact wheel_delivers known p.1
    refine ⟨onTime_of_exec h, hk.passes, hsent, ?_⟩
    intro deadline tls worker h s₀ dest hknown hp
    exact (hsent _ hp).pushed rfl worker rfl hknown

/-- A worker with five queues, the engine queue third, and a sleeper of queue 1, one of no
    queue, a timed wait that is overdue when it is inserted, and a sleeper inserted while the
    others are handed on; and the wheel with sleepers of worker 3, which is known, and of
    worker 4, which is not. -/
theorem timers_on_time_overdue :
    (∃ (w : Worker) (t : List Event) (s : State (smallestFirst TimerNode.deadline)),
      Exec (machine _ w.timerCoroFn) Always (init _) t s ∧ s.expired = [] ∧
      (handedOn t).map Prod.snd = [.callback 7, .queue 2 11, .queue 1 10] ∧
      OnTime t ∧ (handedOn t).map Prod.fst = returned t ∧
      ∀ p ∈ handedOn t, w.Delivers p.1 p.2) ∧
    ∃ (t : List Event) (s : State (smallestFirst TimerNode.deadline)),
      Exec (machine _ (globalTimer (· = 3))) Always (init _) t s ∧
      (handedOn t).map Prod.snd = [.affine 3 20, .nowhere] ∧ OnTime t ∧
      ∀ p ∈ handedOn t, WheelDelivers (· = 3) p.1 p.2 := by
  constructor
  · have hexec : Exec (machine (smallestFirst TimerNode.deadline)
        (Worker.timerCoroFn ⟨5, 2, by decide⟩)) Always (init _) _ _ :=
      exec_run [.sleep 9 (some 1) none 10, .sleep 8 none none 11, .expire 4,
        .insert ⟨2, none, none, 12, some 7, 0⟩, .expire 9, .handOn, .sleep 5 (some 3) none 13,
        .handOn, .handOn]
    obtain ⟨htime, hpasses, hsent, -⟩ := (timers_on_time _).1 _ _ _ hexec
    exact ⟨_, _, _, hexec, by decide +kernel, by decide +kernel, htime,
      (List.append_nil _).symm.trans hpasses, hsent⟩
  · have hexec : Exec (machine (smallestFirst TimerNode.deadline) (globalTimer (· = 3))) Always
        (init _) _ _ :=
      exec_run [.sleep 8 none (some 4) 21, .sleep 5 (some 1) (some 3) 20, .expire 8, .handOn,
        .handOn]
    obtain ⟨htime, -, hsent, -⟩ := (timers_on_time _).2 _ _ _ hexec
    exact ⟨_, _, hexec, by decide +kernel, htime, hsent⟩

end Timer
