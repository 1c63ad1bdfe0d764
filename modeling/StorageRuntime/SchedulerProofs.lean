import StorageRuntime.AdaptiveIdleProofs
import StorageRuntime.WorkQueueProofs

/-!
# Scheduler — the loop of a worker, its tasks and its life cycle

The model of `runtime/scheduler.cc` together with what its thread runs around
it: `Worker::start`, `worker_loop` and `stop` (`runtime/worker.cc`),
`on_worker_start` with the coroutines that it resumes, and the `yield()` of
the tasks (`runtime/yield_awaiter.h`).

It has three layers.  `Work.step` is what one iteration of the loop does to the
queues, to the thread-local source index and to the policy, in `run()` and in
`run_busy()`; the tasks decide for themselves what they enqueue and how they
leave.  `step` puts the worker's thread, whose loop body that is, next to any
number of agents that start and stop the worker, notify it and submit work.
`machine` adds the pushes to SPSC queues that the threads are in the middle of.

A step of a thread is one call of a queue, one load or store of a flag or one
step of the idle object (`AdaptiveIdle`).  The rings are taken at their
linearisation points (`QueueStepsProofs`).  Of a push to an SPSC queue every access is a
step: nothing keeps two threads from making them at the same time.  Batches are
taken at the load of `write_head_`; their slots are read somewhat later, which is
why one that is to be written must be a batch away (`Roomy`).  Memory is sequentially
consistent with one exception: in `run()` the store of `running_` is a release
store and the load of `stop_requested_` that follows it an acquire load, so
that the load may be performed first (`Act.goEarly`).
-/

namespace Scheduler

open Interleaving AdaptiveIdle WorkQueue

/-! ## Policies -/

/-- `Priority`, P0 to P3. -/
inductive Priority where
  | critical
  | high
  | medium
  | low
deriving DecidableEq

/-- What the policy sees of a queue. -/
structure QueueSnapshot where
  priority : Priority
  approxCount : Nat
deriving DecidableEq

structure ScheduleDecision where
  queueIndex : Nat
  batchSize : Nat
  idle : Bool
deriving DecidableEq

/-- A `SchedulingPolicy` with states `P`.  What else its decisions depend on (time stamps,
    statistics, what `on_task_completed` was told) is of type `E`. -/
structure Policy (P E : Type) where
  start : P
  decide : P → E → List QueueSnapshot → ScheduleDecision × P

/-! ## Tasks -/

/-- How the execution of a work item ends. -/
inductive Leave where
  /-- The task has finished, or waits somewhere outside the queues. -/
  | returns
  /-- `co_await yield()`. -/
  | yields
  /-- `co_await yield_to(i)`. -/
  | yieldsTo (i : Nat)
deriving DecidableEq

/-- What is fixed before the worker is started.  An index that was not set lies behind all
    queues. -/
structure Config (Item P E : Type) where
  /-- `base_priority()` of the registered queues. -/
  priority : Nat → Priority
  affineIdx : Nat
  diskIoIdx : Nat
  defaultQueueIdx : Nat
  busyPoll : Bool
  /-- `io_backend_` is set. -/
  ioBackend : Bool
  idle : AdaptiveIdle.Config
  policy : Policy P E
  /-- The coroutines that `on_worker_start` resumes, with the source index it sets for each.
      Their handles belong to the worker: no other code enqueues them. -/
  persistent : List (Item × Nat)
  /-- Whether the code of a task can leave in a given way. -/
  may : Item → Leave → Bool

/-- `kMaxBatchSize`. -/
def maxBatchSize : Nat := 64

/-- From which loop an item is executed. -/
inductive Frame where
  /-- The first or the second `drain_p0` of the iteration. -/
  | p0 (second : Bool)
  /-- `run()`: the batch from the queue that the policy chose. -/
  | chosen (i : Nat)
  /-- `run_busy()`: the batch from the disk IO queue. -/
  | disk
  /-- `run_busy()`: the batch from another queue. -/
  | other (i : Nat)
deriving DecidableEq

/-- Where the worker's thread is in an iteration of `run()` or `run_busy()`. -/
inductive BodyPc (Item : Type) where
  /-- `drain_p0`: about to dequeue a batch. -/
  | drain (second : Bool)
  /-- About to take the snapshot of the next queue, or to let the policy decide. -/
  | snapshot (snaps : List QueueSnapshot)
  /-- About to dequeue from the queue that the policy chose. -/
  | take (i max : Nat)
  /-- About to dequeue from the disk IO queue. -/
  | disk
  /-- About to visit queue `i` of the others. -/
  | other (i : Nat)
  /-- Between two items of a batch; `rest` is still to be executed. -/
  | batch (f : Frame) (rest : List Item)
  /-- In `execute()` of `item`. -/
  | exec (f : Frame) (item : Item) (rest : List Item)
deriving DecidableEq

/-- The items of the batch that are not finished. -/
def BodyPc.pending {Item : Type} : BodyPc Item → List Item
  | .batch _ rest => rest
  | .exec _ x rest => x :: rest
  | _ => []

/-- How an iteration goes on. -/
inductive Next (Item : Type) where
  | body (p : BodyPc Item)
  /-- The iteration is over: about to load `running_`. -/
  | test
  /-- About to call `enter_idle()`. -/
  | idle

/-- What the iterations work on.  `tls` is `tls_source_queue_idx`; `none` is `SIZE_MAX`. -/
structure Work (Item P : Type) where
  queues : List (Queue Item)
  tls : Option Nat
  policy : P

/-- The steps of an iteration. -/
inductive BodyAct (Item E : Type) where
  | go
  | decide (e : E)
  /-- The running task enqueues `item` to queue `i`. -/
  | emit (room : Bool) (i : Nat) (item : Item)
  | leave (room : Bool) (l : Leave)

section Body

variable {Item P E : Type}

/-- The step of `enqueue` that puts the item into the queue, which others may use at the same
    time.  With reservations of other producers in flight (`room = false`) a ring may refuse
    an item although it holds fewer items than it has slots.  In an SPSC queue the item was
    written before (`System.access`) and is published now. -/
def offer (q : Queue Item) (room : Bool) (item : Item) : Queue Item :=
  match q with
  | .ring _ | .affine _ => if room then q.enqueue item else q
  | .local _ => q.enqueue item
  | .spsc q => .spsc (q.publish 1)

/-- The queue takes the item. -/
def accepts (q : Queue Item) (room : Bool) : Bool :=
  (match q.kind with
    | .ring | .affine => room
    | .local | .spsc => true) && q.items.length < q.limit

/-- `get_queue(i)->enqueue(item)`, at that step; nothing if there is no such queue. -/
def Work.put (w : Work Item P) (room : Bool) (i : Nat) (item : Item) : Work Item P :=
  { w with queues := w.queues.modify i (fun q => offer q room item) }

/-- `queues_[i]->try_dequeue_batch(max)`; nothing if there is no such queue. -/
def Work.take (w : Work Item P) (i max : Nat) : List Item × Work Item P :=
  match w.queues[i]? with
  | none => ([], w)
  | some q => ((q.tryDequeueBatch max).1,
      { w with queues := w.queues.set i (q.tryDequeueBatch max).2 })

/-- The queue index of `yield()` on the worker's thread. -/
def Work.yieldIdx (cfg : Config Item P E) (w : Work Item P) : Nat :=
  w.tls.getD cfg.defaultQueueIdx

/-- `await_suspend` of `yield_awaiter`, if the item leaves that way. -/
def Work.leave (cfg : Config Item P E) (w : Work Item P) (room : Bool) (item : Item) :
    Leave → Work Item P
  | .returns => w
  | .yields => w.put room (w.yieldIdx cfg) item
  | .yieldsTo i => w.put room i item

/-- The queue that a task that leaves is enqueued to. -/
def Work.target (cfg : Config Item P E) (w : Work Item P) : Leave → Option Nat
  | .returns => none
  | .yields => some (w.yieldIdx cfg)
  | .yieldsTo i => some i

/-- The queue that the items of the loop come from. -/
def Frame.source (cfg : Config Item P E) : Frame → Nat
  | .p0 _ => cfg.affineIdx
  | .chosen i => i
  | .disk => cfg.diskIoIdx
  | .other i => i

/-- What the loop stores in `tls_source_queue_idx` before it executes an item.  The loop over
    the chosen queue of `run()` stores nothing. -/
def Frame.tls (cfg : Config Item P E) (tls : Option Nat) : Frame → Option Nat
  | .chosen _ => tls
  | f => some (f.source cfg)

/-- After the batch. -/
def Frame.next : Frame → BodyPc Item
  | .p0 second => .drain second
  | .chosen _ => .drain true
  | .disk => .other 0
  | .other i => .other (i + 1)

/-- After `drain_p0`. -/
def afterDrain (cfg : Config Item P E) (second : Bool) : Next Item :=
  if second then .test else if cfg.busyPoll then .body .disk else .body (.snapshot [])

/-- The snapshot of queue `i`; the affine queue is shown as empty. -/
def snapshotOf (cfg : Config Item P E) (i : Nat) (q : Queue Item) : QueueSnapshot :=
  ⟨cfg.priority i, if i = cfg.affineIdx then 0 else q.approxCount⟩

/-- The policy's decision and what follows from it. -/
def Work.decide (cfg : Config Item P E) (w : Work Item P) (e : E)
    (snaps : List QueueSnapshot) : Work Item P × Next Item :=
  let r := cfg.policy.decide w.policy e snaps
  ({ w with policy := r.2 },
    if r.1.idle then (if cfg.ioBackend then .test else .idle)
    else .body (.take r.1.queueIndex (min r.1.batchSize maxBatchSize)))

/-- The next step of the thread where it does not depend on a task or the policy. -/
def Work.go (cfg : Config Item P E) (w : Work Item P) :
    BodyPc Item → Option (Work Item P × Next Item)
  | .drain second =>
    match w.take cfg.affineIdx maxBatchSize with
    | ([], w') => some (w', afterDrain cfg second)
    | (x :: xs, w') => some (w', .body (.batch (.p0 second) (x :: xs)))
  | .snapshot snaps =>
    match w.queues[snaps.length]? with
    | none => none
    | some q => some (w, .body (.snapshot (snaps ++ [snapshotOf cfg snaps.length q])))
  | .take i max =>
    match w.take i max with
    | ([], w') => some (w', .test)
    | (x :: xs, w') => some (w', .body (.batch (.chosen i) (x :: xs)))
  | .disk =>
    some ((w.take cfg.diskIoIdx maxBatchSize).2,
      .body (.batch .disk (w.take cfg.diskIoIdx maxBatchSize).1))
  | .other i =>
    if i < w.queues.length then
      if i = cfg.affineIdx ∨ i = cfg.diskIoIdx then some (w, .body (.other (i + 1)))
      else some ((w.take i maxBatchSize).2, .body (.batch (.other i) (w.take i maxBatchSize).1))
    else some (w, .body (.drain true))
  | .batch f [] => some (w, .body f.next)
  | .batch f (x :: xs) => some ({ w with tls := f.tls cfg w.tls }, .body (.exec f x xs))
  | .exec _ _ _ => none

/-- What is in queue `i`. -/
def Work.items (w : Work Item P) (i : Nat) : List Item := (w.queues[i]?).elim [] Queue.items

variable {q : Queue Item} {w : Work Item P}

/-- With nobody else in the way a queue that is not full takes the item. -/
theorem accepts_of_lt (h : q.items.length < q.limit) : accepts q true = true := by
  rw [accepts, Bool.and_eq_true_iff]
  refine ⟨?_, decide_eq_true h⟩
  cases q.kind <;> rfl

/-- A queue that takes the item appends it. -/
theorem items_offer {room : Bool} (item : Item) (h : accepts q room = true)
    (hkind : q.kind ≠ .spsc) : (offer q room item).items = q.items ++ [item] := by
  rw [accepts, Bool.and_eq_true_iff] at h
  obtain ⟨hroom, hlt⟩ := h
  have happend := q.items_enqueue_of_lt item (of_decide_eq_true hlt) hkind
  cases q with
  | ring q | affine q =>
    rw [offer, if_pos (show room = true from hroom)]
    exact happend
  | «local» q => exact happend
  | spsc q => exact absurd rfl hkind

/-- A queue that does not take the item is left alone. -/
theorem items_offer_refused {room : Bool} (item : Item) (h : accepts q room = false)
    (hkind : q.kind ≠ .spsc) : (offer q room item).items = q.items := by
  have hfull : room = true ∨ q.kind = .local → (q.enqueue item).items = q.items := by
    intro hr
    refine q.items_enqueue_of_ge item (Nat.not_lt.mp fun hlt => ?_) hkind
    rw [accepts, Bool.and_eq_false_iff] at h
    rcases h with h | h
    · rcases hr with rfl | hl
      · cases hk : q.kind <;> simp [hk] at h
      · simp [hl] at h
    · exact of_decide_eq_false h hlt
  cases q with
  | ring q | affine q =>
    rw [offer]
    split
    next hroom => exact hfull (.inl hroom)
    next => rfl
  | «local» q => exact hfull (.inr rfl)
  | spsc q => exact absurd rfl hkind

@[simp] theorem kind_offer (q : Queue Item) (room : Bool) (item : Item) :
    (offer q room item).kind = q.kind := by
  cases q with
  | ring q | affine q =>
    rw [offer]
    split <;> rfl
  | «local» q | spsc q => rfl

@[simp] theorem limit_offer (q : Queue Item) (room : Bool) (item : Item) :
    (offer q room item).limit = q.limit := by
  cases q with
  | ring q | affine q =>
    rw [offer]
    split
    next => exact Queue.limit_enqueue _ item
    next => rfl
  | «local» q | spsc q => rfl

/-- **`enqueue` changes one queue.** -/
theorem getElem?_put (w : Work Item P) (room : Bool) (i j : Nat) (item : Item) :
    (w.put room i item).queues[j]? =
      if i = j then (w.queues[j]?).map (fun q => offer q room item) else w.queues[j]? := by
  rw [Work.put, List.getElem?_modify]
  split <;> simp

/-- **`try_dequeue_batch` changes one queue.** -/
theorem getElem?_take (w : Work Item P) (i max j : Nat) : (w.take i max).2.queues[j]? =
      if i = j then (w.queues[j]?).map (fun q => (q.tryDequeueBatch max).2) else w.queues[j]? := by
  rw [Work.take]
  split
  next hnone =>
    split
    next hij => rw [← hij, hnone]; rfl
    next => rfl
  next q hq =>
    have hi : i < w.queues.length := (List.getElem?_eq_some_iff.mp hq).1
    rw [List.getElem?_set, if_pos hi]
    split
    next hij => rw [← hij, hq]; rfl
    next => rfl

theorem items_eq {i : Nat} (h : w.queues[i]? = some q) : w.items i = q.items := by
  rw [Work.items, h]
  rfl

theorem items_eq_nil {i : Nat} (h : w.queues[i]? = none) : w.items i = [] := by
  rw [Work.items, h]
  rfl

/-- **A batch is taken from the front of one queue.** -/
theorem items_take (w : Work Item P) (i max : Nat) : (w.take i max).1 = (w.items i).take max ∧
      ∀ j, (w.take i max).2.items j = if i = j then (w.items i).drop max else w.items j := by
  refine ⟨?_, fun j => ?_⟩
  · rw [Work.take]
    cases hq : w.queues[i]? with
    | none => rw [items_eq_nil hq, List.take_nil]
    | some q => rw [items_eq hq]; exact (q.items_tryDequeueBatch max).1
  · rw [Work.items, getElem?_take]
    split
    next hij =>
      subst hij
      cases hq : w.queues[i]? with
      | none => rw [items_eq_nil hq, List.drop_nil]; rfl
      | some q => rw [items_eq hq]; exact (q.items_tryDequeueBatch max).2
    next => rfl

/-- Whatever the policy decides, the queues and the index stay. -/
theorem decide_busy {cfg : Config Item P E} {e : E} {snaps : List QueueSnapshot}
    (h : (cfg.policy.decide w.policy e snaps).1.idle = false) :
    w.decide cfg e snaps = ({ w with policy := (cfg.policy.decide w.policy e snaps).2 },
      .body (.take (cfg.policy.decide w.policy e snaps).1.queueIndex
        (min (cfg.policy.decide w.policy e snaps).1.batchSize maxBatchSize))) := by
  simp only [Work.decide, h]
  rfl

theorem decide_idle {cfg : Config Item P E} {e : E} {snaps : List QueueSnapshot}
    (h : (cfg.policy.decide w.policy e snaps).1.idle = true) :
    w.decide cfg e snaps = ({ w with policy := (cfg.policy.decide w.policy e snaps).2 },
      if cfg.ioBackend then .test else .idle) := by
  simp only [Work.decide, h, if_true]

variable [DecidableEq Item]

/-- The handle belongs to the worker. -/
def Config.owns (cfg : Config Item P E) (item : Item) : Bool :=
  cfg.persistent.any (fun k => k.1 = item)

/-- One step of an iteration. -/
def Work.step (cfg : Config Item P E) (w : Work Item P) :
    BodyPc Item → BodyAct Item E → Option (Work Item P × Next Item)
  | p, .go => w.go cfg p
  | .snapshot snaps, .decide e =>
    if snaps.length < w.queues.length then none else some (w.decide cfg e snaps)
  | .exec f x rest, .emit room i y =>
    if cfg.owns y then none else some (w.put room i y, .body (.exec f x rest))
  | .exec f x rest, .leave room l =>
    if cfg.may x l then some (w.leave cfg room x l, .body (.batch f rest)) else none
  | _, _ => none

end Body

/-! ## The worker's thread and the others -/

/-- Where the worker's thread is. -/
inductive WorkerPc (Item : Type) where
  /-- `thread_` is not joinable. -/
  | absent
  /-- `on_worker_start`: about to resume coroutine `k`, or to return. -/
  | boot (k : Nat)
  /-- Coroutine `k` runs. -/
  | booting (k : Nat) (item : Item)
  /-- `run()` or `run_busy()`: about to store `running_`. -/
  | setRunning
  /-- The load of `stop_requested_` was performed first; about to store `running_`. -/
  | setLate (stop : Bool)
  /-- About to load `stop_requested_`. -/
  | testStop
  /-- A stop was requested before the loop: about to clear `running_` again. -/
  | clearRunning
  /-- `run()`: in `idle_->notify()` after that. -/
  | notify (p : NotifyPc)
  /-- About to load `running_` at the head of the loop. -/
  | loopTest
  | body (p : BodyPc Item)
  /-- In `idle_->enter_idle()`. -/
  | idle (p : IdlePc)
  /-- `worker_loop` has returned and the thread is not yet joined. -/
  | exited
deriving DecidableEq

/-- Where an agent is in a call of the worker's interface. -/
inductive Call (Item : Type) where
  | none
  /-- `start()`: about to reset `stop_requested_`. -/
  | startReset
  /-- `start()`: about to create the thread. -/
  | startThread
  /-- `request_stop()`: about to store `stop_requested_`. -/
  | stopFlag
  /-- `request_stop()`: about to clear `running_`. -/
  | stopRunning
  /-- In `idle_->notify()`, called by `request_stop()` or not. -/
  | notify (p : NotifyPc) (stopping : Bool)
  /-- A submission: about to enqueue. -/
  | submit (i : Nat) (item : Item)
  /-- A submission: about to return. -/
  | submitted (i : Nat)
deriving DecidableEq

/-- The state of a worker.  In the idle object the worker's own thread is `none`. -/
@[ext]
structure State (Item P Agent : Type) where
  work : Work Item P
  running : Bool
  stopRequested : Bool
  signals : Signals (Option Agent)
  worker : WorkerPc Item
  call : Agent → Call Item

/-- A push to an SPSC queue that a thread has begun. -/
structure Push (Item : Type) where
  queue : Nat
  item : Item
  pc : PushPc
deriving DecidableEq

/-- The worker with the pushes that its own thread (`none`) and the agents are in. -/
structure System (Item P Agent : Type) extends State Item P Agent where
  push : Option Agent → Option (Push Item)

/-- The worker with no push in progress. -/
def State.alone (s : State Item P Agent) : System Item P Agent := ⟨s, fun _ => none⟩

inductive Act (Item E Agent : Type) where
  /-- A step of the worker's thread inside an iteration or inside `on_worker_start`. -/
  | work (b : BodyAct Item E)
  /-- Any other step of the worker's thread. -/
  | go
  /-- The worker's thread loads `stop_requested_` before it stores `running_`. -/
  | goEarly
  /-- A spurious wake-up. -/
  | wake
  | start (a : Agent)
  | stop (a : Agent)
  | join
  | notify (a : Agent)
  | submit (a : Agent) (i : Nat) (item : Item)
  /-- The next step of a call of agent `a`; `room` as in `offer`. -/
  | goCall (a : Agent) (room : Bool)
  /-- An access of a thread in a push of `item` to the SPSC queue `i`, but for the last one. -/
  | access (o : Option Agent) (i : Nat) (item : Item)

inductive Event (Item Agent : Type) where
  /-- `start()` has reset `stop_requested_`. -/
  | started
  /-- `start()` has created the thread. -/
  | created
  | stopCalled (a : Agent)
  | stopReturned (a : Agent)
  /-- An iteration of the loop begins. -/
  | iteration
  /-- An item of a batch is executed. -/
  | executed (f : Frame) (item : Item)
deriving DecidableEq

section Steps

variable {Item P E Agent : Type}

/-- A worker that was not started yet, with its queues. -/
def init (cfg : Config Item P E) (Agent : Type) (queues : List (Queue Item)) :
    System Item P Agent where
  work := ⟨queues, none, cfg.policy.start⟩
  running := false
  stopRequested := false
  signals := Signals.init
  worker := .absent
  call := fun _ => .none
  push := fun _ => none

/-- Where the thread is when an iteration goes on. -/
def Next.pc : Next Item → WorkerPc Item
  | .body p => .body p
  | .test => .loopTest
  | .idle => .idle .enterTest

def WorkerPc.wake : WorkerPc Item → WorkerPc Item
  | .idle p => .idle p.wake
  | p => p

/-- Waking changes nothing but the place of a blocked thread. -/
theorem wake_eq {p q : WorkerPc Item} (hq : ∀ r, q ≠ .idle r) : p.wake = q ↔ p = q := by
  cases p with
  | idle p => exact iff_of_false (fun h => hq p.wake h.symm) (fun h => hq p h.symm)
  | _ => exact Iff.rfl

theorem wake_wake (p : WorkerPc Item) : p.wake.wake = p.wake := by
  cases p with
  | idle p => cases p <;> rfl
  | _ => rfl

/-- The next step of the worker's thread outside iterations and `on_worker_start`. -/
def State.go (cfg : Config Item P E) (s : State Item P Agent) : Option (State Item P Agent) :=
  match s.worker with
  | .setRunning => some { s with running := true, worker := .testStop }
  | .setLate stop =>
    some { s with running := true, worker := if stop then .clearRunning else .loopTest }
  | .testStop => some { s with worker := if s.stopRequested then .clearRunning else .loopTest }
  | .clearRunning =>
    some { s with running := false, worker := if cfg.busyPoll then .exited else .notify .lock }
  | .notify p =>
    match s.signals.notify none p with
    | none => none
    | some (g, some q) => some { s with signals := g, worker := .notify q }
    | some (g, none) => some { s with signals := g, worker := .exited }
  | .loopTest => some { s with worker := if s.running then .body (.drain false) else .exited }
  | .idle p =>
    match s.signals.idle cfg.idle none p with
    | none => none
    | some (g, q) =>
      some { s with
        signals := g
        worker := if q = IdlePc.returned then .loopTest else .idle q }
  | _ => none

variable [DecidableEq Agent]

def State.setCall (s : State Item P Agent) (a : Agent) (c : Call Item) : State Item P Agent :=
  { s with call := Function.update s.call a c }

/-- The next step of the call of agent `a`. -/
def State.goCall (s : State Item P Agent) (a : Agent) (room : Bool) :
    Option (State Item P Agent) :=
  match s.call a with
  | .none => none
  | .startReset => some ({ s with stopRequested := false }.setCall a .startThread)
  | .startThread =>
    -- assigning to a joinable `std::thread` ends the program
    match s.worker with
    | .absent =>
      some ({ s with work := { s.work with tls := none }, worker := .boot 0 }.setCall a .none)
    | _ => none
  | .stopFlag => some ({ s with stopRequested := true }.setCall a .stopRunning)
  | .stopRunning => some ({ s with running := false }.setCall a (.notify .lock true))
  | .notify p stopping =>
    match s.signals.notify (some a) p with
    | none => none
    | some (g, some q) => some ({ s with signals := g }.setCall a (.notify q stopping))
    | some (g, none) => some ({ s with signals := g, worker := s.worker.wake }.setCall a .none)
  | .submit i item => some ({ s with work := s.work.put room i item }.setCall a (.submitted i))
  | .submitted _ => some (s.setCall a .none)

/-- Agent `a` begins a call. -/
def State.begin (s : State Item P Agent) (a : Agent) (c : Call Item) :
    Option (State Item P Agent) :=
  match s.call a with
  | .none => some (s.setCall a c)
  | _ => none

variable [DecidableEq Item]

/-- A step inside an iteration or inside `on_worker_start`, which sets the source index before
    it resumes a coroutine and unsets it afterwards. -/
def State.goWork (cfg : Config Item P E) (s : State Item P Agent) (b : BodyAct Item E) :
    Option (State Item P Agent) :=
  match s.worker, b with
  | .boot k, .go =>
    match cfg.persistent[k]? with
    | none => some { s with worker := .setRunning }
    | some (x, i) => some { s with work := { s.work with tls := some i }, worker := .booting k x }
  | .booting _ _, .emit room i y =>
    if cfg.owns y then none else some { s with work := s.work.put room i y }
  | .booting k x, .leave room l =>
    if cfg.may x l then
      some { s with
        work := { s.work.leave cfg room x l with tls := none }
        worker := .boot (k + 1) }
    else none
  | .body p, b =>
    match s.work.step cfg p b with
    | none => none
    | some (w, n) => some { s with work := w, worker := n.pc }
  | _, _ => none

/-- The steps other than the accesses of a push. -/
def step (cfg : Config Item P E) (s : State Item P Agent) :
    Act Item E Agent → Option (State Item P Agent)
  | .work b => s.goWork cfg b
  | .go => s.go cfg
  | .goEarly =>
    match s.worker with
    | .setRunning => some { s with worker := .setLate s.stopRequested }
    | _ => none
  | .wake => some { s with worker := s.worker.wake }
  | .start a => s.begin a .startReset
  | .stop a => s.begin a .stopFlag
  | .join =>
    match s.worker with
    | .exited => some { s with worker := .absent }
    | _ => none
  | .notify a => s.begin a (.notify .lock false)
  | .submit a i item => if cfg.owns item then none else s.begin a (.submit i item)
  | .goCall a room => s.goCall a room
  | .access _ _ _ => none

/-- What a step inside an iteration shows. -/
def WorkerPc.shows : WorkerPc Item → BodyAct Item E → Option (Event Item Agent)
  | .body (.batch f (x :: _)), .go => some (.executed f x)
  | _, _ => none

/-- What a step of the thread between the iterations shows. -/
def WorkerPc.begins (running : Bool) : WorkerPc Item → Option (Event Item Agent)
  | .loopTest => if running then some .iteration else none
  | _ => none

/-- What a step of a call of agent `a` shows. -/
def Call.shows (a : Agent) : Call Item → Option (Event Item Agent)
  | .startReset => some .started
  | .startThread => some .created
  | .notify .notifyOne true => some (.stopReturned a)
  | _ => .none

def event (s : State Item P Agent) : Act Item E Agent → Option (Event Item Agent)
  | .work b => s.worker.shows b
  | .go => s.worker.begins s.running
  | .stop a => some (.stopCalled a)
  | .goCall a _ => (s.call a).shows a
  | _ => none

/-! ## Pushes to SPSC queues -/

/-- The item that runs. -/
def WorkerPc.current : WorkerPc Item → Option Item
  | .body (.exec _ x _) | .booting _ x => some x
  | _ => none

/-- What the action enqueues where. -/
def State.puts (cfg : Config Item P E) (s : State Item P Agent) :
    Act Item E Agent → Option (Bool × Nat × Item)
  | .work (.emit room i y) => some (room, i, y)
  | .work (.leave room l) =>
    match s.worker.current, s.work.target cfg l with
    | some x, some i => some (room, i, x)
    | _, _ => none
  | .goCall a room =>
    match s.call a with
    | .submit i y => some (room, i, y)
    | _ => none
  | _ => none

/-- The thread that takes the step. -/
def Act.thread : Act Item E Agent → Option Agent
  | .start a | .stop a | .notify a | .submit a _ _ | .goCall a _ => some a
  | .access o _ _ => o
  | _ => none

/-- The push that the thread must be in: if it is about to publish an item in an SPSC queue,
    the one that has written it, and no other. -/
def State.due (cfg : Config Item P E) (s : State Item P Agent) (act : Act Item E Agent) :
    Option (Push Item) :=
  match s.puts cfg act with
  | some (_, i, x) =>
    if (s.work.queues[i]?).map Queue.kind = some .spsc then some ⟨i, x, .publish⟩ else none
  | none => none

/-- The thread is at a call of `enqueue` of `item` on queue `i`. -/
def State.enqueues (cfg : Config Item P E) (s : State Item P Agent) (i : Nat) (item : Item) :
    Option Agent → Bool
  | some a => s.call a = .submit i item
  | none =>
    match s.worker.current with
    | none => false
    | some x => !cfg.owns item || (item = x && [Leave.yields, .yieldsTo i].any fun l =>
        cfg.may x l && s.work.target cfg l = some i)

/-- The next access of a thread in `push_batch` of `item` on queue `i`. -/
def System.access (cfg : Config Item P E) (s : System Item P Agent) (o : Option Agent) (i : Nat)
    (item : Item) : Option (System Item P Agent) :=
  match s.work.queues[i]? with
  | some (.spsc q) =>
    if s.enqueues cfg i item o = true ∧ ∀ r ∈ s.push o, r.queue = i ∧ r.item = item then
      (q.access item ((s.push o).map Push.pc)).map fun r => { s with
        work := { s.work with queues := s.work.queues.set i (.spsc r.1) }
        push := Function.update s.push o (some ⟨i, item, r.2⟩) }
    else none
  | _ => none

def System.step (cfg : Config Item P E) (s : System Item P Agent) :
    Act Item E Agent → Option (System Item P Agent)
  | .access o i item => s.access cfg o i item
  | act =>
    if s.push act.thread = s.due cfg act then
      (Scheduler.step cfg s.toState act).map fun s' =>
        { toState := s', push := Function.update s.push act.thread none }
    else none

/-- A worker and the agents around it. -/
def machine (cfg : Config Item P E) :
    Machine (System Item P Agent) (Act Item E Agent) (Event Item Agent) where
  step := System.step cfg
  event s := event s.toState

/-- A condition that does not look at the pushes. -/
def OnState (C : List (Event Item Agent) → State Item P Agent → Act Item E Agent → Prop)
    (t : List (Event Item Agent)) (s : System Item P Agent) (act : Act Item E Agent) : Prop :=
  C t s.toState act

instance (C : List (Event Item Agent) → State Item P Agent → Act Item E Agent → Prop)
    [h : ∀ t s act, Decidable (C t s act)] (t : List (Event Item Agent))
    (s : System Item P Agent) (act : Act Item E Agent) : Decidable (OnState C t s act) :=
  h t s.toState act

/-! ## What the steps do -/

/-- The steps inside an iteration. -/
inductive BodyMove (cfg : Config Item P E) (w : Work Item P) :
    BodyPc Item → BodyAct Item E → Work Item P → Next Item → Prop where
  /-- `drain_p0` finds nothing more. -/
  | drained (second : Bool) {w' : Work Item P} : w.take cfg.affineIdx maxBatchSize = ([], w') →
      BodyMove cfg w (.drain second) .go w' (afterDrain cfg second)
  | drains (second : Bool) {x : Item} {xs : List Item} {w' : Work Item P} :
      w.take cfg.affineIdx maxBatchSize = (x :: xs, w') →
      BodyMove cfg w (.drain second) .go w' (.body (.batch (.p0 second) (x :: xs)))
  | snaps {snaps : List QueueSnapshot} {q : Queue Item} : w.queues[snaps.length]? = some q →
      BodyMove cfg w (.snapshot snaps) .go w
        (.body (.snapshot (snaps ++ [snapshotOf cfg snaps.length q])))
  | decides (e : E) {snaps : List QueueSnapshot} : w.queues.length ≤ snaps.length →
      BodyMove cfg w (.snapshot snaps) (.decide e) (w.decide cfg e snaps).1 (w.decide cfg e snaps).2
  | takesNone {i max : Nat} {w' : Work Item P} : w.take i max = ([], w') →
      BodyMove cfg w (.take i max) .go w' .test
  | takes {i max : Nat} {x : Item} {xs : List Item} {w' : Work Item P} :
      w.take i max = (x :: xs, w') →
      BodyMove cfg w (.take i max) .go w' (.body (.batch (.chosen i) (x :: xs)))
  | disk : BodyMove cfg w .disk .go (w.take cfg.diskIoIdx maxBatchSize).2
      (.body (.batch .disk (w.take cfg.diskIoIdx maxBatchSize).1))
  | skips {i : Nat} : i < w.queues.length → i = cfg.affineIdx ∨ i = cfg.diskIoIdx →
      BodyMove cfg w (.other i) .go w (.body (.other (i + 1)))
  | visits {i : Nat} : i < w.queues.length → i ≠ cfg.affineIdx → i ≠ cfg.diskIoIdx →
      BodyMove cfg w (.other i) .go (w.take i maxBatchSize).2
        (.body (.batch (.other i) (w.take i maxBatchSize).1))
  | visited {i : Nat} : w.queues.length ≤ i →
      BodyMove cfg w (.other i) .go w (.body (.drain true))
  | ends (f : Frame) : BodyMove cfg w (.batch f []) .go w (.body f.next)
  | executes (f : Frame) (x : Item) (rest : List Item) :
      BodyMove cfg w (.batch f (x :: rest)) .go { w with tls := f.tls cfg w.tls }
        (.body (.exec f x rest))
  | emits (f : Frame) (x : Item) (rest : List Item) (room : Bool) (i : Nat) {y : Item} :
      cfg.owns y = false →
      BodyMove cfg w (.exec f x rest) (.emit room i y) (w.put room i y) (.body (.exec f x rest))
  | leaves (f : Frame) {x : Item} (rest : List Item) (room : Bool) {l : Leave} :
      cfg.may x l = true →
      BodyMove cfg w (.exec f x rest) (.leave room l) (w.leave cfg room x l) (.body (.batch f rest))

variable {n : Next Item} {p : BodyPc Item} {w : Work Item P} {cfg : Config Item P E}
  {b : BodyAct Item E} {s s' : State Item P Agent}

/-- Every step inside an iteration that depends on no task and no policy is one of those. -/
theorem go_moves {w' : Work Item P} (h : w.go cfg p = some (w', n)) :
    BodyMove cfg w p .go w' n := by
  cases p with
  | drain second =>
    simp only [Work.go] at h
    split at h
    next htake =>
      cases h
      exact .drained second htake
    next htake =>
      cases h
      exact .drains second htake
  | snapshot snaps =>
    simp only [Work.go] at h
    split at h
    next => cases h
    next hq =>
      cases h
      exact .snaps hq
  | take i max =>
    simp only [Work.go] at h
    split at h
    next htake =>
      cases h
      exact .takesNone htake
    next htake =>
      cases h
      exact .takes htake
  | disk =>
    cases h
    exact .disk
  | other i =>
    simp only [Work.go] at h
    split at h
    next hi =>
      split at h
      next hskip =>
        cases h
        exact .skips hi hskip
      next hvisit =>
        cases h
        obtain ⟨haffine, hdisk⟩ := not_or.mp hvisit
        exact .visits hi haffine hdisk
    next hi =>
      cases h
      exact .visited (Nat.not_lt.mp hi)
  | batch f rest =>
    cases rest with
    | nil =>
      cases h
      exact .ends f
    | cons x rest =>
      cases h
      exact .executes f x rest
  | exec f x rest => cases h

/-- Every step inside an iteration is one of those. -/
theorem body_moves {w' : Work Item P} (h : w.step cfg p b = some (w', n)) :
    BodyMove cfg w p b w' n := by
  cases b with
  | go =>
    refine go_moves ?_
    cases p <;> exact h
  | decide e =>
    cases p with
    | snapshot snaps =>
      simp only [Work.step] at h
      split at h
      next => cases h
      next hall =>
        cases h
        exact .decides e (Nat.not_lt.mp hall)
    | _ => cases h
  | emit room i y =>
    cases p with
    | exec f x rest =>
      simp only [Work.step] at h
      split at h
      next => cases h
      next howns =>
        cases h
        exact .emits f x rest room i (Bool.not_eq_true _ ▸ howns)
    | _ => cases h
  | leave room l =>
    cases p with
    | exec f x rest =>
      simp only [Work.step] at h
      split at h
      next hmay =>
        cases h
        exact .leaves f rest room hmay
      next => cases h
    | _ => cases h

/-- The steps of the worker's thread that touch the queues. -/
inductive WorkMove (cfg : Config Item P E) (s : State Item P Agent) :
    WorkerPc Item → BodyAct Item E → Work Item P → WorkerPc Item → Prop where
  | booted (k : Nat) : cfg.persistent[k]? = none →
      WorkMove cfg s (.boot k) .go s.work .setRunning
  | resumes {k i : Nat} {x : Item} : cfg.persistent[k]? = some (x, i) →
      WorkMove cfg s (.boot k) .go { s.work with tls := some i } (.booting k x)
  | emits (k : Nat) (x : Item) (room : Bool) (i : Nat) {y : Item} : cfg.owns y = false →
      WorkMove cfg s (.booting k x) (.emit room i y) (s.work.put room i y) (.booting k x)
  | leaves (k : Nat) {x : Item} (room : Bool) {l : Leave} : cfg.may x l = true →
      WorkMove cfg s (.booting k x) (.leave room l)
        { s.work.leave cfg room x l with tls := none } (.boot (k + 1))
  | iterates {p : BodyPc Item} {b : BodyAct Item E} {w : Work Item P} {n : Next Item} :
      BodyMove cfg s.work p b w n → WorkMove cfg s (.body p) b w n.pc

omit [DecidableEq Agent] in
theorem goWork_moves (h : s.goWork cfg b = some s') :
    ∃ w p, WorkMove cfg s s.worker b w p ∧ s' = { s with work := w, worker := p } := by
  cases hp : s.worker with
  | boot k =>
    cases b with
    | go =>
      simp only [State.goWork, hp] at h
      split at h
      next hnone => exact ⟨_, _, .booted k hnone, (Option.some.inj h).symm⟩
      next hsome => exact ⟨_, _, .resumes hsome, (Option.some.inj h).symm⟩
    | _ => simp [State.goWork, hp] at h
  | booting k x =>
    cases b with
    | emit room i y =>
      simp only [State.goWork, hp] at h
      split at h
      next => cases h
      next howns =>
        exact ⟨_, _, .emits k x room i (Bool.not_eq_true _ ▸ howns), (Option.some.inj h).symm⟩
    | leave room l =>
      simp only [State.goWork, hp] at h
      split at h
      next hmay => exact ⟨_, _, .leaves k room hmay, (Option.some.inj h).symm⟩
      next => cases h
    | _ => simp [State.goWork, hp] at h
  | body p =>
    simp only [State.goWork, hp] at h
    split at h
    next => cases h
    next hstep => exact ⟨_, _, .iterates (body_moves hstep), (Option.some.inj h).symm⟩
  | _ => simp [State.goWork, hp] at h

/-- The other steps of the worker's thread. -/
inductive ThreadMove (cfg : Config Item P E) (s : State Item P Agent) :
    WorkerPc Item → State Item P Agent → Prop where
  | sets : ThreadMove cfg s .setRunning { s with running := true, worker := .testStop }
  | setsLate (stop : Bool) : ThreadMove cfg s (.setLate stop)
      { s with running := true, worker := if stop then .clearRunning else .loopTest }
  | refuses : s.stopRequested = true →
      ThreadMove cfg s .testStop { s with worker := .clearRunning }
  | begins : s.stopRequested = false → ThreadMove cfg s .testStop { s with worker := .loopTest }
  | clears : ThreadMove cfg s .clearRunning
      { s with running := false, worker := if cfg.busyPoll then .exited else .notify .lock }
  | notifies {p q : NotifyPc} {g : Signals (Option Agent)} :
      s.signals.notify none p = some (g, some q) →
      ThreadMove cfg s (.notify p) { s with signals := g, worker := .notify q }
  | notified : ThreadMove cfg s (.notify .notifyOne) { s with worker := .exited }
  | enters : s.running = true →
      ThreadMove cfg s .loopTest { s with worker := .body (.drain false) }
  | exits : s.running = false → ThreadMove cfg s .loopTest { s with worker := .exited }
  | idles {p q : IdlePc} {g : Signals (Option Agent)} : Moves s.signals none p g q →
      ThreadMove cfg s (.idle p) { s with
        signals := g
        worker := if q = IdlePc.returned then .loopTest else .idle q }

omit [DecidableEq Agent] [DecidableEq Item] in
theorem thread_moves (h : s.go cfg = some s') : ThreadMove cfg s s.worker s' := by
  rw [State.go] at h
  generalize hp : s.worker = q at h ⊢
  cases q with
  | setRunning =>
    cases h
    exact .sets
  | setLate stop =>
    cases h
    exact .setsLate stop
  | testStop =>
    cases h
    by_cases hs : s.stopRequested = true
    · rw [if_pos hs]
      exact .refuses hs
    · rw [if_neg hs]
      exact .begins (Bool.eq_false_iff.mpr hs)
  | clearRunning =>
    cases h
    exact .clears
  | notify p =>
    dsimp only at h
    split at h
    next => cases h
    next hn =>
      cases h
      exact .notifies hn
    next hn =>
      cases h
      obtain ⟨rfl, rfl⟩ := notify_returns hn
      exact .notified
  | loopTest =>
    cases h
    by_cases hr : s.running = true
    · rw [if_pos hr]
      exact .enters hr
    · rw [if_neg hr]
      exact .exits (Bool.eq_false_iff.mpr hr)
  | idle p =>
    dsimp only at h
    split at h
    next => cases h
    next hidle =>
      cases h
      exact .idles (idle_moves hidle)
  | _ => cases h

omit [DecidableEq Agent] [DecidableEq Item] in
/-- They leave the calls and the queues alone. -/
theorem ThreadMove.frame {p : WorkerPc Item} (h : ThreadMove cfg s p s') :
    s'.call = s.call ∧ s'.work = s.work := by
  cases h <;> exact ⟨rfl, rfl⟩

/-- The steps of a call of agent `a`: the state then, and where the call is. -/
inductive CallMove (s : State Item P Agent) (a : Agent) (room : Bool) :
    Call Item → State Item P Agent → Call Item → Prop where
  | resets : CallMove s a room .startReset { s with stopRequested := false } .startThread
  | creates : s.worker = .absent → CallMove s a room .startThread
      { s with work := { s.work with tls := none }, worker := .boot 0 } .none
  | requests : CallMove s a room .stopFlag { s with stopRequested := true } .stopRunning
  | clears : CallMove s a room .stopRunning { s with running := false } (.notify .lock true)
  | stage {p q : NotifyPc} {stopping : Bool} {g : Signals (Option Agent)} :
      s.signals.notify (some a) p = some (g, some q) →
      CallMove s a room (.notify p stopping) { s with signals := g } (.notify q stopping)
  | woken (stopping : Bool) : CallMove s a room (.notify .notifyOne stopping)
      { s with worker := s.worker.wake } .none
  | submits (i : Nat) (item : Item) : CallMove s a room (.submit i item)
      { s with work := s.work.put room i item } (.submitted i)
  | returns (i : Nat) : CallMove s a room (.submitted i) s .none

omit [DecidableEq Item] in
theorem goCall_moves {a : Agent} {room : Bool} (h : s.goCall a room = some s') :
    ∃ s₁ c, CallMove s a room (s.call a) s₁ c ∧ s' = s₁.setCall a c := by
  rw [State.goCall] at h
  generalize hc : s.call a = q at h ⊢
  cases q with
  | none => cases h
  | startReset =>
    exact ⟨_, _, .resets, (Option.some.inj h).symm⟩
  | startThread =>
    dsimp only at h
    split at h
    next hw => exact ⟨_, _, .creates hw, (Option.some.inj h).symm⟩
    next => cases h
  | stopFlag =>
    exact ⟨_, _, .requests, (Option.some.inj h).symm⟩
  | stopRunning =>
    exact ⟨_, _, .clears, (Option.some.inj h).symm⟩
  | notify p stopping =>
    dsimp only at h
    split at h
    next => cases h
    next hn => exact ⟨_, _, .stage hn, (Option.some.inj h).symm⟩
    next hn =>
      obtain ⟨rfl, rfl⟩ := notify_returns hn
      exact ⟨_, _, .woken stopping, (Option.some.inj h).symm⟩
  | submit i item =>
    exact ⟨_, _, .submits i item, (Option.some.inj h).symm⟩
  | submitted i =>
    exact ⟨_, _, .returns i, (Option.some.inj h).symm⟩

/-- The action that begins a call of agent `a`. -/
inductive Begins (cfg : Config Item P E) (a : Agent) : Act Item E Agent → Call Item → Prop where
  | start : Begins cfg a (.start a) .startReset
  | stop : Begins cfg a (.stop a) .stopFlag
  | notify : Begins cfg a (.notify a) (.notify .lock false)
  | submit (i : Nat) {item : Item} : cfg.owns item = false →
      Begins cfg a (.submit a i item) (.submit i item)

/-- The steps of the machine. -/
inductive StepMove (cfg : Config Item P E) (s : State Item P Agent) :
    Act Item E Agent → State Item P Agent → Prop where
  | works {b : BodyAct Item E} {w : Work Item P} {p : WorkerPc Item} :
      WorkMove cfg s s.worker b w p → StepMove cfg s (.work b) { s with work := w, worker := p }
  | threads {s' : State Item P Agent} : ThreadMove cfg s s.worker s' → StepMove cfg s .go s'
  | early : s.worker = .setRunning →
      StepMove cfg s .goEarly { s with worker := .setLate s.stopRequested }
  | wakes : StepMove cfg s .wake { s with worker := s.worker.wake }
  | joins : s.worker = .exited → StepMove cfg s .join { s with worker := .absent }
  | begins {a : Agent} {act : Act Item E Agent} {c : Call Item} : Begins cfg a act c →
      s.call a = .none → StepMove cfg s act (s.setCall a c)
  | calls {a : Agent} {room : Bool} {s₁ : State Item P Agent} {c : Call Item} :
      CallMove s a room (s.call a) s₁ c → StepMove cfg s (.goCall a room) (s₁.setCall a c)

omit [DecidableEq Item] in
theorem begin_eq_some {a : Agent} {c : Call Item} (h : s.begin a c = some s') :
    s.call a = .none ∧ s' = s.setCall a c := by
  rw [State.begin] at h
  split at h
  next hnone => exact ⟨hnone, (Option.some.inj h).symm⟩
  next => cases h

/-- Every step of the machine is one of those. -/
theorem step_moves {act : Act Item E Agent} (h : step cfg s act = some s') :
    StepMove cfg s act s' := by
  cases act with
  | work b =>
    obtain ⟨w, p, hm, rfl⟩ := goWork_moves h
    exact .works hm
  | go => exact .threads (thread_moves h)
  | goEarly =>
    simp only [step] at h
    split at h
    next hw =>
      cases h
      exact .early hw
    next => cases h
  | wake =>
    cases h
    exact .wakes
  | join =>
    simp only [step] at h
    split at h
    next hw =>
      cases h
      exact .joins hw
    next => cases h
  | start a =>
    obtain ⟨hnone, rfl⟩ := begin_eq_some h
    exact .begins Begins.start hnone
  | stop a =>
    obtain ⟨hnone, rfl⟩ := begin_eq_some h
    exact .begins Begins.stop hnone
  | notify a =>
    obtain ⟨hnone, rfl⟩ := begin_eq_some h
    exact .begins Begins.notify hnone
  | submit a i item =>
    simp only [step] at h
    split at h
    next => cases h
    next howns =>
      obtain ⟨hnone, rfl⟩ := begin_eq_some h
      exact .begins (Begins.submit i (Bool.not_eq_true _ ▸ howns)) hnone
  | goCall a room =>
    obtain ⟨s₁, c, hm, rfl⟩ := goCall_moves h
    exact .calls hm
  | access o i item => cases h

/-- The steps of the machine. -/
inductive SystemMove (cfg : Config Item P E) (s : System Item P Agent) :
    Act Item E Agent → System Item P Agent → Prop where
  | acts {act : Act Item E Agent} {s' : State Item P Agent} :
      s.push act.thread = s.due cfg act → StepMove cfg s.toState act s' →
      SystemMove cfg s act { toState := s', push := Function.update s.push act.thread none }
  | accesses {o : Option Agent} {i : Nat} {item : Item} {q q' : SpscQueue Item} {p : PushPc} :
      s.enqueues cfg i item o = true → s.work.queues[i]? = some (.spsc q) →
      (∀ r ∈ s.push o, r.queue = i ∧ r.item = item) →
      q.access item ((s.push o).map Push.pc) = some (q', p) →
      SystemMove cfg s (.access o i item) { s with
        work := { s.work with queues := s.work.queues.set i (.spsc q') }
        push := Function.update s.push o (some ⟨i, item, p⟩) }

theorem system_moves {S S' : System Item P Agent} {act : Act Item E Agent}
    (h : S.step cfg act = some S') : SystemMove cfg S act S' := by
  have hacts : (if S.push act.thread = S.due cfg act then
      (step cfg S.toState act).map fun s' =>
        System.mk s' (Function.update S.push act.thread none) else none) = some S' →
      SystemMove cfg S act S' := by
    intro h
    split at h
    next hdue =>
      obtain ⟨s', hstep, rfl⟩ := Option.map_eq_some_iff.mp h
      exact .acts hdue (step_moves hstep)
    next => cases h
  cases act with
  | access o i item =>
    simp only [System.step, System.access] at h
    split at h
    next q hq =>
      split at h
      next hguard =>
        obtain ⟨⟨q', p⟩, haccess, rfl⟩ := Option.map_eq_some_iff.mp h
        exact .accesses hguard.1 hq hguard.2 haccess
      next => cases h
    next => cases h
  | _ => exact hacts h

/-- **Invariants of the worker's state**: what the steps keep and what does not depend on the
    contents of an SPSC queue. -/
theorem state_invariant {C : List (Event Item Agent) → System Item P Agent →
      Act Item E Agent → Prop} {S₀ S : System Item P Agent} {t : List (Event Item Agent)}
    (hrun : Exec (machine cfg) C S₀ t S)
    (Inv : List (Event Item Agent) → State Item P Agent → Prop) (hstart : Inv [] S₀.toState)
    (hstep : ∀ t (S : System Item P Agent) act s', Inv t S.toState → C t S act →
      StepMove cfg S.toState act s' → Inv (note t (event S.toState act)) s')
    (haccess : ∀ t (s : State Item P Agent) i q q', Inv t s → s.work.queues[i]? = some (.spsc q) →
      Inv t { s with work := { s.work with queues := s.work.queues.set i (.spsc q') } }) :
    Inv t S.toState := by
  refine hrun.invariant (fun t S => Inv t S.toState) hstart ?_
  intro t S act S' ih hc h
  cases system_moves h with
  | acts _ hm => exact hstep t S act _ ih hc hm
  | accesses _ hq _ _ => exact haccess t S.toState _ _ _ ih hq

/-- A step inside an iteration is a step of the worker. -/
theorem step_body (hp : s.worker = .body p) (h : s.work.step cfg p b = some (w, n)) :
    step cfg s (.work b) = some { s with work := w, worker := n.pc } := by
  simp only [step, State.goWork, hp, h]

/-- A step of the worker is one of the machine, if the thread is in the push that it must be
    in. -/
theorem system_step {S : System Item P Agent} {act : Act Item E Agent}
    (hdue : S.push act.thread = S.due cfg act) (h : step cfg S.toState act = some s') :
    S.step cfg act = some { toState := s', push := Function.update S.push act.thread none } := by
  cases act with
  | access o i item => cases h
  | _ => simp only [System.step, if_pos hdue, h, Option.map_some]

/-- A step that puts nothing into an SPSC queue, with no push in progress. -/
theorem alone_step {act : Act Item E Agent} (hdue : s.due cfg act = none)
    (h : step cfg s act = some s') : s.alone.step cfg act = some s'.alone := by
  have hpush : Function.update (fun _ => none : Option Agent → Option (Push Item)) act.thread none =
      fun _ => none := Function.update_eq_self ..
  rw [system_step (S := s.alone) hdue.symm h, State.alone, hpush]
  rfl

end Steps

end Scheduler
