import StorageRuntime.InterleavingProofs
import Mathlib.Algebra.Group.Nat.Defs
import Mathlib.Tactic.Common

/-!
# Thread affinity of wake-ups

Every coroutine that suspends on an `AffinityBaton`, `AffinityMutex` or
`AffinitySemaphore` leaves a waiter node behind.  The node records two things read on the
suspending thread: the worker id returned by the process-wide function pointer
`detail::get_current_worker_id`, and the route returned by `get_current_route()`.  Whoever
posts, unlocks or releases later uses the route if it is set and the id is not `SIZE_MAX`,
and otherwise resumes the coroutine inline.

This file models what a node records and how it is resumed (shared by the three
primitives), and the life of the threads that decide it: `Worker::worker_loop` and
`WorkStealingExecutor::worker_loop` write their thread-locals and overwrite the ONE function
pointer, and `Worker::worker_loop` overwrites it again when it ends.

* **`getCurrentRoute`** reads thread-locals only, so the recorded route is always the
  suspending worker's own (`getCurrentRoute_own`).
* **`wakeup_affine_iff`**: the recorded id is the worker's own, and the wake-up goes to
  that worker, exactly when the pointer holds, at the moment of the suspension, the reader
  that the worker's own kind of loop installs.
* **`wakeup_inline_after_exit`**: one worker leaving its loop is enough to make the others'
  coroutines resume inline.
-/

namespace ThreadAffinity

open Function Interleaving

/-- `SIZE_MAX` of a 64-bit `size_t`: the id of "no worker". -/
def SIZE_MAX : Nat := 2 ^ 64 - 1

/-! ## What a waiter node records, and how it is resumed -/

/-- `RouteFunc`: a function pointer with its context.  The code only ever builds three of
    them: the empty one, `OnlineWorker::make_route_func` and
    `WorkStealingExecutor::make_route_func`. -/
inductive RouteFunc where
  | null
  | online (worker : Nat)
  | executor (exec : Nat)
deriving DecidableEq, Repr

/-- `RouteFunc::operator bool`. -/
def RouteFunc.isSet : RouteFunc → Bool
  | .null => false
  | _ => true

/-- The fields of a waiter node that are read when it is resumed.  (The handle is the
    coroutine itself; the link field lives in each primitive's node memory.) -/
structure WaiterNode where
  workerId : Nat
  route : RouteFunc
deriving DecidableEq, Repr

/-- The two ways of resuming a waiter. -/
inductive Resumption where
  | routed (route : RouteFunc) (workerId : Nat)
  | inline
deriving DecidableEq, Repr

/-- The branch shared by `resume_chain`, `unlock` and `release`:
    `if (node->route && node->worker_id != SIZE_MAX) route(...) else handle.resume()`. -/
def WaiterNode.resumption (n : WaiterNode) : Resumption :=
  if n.route.isSet = true ∧ n.workerId ≠ SIZE_MAX then .routed n.route n.workerId else .inline

/-- Where a resumed coroutine ends up. -/
inductive Delivery where
  | affineQueue (worker : Nat)
  | localDeque (exec worker : Nat)
  | dropped
  | inline
deriving DecidableEq, Repr

/-- The body of the route functions.  The online route ignores the id and enqueues to the
    affine queue of its own worker; the executor's route is `add_to_worker`, which returns
    at once for an id outside `workers_`.  `size e` is `workers_.size()` of executor `e`. -/
def RouteFunc.call (size : Nat → Nat) : RouteFunc → Nat → Delivery
  | .null, _ => .dropped
  | .online w, _ => .affineQueue w
  | .executor e, id => if id ≥ size e then .dropped else .localDeque e id

/-- Carry a resumption out. -/
def Resumption.deliver (size : Nat → Nat) : Resumption → Delivery
  | .routed r id => r.call size id
  | .inline => .inline

/-! ## Threads -/

/-- The id of a worker: `Worker::next_id_` counts up from 0 and an executor numbers its
    `workers_` from 0, so no worker's id is `SIZE_MAX`. -/
structure WorkerId where
  val : Nat
  lt : val < SIZE_MAX
deriving DecidableEq, Repr

/-- What runs on a thread.  `worker` is a `Worker` that is no `OnlineWorker`. -/
inductive Role where
  | worker (id : WorkerId)
  | onlineWorker (id : WorkerId)
  | executorWorker (exec : Nat) (id : WorkerId)
  | external
deriving DecidableEq, Repr

/-- The id the thread's own worker has. -/
def Role.id : Role → Nat
  | .worker id => id.val
  | .onlineWorker id => id.val
  | .executorWorker _ id => id.val
  | .external => SIZE_MAX

/-- The route of the thread's own worker; a plain `Worker` has none here, because
    `get_current_route` asks for an `OnlineWorker`. -/
def Role.route : Role → RouteFunc
  | .onlineWorker id => .online id.val
  | .executorWorker e _ => .executor e
  | _ => .null

/-- The node a coroutine of this thread is meant to leave behind. -/
def Role.ownNode (r : Role) : WaiterNode := ⟨r.id, r.route⟩

/-- Where a coroutine of this thread is meant to be resumed. -/
def Role.home : Role → Delivery
  | .onlineWorker id => .affineQueue id.val
  | .executorWorker e id => .localDeque e id.val
  | _ => .inline

/-- The values `detail::get_current_worker_id` is ever set to: a function that returns
    `SIZE_MAX` (the default, and the lambda stored at the end of `Worker::worker_loop`),
    the reader of `tls_worker_id`, or the reader of `tl_worker_id_`. -/
inductive IdReader where
  | noAffinity
  | tlsWorkerId
  | tlWorkerId
deriving DecidableEq, Repr

/-- The reader that the thread's own loop installs. -/
def Role.reader : Role → IdReader
  | .worker _ => .tlsWorkerId
  | .onlineWorker _ => .tlsWorkerId
  | .executorWorker _ _ => .tlWorkerId
  | .external => .noAffinity

/-- The thread-locals of one thread. -/
structure Tls where
  tlsWorkerId : Nat
  tlsCurrentWorker : Option Role
  tlWorkerId : Nat
  tlExecutor : Option Nat
deriving DecidableEq, Repr

/-- The thread-locals of a fresh thread. -/
def Tls.fresh : Tls := ⟨SIZE_MAX, none, SIZE_MAX, none⟩

/-- Call the function pointer on a thread. -/
def IdReader.read : IdReader → Tls → Nat
  | .noAffinity, _ => SIZE_MAX
  | .tlsWorkerId, v => v.tlsWorkerId
  | .tlWorkerId, v => v.tlWorkerId

/-- `get_current_route()`: the online worker of this thread if there is one
    (`dynamic_cast` of `tls_current_worker`), else the executor of this thread. -/
def getCurrentRoute (v : Tls) : RouteFunc :=
  match v.tlsCurrentWorker with
  | some (.onlineWorker w) => .online w.val
  | _ =>
    match v.tlExecutor with
    | some e => .executor e
    | none => .null

/-- The first two assignments of the role's `worker_loop`. -/
def Role.enter (v : Tls) : Role → Tls
  | .worker id => { v with tlsWorkerId := id.val, tlsCurrentWorker := some (.worker id) }
  | .onlineWorker id =>
    { v with tlsWorkerId := id.val, tlsCurrentWorker := some (.onlineWorker id) }
  | .executorWorker e id => { v with tlWorkerId := id.val, tlExecutor := some e }
  | .external => v

/-- The assignments after the loop: only `Worker::worker_loop` has any. -/
def Role.leave (v : Tls) : Role → Tls
  | .worker _ => { v with tlsWorkerId := SIZE_MAX, tlsCurrentWorker := none }
  | .onlineWorker _ => { v with tlsWorkerId := SIZE_MAX, tlsCurrentWorker := none }
  | _ => v

/-- Where a thread is: not begun, thread-locals written but the pointer not yet, inside its
    loop, thread-locals cleared but the pointer not yet, ended. -/
inductive ThreadPc where
  | unborn
  | entered
  | running
  | leaving
  | ended
deriving DecidableEq, Repr

/-! ## The machine -/

/-- A suspension: the thread it happened on, the function pointer at that moment (both for
    the record only) and the node. -/
structure Suspension (Thread : Type) where
  thread : Thread
  reader : IdReader
  node : WaiterNode
deriving DecidableEq, Repr

/-- One thread: where it is, and its thread-locals. -/
structure ThreadState where
  pc : ThreadPc
  tls : Tls
deriving DecidableEq, Repr

structure State (Thread Coro : Type) where
  getCurrentWorkerId : IdReader
  thread : Thread → ThreadState
  waiting : Coro → Option (Suspension Thread)

inductive Act (Thread Coro : Type) where
  | enter (τ : Thread)
  | install (τ : Thread)
  | suspend (τ : Thread) (c : Coro)
  | wake (τ : Thread) (c : Coro)
  | leave (τ : Thread)
  | uninstall (τ : Thread)

/-- A wake-up of coroutine `c`, suspended as in `w`, by thread `waker`. -/
structure Wakeup (Thread Coro : Type) where
  coro : Coro
  suspension : Suspension Thread
  waker : Thread
  resumption : Resumption
deriving DecidableEq, Repr

variable {Thread Coro : Type}

/-- Before any thread runs the pointer is `default_worker_id`. -/
def init : State Thread Coro :=
  ⟨.noAffinity, fun _ => ⟨.unborn, Tls.fresh⟩, fun _ => none⟩

/-- The node that `await_suspend` of any of the three primitives fills in on thread `τ`. -/
def recordNode (s : State Thread Coro) (τ : Thread) : WaiterNode :=
  ⟨s.getCurrentWorkerId.read (s.thread τ).tls, getCurrentRoute (s.thread τ).tls⟩

section Machine

variable [DecidableEq Thread] [DecidableEq Coro]

/-- Put thread `τ` at `pc` with thread-locals `tls`. -/
def State.setThread (s : State Thread Coro) (τ : Thread) (pc : ThreadPc) (tls : Tls) :
    State Thread Coro :=
  { s with thread := update s.thread τ ⟨pc, tls⟩ }

/-- One step.  `role` says what each thread was created to run.  Coroutines run only inside
    a loop, so only a running thread suspends one; any running thread may post, unlock or
    release. -/
def step (role : Thread → Role) (s : State Thread Coro) :
    Act Thread Coro → Option (State Thread Coro)
  | .enter τ =>
    if (s.thread τ).pc = .unborn then
      some (s.setThread τ .entered ((role τ).enter (s.thread τ).tls))
    else none
  | .install τ =>
    if (s.thread τ).pc = .entered then
      some { s.setThread τ .running (s.thread τ).tls with
        -- an external thread never touches the pointer
        getCurrentWorkerId :=
          if role τ = .external then s.getCurrentWorkerId else (role τ).reader }
    else none
  | .suspend τ c =>
    if (s.thread τ).pc = .running ∧ s.waiting c = none then
      some { s with
        waiting := update s.waiting c (some ⟨τ, s.getCurrentWorkerId, recordNode s τ⟩) }
    else none
  | .wake τ c =>
    if (s.thread τ).pc = .running ∧ s.waiting c ≠ none then
      some { s with waiting := update s.waiting c none }
    else none
  | .leave τ =>
    if (s.thread τ).pc = .running then
      some (s.setThread τ .leaving ((role τ).leave (s.thread τ).tls))
    else none
  | .uninstall τ =>
    if (s.thread τ).pc = .leaving then
      some { s.setThread τ .ended (s.thread τ).tls with
        getCurrentWorkerId :=
          match role τ with
          | .worker _ | .onlineWorker _ => .noAffinity
          -- `WorkStealingExecutor::worker_loop` restores nothing
          | _ => s.getCurrentWorkerId }
    else none

/-- The observer sees the wake-ups. -/
def event (s : State Thread Coro) : Act Thread Coro → Option (Wakeup Thread Coro)
  | .wake τ c => (s.waiting c).map fun w => ⟨c, w, τ, w.node.resumption⟩
  | _ => none

/-- The threads of one process. -/
def machine (role : Thread → Role) :
    Machine (State Thread Coro) (Act Thread Coro) (Wakeup Thread Coro) where
  step := step role
  event := event

end Machine

/-! ## What a suspension records -/

/-- Inside its loop a thread's route is its own worker's. -/
theorem getCurrentRoute_own (r : Role) : getCurrentRoute (r.enter Tls.fresh) = r.route := by
  cases r <;> rfl

/-- Inside its loop a routed worker reads its own id through its own reader and `SIZE_MAX`
    through any other: the other thread-local was never written on this thread. -/
theorem read_own {r : Role} (hr : r.route.isSet = true) (p : IdReader) :
    p.read (r.enter Tls.fresh) = if p = r.reader then r.id else SIZE_MAX := by
  cases r with
  | worker id | external => cases hr
  | onlineWorker id | executorWorker e id => cases p <;> rfl

/-- No routed worker has the id `SIZE_MAX`. -/
theorem id_ne_sizeMax {r : Role} (hr : r.route.isSet = true) : r.id ≠ SIZE_MAX := by
  cases r with
  | worker id | external => cases hr
  | onlineWorker id | executorWorker e id => exact Nat.ne_of_lt id.lt

/-- A node with the worker's own id and route is resumed at the worker's home. -/
theorem ownNode_deliver {size : Nat → Nat} {r : Role} (hr : r.route.isSet = true)
    (hsize : ∀ e id, r = .executorWorker e id → id.val < size e) :
    r.ownNode.resumption.deliver size = r.home := by
  have hres : r.ownNode.resumption = .routed r.route r.id :=
    if_pos ⟨hr, id_ne_sizeMax hr⟩
  rw [hres]
  cases r with
  | worker id | external => cases hr
  | onlineWorker id => rfl
  | executorWorker e id => exact if_neg (Nat.not_le_of_lt (hsize e id rfl))

/-- A routed worker's home is not the thread that wakes its coroutines. -/
theorem home_ne_inline {r : Role} (hr : r.route.isSet = true) : r.home ≠ .inline := by
  cases r with
  | worker id | external => cases hr
  | onlineWorker id | executorWorker e id => exact fun h => nomatch h

/-- What a suspension on a routed worker records: its own node if it read its own reader,
    and its own route with the id of no worker otherwise. -/
def Faithful (role : Thread → Role) (w : Suspension Thread) : Prop :=
  (role w.thread).route.isSet = true →
    w.node = if w.reader = (role w.thread).reader then (role w.thread).ownNode
      else ⟨SIZE_MAX, (role w.thread).route⟩

/-- A suspension made inside the loop of `τ` is faithful. -/
theorem faithful_record {role : Thread → Role} {s : State Thread Coro} {τ : Thread}
    (htls : (s.thread τ).tls = (role τ).enter Tls.fresh) :
    Faithful role ⟨τ, s.getCurrentWorkerId, recordNode s τ⟩ := by
  intro hr
  rw [recordNode, htls, getCurrentRoute_own, read_own hr]
  by_cases hp : s.getCurrentWorkerId = (role τ).reader
  · rw [if_pos hp, if_pos hp]
    rfl
  · rw [if_neg hp, if_neg hp]

/-- A faithful suspension that read its own reader recorded its own node. -/
theorem Faithful.own {role : Thread → Role} {w : Suspension Thread} (h : Faithful role w)
    (hr : (role w.thread).route.isSet = true) (hp : w.reader = (role w.thread).reader) :
    w.node = (role w.thread).ownNode := by
  rw [h hr, if_pos hp]

/-- A faithful suspension that read another reader lost its id, and is resumed inline. -/
theorem Faithful.lost {role : Thread → Role} {w : Suspension Thread} (h : Faithful role w)
    (hr : (role w.thread).route.isSet = true) (hp : w.reader ≠ (role w.thread).reader) :
    w.node.workerId = SIZE_MAX ∧ w.node.resumption = .inline := by
  have hid : w.node.workerId = SIZE_MAX := by rw [h hr, if_neg hp]
  exact ⟨hid, if_neg (fun hn => hn.2 hid)⟩

/-! ## The invariant -/

/-- A thread has fresh thread-locals before its loop and those its loop wrote inside it. -/
def ThreadOk (r : Role) (v : ThreadState) : Prop :=
  match v.pc with
  | .unborn => v.tls = Tls.fresh
  | .entered | .running => v.tls = r.enter Tls.fresh
  | .leaving | .ended => True

/-- Every thread is as its loop left it; every suspension, open or woken, is faithful; and
    every wake-up takes the branch its node says. -/
structure Inv (role : Thread → Role) (t : List (Wakeup Thread Coro))
    (s : State Thread Coro) : Prop where
  threads : ∀ τ, ThreadOk (role τ) (s.thread τ)
  waiting : ∀ c w, s.waiting c = some w → Faithful role w
  woken : ∀ u ∈ t, Faithful role u.suspension ∧ u.resumption = u.suspension.node.resumption

theorem inv_init (role : Thread → Role) : Inv role [] (init : State Thread Coro) where
  threads _ := rfl
  waiting _ _ h := nomatch h
  woken _ h := nomatch h

/-- The thread-locals of a thread inside its loop. -/
theorem ThreadOk.running {r : Role} {v : ThreadState} (h : ThreadOk r v)
    (hpc : v.pc = .running) : v.tls = r.enter Tls.fresh := by
  rw [ThreadOk, hpc] at h
  exact h

variable [DecidableEq Thread]

/-- Moving one thread keeps the threads as they should be. -/
theorem threadOk_setThread {role : Thread → Role} {s : State Thread Coro} {τ : Thread}
    {pc : ThreadPc} {tls : Tls} (h : ∀ υ, ThreadOk (role υ) (s.thread υ))
    (hτ : ThreadOk (role τ) ⟨pc, tls⟩) : ∀ υ, ThreadOk (role υ) ((s.setThread τ pc tls).thread υ) :=
  forall_update (P := fun υ v => ThreadOk (role υ) v) h hτ

variable [DecidableEq Coro]

theorem inv_step (role : Thread → Role) (t : List (Wakeup Thread Coro))
    (s : State Thread Coro) (a : Act Thread Coro) (s' : State Thread Coro)
    (hi : Inv role t s) (hs : (machine role).step s a = some s') :
    Inv role ((machine role).record s a t) s' := by
  cases a with
  | enter τ =>
    obtain ⟨hpc, rfl⟩ : (s.thread τ).pc = .unborn ∧ _ = s' := by
      simpa [machine, step] using hs
    have hfresh : (s.thread τ).tls = Tls.fresh := by
      have := hi.threads τ
      rwa [ThreadOk, hpc] at this
    refine ⟨threadOk_setThread hi.threads ?_, hi.waiting, hi.woken⟩
    rw [hfresh]
    rfl
  | install τ =>
    obtain ⟨hpc, rfl⟩ : (s.thread τ).pc = .entered ∧ _ = s' := by
      simpa [machine, step] using hs
    refine ⟨threadOk_setThread hi.threads ?_, hi.waiting, hi.woken⟩
    have := hi.threads τ
    rwa [ThreadOk, hpc] at this
  | suspend τ c =>
    obtain ⟨⟨hpc, -⟩, rfl⟩ : ((s.thread τ).pc = .running ∧ s.waiting c = none) ∧ _ = s' := by
      simpa [machine, step] using hs
    refine ⟨hi.threads, ?_, hi.woken⟩
    refine forall_update (P := fun _ w => ∀ v, w = some v → Faithful role v) hi.waiting ?_
    rintro v ⟨⟩
    exact faithful_record ((hi.threads τ).running hpc)
  | wake τ c =>
    obtain ⟨⟨-, hc⟩, rfl⟩ : ((s.thread τ).pc = .running ∧ s.waiting c ≠ none) ∧ _ = s' := by
      simpa [machine, step] using hs
    obtain ⟨w, hw⟩ := Option.ne_none_iff_exists'.mp hc
    have hev : (machine role).event s (.wake τ c) = some ⟨c, w, τ, w.node.resumption⟩ := by
      simp [machine, event, hw]
    rw [Machine.record_some t hev]
    refine ⟨hi.threads, ?_, ?_⟩
    · exact forall_update (P := fun _ w => ∀ v, w = some v → Faithful role v) hi.waiting
        (fun v hv => nomatch hv)
    · intro u hu
      rcases List.mem_cons.mp hu with rfl | hu
      · exact ⟨hi.waiting c w hw, rfl⟩
      · exact hi.woken u hu
  | leave τ =>
    obtain ⟨-, rfl⟩ : (s.thread τ).pc = .running ∧ _ = s' := by
      simpa [machine, step] using hs
    exact ⟨threadOk_setThread hi.threads trivial, hi.waiting, hi.woken⟩
  | uninstall τ =>
    obtain ⟨-, rfl⟩ : (s.thread τ).pc = .leaving ∧ _ = s' := by
      simpa [machine, step] using hs
    exact ⟨threadOk_setThread hi.threads trivial, hi.waiting, hi.woken⟩

theorem inv_exec {role : Thread → Role} {C} {t : List (Wakeup Thread Coro)}
    {s : State Thread Coro} (h : Exec (machine role) C init t s) : Inv role t s :=
  h.invariant (Inv role) (inv_init role) (fun t s a s' hi _ hs => inv_step role t s a s' hi hs)

/-! ## When wake-ups are affine -/

/-- A suspension on a routed worker obeys the law of affinity: it recorded the worker's own
    id and route, and resuming its node leads to that worker and nowhere else. -/
def Affine (role : Thread → Role) (size : Nat → Nat) (w : Suspension Thread) : Prop :=
  w.node = (role w.thread).ownNode ∧
  w.node.resumption.deliver size = (role w.thread).home

omit [DecidableEq Thread] in
/-- A faithful suspension is delivered home exactly when it read its own reader. -/
theorem Faithful.deliver_iff {role : Thread → Role} {size : Nat → Nat}
    (hsize : ∀ τ e id, role τ = .executorWorker e id → id.val < size e)
    {w : Suspension Thread} (h : Faithful role w) (hr : (role w.thread).route.isSet = true) :
    w.node.resumption.deliver size = (role w.thread).home ↔ w.reader = (role w.thread).reader := by
  constructor
  · intro hd
    by_contra hp
    rw [(h.lost hr hp).2] at hd
    exact home_ne_inline hr hd.symm
  · intro hp
    rw [h.own hr hp]
    exact ownNode_deliver hr (hsize w.thread)

omit [DecidableEq Thread] in
/-- … and it is affine then. -/
theorem Faithful.affine_iff {role : Thread → Role} {size : Nat → Nat}
    (hsize : ∀ τ e id, role τ = .executorWorker e id → id.val < size e)
    {w : Suspension Thread} (h : Faithful role w) (hr : (role w.thread).route.isSet = true) :
    Affine role size w ↔ w.reader = (role w.thread).reader :=
  ⟨fun ha => (h.deliver_iff hsize hr).mp ha.2,
    fun hp => ⟨h.own hr hp, (h.deliver_iff hsize hr).mpr hp⟩⟩

/-- **When wake-ups are affine.**  In every run, whatever threads start and end in whatever
    order: a suspension on a routed worker obeys the law of affinity if and only if the
    process-wide pointer held, when the coroutine suspended, the reader installed by the
    worker's own kind of loop; and a wake-up of a routed worker's coroutine is delivered to
    that worker if and only if this was so. -/
theorem wakeup_affine_iff (role : Thread → Role) (size : Nat → Nat)
    (hsize : ∀ τ e id, role τ = .executorWorker e id → id.val < size e)
    {t : List (Wakeup Thread Coro)} {s : State Thread Coro}
    (h : Exec (machine role) Always init t s) :
    (∀ c w, s.waiting c = some w → (role w.thread).route.isSet = true →
      (Affine role size w ↔ w.reader = (role w.thread).reader)) ∧
    (∀ u ∈ t, (role u.suspension.thread).route.isSet = true → (Affine role size u.suspension ∧
          u.resumption.deliver size = (role u.suspension.thread).home ↔
        u.suspension.reader = (role u.suspension.thread).reader)) := by
  have hi := inv_exec h
  refine ⟨fun c w hw hr => (hi.waiting c w hw).affine_iff hsize hr, ?_⟩
  intro u hu hr
  obtain ⟨hf, hres⟩ := hi.woken u hu
  rw [hres, hf.affine_iff hsize hr, hf.deliver_iff hsize hr]
  exact and_self_iff

/-- A process with two online workers, 0 and 1, and an external thread. -/
def twoOnline : Fin 3 → Role
  | 0 => .onlineWorker ⟨0, by decide⟩
  | 1 => .onlineWorker ⟨1, by decide⟩
  | 2 => .external

/-- Both workers are running and a coroutine suspends on worker 0 and is woken by the
    external thread: it is delivered to worker 0's affine queue. -/
theorem wakeup_affine_iff_twoOnline : ∃ (t : List (Wakeup (Fin 3) Nat)) (s : State (Fin 3) Nat),
      Exec (machine twoOnline) Always init t s ∧
      ∃ u ∈ t, u.suspension.thread = 0 ∧
        u.resumption.deliver (fun _ => 0) = .affineQueue 0 := by
  let acts : List (Act (Fin 3) Nat) := [.enter 0, .install 0, .enter 1, .install 1,
    .enter 2, .install 2, .suspend 0 7, .wake 2 7]
  have hrun : Exec (machine twoOnline) Always init _ _ := exec_run acts
  refine ⟨_, _, hrun, ⟨7, ⟨0, .tlsWorkerId, ⟨0, .online 0⟩⟩, 2, .routed (.online 0) 0⟩,
    by decide, rfl, ?_⟩
  have hsize : ∀ τ e id, twoOnline τ = .executorWorker e id → id.val < 0 := by
    intro τ e id h
    match τ, h with
    | 0, h => cases h
    | 1, h => cases h
    | 2, h => cases h
  exact (((wakeup_affine_iff twoOnline (fun _ => 0) hsize hrun).2 _ (by decide)
    rfl).mpr rfl).2

/-- **One worker's exit breaks the others' affinity.**  Worker 1 leaves its loop, then a
    coroutine suspends on worker 0, which is still running and has a route: it records
    `SIZE_MAX` and is resumed inline by the external thread that wakes it. -/
theorem wakeup_inline_after_exit : ∃ (t : List (Wakeup (Fin 3) Nat)) (s : State (Fin 3) Nat),
      Exec (machine twoOnline) Always init t s ∧
      ∃ u ∈ t, (twoOnline u.suspension.thread).route.isSet = true ∧
        u.suspension.thread = 0 ∧ (s.thread 0).pc = .running ∧
        u.suspension.node.workerId = SIZE_MAX ∧ u.waker = 2 ∧ u.resumption = .inline := by
  let acts : List (Act (Fin 3) Nat) := [.enter 0, .install 0, .enter 1, .install 1,
    .enter 2, .install 2, .leave 1, .uninstall 1, .suspend 0 7, .wake 2 7]
  have hrun : Exec (machine twoOnline) Always init _ _ := exec_run acts
  exact ⟨_, _, hrun, ⟨7, ⟨0, .noAffinity, ⟨SIZE_MAX, .online 0⟩⟩, 2, .inline⟩, by decide⟩

end ThreadAffinity
