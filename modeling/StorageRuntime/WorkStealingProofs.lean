import StorageRuntime.AdaptiveIdleProofs

/-!
# WorkStealingExecutor — workers, submitters and the executor's life cycle

The model of `runtime/work_stealing_executor.cc`: `worker_loop` with its
queue checks in order (own yield queue, own ring, global ring, peers' rings,
then idle), the submissions `add` and `add_to_worker` from any thread, yields,
and `start`, `stop` and `join`.  A step of a thread is one operation on a
queue, one load or store of a `running` flag, or one step of the idle
object (`AdaptiveIdle`).

The rings are taken at their linearisation points: an item is in the queue
from the producer's publication on (or was dropped, when the ring was full),
a dequeue takes the oldest item or finds the queue empty
(`MpmcRing.refines_fifo`).  What an item does when it is executed is left to
the environment: any number of submissions, yields and calls of `stop`.
-/

namespace WorkStealing

open Function Interleaving AdaptiveIdle WordArithmetic

/-- The threads: the workers' own and any others. -/
inductive Thread (n : Nat) (Ext : Type) where
  | worker (w : Fin n)
  | external (e : Ext)
deriving DecidableEq

/-- What the constructor fixed. -/
structure Config (n : Nat) where
  idle : AdaptiveIdle.Config
  numaPeers : Fin n → List (Fin n)
  stealAttempts : Nat

/-- The capacity of a worker's ring (`"ws_local"`). -/
def localCapacity : Nat := 4096

/-- The capacity of the global ring (`"ws_global"`). -/
def globalCapacity : Nat := 65536

/-- What a worker's yield queue holds at most: one slot of its 1024 stays free. -/
def yieldCapacity : Nat := 1023

/-- Where a worker's thread is. -/
inductive WorkerPc (T : Type) where
  /-- `WorkerState::thread` is not joinable. -/
  | absent
  /-- The thread was created and has not yet stored its own `running` flag. -/
  | created
  /-- About to load `running` at the head of the loop. -/
  | loopTest
  /-- About to dequeue from its yield queue. -/
  | yieldCheck
  /-- About to dequeue from its own ring. -/
  | localCheck
  /-- About to dequeue from the global ring. -/
  | globalCheck
  /-- About to make steal attempt `i`. -/
  | steal (i : Nat)
  /-- In `park.enter_idle()`. -/
  | idle (p : IdlePc)
  /-- In `item.execute()`. -/
  | executing (item : T)
  /-- `worker_loop` has returned and the thread is not yet joined. -/
  | exited
deriving DecidableEq

/-- The queues that submissions go to. -/
inductive Queue (n : Nat) where
  | localDeque (v : Fin n)
  | globalEntry
deriving DecidableEq

/-- Where a thread is in a call of the executor's interface. -/
inductive Call (n : Nat) (T : Type) where
  | none
  /-- About to enqueue; an announced submission goes on to notify. -/
  | enqueue (q : Queue n) (item : T) (announce : Bool)
  /-- `add`, external: about to increment `g_add_counter`. -/
  | fetchAdd
  /-- In `park.notify()` of worker `v`, called by a submission or by `stop()`, which then
      goes on with worker `k`. -/
  | notify (v : Fin n) (p : NotifyPc) (stopping : Option Nat)
  /-- `start()`: about to store `running` of worker `i`, or to return. -/
  | startRunning (i : Nat)
  /-- `start()`: about to create the thread of worker `v`. -/
  | startThread (v : Fin n)
  /-- `stop()`: about to clear `running` of worker `i`, or to return. -/
  | stopRunning (i : Nat)
  /-- `join()`: about to join the thread of worker `i`, or to return. -/
  | joinThread (i : Nat)
deriving DecidableEq

@[ext]
structure State (n : Nat) (Ext T : Type) where
  running : Fin n → Bool
  thread : Fin n → WorkerPc T
  localDeque : Fin n → List T
  yieldQueue : Fin n → List T
  globalEntry : List T
  park : Fin n → Signals (Thread n Ext)
  call : Thread n Ext → Call n T

inductive Act (n : Nat) (Ext T : Type) where
  | add (a : Thread n Ext) (item : T)
  | addToWorker (a : Thread n Ext) (workerId : Nat) (item : T)
  /-- The running item yields: its coroutine goes to the worker's yield queue. -/
  | yield (w : Fin n) (item : T)
  /-- `item.execute()` returns. -/
  | finish (w : Fin n)
  | start (a : Thread n Ext)
  | stop (a : Thread n Ext)
  | join (a : Thread n Ext)
  /-- The next step of a call of thread `a`; `room` says whether a ring has a free slot (with
      reservations in flight it may have none although it holds fewer items than slots),
      `counter` is the value of `g_add_counter`, which all executors share. -/
  | goCall (a : Thread n Ext) (room : Bool) (counter : Nat)
  /-- The next step of `worker_loop`. -/
  | goWorker (w : Fin n)
  /-- A spurious wake-up of a blocked worker. -/
  | wake (w : Fin n)

/-- The calls of the life cycle, and notifications. -/
inductive Event (n : Nat) (Ext : Type) where
  | startCalled (a : Thread n Ext)
  | startReturned (a : Thread n Ext)
  | stopCalled (a : Thread n Ext)
  | stopReturned (a : Thread n Ext)
  /-- A `notify()` incremented the generation of worker `v`. -/
  | raised (v : Fin n)
deriving DecidableEq

/-- A new executor. -/
def init (n : Nat) (Ext T : Type) : State n Ext T where
  running := fun _ => false
  thread := fun _ => .absent
  localDeque := fun _ => []
  yieldQueue := fun _ => []
  globalEntry := []
  park := fun _ => Signals.init
  call := fun _ => .none

section Steps

variable {n : Nat} {Ext T : Type} [DecidableEq Ext]

def State.setThread (s : State n Ext T) (w : Fin n) (p : WorkerPc T) : State n Ext T :=
  { s with thread := update s.thread w p }

def State.setCall (s : State n Ext T) (a : Thread n Ext) (c : Call n T) : State n Ext T :=
  { s with call := update s.call a c }

/-- Append to a bounded queue, or drop the item. -/
def push (room : Bool) (capacity : Nat) (q : List T) (item : T) : List T :=
  if room = true ∧ q.length < capacity then q ++ [item] else q

/-- `WorkQueue::enqueue` on one of the rings. -/
def State.enqueue (s : State n Ext T) (room : Bool) (item : T) : Queue n → State n Ext T
  | .localDeque v =>
    let q := push room localCapacity (s.localDeque v) item
    { s with localDeque := update s.localDeque v q }
  | .globalEntry => { s with globalEntry := push room globalCapacity s.globalEntry item }

/-- The victim of steal attempt `i` of worker `w`, while there are attempts left. -/
def Config.victim (cfg : Config n) (w : Fin n) (i : Nat) : Option (Fin n) :=
  let peers := cfg.numaPeers w
  let start := w.val * 2654435761 % wordSize % peers.length
  if i < cfg.stealAttempts then peers[wadd start i % peers.length]? else none

/-- The next step of `worker_loop` of worker `w`. -/
def State.goWorker (cfg : Config n) (s : State n Ext T) (w : Fin n) :
    Option (State n Ext T) :=
  match s.thread w with
  | .absent | .exited | .executing _ => none
  | .created => some ({ s with running := update s.running w true }.setThread w .loopTest)
  | .loopTest => some (s.setThread w (if s.running w then .yieldCheck else .exited))
  | .yieldCheck =>
    match s.yieldQueue w with
    | item :: rest =>
      some ({ s with yieldQueue := update s.yieldQueue w rest }.setThread w (.executing item))
    | [] => some (s.setThread w .localCheck)
  | .localCheck =>
    match s.localDeque w with
    | item :: rest =>
      some ({ s with localDeque := update s.localDeque w rest }.setThread w (.executing item))
    | [] => some (s.setThread w .globalCheck)
  | .globalCheck =>
    match s.globalEntry with
    | item :: rest => some ({ s with globalEntry := rest }.setThread w (.executing item))
    | [] => some (s.setThread w (.steal 0))
  | .steal i =>
    match cfg.victim w i with
    | none => some (s.setThread w (.idle .enterTest))
    | some v =>
      match s.localDeque v with
      | item :: rest =>
        some ({ s with localDeque := update s.localDeque v rest }.setThread w (.executing item))
      | [] => some (s.setThread w (.steal (i + 1)))
  | .idle p =>
    match (s.park w).idle cfg.idle (.worker w) p with
    | none => none
    | some (g, p') =>
      some ({ s with park := update s.park w g }.setThread w
        (if p' = IdlePc.returned then .loopTest else .idle p'))

/-- Waking a worker that is blocked in its condition variable. -/
def WorkerPc.wake : WorkerPc T → WorkerPc T
  | .idle p => .idle p.wake
  | p => p

/-- The call that a thread is in after its enqueue returned. -/
def afterEnqueue : Queue n → Bool → Call n T
  | _, false => .none
  | .localDeque v, true => .notify v .lock none
  | .globalEntry, true => .fetchAdd

/-- The call that a thread is in after a `notify()` returned. -/
def afterNotify : Option Nat → Call n T
  | none => .none
  | some k => .stopRunning k

/-- The next step of the call of thread `a`. -/
def State.goCall (s : State n Ext T) (a : Thread n Ext) (room : Bool) (counter : Nat) :
    Option (State n Ext T) :=
  match s.call a with
  | .none => none
  | .enqueue q item announce => some ((s.enqueue room item q).setCall a (afterEnqueue q announce))
  | .fetchAdd =>
    if h : 0 < n then some (s.setCall a (.notify ⟨counter % n, Nat.mod_lt _ h⟩ .lock none))
    else none
  | .notify v p stopping =>
    match (s.park v).notify a p with
    | none => none
    | some (g, some p') =>
      some ({ s with park := update s.park v g }.setCall a (.notify v p' stopping))
    | some (g, none) =>
      some (({ s with park := update s.park v g }.setThread v
        (s.thread v).wake).setCall a (afterNotify stopping))
  | .startRunning i =>
    if h : i < n then
      some ({ s with running := update s.running ⟨i, h⟩ true }.setCall a (.startThread ⟨i, h⟩))
    else some (s.setCall a .none)
  | .startThread v =>
    -- assigning to a joinable `std::thread` ends the program
    match s.thread v with
    | .absent => some ((s.setThread v .created).setCall a (.startRunning (v.val + 1)))
    | _ => none
  | .stopRunning i =>
    if h : i < n then
      some ({ s with running := update s.running ⟨i, h⟩ false }.setCall a
        (.notify ⟨i, h⟩ .lock (some (i + 1))))
    else some (s.setCall a .none)
  | .joinThread i =>
    if h : i < n then
      match s.thread ⟨i, h⟩ with
      | .absent => some (s.setCall a (.joinThread (i + 1)))
      | .exited => some ((s.setThread ⟨i, h⟩ .absent).setCall a (.joinThread (i + 1)))
      | _ => none
    else some (s.setCall a .none)

/-- Thread `a` runs code that may call the executor: it is in no call, and a worker's thread
    runs such code only inside an item. -/
def State.free (s : State n Ext T) (a : Thread n Ext) : Bool :=
  match s.call a, a with
  | .none, .external _ => true
  | .none, .worker w => match s.thread w with
      | .executing _ => true
      | _ => false
  | _, _ => false

def step (cfg : Config n) (s : State n Ext T) : Act n Ext T → Option (State n Ext T)
  | .add a item =>
    if s.free a then
      some (s.setCall a (match a with
        | .worker w => .enqueue (.localDeque w) item false
        | .external _ => .enqueue .globalEntry item true))
    else none
  | .addToWorker a workerId item =>
    if s.free a then
      if h : workerId < n then
        some (s.setCall a (.enqueue (.localDeque ⟨workerId, h⟩) item true))
      else some s
    else none
  | .yield w item =>
    if s.free (.worker w) then
      let q := push true yieldCapacity (s.yieldQueue w) item
      some { s with yieldQueue := update s.yieldQueue w q }
    else none
  | .finish w => if s.free (.worker w) then some (s.setThread w .loopTest) else none
  | .start a => if s.free a then some (s.setCall a (.startRunning 0)) else none
  | .stop a => if s.free a then some (s.setCall a (.stopRunning 0)) else none
  | .join a => if s.free a then some (s.setCall a (.joinThread 0)) else none
  | .goCall a room counter => s.goCall a room counter
  | .goWorker w => s.goWorker cfg w
  | .wake w => some (s.setThread w (s.thread w).wake)

/-- What a step of a call of thread `a` shows. -/
def Call.shows (a : Thread n Ext) : Call n T → Option (Event n Ext)
  | .startRunning i => if i < n then .none else some (.startReturned a)
  | .stopRunning i => if i < n then .none else some (.stopReturned a)
  | .notify v .generation _ => some (.raised v)
  | _ => .none

def event (s : State n Ext T) : Act n Ext T → Option (Event n Ext)
  | .start a => some (.startCalled a)
  | .stop a => some (.stopCalled a)
  | .goCall a _ _ => (s.call a).shows a
  | _ => none

/-- The executor with all its threads. -/
def machine (cfg : Config n) : Machine (State n Ext T) (Act n Ext T) (Event n Ext) where
  step := step cfg
  event := event

/-! ## What the steps do -/

/-- The steps of `worker_loop` of worker `w`: where it was, and the state then. -/
inductive WorkerMove (cfg : Config n) (s : State n Ext T) (w : Fin n) :
    WorkerPc T → State n Ext T → Prop where
  /-- The thread stores its own `running` flag. -/
  | begins : WorkerMove cfg s w .created
      ({ s with running := update s.running w true }.setThread w .loopTest)
  | enters : s.running w = true → WorkerMove cfg s w .loopTest (s.setThread w .yieldCheck)
  | exits : s.running w = false → WorkerMove cfg s w .loopTest (s.setThread w .exited)
  | resumes {item : T} {rest : List T} : s.yieldQueue w = item :: rest →
      WorkerMove cfg s w .yieldCheck
        ({ s with yieldQueue := update s.yieldQueue w rest }.setThread w (.executing item))
  | noYield : s.yieldQueue w = [] → WorkerMove cfg s w .yieldCheck (s.setThread w .localCheck)
  | pops {item : T} {rest : List T} : s.localDeque w = item :: rest →
      WorkerMove cfg s w .localCheck
        ({ s with localDeque := update s.localDeque w rest }.setThread w (.executing item))
  | noLocal : s.localDeque w = [] → WorkerMove cfg s w .localCheck (s.setThread w .globalCheck)
  | pulls {item : T} {rest : List T} : s.globalEntry = item :: rest →
      WorkerMove cfg s w .globalCheck ({ s with globalEntry := rest }.setThread w (.executing item))
  | noGlobal : s.globalEntry = [] → WorkerMove cfg s w .globalCheck (s.setThread w (.steal 0))
  | steals {i : Nat} {v : Fin n} {item : T} {rest : List T} : s.localDeque v = item :: rest →
      WorkerMove cfg s w (.steal i) ({ s with localDeque := update s.localDeque v rest }.setThread w
          (.executing item))
  | misses (i : Nat) : WorkerMove cfg s w (.steal i) (s.setThread w (.steal (i + 1)))
  | gives (i : Nat) : cfg.victim w i = none →
      WorkerMove cfg s w (.steal i) (s.setThread w (.idle .enterTest))
  | idles {p p' : IdlePc} {g : Signals (Thread n Ext)} :
      (s.park w).idle cfg.idle (.worker w) p = some (g, p') →
      WorkerMove cfg s w (.idle p) ({ s with park := update s.park w g }.setThread w
          (if p' = IdlePc.returned then .loopTest else .idle p'))

omit [DecidableEq Ext] in
/-- Every step of `worker_loop` is one of those. -/
theorem goWorker_moves {cfg : Config n} {s s' : State n Ext T} {w : Fin n}
    (h : s.goWorker cfg w = some s') : WorkerMove cfg s w (s.thread w) s' := by
  rw [State.goWorker] at h
  generalize hp : s.thread w = q at h ⊢
  cases q with
  | absent | exited | executing item => cases h
  | created =>
    cases h
    exact .begins
  | loopTest =>
    cases h
    cases hr : s.running w with
    | true => exact .enters hr
    | false => exact .exits hr
  | yieldCheck =>
    dsimp only at h
    split at h
    next hq =>
      cases h
      exact .resumes hq
    next hq =>
      cases h
      exact .noYield hq
  | localCheck =>
    dsimp only at h
    split at h
    next hq =>
      cases h
      exact .pops hq
    next hq =>
      cases h
      exact .noLocal hq
  | globalCheck =>
    dsimp only at h
    split at h
    next hq =>
      cases h
      exact .pulls hq
    next hq =>
      cases h
      exact .noGlobal hq
  | steal i =>
    dsimp only at h
    split at h
    next hv =>
      cases h
      exact .gives i hv
    next =>
      split at h
      next hq =>
        cases h
        exact .steals hq
      next =>
        cases h
        exact .misses i
  | idle p =>
    dsimp only at h
    split at h
    next => cases h
    next hidle =>
      cases h
      exact .idles hidle

omit [DecidableEq Ext] in
/-- A worker's step is no step of a call. -/
theorem WorkerMove.call {cfg : Config n} {s s' : State n Ext T} {w : Fin n} {p : WorkerPc T}
    (h : WorkerMove cfg s w p s') : s'.call = s.call := by
  cases h <;> rfl

/-- The steps of a call of thread `a`: where the call was, the state with all effects but the
    move of the call, and where the call is then. -/
inductive CallMove (s : State n Ext T) (a : Thread n Ext) :
    Call n T → State n Ext T → Call n T → Prop where
  | enqueued (q : Queue n) (item : T) (announce room : Bool) :
      CallMove s a (.enqueue q item announce) (s.enqueue room item q) (afterEnqueue q announce)
  | chosen (v : Fin n) : CallMove s a .fetchAdd s (.notify v .lock none)
  | stage {v : Fin n} {p p' : NotifyPc} {k : Option Nat} {g : Signals (Thread n Ext)} :
      (s.park v).notify a p = some (g, some p') →
      CallMove s a (.notify v p k) { s with park := update s.park v g } (.notify v p' k)
  | woken (v : Fin n) (k : Option Nat) :
      CallMove s a (.notify v .notifyOne k) (s.setThread v (s.thread v).wake) (afterNotify k)
  | startStore (v : Fin n) :
      CallMove s a (.startRunning v.val)
        { s with running := update s.running v true } (.startThread v)
  | startDone {i : Nat} : n ≤ i → CallMove s a (.startRunning i) s .none
  | startCreate {v : Fin n} : s.thread v = .absent →
      CallMove s a (.startThread v) (s.setThread v .created) (.startRunning (v.val + 1))
  | stopStore (v : Fin n) :
      CallMove s a (.stopRunning v.val) { s with running := update s.running v false }
        (.notify v .lock (some (v.val + 1)))
  | stopDone {i : Nat} : n ≤ i → CallMove s a (.stopRunning i) s .none
  | joinSkip {v : Fin n} : s.thread v = .absent →
      CallMove s a (.joinThread v.val) s (.joinThread (v.val + 1))
  | joined {v : Fin n} : s.thread v = .exited →
      CallMove s a (.joinThread v.val) (s.setThread v .absent) (.joinThread (v.val + 1))
  | joinDone {i : Nat} : n ≤ i → CallMove s a (.joinThread i) s .none

/-- Every step of a call is one of those. -/
theorem goCall_moves {s s' : State n Ext T} {a : Thread n Ext} {room : Bool} {counter : Nat}
    (h : s.goCall a room counter = some s') :
    ∃ s₁ c, s' = s₁.setCall a c ∧ CallMove s a (s.call a) s₁ c := by
  rw [State.goCall] at h
  generalize ha : s.call a = o at h ⊢
  cases o with
  | none => cases h
  | enqueue q item announce =>
    exact ⟨_, _, (Option.some.inj h).symm, .enqueued q item announce room⟩
  | fetchAdd =>
    dsimp only at h
    split at h
    next => exact ⟨_, _, (Option.some.inj h).symm, .chosen _⟩
    next => cases h
  | notify v p k =>
    dsimp only at h
    split at h
    next => cases h
    next hn => exact ⟨_, _, (Option.some.inj h).symm, .stage hn⟩
    next hn =>
      obtain ⟨rfl, rfl⟩ := notify_returns hn
      rw [update_eq_self] at h
      exact ⟨_, _, (Option.some.inj h).symm, .woken v k⟩
  | startRunning i =>
    dsimp only at h
    split at h
    next hi => exact ⟨_, _, (Option.some.inj h).symm, .startStore ⟨i, hi⟩⟩
    next hi => exact ⟨_, _, (Option.some.inj h).symm, .startDone (Nat.not_lt.mp hi)⟩
  | startThread v =>
    dsimp only at h
    split at h
    next hv => exact ⟨_, _, (Option.some.inj h).symm, .startCreate hv⟩
    next => cases h
  | stopRunning i =>
    dsimp only at h
    split at h
    next hi => exact ⟨_, _, (Option.some.inj h).symm, .stopStore ⟨i, hi⟩⟩
    next hi => exact ⟨_, _, (Option.some.inj h).symm, .stopDone (Nat.not_lt.mp hi)⟩
  | joinThread i =>
    dsimp only at h
    split at h
    next hi =>
      split at h
      next hv => exact ⟨_, _, (Option.some.inj h).symm, .joinSkip (v := ⟨i, hi⟩) hv⟩
      next hv => exact ⟨_, _, (Option.some.inj h).symm, .joined (v := ⟨i, hi⟩) hv⟩
      next => cases h
    next hi => exact ⟨_, _, (Option.some.inj h).symm, .joinDone (Nat.not_lt.mp hi)⟩

/-- The call that an action begins. -/
inductive Begins : Act n Ext T → Thread n Ext → Call n T → Prop where
  | add (w : Fin n) (item : T) :
      Begins (.add (.worker w) item) (.worker w) (.enqueue (.localDeque w) item false)
  | addOutside (e : Ext) (item : T) :
      Begins (.add (.external e) item) (.external e) (.enqueue .globalEntry item true)
  | addToWorker (a : Thread n Ext) (v : Fin n) (item : T) :
      Begins (.addToWorker a v.val item) a (.enqueue (.localDeque v) item true)
  | start (a : Thread n Ext) : Begins (.start a) a (.startRunning 0)
  | stop (a : Thread n Ext) : Begins (.stop a) a (.stopRunning 0)
  | join (a : Thread n Ext) : Begins (.join a) a (.joinThread 0)

/-- The steps of the executor. -/
inductive StepMove (cfg : Config n) (s : State n Ext T) :
    Act n Ext T → State n Ext T → Prop where
  | begins {act : Act n Ext T} {a : Thread n Ext} {c : Call n T} :
      Begins act a c → s.free a = true → StepMove cfg s act (s.setCall a c)
  /-- `add_to_worker` with an id that is not a worker's. -/
  | ignored (a : Thread n Ext) (workerId : Nat) (item : T) :
      StepMove cfg s (.addToWorker a workerId item) s
  | yields (w : Fin n) (item : T) : s.free (.worker w) = true →
      StepMove cfg s (.yield w item) { s with
        yieldQueue := update s.yieldQueue w (push true yieldCapacity (s.yieldQueue w) item) }
  | finishes (w : Fin n) : s.free (.worker w) = true →
      StepMove cfg s (.finish w) (s.setThread w .loopTest)
  | calls {a : Thread n Ext} (room : Bool) (counter : Nat) {s₁ : State n Ext T} {c : Call n T} :
      CallMove s a (s.call a) s₁ c → StepMove cfg s (.goCall a room counter) (s₁.setCall a c)
  | works {w : Fin n} {s' : State n Ext T} : WorkerMove cfg s w (s.thread w) s' →
      StepMove cfg s (.goWorker w) s'
  | wakes (w : Fin n) : StepMove cfg s (.wake w) (s.setThread w (s.thread w).wake)

theorem step_moves {cfg : Config n} {s s' : State n Ext T} {act : Act n Ext T}
    (h : step cfg s act = some s') : StepMove cfg s act s' := by
  cases act with
  | add a item =>
    obtain ⟨hf, rfl⟩ := Option.ite_some_none_eq_some.mp h
    refine .begins ?_ hf
    cases a <;> constructor
  | addToWorker a workerId item =>
    obtain ⟨hf, heq⟩ := Option.ite_none_right_eq_some.mp h
    split at heq
    next hid =>
      cases heq
      exact .begins (.addToWorker a ⟨workerId, hid⟩ item) hf
    next =>
      cases heq
      exact .ignored a workerId item
  | yield w item =>
    obtain ⟨hf, rfl⟩ := Option.ite_some_none_eq_some.mp h
    exact .yields w item hf
  | finish w =>
    obtain ⟨hf, rfl⟩ := Option.ite_some_none_eq_some.mp h
    exact .finishes w hf
  | start a | stop a | join a =>
    obtain ⟨hf, rfl⟩ := Option.ite_some_none_eq_some.mp h
    exact .begins (by constructor) hf
  | goCall a room counter =>
    obtain ⟨s₁, c, rfl, hm⟩ := goCall_moves h
    exact .calls room counter hm
  | goWorker w => exact .works (goWorker_moves h)
  | wake w =>
    cases h
    exact .wakes w

end Steps

/-- One worker, with the defaults of `AdaptiveIdle` and of the executor. -/
def soloConfig : Config 1 := ⟨AdaptiveIdle.Config.default, fun _ => [], 4⟩

end WorkStealing
