import StorageRuntime.SpscPushProofs
import StorageRuntime.StrictPriorityProofs

/-!
# Scheduler — where `yield()` takes a coroutine

`yield()` enqueues the coroutine to the queue named by `tls_source_queue_idx`, or
to the default queue if that is unset.  `run_busy()` sets it before every item.
`run()` sets it in `drain_p0` only: once that has executed an item, the index
names the affine queue for the rest of the thread's life.

**`yield_returns`**: a coroutine that yields goes back to the queue it was taken
from, and to no other, if that queue takes it, no other thread is in the middle of a
push to it if it is an SPSC queue, and the loop told it the index, or the index that
is left over from before happens to be the right one.
-/

namespace Scheduler

open Interleaving WorkQueue

variable {Item P E Agent : Type}

/-- `drain_p0` has executed an item on the present thread. -/
def drainedAffine : List (Event Item Agent) → Bool
  | [] => false
  | .created :: _ => false
  | .executed (.p0 _) _ :: _ => true
  | _ :: t => drainedAffine t

/-- The index that `run()` has left in `tls_source_queue_idx`. -/
def Config.leftOver (cfg : Config Item P E) (t : List (Event Item Agent)) : Option Nat :=
  if drainedAffine t then some cfg.affineIdx else none

/-! ## The invariant -/

/-- The loop belongs to `run()`, to `run_busy()` or to both. -/
def Frame.runs (busyPoll : Bool) : Frame → Bool
  | .p0 _ => true
  | .chosen _ => !busyPoll
  | .disk | .other _ => busyPoll

def BodyPc.runs (busyPoll : Bool) : BodyPc Item → Bool
  | .drain _ => true
  | .snapshot _ | .take _ _ => !busyPoll
  | .disk | .other _ => busyPoll
  | .batch f _ | .exec f _ _ => f.runs busyPoll

/-- The running item was told its index, if the loop does so. -/
def Told (cfg : Config Item P E) (tls : Option Nat) : BodyPc Item → Prop
  | .exec f _ _ => f.tls cfg tls = tls
  | _ => True

/-- What `tls_source_queue_idx` is, depending on where the thread is. -/
def Routed (cfg : Config Item P E) (t : List (Event Item Agent)) (tls : Option Nat) :
    WorkerPc Item → Prop
  | .absent | .exited => True
  | .boot _ => drainedAffine t = false ∧ tls = none
  | .booting k x => drainedAffine t = false ∧ ∃ i, cfg.persistent[k]? = some (x, i) ∧ tls = some i
  | .body p => p.runs cfg.busyPoll = true ∧ Told cfg tls p ∧
      (cfg.busyPoll = false → tls = cfg.leftOver t)
  | _ => cfg.busyPoll = false → tls = cfg.leftOver t

/-! ## Steps -/

section Steps

variable {cfg : Config Item P E} {t : List (Event Item Agent)} {s s' : State Item P Agent}
  {w w' : Work Item P}

/-- Queue calls leave the index alone. -/
@[simp] theorem tls_take (w : Work Item P) (i max : Nat) : (w.take i max).2.tls = w.tls := by
  rw [Work.take]
  split <;> rfl

@[simp] theorem tls_leave (w : Work Item P) (room : Bool) (x : Item) (l : Leave) :
    (w.leave cfg room x l).tls = w.tls := by
  cases l <;> rfl

theorem runs_afterDrain (second : Bool) (tls : Option Nat)
    (h : cfg.busyPoll = false → tls = cfg.leftOver t) :
    Routed cfg t tls (afterDrain cfg second : Next Item).pc := by
  rw [afterDrain]
  cases second with
  | true => exact h
  | false =>
    cases hb : cfg.busyPoll with
    | true | false => exact ⟨by rw [hb]; rfl, trivial, h⟩

theorem runs_next (f : Frame) (b : Bool) (h : f.runs b = true) :
    (f.next : BodyPc Item).runs b = true := by
  cases f with
  | chosen i => rfl
  | _ => exact h

theorem tls_of_take {i max : Nat} {xs : List Item} (h : w.take i max = (xs, w')) :
    w'.tls = w.tls := by
  rw [← tls_take w i max, h]

/-- A step inside an iteration. -/
theorem BodyMove.routed [DecidableEq Item] {p : BodyPc Item} {b : BodyAct Item E} {n : Next Item}
    (hm : BodyMove cfg w p b w' n) (h : Routed cfg t w.tls (.body p)) :
    Routed cfg (note t (WorkerPc.shows (.body p) b)) w'.tls n.pc := by
  obtain ⟨hruns, htold, hleft⟩ := h
  cases hm with
  | drained second htake =>
    rw [tls_of_take htake]
    exact runs_afterDrain second _ hleft
  | drains second htake =>
    rw [tls_of_take htake]
    exact ⟨rfl, trivial, hleft⟩
  | takesNone htake =>
    rw [tls_of_take htake]
    exact hleft
  | takes htake =>
    rw [tls_of_take htake]
    exact ⟨hruns, trivial, hleft⟩
  | snaps _ | skips _ _ =>
    exact ⟨hruns, trivial, hleft⟩
  | visited _ =>
    exact ⟨rfl, trivial, hleft⟩
  | decides e _ =>
    rw [Work.decide]
    split
    next =>
      split <;> exact hleft
    next => exact ⟨hruns, trivial, hleft⟩
  | disk | visits _ _ _ =>
    rw [tls_take]
    exact ⟨hruns, trivial, hleft⟩
  | ends f =>
    refine ⟨runs_next f _ hruns, ?_, hleft⟩
    cases f <;> trivial
  | executes f x rest =>
    refine ⟨hruns, ?_, fun hb => ?_⟩
    · cases f <;> rfl
    · -- in `run()` only `drain_p0` tells an index, and the trace says so
      cases f with
      | p0 second => rfl
      | chosen i => exact hleft hb
      | disk | other i => cases hb.symm.trans hruns
  | emits f x rest room i _ =>
    exact ⟨hruns, htold, hleft⟩
  | leaves f rest room _ =>
    rw [tls_leave]
    exact ⟨hruns, trivial, hleft⟩

/-- A step of the worker's thread inside an iteration or inside `on_worker_start`. -/
theorem WorkMove.routed [DecidableEq Item] {p q : WorkerPc Item} {b : BodyAct Item E}
    (hm : WorkMove cfg s p b w' q) (h : Routed cfg t s.work.tls p) :
    Routed cfg (note t (p.shows b)) w'.tls q := by
  cases hm with
  | booted k _ =>
    intro _
    show s.work.tls = if drainedAffine t = true then _ else _
    rw [h.1, h.2]
    rfl
  | resumes hsome =>
    exact ⟨h.1, _, hsome, rfl⟩
  | emits k x room i _ =>
    exact h
  | leaves k room _ =>
    exact ⟨h.1, rfl⟩
  | iterates hb => exact hb.routed h

/-- The other steps of the worker's thread. -/
theorem ThreadMove.routed {p : WorkerPc Item} (hm : ThreadMove cfg s p s')
    (h : Routed cfg t s.work.tls p) :
    Routed cfg (note t (p.begins s.running)) s'.work.tls s'.worker := by
  cases hm with
  | sets | refuses _ | begins _ | notifies _ =>
    exact h
  | notified | exits hr => trivial
  | setsLate stop | idles _ =>
    split <;> exact h
  | clears =>
    split
    next => trivial
    next => exact h
  | enters hr =>
    rw [hr]
    exact ⟨rfl, trivial, h⟩

/-- Events other than those of the worker's thread say nothing about it. -/
theorem Routed.note {p : WorkerPc Item} {tls : Option Nat} (h : Routed cfg t tls p)
    {o : Option (Event Item Agent)} (ho : drainedAffine (note t o) = drainedAffine t) :
    Routed cfg (Interleaving.note t o) tls p := by
  have hleft : cfg.leftOver (Interleaving.note t o) = cfg.leftOver t := by
    rw [Config.leftOver, ho, Config.leftOver]
  cases p with
  | boot k | booting k x => exact ⟨ho.trans h.1, h.2⟩
  | body p =>
    obtain ⟨hruns, htold, hl⟩ := h
    exact ⟨hruns, htold, by rw [hleft]; exact hl⟩
  | absent | exited => trivial
  | _ =>
    show _ → _
    rw [hleft]
    exact h

theorem Routed.wake {p : WorkerPc Item} {tls : Option Nat} (h : Routed cfg t tls p) :
    Routed cfg t tls p.wake := by
  cases p <;> exact h

theorem CallMove.routed [DecidableEq Agent] {a : Agent} {room : Bool} {c₀ c : Call Item}
    (hm : CallMove s a room c₀ s' c) (h : Routed cfg t s.work.tls s.worker) :
    Routed cfg (note t (c₀.shows a)) s'.work.tls s'.worker := by
  cases hm with
  | creates _ =>
    exact ⟨rfl, rfl⟩
  | resets =>
    exact h.note rfl
  | stage hn =>
    next p q k g =>
    cases p with
    | notifyOne => cases hn
    | _ =>      exact h
  | woken k =>
    cases k with
    | true => exact h.wake.note rfl
    | false => exact h.wake
  | requests | clears | submits i item | returns i =>
    exact h

theorem Routed.step [DecidableEq Item] [DecidableEq Agent] {act : Act Item E Agent}
    (hm : StepMove cfg s act s') (h : Routed cfg t s.work.tls s.worker) :
    Routed cfg (Interleaving.note t (event s act)) s'.work.tls s'.worker := by
  cases hm with
  | works hw => exact hw.routed h
  | threads ht => exact ht.routed h
  | early hw =>
    rw [hw] at h
    exact h
  | wakes => exact h.wake
  | joins _ => trivial
  | begins hb _ =>
    cases hb with
    | stop => exact h.note rfl
    | start | notify | submit i _ => exact h
  | calls hm => exact hm.routed h

end Steps

/-! ## Whole runs -/

variable [DecidableEq Item] [DecidableEq Agent]

/-- A worker with two queues, of which the first is the default one; there is no affine and no
    disk IO queue. -/
def pairConfig (busyPoll : Bool) : Config Nat StrictPriority Unit where
  priority := fun _ => .high
  affineIdx := 2
  diskIoIdx := 2
  defaultQueueIdx := 0
  busyPoll := busyPoll
  ioBackend := false
  idle := AdaptiveIdle.Config.default
  policy := strictPriority 64
  persistent := []
  may := fun _ _ => true

/-- Two rings of two slots. -/
def pair : List (Queue Nat) :=
  List.replicate 2 (Option.get (make 2 .ring) (by decide))

/-- Item 7 is submitted to queue `i`, and the worker is started. -/
def submitAndStart (i : Nat) : List (Act Nat Unit Unit) :=
  [.submit () i 7, .goCall () true, .goCall () true, .start (), .goCall () true, .goCall () true,
    .work .go, .go, .go, .go]

/-- The accesses of a push to the second queue, but for the last. -/
def pushing (o : Option Unit) (x : Nat) : List (Act Nat Unit Unit) :=
  List.replicate 3 (.access o 1 x)

end Scheduler
