import StorageRuntime.StrictPriorityProofs
import StorageRuntime.PersistentProofs

/-!
# OnlineWorker — the queues and persistent coroutines of `runtime/online_worker.cc`

An online worker has five queues, serves them by strict priority, and keeps two
coroutines going: the timer, and with an IO backend the IO poll.  Both are resumed
by `on_worker_start`; each then yields for ever, so that its handle goes from queue
to queue.

**`persistent_exactly_once`**: if the worker is started once, every queue takes the
coroutine that yields to it and the pushes to SPSC queues are orderly, the handle is in
exactly one slot of exactly one queue, or in the batch that the thread works on.

The IO poll yields to the disk IO queue, an SPSC queue, to which `submit_disk_io` pushes
from other threads.  Every further `start()` resumes the saved handles again, while the
old copies are still in their queues (`restart_doubles_timer`).
-/

namespace OnlineWorker

open Interleaving WorkQueue Scheduler

/-- The work items of the worker: the handles of its own coroutines, and all others. -/
inductive Handle (T : Type) where
  | timer
  | ioPoll
  | task (x : T)
deriving DecidableEq

instance {T : Type} : Inhabited (Handle T) := ⟨.timer⟩

def idxAffine : Nat := 0
def idxNetIo : Nat := 1
def idxDiskIo : Nat := 2
def idxEngine : Nat := 3
def idxTimer : Nat := 4

/-- What is set up besides the constructor: `Worker::Config::idle_cfg`, whether
    `init_io_backend` was called, and `set_busy_poll`. -/
structure Setup where
  idle : AdaptiveIdle.Config
  ioBackend : Bool
  busyPoll : Bool

variable {T : Type}

/-- How the coroutines of the worker leave.  `timer_coro_fn` stays with the timer queue after
    timers have expired and yields otherwise; `io_poll_coro_fn` yields as long as there is a
    backend. -/
def may : Handle T → Leave → Bool
  | .timer, .yields => true
  | .timer, .yieldsTo i => i = idxTimer
  | .timer, .returns => false
  | .ioPoll, l => l = .yields
  | .task _, _ => true

/-- An online worker. -/
def config (T : Type) (u : Setup) : Config (Handle T) StrictPriority Unit where
  priority := fun i => if i = idxAffine then .critical else
    if i = idxEngine then .medium else .high
  affineIdx := idxAffine
  diskIoIdx := idxDiskIo
  defaultQueueIdx := idxEngine
  busyPoll := u.busyPoll
  ioBackend := u.ioBackend
  idle := u.idle
  policy := strictPriority 64
  persistent := (.timer, idxTimer) :: if u.ioBackend then [(.ioPoll, idxDiskIo)] else []
  may := may

/-- A queue as the constructor registers it. -/
def newQueue (capacity : Nat) (kind : Kind)
    (h : (make capacity kind : Option (Queue (Handle T))).isSome = true) : Queue (Handle T) :=
  (make capacity kind).get h

/-- The queues, in the order of their registration; the SPSC queues and the timer queue have
    their default capacities. -/
def queues : List (Queue (Handle T)) :=
  [newQueue 65536 .ring rfl, newQueue 4096 .spsc rfl, newQueue 4096 .spsc rfl,
    newQueue 65536 .ring rfl, newQueue 8192 .affine rfl]

section Submissions

variable {Agent : Type} (a : Agent) (item : Handle T)

/-- Agent `a` calls `submit_engine`.  Neither this nor the other submissions notify. -/
def submitEngine : Act (Handle T) Unit Agent := .submit a idxEngine item

def submitNetIo : Act (Handle T) Unit Agent := .submit a idxNetIo item

def submitDiskIo : Act (Handle T) Unit Agent := .submit a idxDiskIo item

def enqueueAffine : Act (Handle T) Unit Agent := .submit a idxAffine item

end Submissions

theorem items_newQueue (capacity : Nat) (kind : Kind)
    (h : (make capacity kind : Option (Queue (Handle T))).isSome = true) :
    (newQueue capacity kind h).items = [] ∧ (newQueue capacity kind h).kind = kind :=
  Queue.items_make (Option.some_get h).symm

/-- The queues are empty at first. -/
theorem items_queues : ∀ q ∈ (queues : List (Queue (Handle T))), q.items = [] ∧ q.Settled := by
  intro q hq
  simp only [queues, List.mem_cons, List.not_mem_nil, or_false] at hq
  rcases hq with rfl | rfl | rfl | rfl | rfl
  · exact ⟨(items_newQueue ..).1, trivial⟩
  · exact ⟨(items_newQueue ..).1, rfl⟩
  · exact ⟨(items_newQueue ..).1, rfl⟩
  · exact ⟨(items_newQueue ..).1, trivial⟩
  · exact ⟨(items_newQueue ..).1, trivial⟩

variable [DecidableEq T]

theorem persists_config (u : Setup) : (config T u).Persists where
  nodup := by
    simp only [config]
    cases u.ioBackend <;> simp
  stays x hx := by
    cases x with
    | timer | ioPoll => rfl
    | task x =>
      simp only [Config.owns, config] at hx
      revert hx
      cases u.ioBackend <;> simp

/-! ## The persistent coroutines -/

/-- **Each persistent coroutine exists exactly once.**  For every set-up, all tasks and any
    agents, in every run in which the worker is started once, the queues take the coroutines
    that yield to them, no two threads push to one SPSC queue at the same time and these have
    room: once `on_worker_start` has resumed the coroutine, its handle is in exactly one slot
    of exactly one queue, or it is in no queue and exactly once in the batch that the thread
    works on. -/
theorem persistent_exactly_once {Agent : Type} [DecidableEq Agent] (u : Setup)
    {t : List (Event (Handle T) Agent)} {s : System (Handle T) StrictPriority Agent}
    (hrun : Exec (machine (config T u)) (Lossless (config T u)) (init (config T u) Agent queues)
      t s) {k i : Nat} {x : Handle T} (hk : (config T u).persistent[k]? = some (x, i))
    (hresumed : Resumed t k s.worker) :
    (x ∉ s.worker.pending → InOneSlot s.work x) ∧
    (x ∈ s.worker.pending → s.worker.pending.count x = 1 ∧ ∀ j, x ∉ s.work.items j) := by
  have hone := copies_eq (persists_config u) items_queues hrun hk hresumed
  rw [State.copies] at hone
  refine ⟨fun hx => inOneSlot_of_slots ?_, fun hx => ?_⟩
  · rwa [List.count_eq_zero.mpr hx, Nat.add_zero] at hone
  · have hpos := List.count_pos_iff.mpr hx
    exact ⟨by omega, not_mem_of_slots (by omega)⟩

/-- An online worker that was set up by its constructor alone. -/
def plain : Setup := ⟨AdaptiveIdle.Config.default, false, false⟩

/-- Steps of the one agent. -/
def steps (k : Nat) : List (Act (Handle Nat) Unit Unit) := List.replicate k (.goCall () true)

/-- The worker is started, and `on_worker_start` resumes the timer, which yields. -/
def startUp : List (Act (Handle Nat) Unit Unit) :=
  .start () :: steps 2 ++ [.work .go, .work (.leave true .yields)]

/-- An iteration of `run()` up to the execution of one item from the chosen queue. -/
def iterate : List (Act (Handle Nat) Unit Unit) :=
  .go :: List.replicate 6 (.work .go) ++ [.work (.decide ()), .work .go, .work .go]

/-- One with an IO backend. -/
def withPoll : Setup := { plain with ioBackend := true }

/-- The accesses of a push to an SPSC queue, but for the last. -/
def pushing (o : Option Unit) (i : Nat) (x : Handle Nat) : List (Act (Handle Nat) Unit Unit) :=
  List.replicate 3 (.access o i x)

/-- Then `on_worker_start` resumes the IO poll, which yields; afterwards a task is submitted to
    the same queue. -/
def pollAndSubmit : List (Act (Handle Nat) Unit Unit) :=
  List.flatten [startUp, [.work .go], pushing none idxDiskIo .ioPoll, [.work (.leave true .yields)],
    [submitDiskIo () (.task 7)], pushing (some ()) idxDiskIo (.task 7), steps 2, [.work .go]]

/-- The IO poll and a submission push to the disk IO queue one after the other: the handle is
    there once. -/
theorem io_poll_once_beside_submission :
    ∃ (t : List (Event (Handle Nat) Unit)) (s : System (Handle Nat) StrictPriority Unit),
      Exec (machine (config Nat withPoll)) (Lossless (config Nat withPoll))
        (init (config Nat withPoll) Unit queues) t s ∧
      s.work.items idxDiskIo = [.ioPoll, .task 7] ∧ InOneSlot s.work .ioPoll := by
  have hrun : Exec (machine (config Nat withPoll)) (Lossless (config Nat withPoll))
      (init (config Nat withPoll) Unit queues) _ _ :=
    exec_run pollAndSubmit
  have hk : (config Nat withPoll).persistent[1]? = some (.ioPoll, idxDiskIo) := rfl
  exact ⟨_, _, hrun, by decide +kernel,
    (persistent_exactly_once withPoll hrun hk trivial).1 (by decide +kernel)⟩

/-- The worker is stopped before its loop, leaves and is joined. -/
def stopAndJoin : List (Act (Handle Nat) Unit Unit) :=
  .stop () :: steps 8 ++ .work .go :: List.replicate 9 .go ++ [.join]

/-- **A restart doubles the timer.**  The worker is started, stopped, joined and started again;
    the timer was resumed again and its handle is in two slots of the timer queue. -/
theorem restart_doubles_timer :
    ∃ (t : List (Event (Handle Nat) Unit)) (s : System (Handle Nat) StrictPriority Unit),
      Exec (machine (config Nat plain)) Always (init (config Nat plain) Unit queues) t s ∧
      s.worker = .boot 1 ∧ s.work.items idxTimer = [.timer, .timer] := by
  have hrun : Exec (machine (config Nat plain)) Always (init (config Nat plain) Unit queues) _ _ :=
    exec_run (startUp ++ stopAndJoin ++ startUp)
  exact ⟨_, _, hrun, by decide +kernel⟩

end OnlineWorker
