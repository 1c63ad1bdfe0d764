import StorageRuntime.OnlineWorkerProofs
import Mathlib.Algebra.BigOperators.Fin
import Mathlib.Data.Multiset.UnionInter

/-!
# The task statistics of a worker group

`OnlineWorkerGroup::stats` (`runtime/online_group.cc`) adds up the
`total_tasks_executed` of the schedulers.  In both loops a scheduler raises its counter
after every `execute()`, whatever was executed: a submitted task, a task that yielded and
came again, the timer or the IO poll.  What `on_worker_start` resumes is not counted.

The members of a group run side by side; agents start and stop them, submit to them and
wake their tasks.  A task that runs may submit as well.

* `tasksExecuted_exec`: the counters add up to the number of executions that have ended.
* **`executed_counts_submissions`**: so they count the submitted tasks that were executed
  exactly when neither a timer pass nor an IO-poll pass was among them and no task was
  executed more often than it was submitted.
-/

namespace OnlineWorker

open Function Interleaving WorkQueue Scheduler WordArithmetic

section Group

variable {n : Nat} {T Agent : Type}

/-- A worker with `stats_.total_tasks_executed` of its scheduler. -/
structure Member (T Agent : Type) where
  state : System (Handle T) StrictPriority Agent
  tasksExecuted : Nat

/-- The queues of `submit_engine`, `submit_net_io` and `submit_disk_io`. -/
def TakesSubmissions (i : Nat) : Prop := i = idxEngine ∨ i = idxNetIo ∨ i = idxDiskIo
deriving Decidable

/-- The item whose `execute()` returns to the loop. -/
def ended (s : System (Handle T) StrictPriority Agent) :
    Act (Handle T) Unit Agent → Option (Handle T)
  | .work (.leave _ _) =>
    match s.worker with
    | .body (.exec _ x _) => some x
    | _ => none
  | _ => none

/-- The task that an agent or the running task submits.  What the timer enqueues was submitted
    before, and so was what is woken through the affine queue. -/
def submits (s : System (Handle T) StrictPriority Agent) :
    Act (Handle T) Unit Agent → Option T
  | .submit _ i (.task x) => if TakesSubmissions i then some x else none
  | .work (.emit _ i (.task x)) =>
    match s.worker with
    | .body (.exec _ (.task _) _) => if TakesSubmissions i then some x else none
    | _ => none
  | _ => none

inductive GroupEvent (n : Nat) (T : Type) where
  | submitted (w : Fin n) (x : T)
  | executed (w : Fin n) (x : Handle T)
deriving DecidableEq

/-- `workers_`. -/
def Group (n : Nat) (T Agent : Type) : Type := Fin n → Member T Agent

/-- `stats().total_tasks_executed`. -/
def Group.totalTasksExecuted (g : Group n T Agent) : Nat :=
  (List.finRange n).foldl (fun total w => wadd total (g w).tasksExecuted) 0

def Group.init (u : Fin n → Setup) : Group n T Agent :=
  fun w => ⟨Scheduler.init (config T (u w)) Agent queues, 0⟩

variable [DecidableEq T] [DecidableEq Agent]

def Member.step (u : Setup) (m : Member T Agent) (act : Act (Handle T) Unit Agent) :
    Option (Member T Agent) :=
  (m.state.step (config T u) act).map fun s =>
    ⟨s, if (ended m.state act).isSome then wadd m.tasksExecuted 1 else m.tasksExecuted⟩

/-- The members of a group, each with the agents around it. -/
def group (u : Fin n → Setup) :
    Machine (Group n T Agent) (Fin n × Act (Handle T) Unit Agent) (GroupEvent n T) where
  step g act := ((g act.1).step (u act.1) act.2).map (update g act.1)
  event g act :=
    match ended (g act.1).state act.2 with
    | some x => some (.executed act.1 x)
    | none => (submits (g act.1).state act.2).map (.submitted act.1)

end Group

/-! ## What a trace shows -/

section Traces

variable {n : Nat} {T : Type}

def GroupEvent.submission : GroupEvent n T → Option (Fin n × T)
  | .submitted w x => some (w, x)
  | .executed _ _ => none

/-- A submitted task ran, or one that came again. -/
def GroupEvent.taskRun : GroupEvent n T → Option (Fin n × T)
  | .executed w (.task x) => some (w, x)
  | _ => none

/-- The timer or the IO poll ran. -/
def GroupEvent.pass : GroupEvent n T → Bool
  | .executed _ .timer => true
  | .executed _ .ioPoll => true
  | _ => false

def submissions (t : List (GroupEvent n T)) : List (Fin n × T) :=
  t.filterMap GroupEvent.submission

def taskRuns (t : List (GroupEvent n T)) : List (Fin n × T) := t.filterMap GroupEvent.taskRun

def passes (t : List (GroupEvent n T)) : Nat := t.countP GroupEvent.pass

/-- **The submitted tasks that were executed**, each as often as it was submitted at most. -/
def executedSubmissions [DecidableEq T] (t : List (GroupEvent n T)) : Nat :=
  Multiset.card ((taskRuns t : Multiset (Fin n × T)) ∩ (submissions t : Multiset (Fin n × T)))

/-- The executions of a trace. -/
def executions (t : List (GroupEvent n T)) : Nat := (taskRuns t).length + passes t

theorem executions_executed (w : Fin n) (x : Handle T) (t : List (GroupEvent n T)) :
    executions (.executed w x :: t) = executions t + 1 := by
  rw [executions, executions, taskRuns, taskRuns, passes, passes, List.countP_cons]
  cases x with
  | timer => rfl
  | ioPoll => rfl
  | task x => exact Nat.succ_add ..

/-- All executions are those of submitted tasks if each has a submission of its own. -/
theorem executions_eq_iff [DecidableEq T] (t : List (GroupEvent n T)) :
    executions t = executedSubmissions t ↔ passes t = 0 ∧ (taskRuns t).Subperm (submissions t) := by
  have hle : executedSubmissions t ≤ (taskRuns t).length := by
    exact Multiset.card_le_card Multiset.inter_le_left
  have hmatched : (taskRuns t).Subperm (submissions t) ↔
      (taskRuns t).length ≤ executedSubmissions t := by
    rw [← Multiset.coe_le, ← Multiset.coe_card]
    constructor
    · intro h
      exact Multiset.card_le_card (Multiset.le_inter (le_refl _) h)
    · intro h
      have hall := Multiset.eq_of_le_of_card_le Multiset.inter_le_left h
      rw [← hall]
      exact Multiset.inter_le_right
  rw [hmatched, executions]
  omega

end Traces

/-! ## Runs -/

section Runs

variable {n : Nat} {T Agent : Type}

theorem foldl_wadd {α : Type} (f : α → Nat) (l : List α) : ∀ total,
    l.foldl (fun total x => wadd total (f x)) (total % wordSize) =
      (total + (l.map f).sum) % wordSize := by
  induction l with
  | nil => intro total; rfl
  | cons x l ih =>
    intro total
    have hadd : wadd (total % wordSize) (f x) = (total + f x) % wordSize := Nat.mod_add_mod ..
    rw [List.foldl_cons, hadd, ih, List.map_cons, List.sum_cons, Nat.add_assoc]

theorem totalTasksExecuted_eq (g : Group n T Agent) :
    g.totalTasksExecuted = (∑ w, (g w).tasksExecuted) % wordSize := by
  have hfold := foldl_wadd (fun w => (g w).tasksExecuted) (List.finRange n) 0
  rw [Nat.zero_add] at hfold
  exact hfold

/-- The counters after a step of member `w`. -/
theorem sum_tasksExecuted_update (g : Group n T Agent) (w : Fin n) (m : Member T Agent) :
    ∑ v, (update g w m v).tasksExecuted + (g w).tasksExecuted =
      ∑ v, (g v).tasksExecuted + m.tasksExecuted := by
  have hupdate : ∀ v, (update g w m v).tasksExecuted =
      update (fun v => (g v).tasksExecuted) w m.tasksExecuted v := by
    intro v
    exact apply_update (fun _ m => Member.tasksExecuted m) g w m v
  rw [Finset.sum_congr rfl fun v _ => hupdate v, Finset.sum_update_of_mem (Finset.mem_univ w),
    Finset.sdiff_singleton_eq_erase]
  have hrest := Finset.sum_erase_add Finset.univ (fun v => (g v).tasksExecuted) (Finset.mem_univ w)
  omega

variable [DecidableEq T] [DecidableEq Agent]

/-- **A step counts what it shows.** -/
theorem sum_tasksExecuted_step {u : Fin n → Setup} {g g' : Group n T Agent}
    {act : Fin n × Act (Handle T) Unit Agent} {t : List (GroupEvent n T)}
    (h : (∑ w, (g w).tasksExecuted) % wordSize = executions t % wordSize)
    (hstep : (group u).step g act = some g') :
    (∑ w, (g' w).tasksExecuted) % wordSize = executions ((group u).record g act t) % wordSize := by
  obtain ⟨w, act⟩ := act
  obtain ⟨m, hm, rfl⟩ := Option.map_eq_some_iff.mp hstep
  obtain ⟨s, -, rfl⟩ := Option.map_eq_some_iff.mp hm
  have hsum := fun m => sum_tasksExecuted_update g w m
  rw [Machine.record_eq_note]
  simp only [group]
  cases hended : ended (g w).state act with
  | some x =>
    have hnew := hsum ⟨s, wadd (g w).tasksExecuted 1⟩
    show (∑ v, (update g w ⟨s, wadd (g w).tasksExecuted 1⟩ v).tasksExecuted) % wordSize =
      executions (.executed w x :: t) % wordSize
    rw [executions_executed]
    simp only [wadd, wordSize] at *
    omega
  | none =>
    have hnew := hsum ⟨s, (g w).tasksExecuted⟩
    have hsame : executions (note t ((submits (g w).state act).map (.submitted w))) =
        executions t := by
      cases submits (g w).state act <;> rfl
    rw [hsame, ← h]
    congr 1
    exact Nat.add_right_cancel hnew

/-- **The counters add up to the executions**, modulo 2^64. -/
theorem tasksExecuted_exec {u : Fin n → Setup} {t : List (GroupEvent n T)}
    {g : Group n T Agent} (hrun : Exec (group u) Always (Group.init u) t g) :
    (∑ w, (g w).tasksExecuted) % wordSize = executions t % wordSize := by
  refine hrun.invariant
    (fun t g => (∑ w, (g w).tasksExecuted) % wordSize = executions t % wordSize) ?_ ?_
  · show (∑ _ : Fin n, 0) % wordSize = 0
    rw [Finset.sum_const_zero]
    rfl
  · intro t g act g' h _ hstep
    exact sum_tasksExecuted_step h hstep

/-- **What `total_tasks_executed` counts.**  After every run of a group with fewer than 2^64
    executions it is the number of submitted tasks that were executed, if and only if no
    timer pass and no IO-poll pass is among the executions and no task was executed more
    often than it was submitted. -/
theorem executed_counts_submissions (u : Fin n → Setup) {t : List (GroupEvent n T)}
    {g : Group n T Agent} (hrun : Exec (group u) Always (Group.init u) t g)
    (hcount : (taskRuns t).length + passes t < wordSize) :
    g.totalTasksExecuted = (taskRuns t).length + passes t ∧
    (g.totalTasksExecuted = executedSubmissions t ↔
      passes t = 0 ∧ (taskRuns t).Subperm (submissions t)) := by
  have htotal : g.totalTasksExecuted = executions t := by
    rw [totalTasksExecuted_eq, tasksExecuted_exec hrun]
    exact Nat.mod_eq_of_lt hcount
  exact ⟨htotal, by rw [htotal]; exact executions_eq_iff t⟩

end Runs

/-- Actions of the only member. -/
def alone (acts : List (Act (Handle Nat) Unit Unit)) :
    List (Fin 1 × Act (Handle Nat) Unit Unit) := acts.map (Prod.mk ⟨0, Nat.one_pos⟩)

/-- The end of the iteration; then the worker is stopped and joined. -/
def finish : List (Act (Handle Nat) Unit Unit) :=
  [.work .go, .work .go] ++ .stop () :: steps 8 ++ [.go, .join]

/-- A network task is submitted before the start, and the worker is stopped after it. -/
theorem one_submission_counted : ∃ (t : List (GroupEvent 1 Nat)) (g : Group 1 Nat Unit),
      Exec (group fun _ => plain) Always (Group.init fun _ => plain) t g ∧
      (g 0).state.worker = .absent ∧ submissions t = [(0, 7)] ∧
      g.totalTasksExecuted = 1 ∧ g.totalTasksExecuted = executedSubmissions t := by
  have hrun : Exec (group fun _ => plain) Always (Group.init fun _ => plain) _ _ :=
    exec_run (alone (List.flatten [submitNetIo () (.task 7) :: pushing (some ()) idxNetIo (.task 7),
      steps 2, startUp, [.work .go, .go, .go], iterate, .work (.leave true .returns) :: finish]))
  refine ⟨_, _, hrun, by decide +kernel, by decide +kernel, by decide +kernel, ?_⟩
  exact (executed_counts_submissions (fun _ => plain) hrun (by decide +kernel)).2.mpr
    (by decide +kernel)

/-- **Passes are counted as tasks.**  Nothing is submitted; the worker is started, its loop
    executes the timer once, and it is stopped and joined: one task was executed. -/
theorem timer_pass_counted : ∃ (t : List (GroupEvent 1 Nat)) (g : Group 1 Nat Unit),
      Exec (group fun _ => plain) Always (Group.init fun _ => plain) t g ∧
      (g 0).state.worker = .absent ∧ t = [.executed 0 .timer] ∧
      g.totalTasksExecuted = 1 ∧ executedSubmissions t = 0 := by
  have hrun : Exec (group fun _ => plain) Always (Group.init fun _ => plain) _ _ :=
    exec_run (alone (startUp ++ [.work .go, .go, .go] ++ iterate ++
      .work (.leave true .yields) :: finish))
  exact ⟨_, _, hrun, by decide +kernel⟩

end OnlineWorker
