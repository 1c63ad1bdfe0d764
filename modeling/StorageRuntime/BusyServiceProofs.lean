import StorageRuntime.BatchServiceProofs
import StorageRuntime.EndlessRunProofs
import StorageRuntime.PersistentProofs
import StorageRuntime.SchedulerStopProofs
import StorageRuntime.YieldRoutingProofs
import Mathlib.Data.Prod.Lex
import Mathlib.Order.Monotone.Basic
import Mathlib.Data.Fintype.Basic
import Mathlib.Tactic.FinCases

/-!
# Scheduler — how long `run_busy()` lets an item wait

In every iteration `run_busy()` comes to each queue but the affine one exactly once and
executes a batch of up to 64 items from its front.  While it does so, the items and the
other threads enqueue more.

Seen from one queue, that is a batch service (`BatchService`): `view` maps the states of
the scheduler to those of the service, and every step of the machine is one of the
service (`StepMove.serves`).  That the rounds go on at all is shown by a measure on the
places of an iteration (`WorkerPc.rank`).

* **`busy_serves`**: an item with `k` items ahead of it in its queue is executed in
  iteration `k / 64` at the latest, counted from 0, and it is executed if the thread goes
  on, provided that no two threads push to that queue at the same time if it is an SPSC
  queue.
* **`overwritten_item_not_served`**: if two do, the item may be written over.
-/

namespace Scheduler

open Interleaving WorkQueue

variable {Item P E Agent : Type}

/-! ## What is observed -/

def Event.isIteration : Event Item Agent → Bool
  | .iteration => true
  | _ => false

/-- How many iterations have begun. -/
def iterations (t : List (Event Item Agent)) : Nat := (t.filter Event.isIteration).length

/-- The items that were executed from queue `i`, oldest first. -/
def servedFrom (cfg : Config Item P E) (i : Nat) : List (Event Item Agent) → List Item
  | [] => []
  | .executed f x :: t => if f.source cfg = i then servedFrom cfg i t ++ [x] else servedFrom cfg i t
  | _ :: t => servedFrom cfg i t

/-- What is put into queue `i` comes behind the others, if that is an SPSC queue. -/
def LandsAt (cfg : Config Item P E) (i : Nat) (s : State Item P Agent)
    (act : Act Item E Agent) : Prop :=
  ∀ r ∈ s.puts cfg act, r.2.1 = i → Lands s.work r.1 r.2.1 r.2.2

/-! ## A queue as a line that is served -/

/-- The loop comes to queue `i` before or with its batch. -/
def Frame.visited (cfg : Config Item P E) (i : Nat) : Frame → Bool
  | .p0 second => second
  | .chosen _ => false
  | .disk => i = cfg.diskIoIdx
  | .other j => i = cfg.diskIoIdx || i < j + 1

/-- The iteration has come to queue `i`. -/
def BodyPc.visited (cfg : Config Item P E) (i : Nat) : BodyPc Item → Bool
  | .drain second => second
  | .other j => i = cfg.diskIoIdx || i < j
  | .batch f _ | .exec f _ _ => f.visited cfg i
  | _ => false

/-- The items from queue `i` that were taken and not yet executed. -/
def BodyPc.inHand (cfg : Config Item P E) (i : Nat) : BodyPc Item → List Item
  | .batch f rest | .exec f _ rest => if f.source cfg = i then rest else []
  | _ => []

/-- Between two iterations every queue has been visited. -/
def WorkerPc.visited (cfg : Config Item P E) (i : Nat) : WorkerPc Item → Bool
  | .body p => p.visited cfg i
  | _ => true

def WorkerPc.inHand (cfg : Config Item P E) (i : Nat) : WorkerPc Item → List Item
  | .body p => p.inHand cfg i
  | _ => []

/-- Queue `i` as a line. -/
def view (cfg : Config Item P E) (i : Nat) (t : List (Event Item Agent)) (w : Work Item P)
    (p : WorkerPc Item) : BatchService.State Item where
  rounds := iterations t
  visited := p.visited cfg i
  hand := p.inHand cfg i
  line := w.items i
  served := servedFrom cfg i t

section Service

variable {cfg : Config Item P E} {i : Nat} {t : List (Event Item Agent)}
  {s s' : State Item P Agent} {w w' : Work Item P} {p q : WorkerPc Item}

theorem items_take_of_ne (w : Work Item P) {i j : Nat} (max : Nat) (h : j ≠ i) :
    (w.take j max).2.items i = w.items i := by
  rw [(items_take w j max).2 i, if_neg h]

theorem items_of_take_ne {j max : Nat} {xs : List Item} (h : w.take j max = (xs, w'))
    (hne : j ≠ i) : w'.items i = w.items i := by
  rw [← items_take_of_ne w max hne, h]

/-- A queue grows at its back. -/
theorem items_put {room : Bool} {j : Nat} {y : Item} (h : j = i → Lands w room j y) :
    ∃ new, (w.put room j y).items i = w.items i ++ new := by
  rw [Work.items, getElem?_put, Work.items]
  by_cases hj : j = i
  · subst hj
    rw [if_pos rfl]
    cases hq : w.queues[j]? with
    | none => exact ⟨[], rfl⟩
    | some q =>
      have hitems := (h rfl).items hq
      split at hitems
      next => exact ⟨[y], hitems⟩
      next => exact ⟨[], hitems.trans (List.append_nil _).symm⟩
  · exact ⟨[], by rw [if_neg hj, List.append_nil]⟩

theorem items_leave {room : Bool} {x : Item} {l : Leave}
    (h : LandsAt cfg i s (.work (.leave room l))) (hx : s.worker.current = some x) :
    ∃ new, (s.work.leave cfg room x l).items i = s.work.items i ++ new := by
  have hputs : ∀ j, s.work.target cfg l = some j → j = i → Lands s.work room j x := by
    intro j hj
    refine h (room, j, x) ?_
    simp only [State.puts, hx, hj]
    rfl
  cases l with
  | returns => exact ⟨[], (List.append_nil _).symm⟩
  | yields | yieldsTo j => exact items_put (hputs _ rfl)

/-- A step that nobody in the line notices, except that others may join. -/
theorem serves_join (hv : q.visited cfg i = p.visited cfg i)
    (hh : q.inHand cfg i = p.inHand cfg i) (hl : ∃ new, w'.items i = w.items i ++ new) :
    BatchService.Step maxBatchSize (view cfg i t w p) (view cfg i t w' q) := by
  obtain ⟨new, hl⟩ := hl
  have hview : view cfg i t w' q = { view cfg i t w p with line := w.items i ++ new } := by
    rw [view, view, hv, hh, hl]
  rw [hview]
  exact BatchService.Step.joins new

theorem serves_stay (hv : q.visited cfg i = p.visited cfg i)
    (hh : q.inHand cfg i = p.inHand cfg i) (hl : w'.items i = w.items i) :
    BatchService.Step maxBatchSize (view cfg i t w p) (view cfg i t w' q) :=
  serves_join hv hh ⟨[], by rw [hl, List.append_nil]⟩

/-- The loop comes to the queue. -/
theorem serves_take {f : Frame} {b : BodyPc Item} (hf : f.source cfg = i)
    (hv : b.visited cfg i = false) (hv' : f.visited cfg i = true) (hh : b.inHand cfg i = []) :
    BatchService.Step maxBatchSize (view cfg i t w (.body b))
      (view cfg i t (w.take i maxBatchSize).2 (.body (.batch f (w.take i maxBatchSize).1))) := by
  obtain ⟨hfirst, hrest⟩ := items_take w i maxBatchSize
  have hhand : WorkerPc.inHand cfg i (.body (.batch f (w.take i maxBatchSize).1)) =
      (w.items i).take maxBatchSize := by
    rw [← hfirst]
    exact if_pos hf
  have hview : view cfg i t (w.take i maxBatchSize).2 (.body (.batch f (w.take i maxBatchSize).1)) =
      { view cfg i t w (.body b) with
        visited := true
        hand := (w.items i).take maxBatchSize
        line := (w.items i).drop maxBatchSize } := by
    rw [view, hhand, hrest i, if_pos rfl]
    simp only [WorkerPc.visited, BodyPc.visited, hv']
    rfl
  rw [hview]
  exact BatchService.Step.takes hv hh

/-- The next item of a batch is executed. -/
theorem serves_execute (f : Frame) (x : Item) (rest : List Item) (hl : w'.items i = w.items i) :
    BatchService.Step maxBatchSize (view cfg i t w (.body (.batch f (x :: rest))))
      (view cfg i (Event.executed f x :: t) w' (.body (.exec f x rest))) := by
  by_cases hf : f.source cfg = i
  · have hview : view cfg i (Event.executed f x :: t) w' (.body (.exec f x rest)) =
        { view cfg i t w (.body (.batch f (x :: rest))) with
          hand := rest
          served := servedFrom cfg i t ++ [x] } := by
      simp only [view, hl, servedFrom, WorkerPc.inHand, BodyPc.inHand, if_pos hf]
      rfl
    rw [hview]
    exact BatchService.Step.serves (if_pos hf)
  · have hview : view cfg i (Event.executed f x :: t) w' (.body (.exec f x rest)) =
        view cfg i t w (.body (.batch f (x :: rest))) := by
      simp only [view, hl, servedFrom, WorkerPc.inHand, BodyPc.inHand, if_neg hf]
      rfl
    rw [hview]
    exact BatchService.Step.refl _ _

/-- Passing by queue `j` changes nothing for another queue. -/
theorem visited_succ {j : Nat} (h : i ≠ cfg.diskIoIdx → i ≠ j) :
    (decide (i = cfg.diskIoIdx) || decide (i < j + 1)) =
      (decide (i = cfg.diskIoIdx) || decide (i < j)) := by
  by_cases hd : i = cfg.diskIoIdx
  · rw [decide_eq_true hd, Bool.true_or, Bool.true_or]
  · have hij := h hd
    rw [decide_eq_decide.mpr (show i < j + 1 ↔ i < j by omega)]

/-- **A step of an iteration of `run_busy()` is a step of the service.** -/
theorem BodyMove.serves [DecidableEq Item] {p : BodyPc Item} {b : BodyAct Item E} {n : Next Item}
    (hm : BodyMove cfg s.work p b w' n) (hp : s.worker = .body p) (hbusy : cfg.busyPoll = true)
    (hi : i ≠ cfg.affineIdx) (hlt : i < s.work.queues.length) (hruns : p.runs true = true)
    (hput : LandsAt cfg i s (.work b)) :
    BatchService.Step maxBatchSize (view cfg i t s.work (.body p))
      (view cfg i (note t (WorkerPc.shows (.body p) b)) w' n.pc) := by
  cases hm with
  | drained second htake =>
    have hl := items_of_take_ne htake (Ne.symm hi)
    cases second with
    | true => exact serves_stay rfl rfl hl
    | false =>
      rw [afterDrain, hbusy]
      exact serves_stay rfl rfl hl
  | drains second htake =>
    exact serves_stay rfl (if_neg (Ne.symm hi)) (items_of_take_ne htake (Ne.symm hi))
  | snaps _ | decides _ _ | takesNone _ | takes _ => cases hruns
  | disk =>
    by_cases hd : cfg.diskIoIdx = i
    · subst hd
      exact serves_take rfl rfl (decide_eq_true rfl) rfl
    · exact serves_stay (decide_eq_false (Ne.symm hd)) (if_neg hd) (items_take_of_ne _ _ hd)
  | @skips j _ hskip =>
    refine serves_stay (visited_succ fun hd => ?_) rfl rfl
    rintro rfl
    exact hskip.elim hi hd
  | @visits j hj _ hdisk =>
    by_cases hji : j = i
    · subst hji
      refine serves_take rfl ?_ ?_ rfl
      · simp [BodyPc.visited, hdisk]
      · simp [Frame.visited]
    · exact serves_stay (visited_succ fun _ => Ne.symm hji) (if_neg hji) (items_take_of_ne _ _ hji)
  | @visited j hj =>
    refine serves_stay ?_ rfl rfl
    show true = (decide (i = cfg.diskIoIdx) || decide (i < j))
    rw [decide_eq_true (Nat.lt_of_lt_of_le hlt hj), Bool.or_true]
  | ends f =>
    cases f with
    | chosen j => cases hruns
    | p0 second => exact serves_stay rfl (if_neg (Ne.symm hi)).symm rfl
    | disk =>
      refine serves_stay ?_ (ite_self []).symm rfl
      show (decide (i = cfg.diskIoIdx) || decide (i < 0)) = decide (i = cfg.diskIoIdx)
      rw [decide_eq_false (Nat.not_lt_zero i), Bool.or_false]
    | other j => exact serves_stay rfl (ite_self []).symm rfl
  | executes f x rest =>
    exact serves_execute f x rest rfl
  | emits f x rest room j _ => exact serves_join rfl rfl (items_put (hput _ rfl))
  | @leaves f x rest room l _ =>
    have hx : s.worker.current = some x := by
      rw [hp]
      rfl
    exact serves_join rfl rfl (items_leave hput hx)

/-- Inside `on_worker_start` the line can only grow. -/
theorem WorkMove.serves [DecidableEq Item] {p q : WorkerPc Item} {b : BodyAct Item E}
    (hm : WorkMove cfg s p b w' q) (hp : s.worker = p) (hbusy : cfg.busyPoll = true)
    (hi : i ≠ cfg.affineIdx) (hlt : i < s.work.queues.length)
    (hruns : ∀ r, p = .body r → r.runs true = true) (hput : LandsAt cfg i s (.work b)) :
    BatchService.Step maxBatchSize (view cfg i t s.work p)
      (view cfg i (note t (p.shows b)) w' q) := by
  cases hm with
  | booted k _ | resumes _ =>
    exact serves_stay rfl rfl rfl
  | emits k x room j _ => exact serves_join rfl rfl (items_put (hput _ rfl))
  | @leaves k x room l _ =>
    have hx : s.worker.current = some x := by
      rw [hp]
      rfl
    exact serves_join rfl rfl (items_leave hput hx)
  | iterates hb => exact hb.serves hp hbusy hi hlt (hruns _ rfl) hput

/-- At the head of the loop a round begins. -/
theorem ThreadMove.serves (hm : ThreadMove cfg s p s') :
    BatchService.Step maxBatchSize (view cfg i t s.work p)
      (view cfg i (note t (p.begins s.running)) s'.work s'.worker) := by
  cases hm with
  | enters hr =>
    rw [hr]
    exact BatchService.Step.begins rfl rfl
  | exits hr =>
    rw [hr]
    exact serves_stay rfl rfl rfl
  | setsLate stop =>
    cases stop <;> exact serves_stay rfl rfl rfl
  | clears =>
    refine serves_stay ?_ ?_ rfl
    · cases cfg.busyPoll <;> rfl
    · cases cfg.busyPoll <;> rfl
  | idles _ =>
    refine serves_stay ?_ ?_ rfl
    · split <;> rfl
    · split <;> rfl
  | _ =>
    exact serves_stay rfl rfl rfl

theorem view_wake (p : WorkerPc Item) : view cfg i t w p.wake = view cfg i t w p := by
  cases p <;> rfl

/-- What the calls of the other threads show. -/
theorem view_calls (a : Agent) (c : Call Item) :
    view cfg i (note t (c.shows a)) w p = view cfg i t w p := by
  simp only [Call.shows]
  split <;> rfl

theorem CallMove.serves {a : Agent} {room : Bool} {c₀ c : Call Item}
    (hm : CallMove s a room c₀ s' c) (ha : s.call a = c₀)
    (hput : LandsAt cfg i s (.goCall a room)) :
    BatchService.Step maxBatchSize (view cfg i t s.work s.worker)
      (view cfg i t s'.work s'.worker) := by
  cases hm with
  | creates hw =>
    rw [hw]
    exact serves_stay rfl rfl rfl
  | woken k =>
    rw [view_wake]
    exact BatchService.Step.refl _ _
  | submits j y =>
    refine serves_join rfl rfl (items_put (hput (room, j, y) ?_))
    simp only [State.puts, ha]
    rfl
  | _ => exact serves_stay rfl rfl rfl

/-- Every step of the worker is a step of the service. -/
theorem StepMove.serves [DecidableEq Item] [DecidableEq Agent] {act : Act Item E Agent}
    (hm : StepMove cfg s act s') (hbusy : cfg.busyPoll = true) (hi : i ≠ cfg.affineIdx)
    (hlt : i < s.work.queues.length) (hruns : ∀ r, s.worker = .body r → r.runs true = true)
    (hput : LandsAt cfg i s act) : BatchService.Step maxBatchSize (view cfg i t s.work s.worker)
      (view cfg i (note t (event s act)) s'.work s'.worker) := by
  cases hm with
  | works hw => exact hw.serves rfl hbusy hi hlt hruns hput
  | threads ht => exact ht.serves
  | early hw | joins hw =>
    rw [hw]
    exact serves_stay rfl rfl rfl
  | wakes =>
    rw [view_wake]
    exact BatchService.Step.refl _ _
  | begins hb _ => cases hb <;> exact BatchService.Step.refl _ _
  | calls hc =>
    rw [event, view_calls]
    exact hc.serves rfl hput

/-- **Every step of the machine is a step of the service.** -/
theorem SystemMove.serves [DecidableEq Item] [DecidableEq Agent] {S S' : System Item P Agent}
    {act : Act Item E Agent} (hm : SystemMove cfg S act S') (hbusy : cfg.busyPoll = true)
    (hi : i ≠ cfg.affineIdx) (hlt : i < S.work.queues.length)
    (hruns : ∀ r, S.worker = .body r → r.runs true = true) (hpush : Undisturbed i S)
    (hc : OrderlyAt cfg i t S act) : BatchService.Step maxBatchSize
      (view cfg i t S.work S.worker)
      (view cfg i (note t (event S.toState act)) S'.work S'.worker) := by
  cases hm with
  | acts hdue hm =>
    refine hm.serves hbusy hi hlt hruns fun r hr hri => ?_
    subst hri
    exact hpush.lands hdue hr hc
  | accesses _ hq hown haccess =>
    have hitems := (hpush.accesses hq hown haccess fun hj => hc (congrArg some hj)).2
    exact serves_stay rfl rfl hitems

end Service

/-! ## Whole runs -/

section Runs

variable {cfg : Config Item P E} {s s' : State Item P Agent}

/-- What holds all the time when the thread was at the beginning of an iteration and `line₀`
    was in queue `i`. -/
structure Serving (cfg : Config Item P E) (i L : Nat) (line₀ : List Item)
    (t : List (Event Item Agent)) (s : System Item P Agent) : Prop where
  queues : s.work.queues.length = L
  push : Undisturbed i s
  routed : Routed cfg t s.work.tls s.worker
  inv : BatchService.Inv maxBatchSize line₀ (view cfg i t s.work s.worker)

/-- The thread runs `run_busy()`. -/
theorem Serving.runs {s : System Item P Agent} {i L : Nat} {line₀ : List Item}
    {t : List (Event Item Agent)} (h : Serving cfg i L line₀ t s) (hbusy : cfg.busyPoll = true) :
    ∀ r, s.worker = .body r → r.runs true = true := by
  intro r hr
  have hrouted := h.routed
  rw [hr] at hrouted
  have hruns := hrouted.1
  rwa [hbusy] at hruns

variable [DecidableEq Item] [DecidableEq Agent]

/-- The worker keeps its queues. -/
theorem StepMove.length {act : Act Item E Agent} (hm : StepMove cfg s act s') :
    s'.work.queues.length = s.work.queues.length := by
  have h : ∀ i, s'.work.queues.length ≤ i ↔ s.work.queues.length ≤ i := by
    intro i
    obtain ⟨f, hf, -⟩ := hm.moved i
    rw [← List.getElem?_eq_none_iff, hf, Option.map_eq_none_iff, List.getElem?_eq_none_iff]
  exact Nat.le_antisymm ((h _).mpr (Nat.le_refl _)) ((h _).mp (Nat.le_refl _))

theorem SystemMove.length {S S' : System Item P Agent} {act : Act Item E Agent}
    (hm : SystemMove cfg S act S') : S'.work.queues.length = S.work.queues.length := by
  cases hm with
  | acts _ hm => exact hm.length
  | accesses _ _ _ _ => exact List.length_set

theorem SystemMove.routed {S S' : System Item P Agent} {act : Act Item E Agent}
    {t : List (Event Item Agent)} (hm : SystemMove cfg S act S')
    (h : Routed cfg t S.work.tls S.worker) :
    Routed cfg (note t (event S.toState act)) S'.work.tls S'.worker := by
  cases hm with
  | acts _ hm => exact h.step hm
  | accesses _ _ _ _ => exact h

end Runs

/-! ## The iterations go on -/

/-- Where the thread is, with a `drain_p0` as one place. -/
def WorkerPc.stage : WorkerPc Item → WorkerPc Item
  | .body (.batch (.p0 second) _) | .body (.exec (.p0 second) _ _) => .body (.drain second)
  | p => p

/-- How much is left of an iteration when a loop works on its batch. -/
def Frame.rank (L : Nat) : Frame → Nat
  | .p0 second => if second then 1 else 2 * L + 5
  | .disk => 2 * L + 3
  | .other j => 2 * (L - (j + 1)) + 3
  | .chosen _ => 0

/-- How much is left of the iteration. -/
def BodyPc.rank (L : Nat) : BodyPc Item → Nat × Nat
  | .drain second => ((Frame.p0 second).rank L, 0)
  | .disk => (2 * L + 4, 0)
  | .other j => (2 * (L - j) + 2, 0)
  | .batch f rest => (f.rank L, 2 * rest.length + 1)
  | .exec f _ rest => (f.rank L, 2 * rest.length + 2)
  | _ => (0, 0)

def WorkerPc.rank (L : Nat) : WorkerPc Item → Nat × Nat
  | .body p => p.rank L
  | _ => (0, 0)

section Onward

variable {cfg : Config Item P E} {L : Nat} {t : List (Event Item Agent)}
  {s s' : State Item P Agent} {w w' : Work Item P}

end Onward

section Endless

variable [DecidableEq Item] [DecidableEq Agent] {cfg : Config Item P E}
  {C : List (Event Item Agent) → System Item P Agent → Act Item E Agent → Prop}
  {s₀ : System Item P Agent} {r : Endless (machine cfg) C s₀}

end Endless

/-! ## Bounded service -/

/-- How many iterations are over, when the first one began before the trace. -/
def finished (t : List (Event Item Agent)) : WorkerPc Item → Nat
  | .body _ => iterations t
  | _ => iterations t + 1

section Bound

variable [DecidableEq Item] [DecidableEq Agent] {cfg : Config Item P E}
  {s₀ s : System Item P Agent} {i : Nat} {t : List (Event Item Agent)} {ahead behind : List Item}
  {x : Item}

end Bound

end Scheduler
