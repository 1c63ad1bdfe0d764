import StorageRuntime.SchedulerProofs
import Mathlib.Data.Fintype.Option

/-!
# Scheduler — pushes to an SPSC queue that do not disturb each other

`push_batch` reads `local_write_tail_`, writes a slot, stores `local_write_tail_` and
adds to `write_head_`, without any check.  On a worker several threads call it: the
disk IO queue is pushed to by `submit_disk_io` and by the `yield()` of the IO poll.

**`Undisturbed`** says of one queue that at most one thread is in a push to it and that
what this thread has written is still there.  It is kept as long as no thread makes an
access while another is in a push, and the slots that may still be read are not written
(`OrderlyAt`).  Then a push changes nothing that the worker will read until it publishes,
and the item lands behind all others (`Undisturbed.lands`).
-/

namespace Scheduler

open Interleaving WorkQueue Function

variable {Item P E Agent : Type}

/-- The SPSC queue has a batch of slots more than it needs: the worker may have taken a batch
    whose slots it is still reading. -/
def Roomy (w : Work Item P) (i : Nat) : Prop :=
  ∀ q ∈ w.queues[i]?, q.kind = .spsc → q.items.length + maxBatchSize < q.limit
deriving Decidable

/-- No other thread is in a push to queue `i`. -/
def System.Alone (s : System Item P Agent) (i : Nat) (o : Option Agent) : Prop :=
  ∀ o', o' ≠ o → ∀ r ∈ s.push o', r.queue ≠ i

/-- The queue that the action makes an access of a push to, or publishes in. -/
def State.pushesTo (cfg : Config Item P E) (s : State Item P Agent) :
    Act Item E Agent → Option Nat
  | .access _ i _ => some i
  | act => (s.puts cfg act).map fun r => r.2.1

/-- Nobody pushes to queue `i` while another thread does, and there is room. -/
def OrderlyAt (cfg : Config Item P E) (i : Nat) (_ : List (Event Item Agent))
    (s : System Item P Agent) (act : Act Item E Agent) : Prop :=
  s.pushesTo cfg act = some i → s.Alone i act.thread ∧ Roomy s.work i

/-- No two threads push to one SPSC queue at the same time, and all of them have room. -/
def Orderly (cfg : Config Item P E) (t : List (Event Item Agent)) (s : System Item P Agent)
    (act : Act Item E Agent) : Prop :=
  ∀ i, OrderlyAt cfg i t s act

section Decide

variable [DecidableEq Agent] [Fintype Agent]

instance (s : System Item P Agent) (i : Nat) (o : Option Agent) : Decidable (s.Alone i o) :=
  inferInstanceAs (Decidable (∀ o', o' ≠ o → ∀ r ∈ s.push o', r.queue ≠ i))

instance (cfg : Config Item P E) (i : Nat) (t : List (Event Item Agent))
    (s : System Item P Agent) (act : Act Item E Agent) : Decidable (OrderlyAt cfg i t s act) :=
  inferInstanceAs (Decidable (_ → _))

instance (cfg : Config Item P E) (t : List (Event Item Agent)) (s : System Item P Agent)
    (act : Act Item E Agent) : Decidable (Orderly cfg t s act) :=
  decidable_of_iff (∀ i ∈ s.pushesTo cfg act, s.Alone i act.thread ∧ Roomy s.work i) Iff.rfl

end Decide

/-! ## What a step does to one queue -/

/-- Nothing, or a batch is taken, or the given item is put into it. -/
inductive QueueMove (q : Queue Item) : Option (Bool × Item) → Queue Item → Prop where
  | stays : QueueMove q none q
  | takes (max : Nat) : QueueMove q none (q.tryDequeueBatch max).2
  | puts (room : Bool) (x : Item) : QueueMove q (some (room, x)) (offer q room x)

/-- What the action enqueues to queue `i`. -/
def State.putAt (cfg : Config Item P E) (s : State Item P Agent) (act : Act Item E Agent)
    (i : Nat) : Option (Bool × Item) :=
  match s.puts cfg act with
  | some (room, j, x) => if j = i then some (room, x) else none
  | none => none

def Moved (w w' : Work Item P) (put : Option (Bool × Item)) (i : Nat) : Prop :=
  ∃ f, w'.queues[i]? = (w.queues[i]?).map f ∧ ∀ q, QueueMove q put (f q)

section Queues

variable {cfg : Config Item P E} {s s' : State Item P Agent} {w w' : Work Item P}
  {room : Bool} {x : Item} {i : Nat} {act : Act Item E Agent}

theorem moved_refl (h : w'.queues = w.queues) : Moved w w' none i :=
  ⟨id, by rw [h, Option.map_id]; rfl, fun _ => .stays⟩

theorem moved_put (w : Work Item P) (room : Bool) (j : Nat) (x : Item) (i : Nat) :
    Moved w (w.put room j x) (if j = i then some (room, x) else none) i := by
  rw [Moved, getElem?_put]
  split
  next => exact ⟨_, rfl, fun q => .puts room x⟩
  next => exact moved_refl rfl

theorem moved_take (w : Work Item P) (j max i : Nat) : Moved w (w.take j max).2 none i := by
  rw [Moved, getElem?_take]
  split
  next => exact ⟨_, rfl, fun q => .takes max⟩
  next => exact moved_refl rfl

theorem moved_of_take {j max : Nat} {xs : List Item} (h : w.take j max = (xs, w')) :
    Moved w w' none i := by
  have := moved_take w j max i
  rwa [h] at this

theorem moved_leave {l : Leave} (hx : s.worker.current = some x) :
    Moved s.work (s.work.leave cfg room x l) (s.putAt cfg (.work (.leave room l)) i) i := by
  simp only [State.putAt, State.puts, hx]
  cases l with
  | returns => exact moved_refl rfl
  | yields | yieldsTo j => exact moved_put s.work room _ x i

/-- To put an item into an SPSC queue the thread must have written it. -/
theorem due_of_puts {q : SpscQueue Item} (hputs : s.puts cfg act = some (room, i, x))
    (hq : s.work.queues[i]? = some (.spsc q)) : s.due cfg act = some ⟨i, x, .publish⟩ := by
  simp only [State.due, hputs, hq]
  rfl

theorem puts_of_putAt (hput : s.putAt cfg act i = some (room, x)) :
    s.puts cfg act = some (room, i, x) := by
  rw [State.putAt] at hput
  split at hput
  next hputs =>
    split at hput
    next hj =>
      cases hput
      rw [hputs, hj]
    next => cases hput
  next => cases hput

theorem queue_ne_of_putAt (hput : s.putAt cfg act i = none) :
    ∀ r, s.due cfg act = some r → r.queue ≠ i := by
  intro r hr
  rw [State.putAt] at hput
  rw [State.due] at hr
  split at hput
  next room j y hputs =>
    rw [hputs] at hr
    dsimp only at hr
    split at hr
    next =>
      cases hr
      intro hj
      rw [if_pos hj] at hput
      cases hput
    next => cases hr
  next hputs =>
    rw [hputs] at hr
    cases hr

variable [DecidableEq Item]

theorem WorkMove.moved {p q : WorkerPc Item} {b : BodyAct Item E} (hm : WorkMove cfg s p b w' q)
    (hp : s.worker = p) : Moved s.work w' (s.putAt cfg (.work b) i) i := by
  cases hm with
  | booted _ _ | resumes _ => exact moved_refl rfl
  | emits k x room j _ => exact moved_put ..
  | leaves k room _ => exact moved_leave (by rw [hp]; rfl)
  | iterates hb =>
    cases hb with
    | drained _ htake | drains _ htake | takesNone htake | takes htake => exact moved_of_take htake
    | disk | visits _ _ _ => exact moved_take ..
    | snaps _ | decides _ _ | skips _ _ | visited _ | ends _ | executes _ _ _ =>
      exact moved_refl rfl
    | emits f x rest room j _ => exact moved_put ..
    | leaves f rest room _ => exact moved_leave (by rw [hp]; rfl)

variable [DecidableEq Agent]

/-- **Every step changes a queue in one of these ways.** -/
theorem StepMove.moved (hm : StepMove cfg s act s') (i : Nat) :
    Moved s.work s'.work (s.putAt cfg act i) i := by
  cases hm with
  | works hw => exact hw.moved rfl
  | threads ht => exact moved_refl (by rw [ht.frame.2])
  | early _ | wakes | joins _ => exact moved_refl rfl
  | begins hb _ => cases hb <;> exact moved_refl rfl
  | @calls a room s₁ c hc =>
    simp only [State.putAt, State.puts]
    generalize s.call a = c₀ at hc ⊢
    cases hc with
    | submits j y => exact moved_put ..
    | _ => exact moved_refl rfl

end Queues

/-! ## One push at a time -/

/-- If queue `i` is an SPSC queue, the item that is put into it comes behind the others. -/
def Lands (w : Work Item P) (room : Bool) (i : Nat) (x : Item) : Prop :=
  ∀ q ∈ w.queues[i]?, q.kind = .spsc →
    accepts q room = true ∧ (offer q room x).items = q.items ++ [x]

/-- Any other queue takes an item or leaves it. -/
theorem Lands.items {w : Work Item P} {room : Bool} {i : Nat} {x : Item} (h : Lands w room i x)
    {q : Queue Item} (hq : w.queues[i]? = some q) :
    (offer q room x).items = if accepts q room then q.items ++ [x] else q.items := by
  by_cases hkind : q.kind = .spsc
  · obtain ⟨hacc, hitems⟩ := h q hq hkind
    rw [if_pos hacc, hitems]
  · split
    next hacc => exact items_offer x hacc hkind
    next hacc => exact items_offer_refused x (Bool.eq_false_iff.mpr hacc) hkind

/-- At most one thread is in a push to queue `i`, and what it has written is there. -/
structure Undisturbed (i : Nat) (s : System Item P Agent) : Prop where
  alone : ∀ o r, s.push o = some r → r.queue = i → s.Alone i o
  during : ∀ q, s.work.queues[i]? = some (.spsc q) →
    ∀ o r, s.push o = some r → r.queue = i → q.During r.item (some r.pc)
  idle : ∀ q, s.work.queues[i]? = some (.spsc q) →
    (∀ o r, s.push o = some r → r.queue ≠ i) → q.localWriteTail = q.writeHead

section Pushes

variable {cfg : Config Item P E} {i : Nat} {t : List (Event Item Agent)}
  {s s' : System Item P Agent} {act : Act Item E Agent} {room : Bool} {x : Item}

theorem undisturbed_init (cfg : Config Item P E) {queues : List (Queue Item)}
    (hnew : ∀ q ∈ queues, q.Settled) (i : Nat) : Undisturbed i (init cfg Agent queues) where
  alone := nofun
  during _ _ := nofun
  idle q hq _ := hnew (.spsc q) (List.mem_of_getElem? hq)

/-- **The item comes behind the others**, if the queue takes it. -/
theorem Undisturbed.items (h : Undisturbed i s) (hdue : s.push act.thread = s.due cfg act)
    (hputs : s.puts cfg act = some (room, i, x)) {q : Queue Item}
    (hq : s.work.queues[i]? = some q) (hacc : accepts q room = true) :
    (offer q room x).items = q.items ++ [x] := by
  cases q with
  | spsc q =>
    rw [accepts, Bool.and_eq_true_iff] at hacc
    rw [due_of_puts hputs hq] at hdue
    exact ((h.during q hq _ _ hdue rfl).publish (of_decide_eq_true hacc.2)).2
  | ring q | affine q | «local» q => exact items_offer x hacc (by rintro ⟨⟩)

/-- An orderly push lands. -/
theorem Undisturbed.lands (h : Undisturbed i s) (hdue : s.push act.thread = s.due cfg act)
    (hputs : s.puts cfg act = some (room, i, x)) (hc : OrderlyAt cfg i t s act) :
    Lands s.work room i x := by
  intro q hq hkind
  have hto : s.pushesTo cfg act = some i := by
    cases act with
    | access o j y => cases hputs
    | _ => simp only [State.pushesTo, hputs, Option.map_some]
  have hacc : accepts q room = true := by
    rw [accepts, hkind]
    exact decide_eq_true (Nat.lt_of_le_of_lt (Nat.le_add_right ..) ((hc hto).2 q hq hkind))
  exact ⟨hacc, h.items hdue hputs hq hacc⟩

/-- Taking a batch leaves a push alone. -/
theorem QueueMove.during {q : Queue Item} {q' : SpscQueue Item} (hm : QueueMove q none (.spsc q')) :
    ∃ q₀, q = .spsc q₀ ∧ (∀ x p, q₀.During x (some p) → q'.During x (some p)) ∧
      (q₀.localWriteTail = q₀.writeHead → q'.localWriteTail = q'.writeHead) := by
  generalize hr : Queue.spsc q' = r at hm
  cases hm with
  | stays => exact ⟨q', hr.symm, fun _ _ => id, id⟩
  | takes max =>
    cases q with
    | spsc q =>
      cases hr
      exact ⟨q, rfl, fun _ _ hd => hd.take max, id⟩
    | _ => cases hr

variable [DecidableEq Item] [DecidableEq Agent]

/-- A thread that takes another step is in no push any more. -/
theorem Undisturbed.acts (h : Undisturbed i s) (hdue : s.push act.thread = s.due cfg act)
    {s' : State Item P Agent} (hm : StepMove cfg s.toState act s') :
    Undisturbed i { toState := s', push := update s.push act.thread none } := by
  have hpush : ∀ {o r}, update s.push act.thread none o = some r →
      o ≠ act.thread ∧ s.push o = some r := fun ho => of_update ho nofun
  obtain ⟨f, hf, hmoves⟩ := hm.moved i
  -- what is an SPSC queue now was one before
  have hqueue : ∀ q', s'.work.queues[i]? = some (.spsc q') →
      ∃ q, s.work.queues[i]? = some q ∧ QueueMove q (s.putAt cfg act i) (.spsc q') := by
    intro q' hq'
    rw [hf] at hq'
    obtain ⟨q, hq, heq⟩ := Option.map_eq_some_iff.mp hq'
    exact ⟨q, hq, heq ▸ hmoves q⟩
  have halone : ∀ o r, update s.push act.thread none o = some r → r.queue = i →
      System.Alone { toState := s', push := update s.push act.thread none } i o := by
    intro o r ho hr o' hne r' hr'
    exact h.alone o r (hpush ho).2 hr o' hne r' (hpush hr').2
  cases hput : s.putAt cfg act i with
  | none =>
    refine ⟨halone, fun q' hq' o r ho hr => ?_, fun q' hq' hnone => ?_⟩
    · obtain ⟨q, hq, hmove⟩ := hqueue q' hq'
      rw [hput] at hmove
      obtain ⟨q₀, rfl, hduring, -⟩ := hmove.during
      exact hduring _ _ (h.during q₀ hq o r (hpush ho).2 hr)
    · obtain ⟨q, hq, hmove⟩ := hqueue q' hq'
      rw [hput] at hmove
      obtain ⟨q₀, rfl, -, hidle⟩ := hmove.during
      refine hidle (h.idle q₀ hq fun o r ho => ?_)
      by_cases hth : o = act.thread
      · subst hth
        exact queue_ne_of_putAt hput r (hdue.symm.trans ho)
      · exact hnone o r ((update_of_ne hth ..).trans ho)
  | some y =>
    obtain ⟨room, x⟩ := y
    -- the push that was in progress has been published
    have hpublished : ∀ q', s'.work.queues[i]? = some (.spsc q') →
        (∀ o r, update s.push act.thread none o = some r → r.queue ≠ i) ∧
          q'.localWriteTail = q'.writeHead := by
      intro q' hq'
      obtain ⟨q, hq, hmove⟩ := hqueue q' hq'
      rw [hput] at hmove
      generalize hr : Queue.spsc q' = r at hmove
      cases hmove with
      | puts =>
        cases q with
        | spsc q =>
          cases hr
          rw [due_of_puts (puts_of_putAt hput) hq] at hdue
          refine ⟨fun o r ho => ?_, (h.during q hq _ _ hdue rfl).1⟩
          exact h.alone _ _ hdue rfl o (hpush ho).1 r (hpush ho).2
        | ring q | affine q =>
          rw [offer] at hr
          split at hr <;> cases hr
        | «local» q => cases hr
    exact ⟨halone, fun q' hq' o r ho hr => absurd hr ((hpublished q' hq').1 o r ho),
      fun q' hq' _ => (hpublished q' hq').2⟩

omit [DecidableEq Item] in
/-- **A thread that is alone goes on with its push**, and the worker will read the same. -/
theorem Undisturbed.accesses (h : Undisturbed i s) {o : Option Agent} {j : Nat}
    {q q' : SpscQueue Item} {p : PushPc} (hq : s.work.queues[j]? = some (.spsc q))
    (hown : ∀ r ∈ s.push o, r.queue = j ∧ r.item = x)
    (haccess : q.access x ((s.push o).map Push.pc) = some (q', p))
    (hc : j = i → s.Alone i o ∧ Roomy s.work i) :
    Undisturbed i { s with
        work := { s.work with queues := s.work.queues.set j (.spsc q') }
        push := update s.push o (some ⟨j, x, p⟩) } ∧
      Work.items { s.work with queues := s.work.queues.set j (.spsc q') } i = s.work.items i := by
  have hlt : j < s.work.queues.length := (List.getElem?_eq_some_iff.mp hq).1
  by_cases hj : j = i
  · subst hj
    obtain ⟨halone, hroom⟩ := hc rfl
    have hnow : q.During x ((s.push o).map Push.pc) := by
      cases ho : s.push o with
      | none =>
        refine h.idle q hq fun o' r ho' => halone o' ?_ r ho'
        rintro rfl
        cases ho.symm.trans ho'
      | some r =>
        obtain ⟨hr, rfl⟩ := hown r ho
        exact h.during q hq o r ho hr
    have hlength : q.items.length < spscCapacity :=
      Nat.lt_of_le_of_lt (Nat.le_add_right ..) (hroom _ hq rfl)
    obtain ⟨hthen, hitems⟩ := hnow.access hlength haccess
    have hset : (s.work.queues.set j (.spsc q'))[j]? = some (.spsc q') := List.getElem?_set_self hlt
    have honly : ∀ {o' r}, update s.push o (some ⟨j, x, p⟩) o' = some r → r.queue = j → o' = o := by
      intro o' r ho' hr
      by_contra hne
      rw [update_of_ne hne] at ho'
      exact halone o' hne r ho' hr
    refine ⟨⟨fun o' r ho' hr o'' hne r' hr' hj' => ?_, fun q'' hq'' o' r ho' hr => ?_,
      fun q'' _ hnone => absurd rfl (hnone o _ (update_self ..))⟩, ?_⟩
    · exact hne ((honly hr' hj').trans (honly ho' hr).symm)
    · obtain rfl := honly ho' hr
      cases (update_self ..).symm.trans ho'
      cases hset.symm.trans hq''
      exact hthen
    · rw [items_eq hq, items_eq hset]
      exact hitems
  · have hset : (s.work.queues.set j (.spsc q'))[i]? = s.work.queues[i]? := List.getElem?_set_ne hj
    have hold : ∀ {o' r}, update s.push o (some ⟨j, x, p⟩) o' = some r → r.queue = i →
        s.push o' = some r := by
      intro o' r ho' hr
      rcases update_cases id ho' with ⟨-, heq⟩ | ⟨-, hold⟩
      · cases heq
        exact absurd hr hj
      · exact hold
    refine ⟨⟨fun o' r ho' hr o'' hne r' hr' hi' => ?_, fun q'' hq'' o' r ho' hr => ?_,
      fun q'' hq'' hnone => h.idle q'' (hset ▸ hq'') fun o' r ho' => ?_⟩, ?_⟩
    · exact h.alone o' r (hold ho' hr) hr o'' hne r' (hold hr' hi') hi'
    · exact h.during q'' (hset ▸ hq'') o' r (hold ho' hr) hr
    · by_cases hoo : o' = o
      · subst hoo
        rw [(hown r ho').1]
        exact hj
      · exact hnone o' r ((update_of_ne hoo ..).trans ho')
    · simp only [Work.items, hset]

theorem Undisturbed.step (h : Undisturbed i s) (hm : SystemMove cfg s act s')
    (hc : OrderlyAt cfg i t s act) : Undisturbed i s' := by
  cases hm with
  | acts hdue hm => exact h.acts hdue hm
  | accesses _ hq hown haccess =>
    exact (h.accesses hq hown haccess fun hj => hc (congrArg some hj)).1

end Pushes

end Scheduler
