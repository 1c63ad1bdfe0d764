import StorageRuntime.YieldRoutingProofs
import Mathlib.Algebra.Order.BigOperators.Group.List
import Mathlib.Algebra.Order.Group.Nat

/-!
# Scheduler — when `drain_p0` returns

`drain_p0` empties the affine queue batch by batch until a dequeue finds nothing.
An item that yields while it is executed there is enqueued to the queue that is
being emptied.

`drainP0` runs the machine from the call to the return, with no other thread and
tasks that follow a script: `script x n` is how `x` leaves when it was executed `n`
times before.  An executed task enqueues nothing but itself: it calls no `post()` that
would put another coroutine into the affine queue.

**`drain_returns_iff`**: the call returns exactly if every coroutine in the queue
some time does not come back to it.
-/

namespace Scheduler

open Interleaving WorkQueue WordArithmetic

variable {Item P E Agent : Type} [DecidableEq Item]

/-- How often `x` was executed. -/
def executions (x : Item) : List (Event Item Agent) → Nat
  | [] => 0
  | .executed _ y :: t => if y = x then executions x t + 1 else executions x t
  | _ :: t => executions x t

/-- A task that leaves like this while it is executed by `drain_p0` comes back to the affine
    queue. -/
def comesBack (cfg : Config Item P E) : Leave → Bool
  | .returns => false
  | .yields => true
  | .yieldsTo i => i = cfg.affineIdx

/-- What the worker's thread does next in `drain_p0`; `none` when that has returned. -/
def nextAct (script : Item → Nat → Leave) (t : List (Event Item Agent)) :
    WorkerPc Item → Option (Act Item E Agent)
  | .body (.drain _) | .body (.batch (.p0 _) _) => some (.work .go)
  | .body (.exec (.p0 _) x _) => some (.work (.leave true (script x (executions x t - 1))))
  | _ => none

variable [DecidableEq Agent]

/-- A step that no other thread comes between: the accesses of a push that it publishes, and
    then the step itself. -/
def System.perform (cfg : Config Item P E) (s : System Item P Agent) (act : Act Item E Agent) :
    Option (System Item P Agent) :=
  match s.due cfg act with
  | none => s.step cfg act
  | some r => do
    let s₁ ← s.step cfg (.access act.thread r.queue r.item)
    let s₂ ← s₁.step cfg (.access act.thread r.queue r.item)
    let s₃ ← s₂.step cfg (.access act.thread r.queue r.item)
    s₃.step cfg act

/-- `drain_p0` from the present state on, for at most `fuel` steps.  The tasks enqueue nothing
    but themselves. -/
def drainP0 (cfg : Config Item P E) (script : Item → Nat → Leave) :
    Nat → List (Event Item Agent) → System Item P Agent →
      Option (List (Event Item Agent) × System Item P Agent)
  | 0, _, _ => none
  | fuel + 1, t, s =>
    match nextAct (E := E) script t s.worker with
    | none => some (t, s)
    | some act =>
      match s.perform cfg act with
      | none => none
      | some s' => drainP0 cfg script fuel ((machine cfg).record s act t) s'

/-- What `drainP0` does is done by the machine. -/
theorem perform_exec {cfg : Config Item P E} {s₀ s s' : System Item P Agent}
    {t : List (Event Item Agent)} {act : Act Item E Agent} (h : s.perform cfg act = some s')
    (hrun : Exec (machine cfg) Always s₀ t s) : ∃ t', Exec (machine cfg) Always s₀ t' s' := by
  rw [System.perform] at h
  split at h
  next => exact ⟨_, Exec.step act hrun trivial h⟩
  next r _ =>
    obtain ⟨s₁, h₁, h⟩ := Option.bind_eq_some_iff.mp h
    obtain ⟨s₂, h₂, h⟩ := Option.bind_eq_some_iff.mp h
    obtain ⟨s₃, h₃, h⟩ := Option.bind_eq_some_iff.mp h
    have hstep : ∀ {s s' : System Item P Agent} {t : List (Event Item Agent)}
        (act : Act Item E Agent), s.step cfg act = some s' → Exec (machine cfg) Always s₀ t s →
        Exec (machine cfg) Always s₀ ((machine cfg).record s act t) s' := by
      intro s s' t act h hrun
      exact Exec.step act hrun trivial h
    exact ⟨_, hstep _ h (hstep _ h₃ (hstep _ h₂ (hstep _ h₁ hrun)))⟩

theorem drainP0_exec {cfg : Config Item P E} {script : Item → Nat → Leave}
    {s₀ : System Item P Agent} : ∀ {fuel : Nat} {t t' t₀ : List (Event Item Agent)}
      {s s' : System Item P Agent}, Exec (machine cfg) Always s₀ t₀ s →
      drainP0 cfg script fuel t s = some (t', s') → ∃ t₁, Exec (machine cfg) Always s₀ t₁ s' := by
  intro fuel
  induction fuel with
  | zero => intro t t' t₀ s s' _ h; cases h
  | succ fuel ih =>
    intro t t' t₀ s s' hrun h
    rw [drainP0] at h
    split at h
    next =>
      cases h
      exact ⟨_, hrun⟩
    next act _ =>
      split at h
      next => cases h
      next hstep =>
        obtain ⟨_, hrun'⟩ := perform_exec hstep hrun
        exact ih hrun' h

/-! ## One step of `drain_p0` -/

/-- The thread is at `p`, and the affine queue has room for `limit` items and holds these. -/
structure At (cfg : Config Item P E) (limit : Nat) (s : System Item P Agent) (p : BodyPc Item)
    (items : List Item) : Prop where
  worker : s.worker = .body p
  queue : ∃ q, s.work.queues[cfg.affineIdx]? = some q ∧ q.limit = limit ∧ q.items = items ∧
    q.kind ≠ .spsc
  told : Told cfg s.work.tls p
  push : s.push none = none

section Steps

variable {cfg : Config Item P E} {script : Item → Nat → Leave} {limit fuel : Nat}
  {second : Bool} {t : List (Event Item Agent)} {s : System Item P Agent} {items rest : List Item}
  {x : Item}

omit [DecidableEq Item] in
/-- The affine queue after a batch was taken from it. -/
theorem take_affine {w : Work Item P} {i : Nat} {q : Queue Item} (max : Nat)
    (hq : w.queues[i]? = some q) : (w.take i max).1 = q.items.take max ∧
      ∃ q', (w.take i max).2.queues[i]? = some q' ∧ q'.limit = q.limit ∧
        q'.items = q.items.drop max ∧ q'.kind = q.kind := by
  obtain ⟨hfirst, hrest⟩ := q.items_tryDequeueBatch max
  have hi : i < w.queues.length := (List.getElem?_eq_some_iff.mp hq).1
  simp only [Work.take, hq]
  exact ⟨hfirst, _, List.getElem?_set_self hi, q.limit_tryDequeueBatch max, hrest,
    q.kind_tryDequeueBatch max⟩

theorem perform_body {p : BodyPc Item} {b : BodyAct Item E} {w : Work Item P} {n : Next Item}
    (hp : s.worker = .body p) (hpush : s.push none = none) (hdue : s.due cfg (.work b) = none)
    (h : s.work.step cfg p b = some (w, n)) : s.perform cfg (.work b) = some {
      toState := { s.toState with work := w, worker := n.pc }
      push := Function.update s.push none none } := by
  rw [System.perform, hdue]
  exact system_step (hpush.trans hdue.symm) (step_body hp h)

theorem drainP0_succ {p : BodyPc Item} {b : BodyAct Item E} {s' : System Item P Agent}
    (hp : s.worker = .body p) (hnext : nextAct script t (.body p) = some (Act.work b))
    (h : s.perform cfg (.work b) = some s') : drainP0 cfg script (fuel + 1) t s =
      drainP0 cfg script fuel (note t (WorkerPc.shows (.body p) b)) s' := by
  rw [drainP0, hp, hnext]
  simp only [h, Machine.record_eq_note]
  rw [← hp]
  rfl

/-- A step that puts nothing into an SPSC queue. -/
theorem At.goes (script : Item → Nat → Leave) (t : List (Event Item Agent)) {p p' : BodyPc Item}
    {b : BodyAct Item E} {w : Work Item P} {items' : List Item} (h : At cfg limit s p items)
    (hnext : nextAct script t (.body p) = some (Act.work b))
    (hdue : s.due cfg (.work b) = none) (hstep : s.work.step cfg p b = some (w, .body p'))
    (hqueue : ∃ q, w.queues[cfg.affineIdx]? = some q ∧ q.limit = limit ∧ q.items = items' ∧
      q.kind ≠ .spsc) (htold : Told cfg w.tls p') :
    ∃ s', At cfg limit s' p' items' ∧ ∀ fuel, drainP0 cfg script (fuel + 1) t s =
      drainP0 cfg script fuel (note t (WorkerPc.shows (.body p) b)) s' := by
  refine ⟨{ toState := { s.toState with work := w, worker := .body p' }
            push := Function.update s.push none none }, ⟨rfl, hqueue, htold, ?_⟩, fun fuel => ?_⟩
  · exact Function.update_self none none s.push
  · exact drainP0_succ h.worker hnext (perform_body h.worker h.push hdue hstep)

/-- A dequeue finds nothing: `drain_p0` returns. -/
theorem drainP0_empty (h : At cfg limit s (.drain second) []) (fuel : Nat) :
    ∃ r, drainP0 cfg script (fuel + 2) t s = some r := by
  obtain ⟨q, hq, -, hitems, -⟩ := h.queue
  obtain ⟨hfirst, -⟩ := take_affine maxBatchSize hq
  rw [hitems, List.take_nil] at hfirst
  have htake : s.work.take cfg.affineIdx maxBatchSize =
      ([], (s.work.take cfg.affineIdx maxBatchSize).2) := Prod.ext hfirst rfl
  have hstep : s.work.step cfg (.drain second) .go =
      some ((s.work.take cfg.affineIdx maxBatchSize).2, afterDrain cfg second) := by
    simp only [Work.step, Work.go]
    rw [htake]
  rw [drainP0_succ h.worker rfl (perform_body h.worker h.push rfl hstep), drainP0]
  have hnone : nextAct (E := E) script (note t none) (afterDrain cfg second : Next Item).pc =
      none := by
    rw [afterDrain]
    cases second with
    | true => rfl
    | false => cases cfg.busyPoll <;> rfl
  simp only [WorkerPc.shows, hnone]
  exact ⟨_, rfl⟩

/-- A dequeue finds items. -/
theorem drainP0_batch (h : At cfg limit s (.drain second) (x :: items)) :
    ∃ s', At cfg limit s' (.batch (.p0 second) ((x :: items).take maxBatchSize))
        ((x :: items).drop maxBatchSize) ∧
      ∀ fuel, drainP0 cfg script (fuel + 1) t s = drainP0 cfg script fuel t s' := by
  obtain ⟨q, hq, hlimit, hitems, hkind⟩ := h.queue
  obtain ⟨hfirst, q', hq', hlimit', hitems', hkind'⟩ := take_affine maxBatchSize hq
  rw [hitems] at hfirst hitems'
  have htake : s.work.take cfg.affineIdx maxBatchSize =
      ((x :: items).take maxBatchSize, (s.work.take cfg.affineIdx maxBatchSize).2) :=
    Prod.ext hfirst rfl
  have hstep : s.work.step cfg (.drain second) .go =
      some ((s.work.take cfg.affineIdx maxBatchSize).2,
        .body (.batch (.p0 second) ((x :: items).take maxBatchSize))) := by
    simp only [Work.step, Work.go]
    rw [htake]
    rfl
  exact h.goes script t rfl rfl hstep
    ⟨q', hq', hlimit'.trans hlimit, hitems', hkind' ▸ hkind⟩ trivial

/-- The batch is finished. -/
theorem drainP0_again (h : At cfg limit s (.batch (.p0 second) []) items) :
    ∃ s', At cfg limit s' (.drain second) items ∧
      ∀ fuel, drainP0 cfg script (fuel + 1) t s = drainP0 cfg script fuel t s' :=
  h.goes script t rfl rfl rfl h.queue trivial

/-- The next item of the batch is executed. -/
theorem drainP0_execute (h : At cfg limit s (.batch (.p0 second) (x :: rest)) items) :
    ∃ s', At cfg limit s' (.exec (.p0 second) x rest) items ∧
      ∀ fuel, drainP0 cfg script (fuel + 1) t s =
        drainP0 cfg script fuel (.executed (.p0 second) x :: t) s' :=
  h.goes script t rfl rfl rfl h.queue rfl

/-- The worker's thread is in a push of `x` to queue `j`. -/
def System.pushing (s : System Item P Agent) (j : Nat) (x : Item) (q : SpscQueue Item)
    (p : PushPc) : System Item P Agent :=
  { s with
    work := { s.work with queues := s.work.queues.set j (.spsc q) }
    push := Function.update s.push none (some ⟨j, x, p⟩) }

theorem access_pushing {j : Nat} {q q' : SpscQueue Item} {p p' : PushPc}
    (hj : j < s.work.queues.length) (henq : s.enqueues cfg j x none = true)
    (h : q.access x (some p) = some (q', p')) :
    (s.pushing j x q p).step cfg (.access none j x) = some (s.pushing j x q' p') := by
  have hq : (s.pushing j x q p).work.queues[j]? = some (.spsc q) := List.getElem?_set_self hj
  have hpush : (s.pushing j x q p).push none = some ⟨j, x, p⟩ :=
    Function.update_self none _ s.push
  have henq' : (s.pushing j x q p).enqueues cfg j x none = true := henq
  simp only [System.step, System.access, hq, hpush, henq', Option.map_some, h]
  simp [System.pushing]

/-- The running item pushes itself to an SPSC queue, with nobody else there. -/
theorem perform_push {j : Nat} {q : SpscQueue Item}
    (hp : s.worker = .body (.exec (.p0 second) x rest)) (hpush : s.push none = none)
    (hmay : cfg.may x (.yieldsTo j) = true) (hq : s.work.queues[j]? = some (.spsc q)) :
    ∃ s', s.perform cfg (.work (.leave true (.yieldsTo j))) = some s' ∧
      s'.worker = .body (.batch (.p0 second) rest) ∧ s'.push none = none ∧
      ∀ i, j ≠ i → s'.work.queues[i]? = s.work.queues[i]? := by
  have hj : j < s.work.queues.length := (List.getElem?_eq_some_iff.mp hq).1
  have hputs : s.puts cfg (.work (.leave true (.yieldsTo j))) = some (true, j, x) := by
    simp only [State.puts, hp, WorkerPc.current, Work.target]
  have henq : s.enqueues cfg j x none = true := by
    simp [State.enqueues, hp, WorkerPc.current, hmay, Work.target]
  have hfirst : s.step cfg (.access none j x) =
      some (s.pushing j x q (.copy q.localWriteTail)) := by
    simp [System.step, System.access, hq, hpush, henq, SpscQueue.access, System.pushing]
  obtain ⟨q₁, hsecond⟩ : ∃ q₁, (s.pushing j x q (.copy q.localWriteTail)).step cfg
      (.access none j x) = some (s.pushing j x q₁ (.setTail (wadd q.localWriteTail 1))) :=
    ⟨_, access_pushing hj henq rfl⟩
  obtain ⟨q₂, hthird⟩ : ∃ q₂, (s.pushing j x q₁ (.setTail (wadd q.localWriteTail 1))).step cfg
      (.access none j x) = some (s.pushing j x q₂ .publish) := ⟨_, access_pushing hj henq rfl⟩
  have hq₂ : (s.pushing j x q₂ .publish).work.queues[j]? = some (.spsc q₂) :=
    List.getElem?_set_self hj
  have hputs₂ : (s.pushing j x q₂ .publish).puts cfg (.work (.leave true (.yieldsTo j))) =
      some (true, j, x) := hputs
  have hp₂ : (s.pushing j x q₂ .publish).worker = .body (.exec (.p0 second) x rest) := hp
  have hready : (s.pushing j x q₂ .publish).push none =
      (s.pushing j x q₂ .publish).due cfg (.work (.leave true (.yieldsTo j))) :=
    (Function.update_self none _ s.push).trans (due_of_puts hputs₂ hq₂).symm
  have hstep : (s.pushing j x q₂ .publish).work.step cfg (.exec (.p0 second) x rest)
      (.leave true (.yieldsTo j)) = some (_, .body (.batch (.p0 second) rest)) := if_pos hmay
  have hlast := system_step hready (step_body hp₂ hstep)
  have hall : s.perform cfg (.work (.leave true (.yieldsTo j))) =
      (s.pushing j x q₂ .publish).step cfg (.work (.leave true (.yieldsTo j))) := by
    rw [System.perform, due_of_puts hputs hq]
    simp only [Act.thread, hfirst, hsecond, hthird, Option.bind_eq_bind, Option.bind_some]
  refine ⟨_, hall.trans hlast, rfl, ?_, fun i hi => ?_⟩
  · simp only [Act.thread, Function.update_self]
  · exact ((getElem?_put ..).trans (if_neg hi)).trans (List.getElem?_set_ne hi)

/-- The item leaves, and comes back to the affine queue or not. -/
theorem drainP0_leave (hmay : cfg.may x (script x (executions x t - 1)) = true)
    (h : At cfg limit s (.exec (.p0 second) x rest) items) (hroom : items.length < limit) :
    ∃ s', At cfg limit s' (.batch (.p0 second) rest)
        (if comesBack cfg (script x (executions x t - 1)) then items ++ [x] else items) ∧
      ∀ fuel, drainP0 cfg script (fuel + 1) t s = drainP0 cfg script fuel t s' := by
  obtain ⟨q, hq, hlimit, hitems, hkind⟩ := h.queue
  have hnext : nextAct (E := E) script t (.body (.exec (.p0 second) x rest)) =
      some (.work (.leave true (script x (executions x t - 1)))) := rfl
  generalize script x (executions x t - 1) = l at hmay hnext ⊢
  have hidx : s.work.yieldIdx cfg = cfg.affineIdx := by
    rw [Work.yieldIdx, ← show _ = s.work.tls from h.told]
    rfl
  have hcur : s.worker.current = some x := by
    rw [h.worker]
    rfl
  -- it is enqueued to the affine queue
  have hback : s.puts cfg (.work (.leave true l)) = some (true, cfg.affineIdx, x) →
      s.work.leave cfg true x l = s.work.put true cfg.affineIdx x → comesBack cfg l = true →
      ∃ s', At cfg limit s' (.batch (.p0 second) rest)
          (if comesBack cfg l then items ++ [x] else items) ∧
        ∀ fuel, drainP0 cfg script (fuel + 1) t s = drainP0 cfg script fuel t s' := by
    intro hputs hleave hcomes
    have hdue : s.due cfg (.work (.leave true l)) = none := by
      simp only [State.due, hputs, hq, Option.map_some, Option.some.injEq, hkind, if_false]
    refine h.goes script t hnext hdue (if_pos hmay) ⟨offer q true x, ?_,
      (limit_offer ..).trans hlimit, ?_, by rwa [kind_offer]⟩ trivial
    · rw [hleave, getElem?_put, if_pos rfl, hq]
      rfl
    · rw [hcomes, if_pos rfl,
        items_offer x (accepts_of_lt (by rw [hitems, hlimit]; exact hroom)) hkind, hitems]
  cases l with
  | returns =>
    refine h.goes script t hnext ?_ (if_pos hmay) ⟨q, hq, hlimit, hitems, hkind⟩ trivial
    simp only [State.due, State.puts, hcur, Work.target]
  | yields =>
    refine hback ?_ ?_ rfl
    · simp only [State.puts, hcur, Work.target, hidx]
    · rw [Work.leave, hidx]
  | yieldsTo j =>
    have hputs : s.puts cfg (.work (.leave true (.yieldsTo j))) = some (true, j, x) := by
      simp only [State.puts, hcur, Work.target]
    by_cases hj : j = cfg.affineIdx
    · subst hj
      exact hback hputs rfl (decide_eq_true rfl)
    · rw [comesBack, if_neg (by rw [decide_eq_true_iff]; exact hj)]
      by_cases hspsc : (s.work.queues[j]?).map Queue.kind = some .spsc
      · obtain ⟨r, hr, hk⟩ := Option.map_eq_some_iff.mp hspsc
        cases r with
        | spsc r =>
          obtain ⟨s', hstep, hworker, hpush, hqueues⟩ := perform_push h.worker h.push hmay hr
          refine ⟨s', ⟨hworker, ⟨q, (hqueues _ hj).trans hq, hlimit, hitems, hkind⟩, trivial,
            hpush⟩, fun fuel => drainP0_succ h.worker hnext hstep⟩
        | _ => cases hk
      · refine h.goes script t hnext ?_ (if_pos hmay) ⟨q, ?_, hlimit, hitems, hkind⟩ trivial
        · simp only [State.due, hputs, hspsc, if_false]
        · exact ((getElem?_put ..).trans (if_neg hj)).trans hq

/-! ## Coroutines that always come back -/

/-- Where the thread is in `drain_p0`. -/
inductive Inside (second : Bool) : BodyPc Item → Prop where
  | drain : Inside second (.drain second)
  | batch (rest : List Item) : Inside second (.batch (.p0 second) rest)
  | exec (x : Item) (rest : List Item) : Inside second (.exec (.p0 second) x rest)

omit [DecidableEq Item] in
/-- A batch that is taken is still to be executed. -/
theorem perm_batch (items : List Item) (max : Nat) :
    (items.drop max ++ items.take max).Perm (items ++ []) := by
  rw [List.append_nil]
  exact List.perm_append_comm.trans (by rw [List.take_append_drop])

omit [DecidableEq Item] in
/-- An item that leaves comes back or is gone. -/
theorem sublist_leave (back : Bool) (items rest : List Item) (y : Item) :
    ((if back then items ++ [y] else items) ++ rest).Sublist (items ++ y :: rest) := by
  cases back with
  | true =>
    rw [if_pos rfl, List.append_assoc]
    exact List.Sublist.refl _
  | false => exact (List.Sublist.refl items).append (List.sublist_cons_self y rest)

/-- **`drain_p0` does not return** while there is a coroutine that always comes back. -/
theorem drainP0_never (hmay : ∀ y n, cfg.may y (script y n) = true)
    (hback : ∀ n, comesBack cfg (script x n) = true) :
    ∀ (fuel : Nat) {t : List (Event Item Agent)} {s : System Item P Agent} {p : BodyPc Item}
      {items : List Item}, Inside second p → At cfg limit s p items →
      (items ++ p.pending).length ≤ limit → x ∈ items ++ p.pending →
      drainP0 cfg script fuel t s = none := by
  intro fuel
  induction fuel with
  | zero => intros; rfl
  | succ fuel ih =>
    intro t s p items hp hat hlen hx
    cases hp with
    | drain =>
      cases items with
      | nil => cases hx
      | cons y items =>
        obtain ⟨s', hat', hstep⟩ := drainP0_batch (t := t) hat
        rw [hstep]
        have hperm := perm_batch (y :: items) maxBatchSize
        refine ih (Inside.batch _) hat' ?_ (hperm.mem_iff.mpr hx)
        exact hperm.length_eq ▸ hlen
    | batch rest =>
      cases rest with
      | nil =>
        obtain ⟨s', hat', hstep⟩ := drainP0_again (t := t) hat
        rw [hstep]
        exact ih Inside.drain hat' hlen hx
      | cons y rest =>
        obtain ⟨s', hat', hstep⟩ := drainP0_execute (t := t) hat
        rw [hstep]
        exact ih (Inside.exec y rest) hat' hlen hx
    | exec y rest =>
      have hroom : items.length < limit := by
        rw [List.length_append] at hlen
        exact Nat.lt_of_lt_of_le (Nat.lt_add_of_pos_right (Nat.succ_pos _)) hlen
      obtain ⟨s', hat', hstep⟩ := drainP0_leave (t := t) (hmay y _) hat hroom
      rw [hstep]
      have hsub := sublist_leave (comesBack cfg (script y (executions y t - 1))) items rest y
      refine ih (Inside.batch rest) hat' (Nat.le_trans hsub.length_le hlen) ?_
      rcases List.mem_append.mp hx with hx | hx
      · refine List.mem_append_left _ ?_
        split
        next => exact List.mem_append_left _ hx
        next => exact hx
      · rcases List.mem_cons.mp hx with rfl | hx
        · rw [if_pos (hback _)]
          exact List.mem_append_left _ (List.mem_append_right _ List.mem_cons_self)
        · exact List.mem_append_right _ hx

/-! ## Coroutines that stay away at some time -/

/-- How many executions the coroutines have left, if `x` comes back less than `last x`
    times. -/
def budget (last : Item → Nat) (xs : List Item) (t : List (Event Item Agent)) : Nat :=
  (xs.map (fun x => last x - executions x t)).sum

/-- The steps to the next execution, at most. -/
def BodyPc.steps : BodyPc Item → Nat
  | .exec _ _ _ => 3
  | .batch _ [] => 2
  | .drain _ => 1
  | _ => 0

/-- The items that were not executed for the last time: all those that wait, and the running
    one at most now. -/
def Unspent (last : Item → Nat) (t : List (Event Item Agent)) (items : List Item) :
    BodyPc Item → Prop
  | .exec _ x rest => (∀ y ∈ items ++ rest, executions y t < last y) ∧ executions x t ≤ last x
  | p => ∀ y ∈ items ++ p.pending, executions y t < last y

omit [DecidableEq Agent] in
theorem executions_le (x y : Item) (f : Frame) (t : List (Event Item Agent)) :
    executions x t ≤ executions x (.executed f y :: t) := by
  rw [executions]
  split
  next => exact Nat.le_succ _
  next => exact Nat.le_refl _

omit [DecidableEq Agent] in
/-- An execution uses up one of the budget. -/
theorem budget_lt {last : Item → Nat} {xs : List Item} (hx : x ∈ xs)
    (hlast : executions x t < last x) (f : Frame) :
    budget last xs (.executed f x :: t) < budget last xs t := by
  refine List.sum_lt_sum _ _ (fun y _ => ?_) ⟨x, hx, ?_⟩
  · exact Nat.sub_le_sub_left (executions_le y x f t) _
  · rw [executions, if_pos rfl]
    omega

/-- **`drain_p0` returns** if every coroutine some time does not come back. -/
theorem drainP0_returns (last : Item → Nat) {xs : List Item}
    (hmay : ∀ y n, cfg.may y (script y n) = true) (hfit : xs.length ≤ limit)
    (hlast : ∀ y ∈ xs, comesBack cfg (script y (last y - 1)) = false) :
    ∀ (m : Nat) {t : List (Event Item Agent)} {s : System Item P Agent} {p : BodyPc Item}
      {items : List Item}, 4 * budget last xs t + p.steps < m → Inside second p →
      At cfg limit s p items → (items ++ p.pending).Nodup →
      (∀ y ∈ items ++ p.pending, y ∈ xs) → Unspent last t items p →
      ∃ fuel r, drainP0 cfg script fuel t s = some r := by
  intro m
  induction m with
  | zero => intro t s p items hm; exact absurd hm (Nat.not_lt_zero _)
  | succ m ih =>
    intro t s p items hm hp hat hnodup hknown hunspent
    -- one step, then the rest
    have hnext : ∀ {t' : List (Event Item Agent)} {s' : System Item P Agent},
        (∀ fuel, drainP0 cfg script (fuel + 1) t s = drainP0 cfg script fuel t' s') →
        (∃ fuel r, drainP0 cfg script fuel t' s' = some r) →
        ∃ fuel r, drainP0 cfg script fuel t s = some r := by
      rintro t' s' hstep ⟨fuel, r, hr⟩
      exact ⟨fuel + 1, r, (hstep fuel).trans hr⟩
    cases hp with
    | drain =>
      cases items with
      | nil => exact ⟨2, drainP0_empty hat 0⟩
      | cons y items =>
        obtain ⟨s', hat', hstep⟩ := drainP0_batch (t := t) hat
        have hperm := perm_batch (y :: items) maxBatchSize
        refine hnext hstep (ih ?_ (Inside.batch _) hat' (hperm.nodup_iff.mpr hnodup)
          (fun z hz => hknown z (hperm.mem_iff.mp hz))
          (fun z hz => hunspent z (hperm.mem_iff.mp hz)))
        exact Nat.lt_of_succ_lt_succ hm
    | batch rest =>
      cases rest with
      | nil =>
        obtain ⟨s', hat', hstep⟩ := drainP0_again (t := t) hat
        refine hnext hstep (ih ?_ Inside.drain hat' hnodup hknown hunspent)
        exact Nat.lt_of_succ_lt_succ hm
      | cons y rest =>
        obtain ⟨s', hat', hstep⟩ := drainP0_execute (t := t) hat
        have hy : y ∈ items ++ y :: rest := List.mem_append_right _ List.mem_cons_self
        have hless := budget_lt (hknown y hy) (hunspent y hy) (.p0 second)
        refine hnext hstep (ih ?_ (Inside.exec y rest) hat' hnodup hknown ⟨?_, ?_⟩)
        · show 4 * _ + 3 < m
          omega
        · -- the other items wait as before
          obtain ⟨hfresh, -⟩ := List.nodup_cons.mp (List.perm_middle.nodup_iff.mp hnodup)
          intro z hz
          have hzy : y ≠ z := fun heq => hfresh (heq ▸ hz)
          rw [executions, if_neg hzy]
          exact hunspent z ((sublist_leave false items rest y).subset hz)
        · rw [executions, if_pos rfl]
          exact hunspent y hy
    | exec y rest =>
      have hroom : items.length < limit := by
        have hle := (List.subperm_of_subset hnodup hknown).length_le
        have hlen : (items ++ y :: rest).length = items.length + (rest.length + 1) :=
          List.length_append
        rw [BodyPc.pending] at hle
        omega
      obtain ⟨s', hat', hstep⟩ := drainP0_leave (t := t) (hmay y _) hat hroom
      have hsub := sublist_leave (comesBack cfg (script y (executions y t - 1))) items rest y
      refine hnext hstep (ih ?_ (Inside.batch rest) hat' (hnodup.sublist hsub)
        (fun z hz => hknown z (hsub.subset hz)) ?_)
      · have hsteps : (BodyPc.batch (.p0 second) rest).steps ≤ 2 := by
          cases rest with
          | nil => exact Nat.le_refl 2
          | cons z rest => exact Nat.zero_le 2
        have : 4 * budget last xs t + 3 < m + 1 := hm
        omega
      · intro z hz
        have hwaits : z ∈ items ++ rest → executions z t < last z := hunspent.1 z
        by_cases hzy : z = y
        · subst hzy
          refine Nat.lt_of_le_of_ne hunspent.2 fun heq => ?_
          -- the last time it does not come back, so it is in the queue no more
          have hmem : z ∈ xs := hknown z (List.mem_append_right _ List.mem_cons_self)
          obtain ⟨hfresh, -⟩ := List.nodup_cons.mp (List.perm_middle.nodup_iff.mp hnodup)
          rw [heq, hlast z hmem] at hz
          exact hfresh hz
        · refine hwaits ?_
          rcases List.mem_append.mp (hsub.subset hz) with hz | hz
          · exact List.mem_append_left _ hz
          · exact List.mem_append_right _ ((List.mem_cons.mp hz).resolve_left hzy)

end Steps

/-! ## Whole calls -/

/-- **When `drain_p0` returns.**  For all coroutines in the affine queue, each in it once, with
    no other thread and tasks that enqueue nothing but themselves: the call returns after
    finitely many steps exactly if every one of them, at its first execution or a later one,
    does not come back to the queue. -/
theorem drain_returns_iff (cfg : Config Item P E) (script : Item → Nat → Leave)
    (hmay : ∀ x n, cfg.may x (script x n) = true) {s : System Item P Agent} {second : Bool}
    (hcall : s.worker = .body (.drain second)) (hpush : s.push none = none) {q : Queue Item}
    (hq : s.work.queues[cfg.affineIdx]? = some q) (hnodup : q.items.Nodup)
    (hkind : q.kind ≠ .spsc) :
    (∃ fuel r, drainP0 cfg script fuel [] s = some r) ↔
      ∀ x ∈ q.items, ∃ n, comesBack cfg (script x n) = false := by
  have hfit := q.length_items_le hkind
  have hat : At cfg q.limit s (.drain second) q.items :=
    ⟨hcall, ⟨q, hq, rfl, rfl, hkind⟩, trivial, hpush⟩
  have hnil : q.items ++ (BodyPc.drain second).pending = q.items := List.append_nil _
  constructor
  · rintro ⟨fuel, r, hr⟩ x hx
    by_contra hnever
    have hback : ∀ n, comesBack cfg (script x n) = true := by
      intro n
      by_contra hn
      exact hnever ⟨n, Bool.eq_false_iff.mpr hn⟩
    have hnone := drainP0_never hmay hback fuel (t := []) Inside.drain hat
      (by rw [hnil]; exact hfit) (by rw [hnil]; exact hx)
    exact nomatch hnone.symm.trans hr
  · intro h
    choose! n hn using h
    exact drainP0_returns (fun y => n y + 1) hmay hfit hn _ (Nat.lt_succ_self _)
      Inside.drain hat (by rw [hnil]; exact hnodup) (by rw [hnil]; exact fun y hy => hy)
      (fun y _ => Nat.succ_pos _)

/-- A worker whose first queue is the affine one. -/
def affineConfig : Config Nat StrictPriority Unit :=
  { pairConfig false with affineIdx := 0, defaultQueueIdx := 1 }

/-- A coroutine that yields twice and then finishes. -/
def yieldsTwice (_ n : Nat) : Leave := if n < 2 then .yields else .returns

/-- The state in which the first `drain_p0` is called, with item 7 in the affine queue. -/
theorem run_to_drain : (run (machine affineConfig) Always (submitAndStart 0) []
      (init affineConfig Unit pair)).isSome :=
  by decide +kernel

/-- A coroutine that yields twice does not keep `drain_p0` from returning. -/
theorem twice_yielding_returns :
    ∃ fuel r, drainP0 affineConfig yieldsTwice fuel [] (Option.get _ run_to_drain).2 = some r :=
  have hcall : (Option.get _ run_to_drain).2.worker = .body (.drain false) := by decide +kernel
  (drain_returns_iff affineConfig yieldsTwice (fun _ _ => rfl) hcall (by decide +kernel) rfl
    (by decide +kernel) (by decide +kernel)).mpr fun _ _ => ⟨2, rfl⟩

/-- **`drain_p0` that never returns.**  The affine queue holds one coroutine, which yields
    every time it is resumed, nothing is submitted any more, and however long it runs,
    `drain_p0` does not return. -/
theorem drain_of_yielding_never_returns :
    ∃ (t : List (Event Nat Unit)) (s : System Nat StrictPriority Unit),
      Exec (machine affineConfig) Always (init affineConfig Unit pair) t s ∧
      s.worker = .body (.drain false) ∧ s.work.items affineConfig.affineIdx = [7] ∧
      ∀ fuel, drainP0 affineConfig (fun _ _ => .yields) fuel [] s = none := by
  have hat : At affineConfig 2 (Option.get _ run_to_drain).2 (.drain false) [7] :=
    ⟨by decide +kernel, ⟨_, rfl, by decide +kernel⟩, trivial, by decide +kernel⟩
  refine ⟨_, _, exec_run _ run_to_drain, hat.worker, by decide +kernel, fun fuel => ?_⟩
  exact drainP0_never (x := 7) (fun _ _ => rfl) (fun _ => rfl) fuel Inside.drain hat
    (by decide) (by decide)

end Scheduler
