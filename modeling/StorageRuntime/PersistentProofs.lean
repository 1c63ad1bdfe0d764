import StorageRuntime.SpscPushProofs
import Mathlib.Algebra.BigOperators.Group.List.Basic

/-!
# Scheduler — how many copies of a persistent coroutine there are

`on_worker_start` resumes the persistent coroutines of a worker; from then on each
is taken from a queue, executed, and enqueued again where it yields to.

**`copies_eq`**: if the thread is created once, every queue takes the coroutines
that yield to it, and the pushes to SPSC queues are orderly, then there is exactly
one copy of each coroutine that was resumed: in one slot of one queue, or in the
batch that the thread works on.
-/

namespace Scheduler

open Interleaving WorkQueue

variable {Item P E Agent : Type}

/-! ## Counting -/

/-- Replacing one element of a list changes a sum over it in one place. -/
theorem sum_map_modify {α : Type} (g : α → Nat) (f : α → α) :
    ∀ (l : List α) (i : Nat), ((l.modify i f).map g).sum + (l[i]?).elim 0 g =
      (l.map g).sum + (l[i]?).elim 0 (fun a => g (f a)) := by
  intro l
  induction l with
  | nil => intro i; simp
  | cons a l ih =>
    intro i
    cases i with
    | zero => simp; omega
    | succ i =>
      have := ih i
      simp at this ⊢
      omega

/-- A sum is 1 because of one place. -/
theorem exists_of_sum_eq_one {α : Type} (g : α → Nat) :
    ∀ l : List α, (l.map g).sum = 1 → ∃ (i : Nat) (a : α), l[i]? = some a ∧ g a = 1 ∧
      ∀ (j : Nat) (b : α), j ≠ i → l[j]? = some b → g b = 0 := by
  intro l
  induction l with
  | nil => intro h; cases h
  | cons a l ih =>
    intro h
    rw [List.map_cons, List.sum_cons] at h
    rcases Nat.eq_zero_or_pos (g a) with hzero | hpos
    · rw [hzero, Nat.zero_add] at h
      obtain ⟨i, b, hi, hb, hothers⟩ := ih h
      refine ⟨i + 1, b, hi, hb, fun j c hj hc => ?_⟩
      cases j with
      | zero =>
        obtain rfl : a = c := Option.some.inj hc
        exact hzero
      | succ j => exact hothers j c (fun hji => hj (congrArg (· + 1) hji)) hc
    · have hsum : (l.map g).sum = 0 := by omega
      refine ⟨0, a, rfl, by omega, fun j c hj hc => ?_⟩
      obtain ⟨j, rfl⟩ := Nat.exists_eq_succ_of_ne_zero hj
      have hmem : g c ∈ l.map g := List.mem_map_of_mem (List.mem_of_getElem? hc)
      exact List.sum_eq_zero_iff_forall_eq_nat.mp hsum _ hmem

/-- The items that the thread has taken or resumed and not finished. -/
def WorkerPc.pending : WorkerPc Item → List Item
  | .body p => p.pending
  | .booting _ x => [x]
  | _ => []

/-- `on_worker_start` has resumed coroutine `k`. -/
def Resumed (t : List (Event Item Agent)) (k : Nat) : WorkerPc Item → Prop
  | .absent => Event.created ∈ t
  | .boot j => k < j
  | .booting j _ => k ≤ j
  | _ => True

section Places

variable {cfg : Config Item P E} {t : List (Event Item Agent)} {s s' : State Item P Agent}

/-- Whether a coroutine was resumed is not changed by other events. -/
theorem resumed_note {o : Option (Event Item Agent)} (ho : o ≠ some .created) (k : Nat)
    (p : WorkerPc Item) : Resumed (note t o) k p ↔ Resumed t k p := by
  cases p with
  | absent => exact mem_note_iff.trans (or_iff_right ho)
  | _ => exact Iff.rfl

theorem resumed_wake (k : Nat) (p : WorkerPc Item) : Resumed t k p.wake ↔ Resumed t k p := by
  cases p <;> exact Iff.rfl

theorem pending_wake (p : WorkerPc Item) : p.wake.pending = p.pending := by
  cases p <;> rfl

/-- The other steps of the thread begin and end outside the iterations. -/
theorem ThreadMove.pending {p : WorkerPc Item} (hm : ThreadMove cfg s p s') :
    p.pending = [] ∧ s'.worker.pending = [] ∧ p ≠ .absent ∧ s'.worker ≠ .absent ∧
      (∀ k x, s'.worker ≠ .booting k x) ∧
      ∀ (t t' : List (Event Item Agent)) k, Resumed t' k s'.worker ↔ Resumed t k p := by
  cases hm with
  | setsLate stop => cases stop <;> exact ⟨rfl, rfl, nofun, nofun, nofun, fun _ _ _ => Iff.rfl⟩
  | clears | idles _ =>
    refine ⟨rfl, ?_⟩
    split <;> exact ⟨rfl, nofun, nofun, nofun, fun _ _ _ => Iff.rfl⟩
  | _ => exact ⟨rfl, rfl, nofun, nofun, nofun, fun _ _ _ => Iff.rfl⟩

end Places

variable [DecidableEq Item]

/-- How many slots of all queues hold `x`. -/
def slots (w : Work Item P) (x : Item) : Nat := (w.queues.map (fun q => q.items.count x)).sum

/-- How many copies of `x` there are. -/
def State.copies (s : State Item P Agent) (x : Item) : Nat :=
  slots s.work x + s.worker.pending.count x

/-- Queue `i` is there and takes an item. -/
def Work.accepts (w : Work Item P) (room : Bool) (i : Nat) : Bool :=
  (w.queues[i]?).any (fun q => Scheduler.accepts q room)

theorem slots_put_self {w : Work Item P} {room : Bool} {i : Nat} {x : Item}
    (hl : Lands w room i x) (h : w.accepts room i = true) :
    slots (w.put room i x) x = slots w x + 1 := by
  obtain ⟨q, hq, h⟩ := (Option.any_eq_true _ _).mp h
  have hsum := sum_map_modify (fun q : Queue Item => q.items.count x)
    (fun q => offer q room x) w.queues i
  rw [hq] at hsum
  simp only [Option.elim_some, hl.items hq, if_pos h, List.count_append,
    List.count_singleton_self] at hsum
  show (List.map _ (w.queues.modify i _)).sum = _
  rw [slots]
  omega

theorem slots_put_other {w : Work Item P} {room : Bool} {i : Nat} {x y : Item}
    (h : Lands w room i y) (hxy : y ≠ x) : slots (w.put room i y) x = slots w x := by
  have hsum := sum_map_modify (fun q : Queue Item => q.items.count x)
    (fun q => offer q room y) w.queues i
  show (List.map _ (w.queues.modify i _)).sum = _
  rw [slots]
  cases hq : w.queues[i]? with
  | none =>
    rw [hq] at hsum
    exact hsum
  | some q =>
    have hcount : (offer q room y).items.count x = q.items.count x := by
      rw [h.items hq]
      split
      next =>
        rw [List.count_append, List.count_singleton, if_neg (by simpa using hxy)]
        rfl
      next => rfl
    rw [hq] at hsum
    simp only [Option.elim_some, hcount] at hsum
    omega

theorem slots_take (w : Work Item P) (i max : Nat) (x : Item) :
    slots (w.take i max).2 x + (w.take i max).1.count x = slots w x := by
  cases hq : w.queues[i]? with
  | none =>
    have htake : w.take i max = ([], w) := by rw [Work.take, hq]
    rw [htake]
    rfl
  | some q =>
    have htake : w.take i max = ((q.tryDequeueBatch max).1,
        { w with queues := w.queues.set i (q.tryDequeueBatch max).2 }) := by
      rw [Work.take, hq]
    obtain ⟨hfirst, hrest⟩ := q.items_tryDequeueBatch max
    have hsum := sum_map_modify (fun q : Queue Item => q.items.count x)
      (fun _ => (q.tryDequeueBatch max).2) w.queues i
    rw [hq] at hsum
    have hsplit : (q.items.take max).count x + (q.items.drop max).count x = q.items.count x := by
      rw [← List.count_append, List.take_append_drop]
    simp only [Option.elim_some, hrest, ← List.set_eq_modify] at hsum
    rw [htake, hfirst, slots, slots]
    dsimp only
    omega

/-- `x` is in exactly one slot of exactly one queue. -/
def InOneSlot (w : Work Item P) (x : Item) : Prop :=
  ∃ i, (w.items i).count x = 1 ∧ ∀ j, j ≠ i → x ∉ w.items j

theorem inOneSlot_of_slots {w : Work Item P} {x : Item} (h : slots w x = 1) : InOneSlot w x := by
  obtain ⟨i, q, hq, hone, hothers⟩ := exists_of_sum_eq_one _ w.queues h
  refine ⟨i, by rw [items_eq hq]; exact hone, fun j hj => ?_⟩
  cases hr : w.queues[j]? with
  | none =>
    rw [items_eq_nil hr]
    exact List.not_mem_nil
  | some r =>
    rw [items_eq hr]
    exact List.count_eq_zero.mp (hothers j r hj hr)

theorem not_mem_of_slots {w : Work Item P} {x : Item} (h : slots w x = 0) (j : Nat) :
    x ∉ w.items j := by
  cases hr : w.queues[j]? with
  | none =>
    rw [items_eq_nil hr]
    exact List.not_mem_nil
  | some r =>
    rw [items_eq hr]
    refine List.count_eq_zero.mp (List.sum_eq_zero_iff_forall_eq_nat.mp h _ ?_)
    exact List.mem_map.mpr ⟨r, List.mem_of_getElem? hr, rfl⟩

/-! ## The invariant -/

/-- The action creates the thread. -/
def State.creates (s : State Item P Agent) : Act Item E Agent → Bool
  | .goCall a _ =>
    match s.call a with
    | .startThread => true
    | _ => false
  | _ => false

/-- The worker's coroutines are taken where they yield to, and nothing is lost that is put into
    an SPSC queue. -/
def Puts (cfg : Config Item P E) (s : State Item P Agent) (act : Act Item E Agent) : Prop :=
  ∀ r ∈ s.puts cfg act, (cfg.owns r.2.2 = true → s.work.accepts r.1 r.2.1 = true) ∧
    Lands s.work r.1 r.2.1 r.2.2

/-- The thread is created once, the worker's coroutines are taken where they yield to, and the
    pushes to SPSC queues are orderly. -/
def Lossless (cfg : Config Item P E) (t : List (Event Item Agent)) (s : System Item P Agent)
    (act : Act Item E Agent) : Prop :=
  (s.creates act = true → Event.created ∉ t) ∧
    (∀ r ∈ s.puts cfg act, cfg.owns r.2.2 = true → s.work.accepts r.1 r.2.1 = true) ∧
    Orderly cfg t s act

instance [DecidableEq Agent] [Fintype Agent] (cfg : Config Item P E)
    (t : List (Event Item Agent)) (s : System Item P Agent) (act : Act Item E Agent) :
    Decidable (Lossless cfg t s act) :=
  inferInstanceAs (Decidable ((_ → _ ∉ t) ∧ (∀ r ∈ s.puts cfg act, _) ∧ Orderly cfg t s act))

/-- The coroutines of the worker are different and never finish. -/
structure Config.Persists (cfg : Config Item P E) : Prop where
  nodup : (cfg.persistent.map Prod.fst).Nodup
  stays : ∀ x, cfg.owns x = true → cfg.may x .returns = false

structure PersistInv (cfg : Config Item P E) (t : List (Event Item Agent))
    (s : State Item P Agent) : Prop where
  lived : s.worker ≠ .absent → Event.created ∈ t
  submits : ∀ a i y, s.call a = .submit i y → cfg.owns y = false
  booting : ∀ k x, s.worker = .booting k x → ∃ i, cfg.persistent[k]? = some (x, i)
  one : ∀ k x i, cfg.persistent[k]? = some (x, i) → Resumed t k s.worker → s.copies x = 1
  zero : ∀ k x i, cfg.persistent[k]? = some (x, i) → ¬ Resumed t k s.worker → s.copies x = 0

/-! ## Steps of the worker's thread -/

section Worker

variable {cfg : Config Item P E} {t : List (Event Item Agent)} {s s' : State Item P Agent}
  {w w' : Work Item P} {x y : Item} {room : Bool}

theorem owns_of_get {k i : Nat} (h : cfg.persistent[k]? = some (x, i)) : cfg.owns x = true :=
  List.any_eq_true.mpr ⟨(x, i), List.mem_of_getElem? h, decide_eq_true rfl⟩

theorem ne_of_owns (hy : cfg.owns y = false) (hx : cfg.owns x = true) : y ≠ x := by
  rintro rfl
  exact nomatch hy.symm.trans hx

/-- Different coroutines are different. -/
theorem Config.Persists.ne (hcfg : cfg.Persists) {k k' i i' : Nat}
    (h : cfg.persistent[k]? = some (x, i)) (h' : cfg.persistent[k']? = some (y, i'))
    (hk : k ≠ k') : x ≠ y := by
  intro hxy
  have hget : (cfg.persistent.map Prod.fst)[k]? = (cfg.persistent.map Prod.fst)[k']? := by
    rw [List.getElem?_map, List.getElem?_map, h, h', Option.map_some, Option.map_some, hxy]
  have hlt : k < (cfg.persistent.map Prod.fst).length := by
    rw [List.length_map]
    exact (List.getElem?_eq_some_iff.mp h).1
  exact hk ((List.getElem?_inj hlt hcfg.nodup).mp hget)

/-- A task that leaves: a coroutine of the worker is enqueued again, and no other is lost. -/
theorem slots_leave (hcfg : cfg.Persists) (hx : cfg.owns x = true) {l : Leave}
    (hmay : cfg.may y l = true) (hput : ∀ i, w.target cfg l = some i →
      (cfg.owns y = true → w.accepts room i = true) ∧ Lands w room i y) :
    slots (w.leave cfg room y l) x = slots w x + if y = x then 1 else 0 := by
  have hto : ∀ i, w.target cfg l = some i →
      slots (w.put room i y) x = slots w x + if y = x then 1 else 0 := by
    intro i hi
    obtain ⟨htakes, hlands⟩ := hput i hi
    split
    next heq =>
      subst heq
      exact slots_put_self hlands (htakes hx)
    next hne => exact slots_put_other hlands hne
  cases l with
  | returns =>
    have hne : y ≠ x := by
      rintro rfl
      exact nomatch (hcfg.stays y hx).symm.trans hmay
    rw [if_neg hne]
    rfl
  | yields | yieldsTo i => exact hto _ rfl

theorem slots_of_take {i max : Nat} {xs : List Item} (h : w.take i max = (xs, w')) (x : Item) :
    slots w' x + xs.count x = slots w x := by
  have := slots_take w i max x
  rwa [h] at this

theorem count_cons_ite (x y : Item) (rest : List Item) :
    (y :: rest).count x = rest.count x + if y = x then 1 else 0 := by
  rw [List.count_cons]
  congr 1
  by_cases h : y = x
  · rw [if_pos h, if_pos (beq_iff_eq.mpr h)]
  · rw [if_neg h, if_neg (by simpa using h)]

/-- Steps inside an iteration move copies between the queues and the batch. -/
theorem BodyMove.copies {p : BodyPc Item} {b : BodyAct Item E} {n : Next Item}
    (hm : BodyMove cfg s.work p b w' n) (hp : s.worker = .body p) (hcfg : cfg.Persists)
    (hx : cfg.owns x = true) (hput : Puts cfg s (.work b)) :
    slots w' x + n.pc.pending.count x = slots s.work x + p.pending.count x := by
  cases hm with
  | drained second htake =>
    have hnil : (afterDrain cfg second : Next Item).pc.pending = [] := by
      rw [afterDrain]
      cases second with
      | true => rfl
      | false => cases cfg.busyPoll <;> rfl
    rw [hnil]
    exact slots_of_take htake x
  | takesNone htake | drains second htake | takes htake => exact slots_of_take htake x
  | disk | visits _ _ _ => exact slots_take s.work _ _ x
  | snaps _ | skips _ _ | visited _ | executes f y rest => rfl
  | decides e _ =>
    have hnil : ∀ snaps, (s.work.decide cfg e snaps).2.pc.pending = [] := by
      intro snaps
      rw [Work.decide]
      split
      next => split <;> rfl
      next => rfl
    rw [hnil]
    rfl
  | ends f => cases f <;> rfl
  | emits f y rest room i howns =>
    rw [slots_put_other (hput _ rfl).2 (ne_of_owns howns hx)]
    rfl
  | leaves f rest room hmay =>
    rw [slots_leave hcfg hx hmay]
    · show _ + rest.count x = _ + (_ :: rest).count x
      rw [count_cons_ite]
      omega
    · intro i hi
      refine hput (room, i, _) ?_
      simp only [State.puts, WorkerPc.current, hp, hi]
      rfl

/-- So do the steps inside `on_worker_start`, except that it resumes the next coroutine. -/
theorem WorkMove.copies {p q : WorkerPc Item} {b : BodyAct Item E} (hm : WorkMove cfg s p b w' q)
    (hp : s.worker = p) (hcfg : cfg.Persists) (hx : cfg.owns x = true)
    (hput : Puts cfg s (.work b)) (hboot : ∀ k y i, p = .boot k →
      cfg.persistent[k]? = some (y, i) → y ≠ x) :
    slots w' x + q.pending.count x = slots s.work x + p.pending.count x := by
  cases hm with
  | booted k _ => rfl
  | resumes hk =>
    have hne := hboot _ _ _ rfl hk
    show slots s.work x + List.count x [_] = slots s.work x + 0
    rw [count_cons_ite, if_neg hne]
    rfl
  | emits k y room i howns => rw [slots_put_other (hput _ rfl).2 (ne_of_owns howns hx)]
  | leaves k room hmay =>
    show slots (s.work.leave cfg room _ _) x + 0 = _ + List.count x [_]
    rw [slots_leave hcfg hx hmay]
    · rw [count_cons_ite]
      exact (Nat.add_zero _).trans (by rw [List.count_nil, Nat.zero_add])
    · intro i hi
      refine hput (room, i, _) ?_
      simp only [State.puts, WorkerPc.current, hp, hi]
      rfl
  | iterates hb => exact hb.copies hp hcfg hx hput

end Worker

/-! ## Every step keeps the invariant -/

section Steps

variable {cfg : Config Item P E} {t t' : List (Event Item Agent)} {s s' : State Item P Agent}

/-- A step that resumes no coroutine. -/
theorem PersistInv.keep (h : PersistInv cfg t s) (hlived : s'.worker ≠ .absent → Event.created ∈ t')
    (hsubmits : ∀ a i y, s'.call a = .submit i y → cfg.owns y = false)
    (hbooting : ∀ k x, s'.worker = .booting k x → ∃ i, cfg.persistent[k]? = some (x, i))
    (hcopies : ∀ x, cfg.owns x = true → s'.copies x = s.copies x)
    (hresumed : ∀ k x i, cfg.persistent[k]? = some (x, i) →
      (Resumed t' k s'.worker ↔ Resumed t k s.worker)) : PersistInv cfg t' s' where
  lived := hlived
  submits := hsubmits
  booting := hbooting
  one k x i hk hr := (hcopies x (owns_of_get hk)).trans (h.one k x i hk ((hresumed k x i hk).mp hr))
  zero k x i hk hr :=
    (hcopies x (owns_of_get hk)).trans (h.zero k x i hk (mt (hresumed k x i hk).mpr hr))

/-- A step inside an iteration or inside `on_worker_start`. -/
theorem PersistInv.works (hcfg : cfg.Persists) (h : PersistInv cfg t s) {b : BodyAct Item E}
    {w : Work Item P} {p q : WorkerPc Item} (hm : WorkMove cfg s p b w q) (hp : s.worker = p)
    (hput : Puts cfg s (.work b)) (ht : ∀ e, e ∈ t → e ∈ t') :
    PersistInv cfg t' { s with work := w, worker := q } := by
  have hlived : Event.created ∈ t' := by
    refine ht _ (h.lived ?_)
    rw [hp]
    rintro rfl
    cases hm
  have hcopies := fun x hx hboot => hm.copies (x := x) hp hcfg hx hput hboot
  rw [← hp] at hcopies
  -- where the thread is not about to resume a coroutine
  have hno : (∀ k, p ≠ .boot k) → ∀ k x i y, s.worker = .boot k →
      cfg.persistent[k]? = some (y, i) → y ≠ x := by
    intro hne k x i y hw
    exact absurd (hp.symm.trans hw) (hne k)
  cases hm with
  | booted k hnone =>
    refine h.keep (fun _ => hlived) h.submits nofun
      (fun x hx => hcopies x hx fun k' y i hw hk' => ?_) fun k' x i hk' => ?_
    · obtain rfl := WorkerPc.boot.inj (hp.symm.trans hw)
      exact nomatch hnone.symm.trans hk'
    · rw [hp]
      have hlt := (List.getElem?_eq_some_iff.mp hk').1
      have hle := List.getElem?_eq_none_iff.mp hnone
      exact iff_of_true trivial (Nat.lt_of_lt_of_le hlt hle)
  | @resumes k i₀ y hk =>
    -- the copy of the coroutine that is resumed is a new one
    have hother : ∀ {k' x i}, cfg.persistent[k']? = some (x, i) → k' ≠ k →
        State.copies { s with work := { s.work with tls := some i₀ }, worker := .booting k y } x =
          s.copies x := by
      intro k' x i hk' hne
      refine hcopies x (owns_of_get hk') fun k'' z j hw hk'' => ?_
      obtain rfl := WorkerPc.boot.inj (hp.symm.trans hw)
      exact hcfg.ne hk'' hk' (Ne.symm hne)
    refine ⟨fun _ => hlived, h.submits, ?_, fun k' x i hk' hr => ?_, fun k' x i hk' hr => ?_⟩
    · intro k' x hw
      obtain ⟨rfl, rfl⟩ := WorkerPc.booting.inj hw
      exact ⟨i₀, hk⟩
    · rcases Nat.lt_or_eq_of_le (show k' ≤ k from hr) with hlt | rfl
      · rw [hother hk' (Nat.ne_of_lt hlt)]
        exact h.one k' x i hk' (by rw [hp]; exact hlt)
      · obtain ⟨rfl, -⟩ := Prod.mk.inj (Option.some.inj (hk.symm.trans hk'))
        have hzero := h.zero k' y i₀ hk (by rw [hp]; exact Nat.lt_irrefl k')
        show slots s.work y + List.count y [y] = 1
        rw [List.count_singleton_self]
        exact congrArg (· + 1) (Nat.eq_zero_of_add_eq_zero_right hzero)
    · have hlt : k < k' := Nat.not_le.mp hr
      rw [hother hk' (Nat.ne_of_gt hlt)]
      exact h.zero k' x i hk' (by rw [hp]; exact Nat.not_lt.mpr (Nat.le_of_lt hlt))
  | emits k y room i _ =>
    refine h.keep (fun _ => hlived) h.submits (fun k' x hw => h.booting k' x (hp.trans hw))
      (fun x hx => hcopies x hx fun k y i => hno nofun k x i y) fun k' x i hk' => ?_
    rw [hp]
    exact Iff.rfl
  | leaves k room _ =>
    refine h.keep (fun _ => hlived) h.submits nofun
      (fun x hx => hcopies x hx fun k y i => hno nofun k x i y) fun k' x i hk' => ?_
    rw [hp]
    exact Nat.lt_succ_iff
  | iterates hb =>
    next p b n =>
    refine h.keep (fun _ => hlived) h.submits (by cases n <;> nofun)
      (fun x hx => hcopies x hx fun k y i => hno nofun k x i y) fun k' x i hk' => ?_
    rw [hp]
    cases n <;> exact Iff.rfl

/-- A step of the others, which at most wakes the thread. -/
theorem PersistInv.others (h : PersistInv cfg t s) {o : Option (Event Item Agent)}
    (ho : o ≠ some .created) (hwake : s'.worker.wake = s.worker.wake)
    (hcall : ∀ a i y, s'.call a = .submit i y → cfg.owns y = false)
    (hslots : ∀ x, cfg.owns x = true → slots s'.work x = slots s.work x) :
    PersistInv cfg (note t o) s' := by
  have hsame : ∀ {q}, (∀ r, q ≠ .idle r) → (s'.worker = q ↔ s.worker = q) := by
    intro q hq
    rw [← wake_eq hq, hwake, wake_eq hq]
  refine h.keep (fun hne => mem_note (h.lived fun hw => hne ((hsame (by nofun)).mpr hw)))
    hcall (fun k x hw => h.booting k x ((hsame (by nofun)).mp hw)) (fun x hx => ?_)
    fun k x i _ => ?_
  · rw [State.copies, State.copies, hslots x hx, ← pending_wake, hwake, pending_wake]
  · rw [resumed_note ho, ← resumed_wake, hwake, resumed_wake]

variable [DecidableEq Agent]

/-- A call that moves on, not to a submission of a coroutine of the worker. -/
theorem PersistInv.setCall (h : PersistInv cfg t s) {a : Agent} {c : Call Item}
    (hc : ∀ i y, c = .submit i y → cfg.owns y = false) (hcall : s'.call = s.call) :
    ∀ b i y, (s'.setCall a c).call b = .submit i y → cfg.owns y = false := by
  intro b i y hb
  rw [State.setCall, hcall] at hb
  rcases update_cases id hb with ⟨rfl, hnew⟩ | ⟨-, hold⟩
  · exact hc i y hnew
  · exact h.submits b i y hold

theorem PersistInv.goCall (h : PersistInv cfg t s) {a : Agent} {room : Bool} {c₀ c : Call Item}
    (hm : CallMove s a room c₀ s' c) (ha : s.call a = c₀)
    (hcreate : s.creates (.goCall a room : Act Item E Agent) = true → Event.created ∉ t)
    (hput : Puts cfg s (.goCall a room)) :
    PersistInv cfg (note t (c₀.shows a)) (s'.setCall a c) := by
  have hcalls : ∀ b i y, (s'.setCall a c).call b = .submit i y → cfg.owns y = false := by
    refine h.setCall (fun i y hc => ?_) ?_
    · cases hm <;> cases hc
    · cases hm <;> rfl
  cases hm with
  | creates hw =>
    have hnew : Event.created ∉ t := hcreate (by simp only [State.creates, ha])
    refine ⟨fun _ => List.mem_cons_self, hcalls, by rintro _ _ ⟨⟩, by rintro _ _ _ _ ⟨⟩, ?_⟩
    intro k x i hk _
    have hzero := h.zero k x i hk (by rw [hw]; exact hnew)
    rw [State.copies, hw] at hzero
    exact hzero
  | submits i y =>
    have hy := h.submits a i y ha
    have hmem : (room, i, y) ∈ s.puts cfg (.goCall a room) := by
      simp only [State.puts, ha]
      rfl
    exact h.others (o := none) (by rintro ⟨⟩) rfl hcalls
      fun x hx => slots_put_other (hput _ hmem).2 (ne_of_owns hy hx)
  | woken k =>
    refine h.others ?_ (wake_wake _) hcalls fun _ _ => rfl
    cases k <;> rintro ⟨⟩
  | stage hn =>
    next p q k g =>
    refine h.others ?_ rfl hcalls fun _ _ => rfl
    cases p <;> cases k <;> rintro ⟨⟩
  | resets | requests | clears | returns i =>
    exact h.others (by rintro ⟨⟩) rfl hcalls fun _ _ => rfl

theorem PersistInv.step (hcfg : cfg.Persists) (h : PersistInv cfg t s) {act : Act Item E Agent}
    (hm : StepMove cfg s act s') (hcreate : s.creates act = true → Event.created ∉ t)
    (hput : Puts cfg s act) : PersistInv cfg (note t (event s act)) s' := by
  cases hm with
  | works hw => exact h.works hcfg hw rfl hput fun _ => mem_note
  | threads ht =>
    obtain ⟨hp, hp', hne, -, hboot, hres⟩ := ht.pending
    obtain ⟨hcall, hwork⟩ := ht.frame
    refine h.keep (fun _ => mem_note (h.lived hne)) (by rw [hcall]; exact h.submits)
      (fun k x hw => absurd hw (hboot k x)) (fun x _ => ?_) fun k x i _ => hres t _ k
    rw [State.copies, State.copies, hwork, hp, hp']
  | early hw =>
    refine h.keep (fun _ => mem_note (h.lived (by rw [hw]; nofun))) h.submits nofun
      (fun x _ => ?_) fun k x i _ => by rw [hw]; exact Iff.rfl
    rw [State.copies, State.copies, hw]
    rfl
  | wakes => exact h.others (o := none) nofun (wake_wake _) h.submits fun _ _ => rfl
  | joins hw =>
    refine h.keep (fun hne => absurd rfl hne) h.submits nofun (fun x _ => ?_) fun k x i _ => ?_
    · rw [State.copies, State.copies, hw]
      rfl
    · rw [hw]
      exact iff_of_true (h.lived (by rw [hw]; nofun)) trivial
  | begins hb hnone =>
    cases hb with
    | submit i howns =>
      refine h.others (o := none) nofun rfl (h.setCall ?_ rfl) fun _ _ => rfl
      rintro i y ⟨rfl, rfl⟩
      exact howns
    | start | notify => exact h.others (o := none) nofun rfl (h.setCall nofun rfl) fun _ _ => rfl
    | stop => exact h.others nofun rfl (h.setCall nofun rfl) fun _ _ => rfl
  | calls hm => exact h.goCall hm rfl hcreate hput

end Steps

/-! ## Whole runs -/

theorem persistInv_init (cfg : Config Item P E) {queues : List (Queue Item)}
    (hnew : ∀ q ∈ queues, q.items = []) : PersistInv cfg [] (init cfg Agent queues).toState where
  lived h := absurd rfl h
  submits := nofun
  booting := nofun
  one _ _ _ _ hr := absurd hr List.not_mem_nil
  zero _ x _ _ _ := by
    refine Nat.add_eq_zero_iff.mpr ⟨List.sum_eq_zero fun n hn => ?_, rfl⟩
    obtain ⟨q, hq, rfl⟩ := List.mem_map.mp hn
    rw [hnew q hq]
    rfl

/-- Where the queues hold the same, there are as many copies. -/
theorem slots_of_items {w w' : Work Item P} (hlen : w'.queues.length = w.queues.length)
    (h : ∀ i, w'.items i = w.items i) (x : Item) : slots w' x = slots w x := by
  rw [slots, slots]
  congr 1
  refine List.ext_getElem (by rw [List.length_map, List.length_map, hlen]) fun i hi hi' => ?_
  rw [List.length_map] at hi hi'
  have hi := items_eq (List.getElem?_eq_getElem hi)
  have hi' := items_eq (List.getElem?_eq_getElem hi')
  rw [List.getElem_map, List.getElem_map, ← hi, ← hi', h]

/-- **One copy of each coroutine.** -/
theorem copies_eq [DecidableEq Agent] {cfg : Config Item P E} (hcfg : cfg.Persists)
    {queues : List (Queue Item)} (hnew : ∀ q ∈ queues, q.items = [] ∧ q.Settled)
    {t : List (Event Item Agent)} {s : System Item P Agent}
    (hrun : Exec (machine cfg) (Lossless cfg) (init cfg Agent queues) t s) {k i : Nat} {x : Item}
    (hk : cfg.persistent[k]? = some (x, i)) (hresumed : Resumed t k s.worker) : s.copies x = 1 := by
  have h : (∀ i, Undisturbed i s) ∧ PersistInv cfg t s.toState := by
    refine hrun.invariant (fun t s => (∀ i, Undisturbed i s) ∧ PersistInv cfg t s.toState)
      ⟨undisturbed_init cfg fun q hq => (hnew q hq).2,
        persistInv_init cfg fun q hq => (hnew q hq).1⟩ ?_
    intro t s act s' ⟨hpush, ih⟩ hl hstep
    have hm := system_moves hstep
    refine ⟨fun i => (hpush i).step hm (hl.2.2 i), ?_⟩
    cases hm with
    | acts hdue hm =>
      refine ih.step hcfg hm hl.1 fun r hr => ⟨hl.2.1 r hr, ?_⟩
      exact (hpush r.2.1).lands hdue hr (hl.2.2 r.2.1)
    | @accesses o j y q q' p _ hq hown haccess =>
      refine ih.others (o := none) nofun rfl ih.submits fun x _ => ?_
      refine slots_of_items List.length_set (fun i => ?_) x
      exact ((hpush i).accesses hq hown haccess fun hj => hl.2.2 i (congrArg some hj)).2
  exact h.2.one k x i hk hresumed

end Scheduler
