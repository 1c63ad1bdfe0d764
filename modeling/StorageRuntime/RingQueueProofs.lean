import StorageRuntime.RingInvariantProofs
import Mathlib.Data.Fintype.Basic

/-!
# MPMCRing — an exact bounded queue

**`exact_bounded_queue`** reads the law of the queue off the invariant: what
the counters, the slots and the trace of any run say about the objects that
were accepted and handed out.

**`count_le_capacity`**: `count()` loads `prod_.tail` and `cons_.head` one after the
other, in an order that the language leaves open.  If no dequeue reserves slots between
the two loads the difference is a size.  Otherwise it may be negative, and wrap around,
or exceed the capacity (`count_no_size`).
-/

namespace MpmcRing

open Interleaving Reservation WordArithmetic

variable {T Agent : Type}

/-! ## The law of the queue -/

/-- The four counters are in order and never further apart than the capacity. -/
def Ordered (cap : Nat) (s : State T Agent) : Prop :=
  s.consTail ≤ s.consHead ∧ s.consHead ≤ s.prodTail ∧ s.prodTail ≤ s.prodHead ∧
    s.prodHead ≤ s.consTail + cap

/-- The slot that a producer is about to write is none of those that a reader has still to
    copy. -/
def NoOverwrite (cap : Nat) (s : State T Agent) : Prop :=
  ∀ a b xs head i mc n head' objs, s.pc a = .enqueueCopy xs head i → i < xs.length →
    s.pc b = .dequeueCopy mc n head' objs →
    ∀ j, objs.length ≤ j → j < n → slot cap (wadd head i) ≠ slot cap (wadd head' j)

/-- All calls have returned. -/
def Quiescent (s : State T Agent) : Prop := ∀ a, s.pc a = .idle

instance [Fintype Agent] [DecidableEq T] (s : State T Agent) : Decidable (Quiescent s) :=
  inferInstanceAs (Decidable (∀ a, s.pc a = .idle))

section Law

variable {cap : Nat} {mode : Mode Agent} {t : List (Event T Agent)} {s : State T Agent}

theorem Inv.noOverwrite (h : Inv cap mode t s) {k : Nat} (hcap : cap = 2 ^ k)
    (hlen : (accepted t).length < 2 ^ 63) : NoOverwrite cap s := by
  intro a b xs head i mc n head' objs ha hi hb j _ hj
  obtain ⟨h₁, h₂, h₃, h₄⟩ := h.ordered hlen
  have hw : wordSize = 2 ^ 64 := rfl
  have hclaim : (s.pc a).prodClaim = some (head, head + xs.length) := by rw [ha]; rfl
  have hwithin := h.prod.within a _ _ hclaim
  have htail := h.reader_after_tail hb
  have hstale := (h.agents b).stale
  rw [hb] at hstale
  obtain ⟨-, hent, -⟩ := hstale
  rw [wadd_eq (by omega), wadd_eq (by omega), slot_eq hcap, slot_eq hcap]
  exact h.slot_ne (by omega) (by omega) (by omega) (by omega) (by omega)

/-- When all calls have returned, the consumers' counters agree and so do the producers'. -/
theorem Inv.quiescent (h : Inv cap mode t s) (hq : Quiescent s) :
    s.consTail = s.consHead ∧ s.prodTail = s.prodHead := by
  constructor
  · exact h.cons.eq_of_none fun a => by rw [hq a]; rfl
  · exact h.prod.eq_of_none fun a => by rw [hq a]; rfl

/-- **The ring is an exact bounded queue.**  For every capacity the constructor accepts,
    any number of producers, any number of consumers of one kind and every interleaving:
    the counters stay in order; no slot is overwritten before it is copied; the consumers'
    reservations take the positions of the log one after the other; a call returns the
    objects of the positions it reserved; no position is returned twice; and when all
    calls have returned, every accepted object was returned or is in the ring. -/
theorem exact_bounded_queue [Inhabited T] [DecidableEq Agent] {capacity : Nat}
    (hnew : construct capacity = some cap) (mode : Mode Agent)
    (hrun : Exec (machine cap mode) Always init t s) (hlen : (accepted t).length < 2 ^ 63) :
    Ordered cap s ∧ NoOverwrite cap s ∧
    takenIndices t = List.range s.consHead ∧
    (∀ a h objs, Event.handed a h objs ∈ t →
      objs = ((accepted t).drop h).take objs.length ∧ Event.taken a h objs.length ∈ t) ∧
    (handedIndices t).Nodup ∧ (∀ i ∈ handedIndices t, i < (accepted t).length) ∧
    (Quiescent s → ∀ i x, (accepted t)[i]? = some x → i ∈ handedIndices t ∨
        (s.consHead ≤ i ∧ i < s.prodTail ∧ s.ring (slot cap i) = x)) := by
  obtain ⟨k, hk, hcap, -⟩ := construct_spec hnew
  have h : Inv cap mode t s := inv_exec hk hcap hrun hlen
  obtain ⟨h₁, h₂, h₃, h₄⟩ := h.ordered hlen
  refine ⟨⟨h₁, h₂, h₃, h.room⟩, h.noOverwrite hcap hlen, h.past.taken, ?_, ?_, ?_, ?_⟩
  · intro a i objs hobjs
    obtain ⟨hseg, htaken⟩ := h.past.objs a i objs hobjs
    exact ⟨hseg.eq_take_drop, htaken⟩
  · rw [h.past.handed]
    exact List.nodup_range
  · intro i hi
    rw [h.past.handed, List.mem_range] at hi
    have := h.head
    omega
  · intro hq i x hx
    obtain ⟨hcons, hprod⟩ := h.quiescent hq
    rw [h.past.handed, List.mem_range]
    rcases Nat.lt_or_ge i s.consTail with hlt | hge
    · exact .inl hlt
    · obtain ⟨hi, -⟩ := List.getElem?_eq_some_iff.mp hx
      have hpub : i < s.prodTail := by
        rw [hprod, h.head]
        exact hi
      rw [slot_eq hcap]
      exact .inr ⟨by omega, hpub, h.data i x hge hpub hx⟩

end Law

/-- The consumer gets the indices in their order. -/
theorem two_producers_one_consumer : ∃ (t : List (Event Nat (Fin 3))) (s : State Nat (Fin 3)),
      construct 3 = some 4 ∧ Exec (machine 4 .multi) Always init t s ∧
      accepted t = [10, 11, 12, 20] ∧ handedIndices t = [0, 1, 2] ∧ Quiescent s ∧
      Ordered 4 s ∧ NoOverwrite 4 s := by
  have hnew : construct 3 = some 4 := by decide
  have hrun : Exec (machine 4 .multi) Always init _ _ :=
    exec_run twoProducersOneConsumer
  obtain ⟨hord, hno, -⟩ := exact_bounded_queue hnew .multi hrun (by decide)
  exact ⟨_, _, hnew, hrun, by decide, by decide, by decide, hord, hno⟩

/-! ## The number of objects in the ring -/

/-- The agent is between the two loads of `count`. -/
def Pc.counting : Pc T → Bool
  | .countSecond _ _ => true
  | _ => false

/-- A dequeue has reserved slots. -/
def reserves : Option (Event T Agent) → Bool
  | some (.taken _ _ _) => true
  | _ => false

/-- What the first load of `count` still says at the second. -/
def Pc.Counts (s : State T Agent) : Pc T → Prop
  | .countSecond true tail => s.consHead ≤ tail ∧ tail ≤ s.prodTail
  | .countSecond false head => head = s.consHead
  | _ => True

section Count

variable [DecidableEq Agent] {cap : Nat} {mode : Mode Agent} {t : List (Event T Agent)}
  {s s' : State T Agent} {a : Agent}

/-- While agent `a` is between the two loads of a `count`, no dequeue reserves slots. -/
def Undisturbed (cap : Nat) (a : Agent) (_ : List (Event T Agent)) (s : State T Agent)
    (act : Act T Agent) : Prop :=
  (s.pc a).counting = true → reserves (event cap s act) = false
deriving Decidable

theorem pc_setPc_of_ne {b : Agent} {p : Pc T} (h : b ≠ a) : (s.setPc b p).pc a = s.pc a :=
  Function.update_of_ne (Ne.symm h) ..

theorem pc_setPc_self {p : Pc T} : (s.setPc a p).pc a = p := Function.update_self ..

omit [DecidableEq Agent] in
theorem Pc.counts_of_not {p : Pc T} (h : p.counting = false) (s : State T Agent) : p.Counts s := by
  cases p with
  | countSecond => cases h
  | _ => trivial

omit [DecidableEq Agent] in
/-- The facts survive as long as `cons_.head` stays. -/
theorem Pc.Counts.frame {p : Pc T} (h : p.Counts s) (htail : s.prodTail ≤ s'.prodTail)
    (hhead : s'.consHead = s.consHead) : p.Counts s' := by
  cases p with
  | countSecond tailFirst first =>
    cases tailFirst with
    | true => exact ⟨hhead ▸ h.1, Nat.le_trans h.2 htail⟩
    | false => exact h.trans hhead.symm
  | _ => trivial

/-- A step of another agent that reserves nothing. -/
theorem GoMove.counts {b : Agent} {o : Option (Event T Agent)} (hm : GoMove cap mode t s b s' o)
    (hba : b ≠ a) (hquiet : (s.pc a).counting = true → reserves o = false)
    (h : (s.pc a).Counts s) : (s'.pc a).Counts s' := by
  cases hm with
  | stay => exact h
  | move | reserve | write | hand =>
    rw [pc_setPc_of_ne hba]
    exact h.frame (Nat.le_refl _) rfl
  | publish =>
    rw [pc_setPc_of_ne hba]
    exact h.frame (Nat.le_add_right ..) rfl
  | take =>
    rw [pc_setPc_of_ne hba]
    cases hcounting : (s.pc a).counting with
    | true => cases hquiet hcounting
    | false => exact Pc.counts_of_not hcounting _

/-- The first load of `count`, and every step outside `count`. -/
theorem go_counts (spurious : Bool) (h : s.consHead ≤ s.prodTail) :
    ((s.go cap a spurious).1.pc a).Counts (s.go cap a spurious).1 := by
  have hself : ∀ {s₁ : State T Agent} {p : Pc T}, p.counting = false →
      ((s₁.setPc a p).pc a).Counts (s₁.setPc a p) := by
    intro s₁ p hp
    rw [pc_setPc_self]
    exact Pc.counts_of_not hp _
  cases ha : s.pc a with
  | countFirst tailFirst =>
    simp only [State.go, ha]
    rw [pc_setPc_self]
    cases tailFirst with
    | true => exact ⟨h, Nat.le_refl _⟩
    | false => rfl
  | idle =>
    simp only [State.go, ha]
    trivial
  | enqueueTail | enqueueCas | dequeueTail | dequeueCas | dequeueCopy =>
    simp only [State.go, ha]
    repeat' split
    all_goals exact hself rfl
  | enqueueCopy =>
    simp only [State.go, ha]
    split
    all_goals exact hself rfl
  | enqueueWait | dequeueWait =>
    simp only [State.go, ha]
    split
    next => exact hself rfl
    next =>
      rw [ha]
      trivial
  | _ =>
    simp only [State.go, ha]
    exact hself rfl

/-- What `count` returns. -/
theorem go_counted {b : Agent} {spurious : Bool} {n : Nat}
    (h : (s.go cap b spurious).2 = some (.counted a n)) :
    b = a ∧ ∃ tailFirst first, s.pc a = .countSecond tailFirst first ∧
      n = if tailFirst then wsub first s.consHead else wsub s.prodTail first := by
  cases hb : s.pc b with
  | countSecond tailFirst first =>
    simp only [State.go, hb, Option.some.injEq, Event.counted.injEq] at h
    obtain ⟨rfl, rfl⟩ := h
    exact ⟨rfl, tailFirst, first, hb, rfl⟩
  | _ =>
    simp only [State.go, hb] at h
    repeat' split at h
    all_goals cases h

omit [DecidableEq Agent] in
/-- **The difference of the two loads is a size.** -/
theorem Inv.counted_le (h : Inv cap mode t s) (hlen : (accepted t).length < 2 ^ 63)
    {tailFirst : Bool} {first : Nat} (hloads : (Pc.countSecond tailFirst first : Pc T).Counts s) :
    (if tailFirst then wsub first s.consHead else wsub s.prodTail first) ≤ cap := by
  obtain ⟨h₁, h₂, h₃, h₄⟩ := h.ordered hlen
  have hroom := h.room
  have hw : wordSize = 2 ^ 64 := rfl
  cases tailFirst with
  | true =>
    obtain ⟨hhead, htail⟩ : s.consHead ≤ first ∧ first ≤ s.prodTail := hloads
    rw [if_pos rfl, wsub_eq hhead (by omega)]
    omega
  | false =>
    obtain rfl : first = s.consHead := hloads
    rw [if_neg Bool.false_ne_true, wsub_eq h₂ (by omega)]
    omega

/-- What is known about agent `a`, which counts. -/
structure Counter (cap : Nat) (a : Agent) (t : List (Event T Agent)) (s : State T Agent) :
    Prop where
  loads : (s.pc a).Counts s
  sizes : ∀ n, Event.counted a n ∈ t → n ≤ cap

/-- A step inside a call. -/
theorem Counter.go (h : Counter cap a t s) (hinv : Inv cap mode t s)
    (hlen : (accepted t).length < 2 ^ 63) {b : Agent} {spurious : Bool}
    (hm : GoMove cap mode t s b (s.go cap b spurious).1 (s.go cap b spurious).2)
    (hquiet : (s.pc a).counting = true → reserves (s.go cap b spurious).2 = false) :
    Counter cap a (note t (s.go cap b spurious).2) (s.go cap b spurious).1 where
  loads := by
    rcases eq_or_ne b a with rfl | hba
    · exact go_counts spurious hinv.order
    · exact hm.counts hba hquiet h.loads
  sizes n hn := by
    cases ho : (s.go cap b spurious).2 with
    | none =>
      rw [ho] at hn
      exact h.sizes n hn
    | some e =>
      rw [ho] at hn
      rcases List.mem_cons.mp hn with rfl | hold
      · obtain ⟨-, tailFirst, first, hp, rfl⟩ := go_counted ho
        have hloads := h.loads
        rw [hp] at hloads
        exact hinv.counted_le hlen hloads
      · exact h.sizes n hold

theorem Counter.call (h : Counter cap a t s) {b : Agent} {p : Pc T} (hp : p.counting = false)
    (hcall : s.call b p = some s') : Counter cap a t s' where
  loads := by
    rw [State.call] at hcall
    split at hcall
    next =>
      cases hcall
      rcases eq_or_ne b a with rfl | hba
      · rw [pc_setPc_self]
        exact Pc.counts_of_not hp _
      · rw [pc_setPc_of_ne hba]
        exact h.loads.frame (Nat.le_refl _) rfl
    next => cases hcall
  sizes := h.sizes

/-- What the counts of agent `a` are, after every run in which no dequeue comes between their
    loads. -/
theorem counter_exec [Inhabited T] {k : Nat} (hk : k ≤ 63) (hcap : cap = 2 ^ k)
    (hrun : Exec (machine cap mode) (Undisturbed cap a) init t s)
    (hlen : (accepted t).length < 2 ^ 63) : Inv cap mode t s ∧ Counter cap a t s := by
  revert hlen
  refine hrun.invariant
    (fun t s => (accepted t).length < 2 ^ 63 → Inv cap mode t s ∧ Counter cap a t s)
    (fun _ => ⟨inv_init cap mode, trivial, fun _ h => absurd h List.not_mem_nil⟩) ?_
  intro t s act s' ih hquiet hstep hnew
  have hold := Nat.lt_of_le_of_lt (accepted_length_record (machine cap mode) s act t) hnew
  obtain ⟨hinv, hcount⟩ := ih hold
  refine ⟨hinv.step hk hcap act hstep hold hnew, ?_⟩
  cases act with
  | go b spurious =>
    cases hstep
    exact hcount.go hinv hold (hinv.go_moves hk hcap b spurious hold hnew) hquiet
  | enqueueBulk b objs | count b tailFirst => exact hcount.call rfl hstep
  | dequeueBulk b n | dequeueBulkMc b n =>
    change (if _ then _ else _) = _ at hstep
    split at hstep
    next => exact hcount.call rfl hstep
    next => cases hstep

/-- **`count()` is a real size**, if no dequeue reserves slots between its two loads: for
    every capacity the constructor accepts, any number of producers and consumers, every
    interleaving and either order of the loads. -/
theorem count_le_capacity [Inhabited T] {capacity : Nat} (hnew : construct capacity = some cap)
    (mode : Mode Agent) (a : Agent)
    (hrun : Exec (machine cap mode) (Undisturbed cap a) init t s)
    (hlen : (accepted t).length < 2 ^ 63) :
    ∀ n, Event.counted a n ∈ t → n ≤ cap := by
  obtain ⟨k, hk, hcap, -⟩ := construct_spec hnew
  exact (counter_exec hk hcap hrun hlen).2.sizes

end Count

/-- A producer publishes three objects between the two loads of `count`. -/
theorem count_beside_producer : ∃ (t : List (Event Nat (Fin 3))) (s : State Nat (Fin 3)),
      Exec (machine 4 .multi) (Undisturbed 4 2) init t s ∧ Event.counted 2 3 ∈ t ∧
      ∀ n, Event.counted 2 n ∈ t → n ≤ 4 := by
  have hrun : Exec (machine 4 .multi) (Undisturbed 4 2) (init : State Nat (Fin 3)) _ _ :=
    exec_run (List.flatten [[.count 2 false], steps 2 1, [.enqueueBulk 0 [10, 11, 12]],
      steps 0 9, steps 2 1])
  have hnew : construct 3 = some 4 := by decide
  exact ⟨_, _, hrun, by decide +kernel, count_le_capacity hnew .multi 2 hrun (by decide +kernel)⟩

/-- `p` enqueues one object and `c` dequeues it. -/
def oneThrough (p c : Fin 3) : List (Act Nat (Fin 3)) :=
  List.flatten [[.enqueueBulk p [10]], steps p 7, [.dequeueBulkMc c 1], steps c 7]

/-- **No size**: in a ring of capacity one, an object that goes through between the two loads
    makes `count()` return `2 ^ 64 - 1`, if `prod_.tail` is loaded first; if `cons_.head` is,
    two objects that go through make it return two. -/
theorem count_no_size :
    construct 1 = some 1 ∧
    (∃ (t : List (Event Nat (Fin 3))) (s : State Nat (Fin 3)),
      Exec (machine 1 .multi) Always init t s ∧ Event.counted 2 (2 ^ 64 - 1) ∈ t) ∧
    ∃ (t : List (Event Nat (Fin 3))) (s : State Nat (Fin 3)),
      Exec (machine 1 .multi) Always init t s ∧ Event.counted 2 2 ∈ t := by
  have hrun : Exec (machine 1 .multi) Always init _ _ :=
    exec_run (List.flatten [[.count 2 true], steps 2 1, oneThrough 0 1, steps 2 1])
  have hrun' : Exec (machine 1 .multi) Always init _ _ :=
    exec_run (List.flatten [[.count 2 false], steps 2 1, oneThrough 0 1, oneThrough 0 1, steps 2 1])
  exact ⟨by decide, ⟨_, _, hrun, by decide +kernel⟩, ⟨_, _, hrun', by decide +kernel⟩⟩

end MpmcRing
