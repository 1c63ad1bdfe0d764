import StorageRuntime.InterleavingProofs
import StorageRuntime.ReservationProofs
import StorageRuntime.WordArithmeticProofs

/-!
# MPMCRing — the bounded ring of `runtime/mpmc_ring.h`

Producers RESERVE slots by a compare-exchange on `prod_.head`, copy their
objects slot by slot, wait for their turn and publish through `prod_.tail`.
Consumers do the same with `cons_.head` and `cons_.tail`
(`dequeue_bulk_mc`), or copy first and then move both indices
(`dequeue_bulk`, one consumer).  A step of an agent is one atomic operation
or one slot copy.

The four indices are 64-bit words that wrap around, and every read of an
opposite index may be old by the time it is used.  The invariant `Inv` holds
in every run in which fewer than `2 ^ 63` objects were accepted: the pieces
that producers hold tile `[prod.tail, prod.head)`, those of consumers tile
`[cons.tail, cons.head)`, and the ring holds the accepted objects of
`[cons.tail, prod.tail)`.
-/

namespace MpmcRing

open Interleaving Reservation WordArithmetic

/-! ## The constructor -/

/-- The loop `while (cap < capacity) cap <<= 1`, for at most `fuel` tests of its
    condition. -/
def roundUp (capacity : Nat) : Nat → Nat → Option Nat
  | 0, _ => none
  | fuel + 1, cap =>
    if cap < capacity then roundUp capacity fuel ((cap <<< 1) % wordSize) else some cap

/-- The `capacity_` that the constructor computes.  After 64 shifts `cap` is zero for
    good, so a loop that passes 65 tests never ends. -/
def construct (capacity : Nat) : Option Nat := roundUp capacity 65 1

/-- The loop variable is a power of two or, once the bit is shifted out, zero. -/
theorem roundUp_spec {capacity cap : Nat} :
    ∀ (fuel c : Nat), (c = 0 ∧ 0 < capacity) ∨ (∃ k, k ≤ 63 ∧ c = 2 ^ k) →
      roundUp capacity fuel c = some cap → ∃ k, k ≤ 63 ∧ cap = 2 ^ k ∧ capacity ≤ cap := by
  intro fuel
  induction fuel with
  | zero => intro c _ h; cases h
  | succ fuel ih =>
    intro c hc h
    rw [roundUp] at h
    split at h
    next hlt =>
      refine ih _ ?_ h
      rcases hc with ⟨rfl, hpos⟩ | ⟨k, hk, rfl⟩
      · exact .inl ⟨rfl, hpos⟩
      · rw [Nat.shiftLeft_eq, ← Nat.pow_succ]
        rcases Nat.eq_or_lt_of_le hk with rfl | hlt'
        · exact .inl ⟨by decide, Nat.lt_of_le_of_lt (Nat.zero_le _) hlt⟩
        · refine .inr ⟨k + 1, hlt', Nat.mod_eq_of_lt ?_⟩
          exact Nat.pow_lt_pow_right (by decide) (by omega)
    next hge =>
      obtain rfl : c = cap := Option.some.inj h
      rcases hc with ⟨rfl, hpos⟩ | ⟨k, hk, rfl⟩
      · exact absurd hpos hge
      · exact ⟨k, hk, rfl, Nat.le_of_not_lt hge⟩

theorem roundUp_isSome {capacity : Nat} (hcap : capacity ≤ 2 ^ 63) :
    ∀ (fuel k : Nat), k ≤ 63 → 64 ≤ k + fuel → (roundUp capacity fuel (2 ^ k)).isSome := by
  intro fuel
  induction fuel with
  | zero => intro k hk hf; omega
  | succ fuel ih =>
    intro k hk hf
    rw [roundUp]
    split
    next hlt =>
      have hk' : k < 63 := by
        rcases Nat.eq_or_lt_of_le hk with rfl | h
        · omega
        · exact h
      have hpow : 2 ^ k <<< 1 % wordSize = 2 ^ (k + 1) := by
        rw [Nat.shiftLeft_eq, ← Nat.pow_succ]
        exact Nat.mod_eq_of_lt (Nat.pow_lt_pow_right (by decide) (by omega))
      rw [hpow]
      exact ih (k + 1) hk' (by omega)
    next => rfl

/-- The constructor rounds up to a power of two that fits a word. -/
theorem construct_spec {capacity cap : Nat} (h : construct capacity = some cap) :
    ∃ k, k ≤ 63 ∧ cap = 2 ^ k ∧ capacity ≤ cap :=
  roundUp_spec 65 1 (Or.inr ⟨0, by omega, rfl⟩) h

/-- The constructor returns exactly for the capacities up to `2 ^ 63`. -/
theorem construct_isSome_iff (capacity : Nat) :
    (construct capacity).isSome ↔ capacity ≤ 2 ^ 63 := by
  constructor
  · intro h
    obtain ⟨cap, hcap⟩ := Option.isSome_iff_exists.mp h
    obtain ⟨k, hk, rfl, hle⟩ := construct_spec hcap
    exact Nat.le_trans hle (Nat.pow_le_pow_right (by decide) hk)
  · intro h
    exact roundUp_isSome h 65 0 (by omega) (by omega)

/-! ## State and steps -/

variable {T Agent : Type}

/-- Who dequeues: any number of callers of `dequeue_bulk_mc`, or one caller of
    `dequeue_bulk`. -/
inductive Mode (Agent : Type) where
  | multi
  | single (c : Agent)

/-- The agent may make calls of this kind (`mc` for `dequeue_bulk_mc`). -/
def Mode.Allows : Mode Agent → Agent → Bool → Prop
  | .multi, _, mc => mc = true
  | .single c, a, mc => a = c ∧ mc = false

instance [DecidableEq Agent] : ∀ (m : Mode Agent) (a : Agent) (mc : Bool),
    Decidable (m.Allows a mc)
  | .multi, _, mc => inferInstanceAs (Decidable (mc = true))
  | .single c, a, mc => inferInstanceAs (Decidable (a = c ∧ mc = false))

/-- Where an agent stands.  Lists carry the objects of the call: `xs` are the first `n`
    objects that `enqueue_bulk` is still to enqueue, `objs` what a dequeue has copied. -/
inductive Pc (T : Type) where
  | idle
  /-- `enqueue_bulk`: about to load `prod_.head`. -/
  | enqueueHead (xs : List T)
  /-- About to load `cons_.tail` and compute the free entries. -/
  | enqueueTail (xs : List T) (head : Nat)
  /-- About to try the compare-exchange on `prod_.head`. -/
  | enqueueCas (xs : List T) (head : Nat)
  /-- In the copy loop, about to write slot `head + i`. -/
  | enqueueCopy (xs : List T) (head i : Nat)
  /-- Waiting for `prod_.tail` to reach `head`. -/
  | enqueueWait (xs : List T) (head : Nat)
  /-- About to store `prod_.tail`. -/
  | enqueueStore (xs : List T) (head : Nat)
  /-- `dequeue_bulk` or `dequeue_bulk_mc`: about to load `cons_.head`. -/
  | dequeueHead (mc : Bool) (n : Nat)
  /-- About to load `prod_.tail` and compute the entries. -/
  | dequeueTail (mc : Bool) (n head : Nat)
  /-- `dequeue_bulk_mc`: about to try the compare-exchange on `cons_.head`. -/
  | dequeueCas (n head : Nat)
  /-- In the copy loop, about to read slot `head + objs.length`. -/
  | dequeueCopy (mc : Bool) (n head : Nat) (objs : List T)
  /-- `dequeue_bulk_mc`: waiting for `cons_.tail` to reach `head`. -/
  | dequeueWait (head : Nat) (objs : List T)
  /-- `dequeue_bulk_mc`: about to store `cons_.tail`. -/
  | dequeueStore (head : Nat) (objs : List T)
  /-- `dequeue_bulk`: about to store `cons_.head`. -/
  | singleHead (head : Nat) (objs : List T)
  /-- `dequeue_bulk`: about to store `cons_.tail`. -/
  | singleTail (head : Nat) (objs : List T)
  /-- `count`: about to make its first load (the order of the two is not specified). -/
  | countFirst (tailFirst : Bool)
  | countSecond (tailFirst : Bool) (first : Nat)
deriving DecidableEq

/-- The ring and its callers. -/
structure State (T Agent : Type) where
  prodHead : Nat
  prodTail : Nat
  consHead : Nat
  consTail : Nat
  ring : Nat → T
  pc : Agent → Pc T

inductive Event (T Agent : Type) where
  /-- `enqueue_bulk` reserved slots for `xs`. -/
  | reserved (a : Agent) (xs : List T)
  /-- `enqueue_bulk` returned `n`. -/
  | enqueued (a : Agent) (n : Nat)
  /-- A dequeue took the `n` indices from `head` on for itself. -/
  | taken (a : Agent) (head n : Nat)
  /-- A dequeue returned `objs`, read from `head` on. -/
  | handed (a : Agent) (head : Nat) (objs : List T)
  /-- A dequeue that wanted `n` objects returned zero. -/
  | missed (a : Agent) (n : Nat)
  /-- `count` returned `n`. -/
  | counted (a : Agent) (n : Nat)
deriving DecidableEq

inductive Act (T Agent : Type) where
  | enqueueBulk (a : Agent) (objs : List T)
  | dequeueBulk (a : Agent) (n : Nat)
  | dequeueBulkMc (a : Agent) (n : Nat)
  | count (a : Agent) (tailFirst : Bool)
  /-- The next step of `a`; a weak compare-exchange may fail `spuriously`. -/
  | go (a : Agent) (spurious : Bool)

/-- A new ring: the vector's elements are value-initialised. -/
def init [Inhabited T] : State T Agent where
  prodHead := 0
  prodTail := 0
  consHead := 0
  consTail := 0
  ring := fun _ => default
  pc := fun _ => .idle

/-- The slot of an index: `index & mask_`. -/
def slot (cap i : Nat) : Nat := i &&& (cap - 1)

section Steps

variable [DecidableEq Agent]

def State.setPc (s : State T Agent) (a : Agent) (p : Pc T) : State T Agent :=
  { s with pc := Function.update s.pc a p }

/-- The next step of agent `a`, with what is observed of it. -/
def State.go (cap : Nat) (s : State T Agent) (a : Agent) (spurious : Bool) :
    State T Agent × Option (Event T Agent) :=
  match s.pc a with
  | .idle => (s, none)
  | .enqueueHead xs => (s.setPc a (.enqueueTail xs s.prodHead), none)
  | .enqueueTail xs head =>
    -- `n` shrinks to the free entries and keeps its value when the loop retries
    let xs := xs.take (wsub (wadd cap s.consTail) head)
    if xs.length = 0 then (s.setPc a .idle, some (.enqueued a 0))
    else (s.setPc a (.enqueueCas xs head), none)
  | .enqueueCas xs head =>
    if s.prodHead = head ∧ spurious = false then
      ({ s with prodHead := wadd head xs.length }.setPc a (.enqueueCopy xs head 0),
        some (.reserved a xs))
    else (s.setPc a (.enqueueHead xs), none)
  | .enqueueCopy xs head i =>
    match xs[i]? with
    | some x =>
      ({ s with ring := Function.update s.ring (slot cap (wadd head i)) x }.setPc a
        (.enqueueCopy xs head (i + 1)), none)
    | none => (s.setPc a (.enqueueWait xs head), none)
  | .enqueueWait xs head =>
    if s.prodTail = head then (s.setPc a (.enqueueStore xs head), none) else (s, none)
  | .enqueueStore xs head =>
    ({ s with prodTail := wadd head xs.length }.setPc a .idle, some (.enqueued a xs.length))
  | .dequeueHead mc n => (s.setPc a (.dequeueTail mc n s.consHead), none)
  | .dequeueTail mc n head =>
    let m := min n (wsub s.prodTail head)
    if m = 0 then (s.setPc a .idle, some (.missed a n))
    else if mc then (s.setPc a (.dequeueCas m head), none)
    else (s.setPc a (.dequeueCopy false m head []), none)
  | .dequeueCas n head =>
    if s.consHead = head ∧ spurious = false then
      ({ s with consHead := wadd head n }.setPc a (.dequeueCopy true n head []),
        some (.taken a head n))
    else (s.setPc a (.dequeueHead true n), none)
  | .dequeueCopy mc n head objs =>
    if objs.length < n then
      (s.setPc a (.dequeueCopy mc n head
        (objs ++ [s.ring (slot cap (wadd head objs.length))])), none)
    else if mc then (s.setPc a (.dequeueWait head objs), none)
    else (s.setPc a (.singleHead head objs), none)
  | .dequeueWait head objs =>
    if s.consTail = head then (s.setPc a (.dequeueStore head objs), none) else (s, none)
  | .dequeueStore head objs =>
    ({ s with consTail := wadd head objs.length }.setPc a .idle, some (.handed a head objs))
  | .singleHead head objs =>
    ({ s with consHead := wadd head objs.length }.setPc a (.singleTail head objs),
      some (.taken a head objs.length))
  | .singleTail head objs =>
    ({ s with consTail := wadd head objs.length }.setPc a .idle, some (.handed a head objs))
  | .countFirst tailFirst =>
    (s.setPc a (.countSecond tailFirst (if tailFirst then s.prodTail else s.consHead)), none)
  | .countSecond tailFirst first =>
    (s.setPc a .idle, some (.counted a
      (if tailFirst then wsub first s.consHead else wsub s.prodTail first)))

/-- Agent `a` makes a call; an agent makes one call at a time. -/
def State.call (s : State T Agent) (a : Agent) (p : Pc T) : Option (State T Agent) :=
  match s.pc a with
  | .idle => some (s.setPc a p)
  | _ => none

def step (cap : Nat) (mode : Mode Agent) (s : State T Agent) :
    Act T Agent → Option (State T Agent)
  | .enqueueBulk a objs => s.call a (.enqueueHead objs)
  | .dequeueBulk a n => if mode.Allows a false then s.call a (.dequeueHead false n) else none
  | .dequeueBulkMc a n => if mode.Allows a true then s.call a (.dequeueHead true n) else none
  | .count a tailFirst => s.call a (.countFirst tailFirst)
  | .go a spurious => some (s.go cap a spurious).1

def event (cap : Nat) (s : State T Agent) : Act T Agent → Option (Event T Agent)
  | .go a spurious => (s.go cap a spurious).2
  | _ => none

/-- The ring with its producers and consumers. -/
def machine (cap : Nat) (mode : Mode Agent) :
    Machine (State T Agent) (Act T Agent) (Event T Agent) where
  step := step cap mode
  event := event cap

end Steps

/-- The next `k` steps of agent `a`. -/
def steps (a : Fin 3) (k : Nat) : List (Act Nat (Fin 3)) := List.replicate k (.go a false)

/-- Two producers reserve one after the other, the second with its batch cut to the one
    free slot of four, and write in the other order; a consumer then takes three of the four
    objects. -/
def twoProducersOneConsumer : List (Act Nat (Fin 3)) :=
  List.flatten [[.enqueueBulk 0 [10, 11, 12]], steps 0 3, [.enqueueBulk 1 [20, 21]], steps 1 5,
    steps 0 6, steps 1 2, [.dequeueBulkMc 2 3], steps 2 9]

end MpmcRing
