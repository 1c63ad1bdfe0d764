import StorageRuntime.InterleavingProofs
import StorageRuntime.RingBufferProofs

/-!
# ChaseLevDeque — the work-stealing deque

The model of `runtime/chase_lev_deque.h`: one owner pushes and pops at the bottom, any
number of thieves steal at the top, and the circular array doubles when it is full.
A step is one access to `top_`, `bottom_` or `array_`, or one read or write of an array
element; `grow` works on arrays that nobody else writes to and is one step.

Steps are sequentially consistent, indices do not wrap around, and an array that was
replaced can still be read by a thief that holds a pointer to it.  Elements are
copied: moving a `WorkItem` out of its slot leaves the slot as it is.

The observer sees a call where it takes effect: a `push` when it stores `bottom_`, a
`steal` and the `pop` of a last item when they win the exchange of `top_`, any other
`pop` when it takes the item and returns.
-/

namespace ChaseLev

open Function Interleaving

/-! ## The array -/

structure CircularArray (T : Type) where
  capacity : Nat
  items : Nat → T

section Array

variable {T : Type}

/-- The slot of index `i`. -/
def CircularArray.slot (a : CircularArray T) (i : Int) : Nat := i.toNat % a.capacity

/-- `load`, and `take` as well: it leaves the slot as it is. -/
def CircularArray.load (a : CircularArray T) (i : Int) : T := a.items (a.slot i)

def CircularArray.store (a : CircularArray T) (i : Int) (item : T) : CircularArray T :=
  { a with items := update a.items (a.slot i) item }

/-- A new array. -/
def CircularArray.new [Inhabited T] (capacity : Nat) : CircularArray T :=
  ⟨capacity, fun _ => default⟩

/-- The loop of `grow`: `n` elements from index `i` on. -/
def CircularArray.copy (old : CircularArray T) : Nat → Int → CircularArray T → CircularArray T
  | 0, _, new => new
  | n + 1, i, new => old.copy n (i + 1) (new.store i (old.load i))

def CircularArray.grow [Inhabited T] (a : CircularArray T) (top bottom : Int) :
    CircularArray T :=
  a.copy (bottom - top).toNat top (CircularArray.new (a.capacity * 2))

variable {a new old : CircularArray T} {i j : Int} {item : T}

@[simp] theorem CircularArray.load_store_self : (a.store i item).load i = item :=
  update_self ..

/-- Indices that are less than the capacity apart are in different slots. -/
theorem CircularArray.load_store_of_ne (hi : 0 ≤ i) (hj : 0 ≤ j) (hne : i ≠ j)
    (hlt : i < j + a.capacity) (hgt : j < i + a.capacity) : (a.store j item).load i = a.load i := by
  refine update_of_ne ?_ ..
  show i.toNat % a.capacity ≠ j.toNat % a.capacity
  exact @WordArithmetic.mod_ne_of_window (min i.toNat j.toNat) _ _ _ (by omega) (by omega)
    (by omega)

theorem CircularArray.capacity_copy (n : Nat) : ∀ (i : Int) (new : CircularArray T),
    (old.copy n i new).capacity = new.capacity := by
  induction n with
  | zero => intro i new; rfl
  | succ n ih => intro i new; exact ih (i + 1) _

/-- Copying further elements keeps what is below them. -/
theorem CircularArray.load_copy_of_lt (hj : 0 ≤ j) (n : Nat) : ∀ {i : Int} {new : CircularArray T},
    j < i → i + n ≤ j + new.capacity → (old.copy n i new).load j = new.load j := by
  induction n with
  | zero => intro i new _ _; rfl
  | succ n ih =>
    intro i new hlt hfits
    rw [CircularArray.copy, ih (by omega) (by show _ ≤ j + (new.capacity : Int); omega)]
    exact CircularArray.load_store_of_ne hj (by omega) (by omega) (by omega) (by omega)

/-- **The copied elements are there.** -/
theorem CircularArray.load_copy (n : Nat) : ∀ {i : Int} {new : CircularArray T}, 0 ≤ i →
    n ≤ new.capacity → i ≤ j → j < i + n → (old.copy n i new).load j = old.load j := by
  induction n with
  | zero => intro i new _ _ _ _; omega
  | succ n ih =>
    intro i new hi hfits hle hlt
    rw [CircularArray.copy]
    rcases eq_or_ne j i with rfl | hne
    · rw [CircularArray.load_copy_of_lt hi n (by omega)
        (by show j + 1 + (n : Int) ≤ j + (new.capacity : Int); omega),
        CircularArray.load_store_self]
    · exact ih (by omega) (by show n ≤ new.capacity; omega) (by omega) (by omega)

/-- **Growing keeps the elements of the window.** -/
theorem CircularArray.load_grow [Inhabited T] {top bottom : Int} (htop : 0 ≤ top)
    (hfits : bottom - top ≤ a.capacity) (hle : top ≤ j) (hlt : j < bottom) :
    (a.grow top bottom).load j = a.load j :=
  CircularArray.load_copy _ htop (by show _ ≤ a.capacity * 2; omega) hle (by omega)

theorem CircularArray.capacity_grow [Inhabited T] (top bottom : Int) :
    (a.grow top bottom).capacity = a.capacity * 2 := CircularArray.capacity_copy ..

end Array

/-! ## The deque -/

/-- Where the owner is.  `b` and `t` are what it loaded from `bottom_` (or computed from
    it) and from `top_`, `a` is the array it holds. -/
inductive OwnerPc (T : Type) where
  | idle
  /-- `push`: about to load `bottom_`. -/
  | pushBottom (item : T)
  /-- About to load `top_`. -/
  | pushTop (item : T) (b : Int)
  /-- About to load `array_` and to compare with its capacity. -/
  | pushArray (item : T) (b t : Int)
  /-- About to copy the elements to a new array. -/
  | pushGrow (item : T) (b t : Int) (a : Nat)
  /-- About to store `array_`. -/
  | pushPublish (item : T) (b : Int) (a : Nat)
  /-- About to store the item. -/
  | pushStore (item : T) (b : Int) (a : Nat)
  /-- About to store `bottom_` and to return. -/
  | pushDone (item : T) (b : Int)
  /-- `pop`: about to load `bottom_`. -/
  | popBottom
  /-- About to load `array_`. -/
  | popArray (b : Int)
  /-- About to store the decremented `bottom_`. -/
  | popStore (b : Int) (a : Nat)
  /-- About to load `top_`. -/
  | popTop (b : Int) (a : Nat)
  /-- There is an item; about to take it. -/
  | popTake (b : Int) (a : Nat) (t : Int)
  /-- It is the last one; about to exchange `top_`. -/
  | popCas (b t : Int) (out : T)
  /-- About to restore `bottom_` and to return the item. -/
  | popWon (b : Int) (out : T)
  /-- About to restore `bottom_` and to return false. -/
  | popLost (b : Int)
deriving DecidableEq

/-- Where a thief is in `steal`. -/
inductive ThiefPc (T : Type) where
  | idle
  /-- About to load `top_`. -/
  | top
  /-- About to load `bottom_`. -/
  | bottom (t : Int)
  /-- About to load `array_`. -/
  | array (t : Int)
  /-- About to take the item. -/
  | take (t : Int) (a : Nat)
  /-- About to exchange `top_`. -/
  | cas (t : Int) (out : T)
deriving DecidableEq

/-- The deque, its owner and its thieves.  Arrays have numbers, `allocated` of them exist. -/
structure State (Θ T : Type) where
  top : Int
  bottom : Int
  array : Nat
  arrays : Nat → CircularArray T
  allocated : Nat
  owner : OwnerPc T
  thief : Θ → ThiefPc T

inductive Act (Θ T : Type) where
  | push (item : T)
  | pop
  | goOwner
  | steal (θ : Θ)
  | goThief (θ : Θ)

inductive Event (T : Type) where
  | pushed (item : T)
  | popped (item : T)
  | stolen (item : T)
deriving DecidableEq

variable {Θ T : Type} [Inhabited T]

/-- The constructor. -/
def init (Θ : Type) (T : Type) [Inhabited T] (capacity : Nat) : State Θ T where
  top := 0
  bottom := 0
  array := 0
  arrays := fun _ => CircularArray.new capacity
  allocated := 1
  owner := .idle
  thief := fun _ => .idle

/-- The next step of the owner. -/
def State.goOwner (s : State Θ T) : Option (State Θ T) :=
  match s.owner with
  | .idle => none
  | .pushBottom item => some { s with owner := .pushTop item s.bottom }
  | .pushTop item b => some { s with owner := .pushArray item b s.top }
  | .pushArray item b t =>
    if (s.arrays s.array).capacity ≤ b - t then
      some { s with owner := .pushGrow item b t s.array }
    else some { s with owner := .pushStore item b s.array }
  | .pushGrow item b t a =>
    some { s with
      arrays := update s.arrays s.allocated ((s.arrays a).grow t b)
      allocated := s.allocated + 1
      owner := .pushPublish item b s.allocated }
  | .pushPublish item b a => some { s with array := a, owner := .pushStore item b a }
  | .pushStore item b a =>
    some { s with
      arrays := update s.arrays a ((s.arrays a).store b item)
      owner := .pushDone item b }
  | .pushDone _ b => some { s with bottom := b + 1, owner := .idle }
  | .popBottom => some { s with owner := .popArray (s.bottom - 1) }
  | .popArray b => some { s with owner := .popStore b s.array }
  | .popStore b a => some { s with bottom := b, owner := .popTop b a }
  | .popTop b a =>
    if s.top ≤ b then some { s with owner := .popTake b a s.top }
    else some { s with owner := .popLost b }
  | .popTake b a t =>
    if t = b then some { s with owner := .popCas b t ((s.arrays a).load b) }
    else some { s with owner := .idle }
  | .popCas b t out =>
    if s.top = t then some { s with top := t + 1, owner := .popWon b out }
    else some { s with owner := .popLost b }
  | .popWon b _ => some { s with bottom := b + 1, owner := .idle }
  | .popLost b => some { s with bottom := b + 1, owner := .idle }

/-- What the owner's next step shows. -/
def State.ownerEvent (s : State Θ T) : Option (Event T) :=
  match s.owner with
  | .pushDone item _ => some (.pushed item)
  | .popTake b a t => if t = b then none else some (.popped ((s.arrays a).load b))
  | .popCas _ t out => if s.top = t then some (.popped out) else none
  | _ => none

variable [DecidableEq Θ]

def State.setThief (s : State Θ T) (θ : Θ) (p : ThiefPc T) : State Θ T :=
  { s with thief := update s.thief θ p }

/-- The next step of a thief. -/
def State.goThief (s : State Θ T) (θ : Θ) : Option (State Θ T) :=
  match s.thief θ with
  | .idle => none
  | .top => some (s.setThief θ (.bottom s.top))
  | .bottom t => some (s.setThief θ (if t < s.bottom then .array t else .idle))
  | .array t => some (s.setThief θ (.take t s.array))
  | .take t a => some (s.setThief θ (.cas t ((s.arrays a).load t)))
  | .cas t _ =>
    if s.top = t then some ({ s with top := t + 1 }.setThief θ .idle)
    else some (s.setThief θ .idle)

def State.thiefEvent (s : State Θ T) (θ : Θ) : Option (Event T) :=
  match s.thief θ with
  | .cas t out => if s.top = t then some (.stolen out) else none
  | _ => none

def step (s : State Θ T) : Act Θ T → Option (State Θ T)
  | .push item =>
    match s.owner with
    | .idle => some { s with owner := .pushBottom item }
    | _ => none
  | .pop =>
    match s.owner with
    | .idle => some { s with owner := .popBottom }
    | _ => none
  | .goOwner => s.goOwner
  | .steal θ =>
    match s.thief θ with
    | .idle => some (s.setThief θ .top)
    | _ => none
  | .goThief θ => s.goThief θ

def event (s : State Θ T) : Act Θ T → Option (Event T)
  | .goOwner => s.ownerEvent
  | .goThief θ => s.thiefEvent θ
  | _ => none

def machine : Machine (State Θ T) (Act Θ T) (Event T) := ⟨step, event⟩

/-! ## What a step can do -/

/-- The steps of the owner, with what they show. -/
inductive OwnerMove [Inhabited T] (s : State Θ T) : Option (Event T) → State Θ T → Prop where
  | pushBottom {item : T} (hp : s.owner = .pushBottom item) :
      OwnerMove s none { s with owner := .pushTop item s.bottom }
  | pushTop {item : T} {b : Int} (hp : s.owner = .pushTop item b) :
      OwnerMove s none { s with owner := .pushArray item b s.top }
  | pushFull {item : T} {b t : Int} (hp : s.owner = .pushArray item b t)
      (hfull : (s.arrays s.array).capacity ≤ b - t) :
      OwnerMove s none { s with owner := .pushGrow item b t s.array }
  | pushFits {item : T} {b t : Int} (hp : s.owner = .pushArray item b t)
      (hfits : b - t < (s.arrays s.array).capacity) :
      OwnerMove s none { s with owner := .pushStore item b s.array }
  | grow {item : T} {b t : Int} {a : Nat} (hp : s.owner = .pushGrow item b t a) :
      OwnerMove s none { s with
        arrays := update s.arrays s.allocated ((s.arrays a).grow t b)
        allocated := s.allocated + 1
        owner := .pushPublish item b s.allocated }
  | publish {item : T} {b : Int} {a : Nat} (hp : s.owner = .pushPublish item b a) :
      OwnerMove s none { s with array := a, owner := .pushStore item b a }
  | store {item : T} {b : Int} {a : Nat} (hp : s.owner = .pushStore item b a) :
      OwnerMove s none { s with
        arrays := update s.arrays a ((s.arrays a).store b item)
        owner := .pushDone item b }
  | pushed {item : T} {b : Int} (hp : s.owner = .pushDone item b) :
      OwnerMove s (some (.pushed item)) { s with bottom := b + 1, owner := .idle }
  | popBottom (hp : s.owner = .popBottom) :
      OwnerMove s none { s with owner := .popArray (s.bottom - 1) }
  | popArray {b : Int} (hp : s.owner = .popArray b) :
      OwnerMove s none { s with owner := .popStore b s.array }
  | popStore {b : Int} {a : Nat} (hp : s.owner = .popStore b a) :
      OwnerMove s none { s with bottom := b, owner := .popTop b a }
  | popSome {b : Int} {a : Nat} (hp : s.owner = .popTop b a) (hsome : s.top ≤ b) :
      OwnerMove s none { s with owner := .popTake b a s.top }
  | popEmpty {b : Int} {a : Nat} (hp : s.owner = .popTop b a) (hempty : b < s.top) :
      OwnerMove s none { s with owner := .popLost b }
  | popLast {b t : Int} {a : Nat} (hp : s.owner = .popTake b a t) (hlast : t = b) :
      OwnerMove s none { s with owner := .popCas b t ((s.arrays a).load b) }
  | popped {b t : Int} {a : Nat} (hp : s.owner = .popTake b a t) (hmore : t ≠ b) :
      OwnerMove s (some (.popped ((s.arrays a).load b))) { s with owner := .idle }
  | won {b t : Int} {out : T} (hp : s.owner = .popCas b t out) (hwon : s.top = t) :
      OwnerMove s (some (.popped out)) { s with top := t + 1, owner := .popWon b out }
  | lost {b t : Int} {out : T} (hp : s.owner = .popCas b t out) (hlost : s.top ≠ t) :
      OwnerMove s none { s with owner := .popLost b }
  | wonDone {b : Int} {out : T} (hp : s.owner = .popWon b out) :
      OwnerMove s none { s with bottom := b + 1, owner := .idle }
  | lostDone {b : Int} (hp : s.owner = .popLost b) :
      OwnerMove s none { s with bottom := b + 1, owner := .idle }

omit [DecidableEq Θ] in
theorem owner_moves {s s' : State Θ T} (h : s.goOwner = some s') : OwnerMove s s.ownerEvent s' := by
  simp only [State.goOwner] at h
  simp only [State.ownerEvent]
  split at h <;> rename_i hp <;> simp only [hp]
  · cases h
  · cases h
    exact .pushBottom hp
  · cases h
    exact .pushTop hp
  · split at h <;> cases h
    · exact .pushFull hp ‹_›
    · exact .pushFits hp (Int.not_le.mp ‹_›)
  · cases h
    exact .grow hp
  · cases h
    exact .publish hp
  · cases h
    exact .store hp
  · cases h
    exact .pushed hp
  · cases h
    exact .popBottom hp
  · cases h
    exact .popArray hp
  · cases h
    exact .popStore hp
  · split at h <;> cases h
    · exact .popSome hp ‹_›
    · exact .popEmpty hp (Int.not_le.mp ‹_›)
  · split at h <;> rename_i ht <;> cases h
    · rw [if_pos ht]
      exact .popLast hp ht
    · rw [if_neg ht]
      exact .popped hp ht
  · split at h <;> rename_i ht <;> cases h
    · rw [if_pos ht]
      exact .won hp ht
    · rw [if_neg ht]
      exact .lost hp ht
  · cases h
    exact .wonDone hp
  · cases h
    exact .lostDone hp

/-- The steps of a thief: it goes on, or its exchange of `top_` succeeds. -/
inductive ThiefMove (s : State Θ T) (θ : Θ) : Option (Event T) → State Θ T → Prop where
  | top (hp : s.thief θ = .top) : ThiefMove s θ none (s.setThief θ (.bottom s.top))
  | some {t : Int} (hp : s.thief θ = .bottom t) (hsome : t < s.bottom) :
      ThiefMove s θ none (s.setThief θ (.array t))
  | array {t : Int} (hp : s.thief θ = .array t) :
      ThiefMove s θ none (s.setThief θ (.take t s.array))
  | take {t : Int} {a : Nat} (hp : s.thief θ = .take t a) :
      ThiefMove s θ none (s.setThief θ (.cas t ((s.arrays a).load t)))
  | stolen {t : Int} {out : T} (hp : s.thief θ = .cas t out) (hwon : s.top = t) :
      ThiefMove s θ (.some (.stolen out)) ({ s with top := t + 1 }.setThief θ .idle)
  | none : ThiefMove s θ none (s.setThief θ .idle)

omit [Inhabited T] in
theorem thief_moves {s s' : State Θ T} {θ : Θ} (h : s.goThief θ = some s') :
    ThiefMove s θ (s.thiefEvent θ) s' := by
  simp only [State.goThief] at h
  simp only [State.thiefEvent]
  split at h <;> rename_i hp <;> simp only [hp]
  · cases h
  · cases h
    exact .top hp
  · cases h
    split
    · exact .some hp ‹_›
    · exact .none
  · cases h
    exact .array hp
  · cases h
    exact .take hp
  · split at h <;> rename_i ht <;> cases h
    · rw [if_pos ht]
      exact .stolen hp ht
    · rw [if_neg ht]
      exact .none

end ChaseLev
