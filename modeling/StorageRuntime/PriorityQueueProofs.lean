import Mathlib.Data.List.MinMax
import Mathlib.Data.List.Perm.Basic

/-!
# Priority queues — popping while the top passes a test

A priority queue is known by its `contents` (in no particular order) and by what its
operations do to them: `top` is an element that is less than no other one, and `pop`
removes it.  Among elements of which neither is less the queue is free to choose.

* `Queue less`: the operations with their laws.
* `popWhile p`: the loop that pops while the top passes the test `p`.
* **`popWhile_taken`**: if whatever precedes an element that passes also passes, the loop
  takes out exactly the elements that pass, in the order of the queue, and leaves the
  others in.
* `smallestFirst`: a queue with these laws, so that runs can be evaluated.
-/

namespace PriorityQueue

variable {α : Type}

/-- A priority queue: the top is a largest element by `less`. -/
structure Queue (less : α → α → Bool) where
  Carrier : Type
  contents : Carrier → List α
  empty : Carrier
  push : α → Carrier → Carrier
  top : Carrier → Option α
  pop : Carrier → Carrier
  contents_empty : contents empty = []
  push_perm : ∀ a q, (contents (push a q)).Perm (a :: contents q)
  top_none : ∀ q, top q = none → contents q = []
  top_max : ∀ q a, top q = some a → ∀ b ∈ contents q, less a b = false
  pop_perm : ∀ q a, top q = some a → (contents q).Perm (a :: contents (pop q))

namespace Queue

variable {less : α → α → Bool} (Q : Queue less)

def size (q : Q.Carrier) : Nat := (Q.contents q).length

/-- Pop while the top passes, `fuel` times at most. -/
def popLoop (p : α → Bool) : Nat → Q.Carrier → List α × Q.Carrier
  | 0, q => ([], q)
  | fuel + 1, q =>
    match Q.top q with
    | none => ([], q)
    | some a =>
      if p a = true then
        let rest := popLoop p fuel (Q.pop q)
        (a :: rest.1, rest.2)
      else ([], q)

/-- The loop pops each element at most once. -/
def popWhile (p : α → Bool) (q : Q.Carrier) : List α × Q.Carrier := Q.popLoop p (Q.size q) q

/-- The elements of `q` that pass are in `r.1`, in the order of the queue, and the others in
    the queue `r.2`. -/
structure Taken (p : α → Bool) (q : Q.Carrier) (r : List α × Q.Carrier) : Prop where
  perm : (Q.contents q).Perm (r.1 ++ Q.contents r.2)
  passed : ∀ a ∈ r.1, p a = true
  failed : ∀ b ∈ Q.contents r.2, p b = false
  ordered : r.1.Pairwise fun a b => less a b = false

variable {Q} {p : α → Bool} {q : Q.Carrier}

theorem size_pop {a : α} (h : Q.top q = some a) : Q.size q = Q.size (Q.pop q) + 1 := by
  have hlen := (Q.pop_perm q a h).length_eq
  exact hlen

/-- When no element passes, nothing is taken. -/
theorem Taken.nothing (h : ∀ b ∈ Q.contents q, p b = false) : Q.Taken p q ([], q) where
  perm := List.Perm.refl _
  passed := fun _ ha => absurd ha List.not_mem_nil
  failed := h
  ordered := List.Pairwise.nil

/-- The top, and then what is taken from the rest. -/
theorem Taken.cons {a : α} {r : List α × Q.Carrier} (htop : Q.top q = some a) (hp : p a = true)
    (h : Q.Taken p (Q.pop q) r) : Q.Taken p q (a :: r.1, r.2) where
  perm := (Q.pop_perm q a htop).trans (h.perm.cons a)
  passed := by
    intro b hb
    rcases List.mem_cons.mp hb with rfl | hb
    · exact hp
    · exact h.passed b hb
  failed := h.failed
  ordered := by
    refine List.pairwise_cons.mpr ⟨?_, h.ordered⟩
    intro b hb
    have hrest : b ∈ Q.contents (Q.pop q) := h.perm.mem_iff.mpr (List.mem_append_left _ hb)
    have hmem : b ∈ Q.contents q :=
      (Q.pop_perm q a htop).mem_iff.mpr (List.mem_cons_of_mem a hrest)
    exact Q.top_max q a htop b hmem

theorem popLoop_taken (hclosed : ∀ a b, less a b = false → p b = true → p a = true) :
    ∀ (fuel : Nat) (q : Q.Carrier), Q.size q ≤ fuel → Q.Taken p q (Q.popLoop p fuel q) := by
  intro fuel
  induction fuel with
  | zero =>
    intro q hfuel
    have hnil : Q.contents q = [] := List.length_eq_zero_iff.mp (Nat.le_zero.mp hfuel)
    refine Taken.nothing fun b hb => ?_
    rw [hnil] at hb
    exact absurd hb List.not_mem_nil
  | succ fuel ih =>
    intro q hfuel
    rw [popLoop]
    split
    next htop =>
      refine Taken.nothing fun b hb => ?_
      rw [Q.top_none q htop] at hb
      exact absurd hb List.not_mem_nil
    next a htop =>
      have hsize := size_pop htop
      split
      next hp => exact (ih (Q.pop q) (by omega)).cons htop hp
      next hp =>
        -- nothing below the top can pass when the top does not
        refine Taken.nothing fun b hb => ?_
        rw [Bool.eq_false_iff]
        exact fun hb' => hp (hclosed a b (Q.top_max q a htop b hb) hb')

/-- **The loop takes out exactly the elements that pass.** -/
theorem popWhile_taken (hclosed : ∀ a b, less a b = false → p b = true → p a = true)
    (q : Q.Carrier) : Q.Taken p q (Q.popWhile p q) :=
  popLoop_taken hclosed (Q.size q) q (Nat.le_refl _)

end Queue

/-! ## A queue -/

variable {κ : Type} [LinearOrder κ] [DecidableEq α]

/-- Remove one element with the smallest key. -/
def dropMin (key : α → κ) (q : List α) : List α :=
  match q.argmin key with
  | none => q
  | some a => q.erase a

theorem perm_dropMin {key : α → κ} {q : List α} {a : α} (h : q.argmin key = some a) :
    q.Perm (a :: dropMin key q) := by
  rw [dropMin, h]
  exact List.perm_cons_erase (List.argmin_mem h)

/-- The elements as they came; the one with the smallest key is looked for each time. -/
def smallestFirst (key : α → κ) : Queue fun a b => decide (key b < key a) where
  Carrier := List α
  contents := id
  empty := []
  push a q := a :: q
  top q := q.argmin key
  pop := dropMin key
  contents_empty := rfl
  push_perm a q := List.Perm.refl (a :: q)
  top_none _ h := List.argmin_eq_none.mp h
  top_max _ _ h _ hb := decide_eq_false (not_lt.mpr (List.le_of_mem_argmin hb h))
  pop_perm _ _ h := perm_dropMin h

end PriorityQueue
