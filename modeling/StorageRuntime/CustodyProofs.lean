import StorageRuntime.InterleavingProofs

/-!
# Custody — blocks on a shared list and in the hands of agents

Blocks are given to a pool and returned by it.  Inside, a block is on the shared list or in
the hands of one agent that is putting it there or taking it away; `Custody` says that it is
in one place only, and that each return ends one stay.  Agents pass blocks to and from the
list (`Custody.move`), take a new block in (`Custody.give`) and let one out
(`Custody.release`).
-/

namespace BlockCustody

open Function Interleaving

variable {ι B : Type}

inductive Event (B : Type) where
  | given (b : B)
  | returned (b : B)
deriving DecidableEq

/-- The block was given to the pool and not returned since. -/
def Inside (b : B) : List (Event B) → Prop
  | [] => False
  | .given c :: t => c = b ∨ Inside b t
  | .returned c :: t => c ≠ b ∧ Inside b t

/-- A block is given only while it is outside, and returned only while it is inside. -/
def ReturnedOnce : List (Event B) → Prop
  | [] => True
  | .given b :: t => ¬ Inside b t ∧ ReturnedOnce t
  | .returned b :: t => Inside b t ∧ ReturnedOnce t

instance decidableInside [DecidableEq B] (b : B) : (t : List (Event B)) → Decidable (Inside b t)
  | [] => inferInstanceAs (Decidable False)
  | .given _ :: t => @instDecidableOr _ _ _ (decidableInside b t)
  | .returned _ :: t => @instDecidableAnd _ _ _ (decidableInside b t)

instance decidableReturnedOnce [DecidableEq B] : (t : List (Event B)) → Decidable (ReturnedOnce t)
  | [] => inferInstanceAs (Decidable True)
  | .given _ :: t => @instDecidableAnd _ _ _ (decidableReturnedOnce t)
  | .returned _ :: t => @instDecidableAnd _ _ _ (decidableReturnedOnce t)

/-- The blocks inside are on the list `l` or in the hands of one agent. -/
structure Custody (t : List (Event B)) (l : List B) (hands : ι → List B) : Prop where
  inside : ∀ b, Inside b t ↔ b ∈ l ∨ ∃ a, b ∈ hands a
  apart : ∀ a, ∀ b ∈ hands a, b ∉ l
  alone : ∀ a a' b, b ∈ hands a → b ∈ hands a' → a = a'
  once : ReturnedOnce t

theorem custody_nil : Custody [] [] (fun _ : ι => ([] : List B)) :=
  ⟨fun _ => iff_of_false id (by simp), nofun, nofun, trivial⟩

variable [DecidableEq ι] {t : List (Event B)} {l l' x : List B} {hands : ι → List B} {a : ι} {b : B}

theorem mem_update {i : ι} : b ∈ update hands a x i ↔ (i = a ∧ b ∈ x) ∨ (i ≠ a ∧ b ∈ hands i) := by
  grind [update_apply]

/-- What the agents hold is a function of their states, of which one changes. -/
theorem custody_update {α : Type} {f : α → List B} {g : ι → α} {p : α}
    (h : Custody t l (update (fun i => f (g i)) a (f p))) :
    Custody t l fun i => f (update g a p i) :=
  (congrArg (Custody t l) (comp_update f g a p)).mpr h

-- In the next three, what is in other hands than those of `a` is untouched, so that each goal
-- is about one block and one or two agents.

/-- An agent passes blocks between its hands and the list. -/
theorem Custody.move (h : Custody t l hands) (hsame : ∀ b, b ∈ l' ∨ b ∈ x ↔ b ∈ l ∨ b ∈ hands a)
    (hapart : ∀ b ∈ x, b ∉ l') : Custody t l' (update hands a x) := by
  obtain ⟨hinside, happart, halone, honce⟩ := h
  refine ⟨fun b => ?_, fun i b => ?_, fun i j b => ?_, honce⟩ <;> simp only [mem_update] <;> grind

/-- An agent with empty hands gets a block from outside. -/
theorem Custody.give (h : Custody t l hands) (hb : ¬ Inside b t) (ha : hands a = []) :
    Custody (.given b :: t) l (update hands a [b]) := by
  obtain ⟨hinside, happart, halone, honce⟩ := h
  refine ⟨fun b => ?_, fun i b => ?_, fun i j b => ?_, hb, honce⟩ <;>
    simp only [mem_update, Inside] <;> grind

/-- An agent lets go of the only block it has. -/
theorem Custody.release (h : Custody t l hands) (ha : hands a = [b]) :
    Custody (.returned b :: t) l (update hands a []) := by
  obtain ⟨hinside, happart, halone, honce⟩ := h
  have hb : Inside b t := (hinside b).mpr (.inr ⟨a, by rw [ha]; exact List.mem_singleton_self b⟩)
  refine ⟨fun b => ?_, fun i b => ?_, fun i j b => ?_, hb, honce⟩ <;>
    simp only [mem_update, Inside] <;> grind

end BlockCustody
