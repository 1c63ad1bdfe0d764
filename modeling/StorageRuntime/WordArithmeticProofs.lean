import Mathlib.Data.Int.ModEq
import Mathlib.Algebra.Order.Group.Int

/-!
# Word arithmetic — unsigned 64-bit words as natural numbers

A machine word is a natural number below `wordSize`; sums and differences
wrap around.  The lemmas say where they do not: a sum below `wordSize` is the
sum, and the difference to a number that is not larger is the difference.

A ring of `c` slots keeps the index `i` in slot `i % c`; two indices of one
window of the ring's size have different slots (`mod_ne_of_window`).
-/

namespace WordArithmetic

/-- The number of values of a word. -/
def wordSize : Nat := 2 ^ 64

/-- Wrapping addition. -/
def wadd (a b : Nat) : Nat := (a + b) % wordSize

/-- Wrapping subtraction. -/
def wsub (a b : Nat) : Nat := (a + (wordSize - b)) % wordSize

theorem wadd_eq {a b : Nat} (h : a + b < wordSize) : wadd a b = a + b :=
  Nat.mod_eq_of_lt h

theorem wsub_eq {a b : Nat} (hba : b ≤ a) (ha : a < wordSize) : wsub a b = a - b := by
  have hsum : a + (wordSize - b) = (a - b) + wordSize := by omega
  rw [wsub, hsum, Nat.add_mod_right]
  exact Nat.mod_eq_of_lt (by omega)

theorem wsub_self {a : Nat} (ha : a < wordSize) : wsub a a = 0 := by
  rw [wsub_eq (Nat.le_refl a) ha, Nat.sub_self]

theorem wadd_lt (a b : Nat) : wadd a b < wordSize := Nat.mod_lt _ (by decide)

theorem wsub_lt (a b : Nat) : wsub a b < wordSize := Nat.mod_lt _ (by decide)

/-- The distance to a word that was reached by counting. -/
theorem wsub_wadd {a n : Nat} (ha : a < wordSize) (hn : n < wordSize) : wsub (wadd a n) a = n := by
  simp only [wsub, wadd, wordSize] at *
  omega

/-- Counting the distance leads there. -/
theorem wadd_wsub {a b : Nat} (ha : a < wordSize) (hb : b < wordSize) : wadd a (wsub b a) = b := by
  simp only [wsub, wadd, wordSize] at *
  omega

theorem wadd_assoc (a b c : Nat) : wadd (wadd a b) c = wadd a (b + c) := by
  rw [wadd, wadd, wadd, Nat.mod_add_mod, Nat.add_assoc]

/-- Two indices of a window no longer than the ring are in different slots. -/
theorem mod_ne_of_window {lo i j c : Nat} (hi : lo ≤ i ∧ i < lo + c) (hj : lo ≤ j ∧ j < lo + c)
    (hij : i ≠ j) : i % c ≠ j % c := by
  intro h
  have hmod : i ≡ j [MOD c] := h
  exact hij (hmod.eq_of_abs_lt (by rw [abs_lt]; omega))

end WordArithmetic
