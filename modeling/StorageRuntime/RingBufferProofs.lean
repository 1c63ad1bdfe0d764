import StorageRuntime.WordArithmeticProofs
import Mathlib.Data.List.Basic
import Mathlib.Logic.Function.Basic

/-!
# Ring buffers — a window of positions kept in `c` slots

A ring of `c` slots keeps position `i` of an endless sequence in slot `i % c`.
`window c slots lo n` reads the `n` positions from `lo` on, as a list.  The
lemmas say what the two ends of a queue do to it: writing the next position
appends (`window_push`), moving `lo` drops (`window_drop`).

Positions are kept in words.  Where `c` divides the number of words the slot of a
word is the slot of the position (`window_wadd`), so nothing is lost when the
counters wrap around.

`segment f lo hi` is the same for a sequence over all integers.
-/

namespace RingBuffer

open Function WordArithmetic

variable {T : Type} {c : Nat} {slots : Nat → T}

/-- The `n` positions from `lo` on. -/
def window (c : Nat) (slots : Nat → T) (lo n : Nat) : List T :=
  (List.range n).map fun i => slots ((lo + i) % c)

@[simp] theorem window_zero (lo : Nat) : window c slots lo 0 = [] := rfl

@[simp] theorem length_window (lo n : Nat) : (window c slots lo n).length = n := by
  simp [window]

theorem window_succ (lo n : Nat) :
    window c slots lo (n + 1) = window c slots lo n ++ [slots ((lo + n) % c)] := by
  simp [window, List.range_succ]

theorem window_cons (lo n : Nat) :
    window c slots lo (n + 1) = slots (lo % c) :: window c slots (lo + 1) n := by
  rw [window, List.range_succ_eq_map, List.map_cons, List.map_map]
  refine congrArg (_ :: ·) (List.map_congr_left fun i _ => ?_)
  show slots ((lo + (i + 1)) % c) = slots ((lo + 1 + i) % c)
  rw [Nat.add_assoc, Nat.add_comm 1 i]

theorem window_take (lo n m : Nat) :
    (window c slots lo n).take m = window c slots lo (min m n) := by
  rw [window, ← List.map_take, List.take_range]
  rfl

/-- Moving the lower end drops from the front. -/
theorem window_drop (lo n m : Nat) :
    (window c slots lo n).drop m = window c slots (lo + m) (n - m) := by
  induction m generalizing lo n with
  | zero => rfl
  | succ m ih =>
    cases n with
    | zero => simp
    | succ n =>
      rw [window_cons, List.drop_succ_cons, ih, Nat.add_assoc, Nat.add_comm 1 m,
        Nat.add_sub_add_right]

/-- Only the slot of the lower end counts. -/
theorem window_congr {lo lo' : Nat} (h : lo % c = lo' % c) (n : Nat) :
    window c slots lo n = window c slots lo' n := by
  refine List.map_congr_left fun i _ => ?_
  rw [Nat.add_mod, h, ← Nat.add_mod]

/-- A write outside the window is not seen. -/
theorem window_update_of_ne {lo n j : Nat} {x : T} (h : ∀ i, i < n → (lo + i) % c ≠ j) :
    window c (update slots j x) lo n = window c slots lo n := by
  refine List.map_congr_left fun i hi => ?_
  exact update_of_ne (h i (List.mem_range.mp hi)) ..

/-- **Writing the next position appends**, while the window is shorter than the ring. -/
theorem window_push {lo n : Nat} (hn : n < c) (x : T) :
    window c (update slots ((lo + n) % c) x) lo (n + 1) = window c slots lo n ++ [x] := by
  rw [window_succ, update_self, window_update_of_ne]
  intro i hi
  have hlo : lo ≤ lo + i ∧ lo + i < lo + c := by omega
  exact mod_ne_of_window hlo (by omega) (by omega)

/-! ## Positions kept in words -/

/-- The slot of a wrapped sum. -/
theorem wadd_mod (hc : c ∣ wordSize) (a b : Nat) : wadd a b % c = (a + b) % c :=
  Nat.mod_mod_of_dvd _ hc

theorem window_wadd (hc : c ∣ wordSize) (lo m n : Nat) :
    window c slots (wadd lo m) n = window c slots (lo + m) n :=
  window_congr (wadd_mod hc lo m) n

/-- A power of two that fits a word divides the number of words. -/
theorem pow_dvd_wordSize {k : Nat} (hk : k ≤ 64) : 2 ^ k ∣ wordSize :=
  Nat.pow_dvd_pow 2 hk

/-! ## Segments of an endless sequence -/

section Segments

variable {f g : Int → T} {lo hi : Int}

/-- The entries from `lo` up to `hi`. -/
def segment (f : Int → T) (lo hi : Int) : List T :=
  (List.range (hi - lo).toNat).map fun k : Nat => f (lo + (k : Int))

theorem segment_nil (h : hi ≤ lo) : segment f lo hi = [] := by
  rw [segment, Int.toNat_of_nonpos (by omega)]
  rfl

theorem segment_congr (h : ∀ i, lo ≤ i → i < hi → f i = g i) :
    segment f lo hi = segment g lo hi := by
  refine List.map_congr_left fun k hk => ?_
  have hk := List.mem_range.mp hk
  exact h _ (by omega) (by omega)

theorem segment_concat (h : lo ≤ hi) : segment f lo (hi + 1) = segment f lo hi ++ [f hi] := by
  have hlen : (hi + 1 - lo).toNat = (hi - lo).toNat + 1 := by omega
  have hlast : lo + ((hi - lo).toNat : Int) = hi := by omega
  rw [segment, hlen, List.range_succ, List.map_append, List.map_singleton, hlast]
  rfl

theorem segment_cons (h : lo < hi) : segment f lo hi = f lo :: segment f (lo + 1) hi := by
  have hlen : (hi - lo).toNat = (hi - (lo + 1)).toNat + 1 := by omega
  rw [segment, hlen, List.range_succ_eq_map, List.map_cons, List.map_map]
  have hfirst : lo + ((0 : Nat) : Int) = lo := by omega
  rw [hfirst]
  refine congrArg (f lo :: ·) (List.map_congr_left fun k _ => ?_)
  exact congrArg f (by omega)

end Segments

end RingBuffer
