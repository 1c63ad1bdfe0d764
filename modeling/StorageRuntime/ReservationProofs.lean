import Mathlib.Logic.Function.Basic
import Mathlib.Data.List.Basic

/-!
# Reservations — tickets handed out at one end and closed at the other

Two counters `lo ≤ hi` bound a window of indices.  An agent RESERVES the next
piece `[hi, e)` by moving `hi` to `e`; it CLOSES the piece that starts at `lo`
by moving `lo` to its end.  `Tiling lo hi c` says that the pieces `c a` that
agents hold at the moment lie side by side and fill the window: that is what
makes it safe for each holder to work on its piece alone, and what makes the
counters meet when nobody holds anything (`Tiling.eq_of_none`).

A log collects what was reserved, in order: `Segment log h xs` says that `xs`
stands in the log at position `h`.
-/

namespace Reservation

open Function

variable {ι α : Type}

/-! ## Tilings -/

/-- The pieces `c i = some (s, e)`, read as intervals `[s, e)`, tile the window from `lo`
    to `hi`. -/
structure Tiling (lo hi : Nat) (c : ι → Option (Nat × Nat)) : Prop where
  le : lo ≤ hi
  within : ∀ i s e, c i = some (s, e) → lo ≤ s ∧ s < e ∧ e ≤ hi
  disjoint : ∀ i j s e s' e', c i = some (s, e) → c j = some (s', e') → i ≠ j →
    e ≤ s' ∨ e' ≤ s
  cover : ∀ k, lo ≤ k → k < hi → ∃ i s e, c i = some (s, e) ∧ s ≤ k ∧ k < e

/-- The empty window. -/
theorem Tiling.empty (k : Nat) : Tiling k k (fun _ : ι => none) where
  le := Nat.le_refl k
  within _ _ _ h := nomatch h
  disjoint _ _ _ _ _ _ h := nomatch h
  cover _ hj hk := absurd hk (Nat.not_lt_of_le hj)

/-- When nobody holds a piece the window is empty. -/
theorem Tiling.eq_of_none {lo hi : Nat} {c : ι → Option (Nat × Nat)} (h : Tiling lo hi c)
    (hc : ∀ i, c i = none) : lo = hi := by
  rcases Nat.eq_or_lt_of_le h.le with heq | hlt
  · exact heq
  · obtain ⟨i, s, e, hi, -⟩ := h.cover lo (Nat.le_refl lo) hlt
    rw [hc i] at hi
    cases hi

/-- Only one agent holds the first piece. -/
theorem Tiling.unique_first {lo hi : Nat} {c : ι → Option (Nat × Nat)} (h : Tiling lo hi c)
    {i j : ι} {e e' : Nat} (hi : c i = some (lo, e)) (hj : c j = some (lo, e')) : i = j := by
  by_contra hij
  obtain ⟨-, he, -⟩ := h.within i lo e hi
  obtain ⟨-, he', -⟩ := h.within j lo e' hj
  rcases h.disjoint i j lo e lo e' hi hj hij with hle | hle
  · exact absurd he (Nat.not_lt_of_le hle)
  · exact absurd he' (Nat.not_lt_of_le hle)

section Update

variable [DecidableEq ι]

variable {i : ι} {c : ι → Option (Nat × Nat)} {lo hi : Nat}

/-- Reserving the next piece. -/
theorem Tiling.reserve {e : Nat} (h : Tiling lo hi c) (hfree : c i = none) (he : hi < e) :
    Tiling lo e (update c i (some (hi, e))) := by
  refine ⟨Nat.le_of_lt (Nat.lt_of_le_of_lt h.le he), ?_, ?_, ?_⟩
  · intro j s f hj
    by_cases hji : j = i
    · subst hji
      rw [update_self] at hj
      cases hj
      exact ⟨h.le, he, Nat.le_refl _⟩
    · rw [update_of_ne hji] at hj
      obtain ⟨h₁, h₂, h₃⟩ := h.within j s f hj
      exact ⟨h₁, h₂, Nat.le_trans h₃ (Nat.le_of_lt he)⟩
  · intro j k s f s' f' hj hk hjk
    -- an older piece ends before the new one begins
    have hold : ∀ m s f, m ≠ i → update c i (some (hi, e)) m = some (s, f) →
        f ≤ hi := by
      intro m s f hm hms
      rw [update_of_ne hm] at hms
      exact (h.within m s f hms).2.2
    by_cases hji : j = i
    · subst hji
      rw [update_self] at hj
      cases hj
      exact .inr (hold k s' f' (Ne.symm hjk) hk)
    · by_cases hki : k = i
      · subst hki
        rw [update_self] at hk
        cases hk
        exact .inl (hold j s f hji hj)
      · rw [update_of_ne hji] at hj
        rw [update_of_ne hki] at hk
        exact h.disjoint j k s f s' f' hj hk hjk
  · intro k hlo hk
    rcases Nat.lt_or_ge k hi with hlt | hge
    · obtain ⟨j, s, f, hj, hs⟩ := h.cover k hlo hlt
      have hji : j ≠ i := by
        rintro rfl
        rw [hfree] at hj
        cases hj
      exact ⟨j, s, f, by rw [update_of_ne hji]; exact hj, hs⟩
    · exact ⟨i, hi, e, update_self .., hge, hk⟩

/-- Closing the first piece. -/
theorem Tiling.close {e : Nat} (h : Tiling lo hi c) (hfirst : c i = some (lo, e)) :
    Tiling e hi (update c i none) := by
  obtain ⟨-, hlt, hle⟩ := h.within i lo e hfirst
  -- the pieces that stay begin where the first one ends, or later
  have hstay : ∀ j s f, update c i none j = some (s, f) →
      j ≠ i ∧ c j = some (s, f) := by
    intro j s f hj
    by_cases hji : j = i
    · subst hji
      rw [update_self] at hj
      cases hj
    · rw [update_of_ne hji] at hj
      exact ⟨hji, hj⟩
  refine ⟨hle, ?_, ?_, ?_⟩
  · intro j s f hj
    obtain ⟨hji, hc⟩ := hstay j s f hj
    obtain ⟨h₁, h₂, h₃⟩ := h.within j s f hc
    refine ⟨?_, h₂, h₃⟩
    rcases h.disjoint i j lo e s f hfirst hc (Ne.symm hji) with h₄ | h₄
    · exact h₄
    · omega
  · intro j k s f s' f' hj hk hjk
    exact h.disjoint j k s f s' f' (hstay j s f hj).2 (hstay k s' f' hk).2 hjk
  · intro k hlo hk
    obtain ⟨j, s, f, hj, hs, hf⟩ := h.cover k (by omega) hk
    have hji : j ≠ i := by
      rintro rfl
      obtain ⟨rfl, rfl⟩ := Prod.mk.inj (Option.some.inj (hfirst.symm.trans hj))
      omega
    exact ⟨j, s, f, by rw [update_of_ne hji]; exact hj, hs, hf⟩

/-- An agent that keeps its piece changes nothing. -/
theorem Tiling.keep (h : Tiling lo hi c) {p : Option (Nat × Nat)} (hp : p = c i) :
    Tiling lo hi (update c i p) := by
  rw [hp, update_eq_self]
  exact h

end Update

/-! ## Segments of a log -/

/-- The list `xs` stands in `log` at position `h`. -/
def Segment (log : List α) (h : Nat) (xs : List α) : Prop :=
  ∀ j x, xs[j]? = some x → log[h + j]? = some x

theorem segment_nil (log : List α) (h : Nat) : Segment log h [] := by
  intro j x hx
  cases hx

/-- What is appended stands at the end. -/
theorem segment_append (log xs : List α) : Segment (log ++ xs) log.length xs := by
  intro j x hx
  rw [List.getElem?_append_right (Nat.le_add_right ..), Nat.add_sub_cancel_left]
  exact hx

variable {xs log : List α} {h e : Nat}

/-- A log that grows keeps its segments. -/
theorem Segment.mono {log' : List α} (hs : Segment log h xs) (hlog : log <+: log') :
    Segment log' h xs := by
  intro j x hx
  have hx' := hs j x hx
  obtain ⟨more, rfl⟩ := hlog
  obtain ⟨hlt, -⟩ := List.getElem?_eq_some_iff.mp hx'
  rw [List.getElem?_append_left hlt]
  exact hx'

/-- A segment grows by the next entry of the log. -/
theorem Segment.snoc (hs : Segment log h xs) {x : α} (hx : log[h + xs.length]? = some x) :
    Segment log h (xs ++ [x]) := by
  intro j y hy
  rcases Nat.lt_or_ge j xs.length with hlt | hge
  · rw [List.getElem?_append_left hlt] at hy
    exact hs j y hy
  · obtain ⟨hj, hxy⟩ := List.getElem?_eq_some_iff.mp hy
    obtain rfl : j = xs.length := by simp at hj; omega
    rw [hx]
    simpa using hxy

/-- A segment is a piece of the log. -/
theorem Segment.eq_take_drop (hs : Segment log h xs) : xs = (log.drop h).take xs.length := by
  apply List.ext_getElem?
  intro j
  rcases Nat.lt_or_ge j xs.length with hlt | hge
  · rw [List.getElem?_take_of_lt hlt, List.getElem?_drop]
    rw [List.getElem?_eq_getElem hlt]
    exact (hs j _ (List.getElem?_eq_getElem hlt)).symm
  · rw [List.getElem?_eq_none hge, List.getElem?_eq_none]
    exact Nat.le_trans (List.length_take_le ..) hge

/-! ## Pieces of a log -/

/-- The entries of the log at the positions from `h` up to `e`. -/
def piece (log : List α) (h e : Nat) : List α := (log.drop h).take (e - h)

theorem piece_self (log : List α) (h : Nat) : piece log h h = [] := by
  simp [piece]

theorem length_piece (he : e ≤ log.length) : (piece log h e).length = e - h := by
  simp only [piece, List.length_take, List.length_drop]
  omega

/-- A log that grows keeps its pieces. -/
theorem piece_grow (more : List α) (he : e ≤ log.length) :
    piece (log ++ more) h e = piece log h e := by
  rcases Nat.le_total e h with heh | hhe
  · simp [piece, Nat.sub_eq_zero_of_le heh]
  · rw [piece, piece, List.drop_append_of_le_length (by omega),
      List.take_append_of_le_length (by rw [List.length_drop]; omega)]

/-- What is appended is the last piece. -/
theorem piece_end (log xs : List α) :
    piece (log ++ xs) log.length (log.length + xs.length) = xs := by
  simp [piece]

theorem take_piece {n : Nat} (hn : h + n ≤ e) : (piece log h e).take n = piece log h (h + n) := by
  rw [piece, piece, List.take_take, Nat.add_sub_cancel_left, Nat.min_eq_left (by omega)]

theorem drop_piece (log : List α) (h e n : Nat) : (piece log h e).drop n = piece log (h + n) e := by
  rw [piece, piece, List.drop_take, List.drop_drop, Nat.sub_sub]

/-- Adjacent pieces. -/
theorem piece_append {m : Nat} (hm : h ≤ m) (he : m ≤ e) :
    piece log h m ++ piece log m e = piece log h e := by
  obtain ⟨n, rfl⟩ := Nat.exists_eq_add_of_le hm
  rw [← take_piece he, ← drop_piece, List.take_append_drop]

theorem Segment.eq_piece (hs : Segment log h xs) : xs = piece log h (h + xs.length) := by
  rw [piece, Nat.add_sub_cancel_left]
  exact hs.eq_take_drop

end Reservation
