import Mathlib.Data.List.Range
import StorageRuntime.WordArithmeticProofs

/-!
# Searching a list in turn

A search that begins behind position `last` and goes round the list once.  `last` need
not be a position of the list: it may be left over from a longer one.

**`find_eq_some`**: what is found stands in the list and is what was searched for.
**`find_ne_none`**: the search goes past every position, so it finds something if there
is something to be found.
**`find_closer`**: the search does not go past what is searched for.

In a sequence of searches, each of which begins behind what the last one found (`visits`),
a position where every search could stop is found in `n` searches (`mem_visits`), and
between two times that it is found, every other such position is found exactly once
(`count_visits`).
-/

namespace CyclicSearch

variable {α : Type}

/-- The element at `offset` behind `last`, if it is one that is searched for. -/
def probe (p : α → Bool) (xs : List α) (last offset : Nat) : Option (Nat × α) :=
  match xs[(last + offset) % xs.length]? with
  | none => none
  | some x => if p x then some ((last + offset) % xs.length, x) else none

/-- `for (offset = 1; offset <= n; ++offset)`: the first one found, with its position. -/
def find (p : α → Bool) (xs : List α) (last : Nat) : Option (Nat × α) :=
  (List.range' 1 xs.length).findSome? (probe p xs last)

variable {p : α → Bool} {xs : List α} {last idx : Nat} {x : α}

theorem find_eq_some (h : find p xs last = some (idx, x)) : xs[idx]? = some x ∧ p x = true := by
  obtain ⟨offset, -, hprobe⟩ := List.exists_of_findSome?_eq_some h
  rw [probe] at hprobe
  split at hprobe
  next => cases hprobe
  next hget =>
    split at hprobe
    next hp =>
      cases hprobe
      exact ⟨hget, hp⟩
    next => cases hprobe

/-- Some offset of the search leads to each position. -/
theorem exists_offset {n j : Nat} (last : Nat) (hj : j < n) :
    ∃ offset ∈ List.range' 1 n, (last + offset) % n = j := by
  have hlt : last % n < n := Nat.mod_lt _ (by omega)
  -- one round further if the position lies at or before the last one
  rcases Nat.lt_or_ge (last % n) j with h | h
  · refine ⟨j - last % n, List.mem_range'_1.mpr ⟨by omega, by omega⟩, ?_⟩
    rw [Nat.add_mod, Nat.mod_eq_of_lt (by omega : j - last % n < n),
      show last % n + (j - last % n) = j by omega, Nat.mod_eq_of_lt hj]
  · refine ⟨n - last % n + j, List.mem_range'_1.mpr ⟨by omega, by omega⟩, ?_⟩
    rw [← Nat.mod_add_mod, show last % n + (n - last % n + j) = j + n by omega,
      Nat.add_mod_right, Nat.mod_eq_of_lt hj]

/-- Position `j` is `offset` behind `last`, in a round over `n` positions. -/
structure Ahead (n last j offset : Nat) : Prop where
  pos : 1 ≤ offset
  le : offset ≤ n
  lands : (last + offset) % n = j

theorem exists_ahead {n j : Nat} (last : Nat) (hj : j < n) : ∃ offset, Ahead n last j offset := by
  obtain ⟨offset, hmem, hlands⟩ := exists_offset last hj
  obtain ⟨hpos, hlt⟩ := List.mem_range'_1.mp hmem
  exact ⟨offset, hpos, by omega, hlands⟩

/-- A whole round leads back. -/
theorem ahead_self {n j : Nat} (hj : j < n) : Ahead n j j n where
  pos := Nat.succ_le_of_lt (Nat.lt_of_le_of_lt (Nat.zero_le j) hj)
  le := Nat.le_refl n
  lands := by rw [Nat.add_mod_right, Nat.mod_eq_of_lt hj]

theorem Ahead.unique {n last j a b : Nat} (ha : Ahead n last j a) (hb : Ahead n last j b) :
    a = b := by
  obtain ⟨ha₁, han, hla⟩ := ha
  obtain ⟨hb₁, hbn, hlb⟩ := hb
  by_contra hne
  -- both lie in the window of `n` places after `last`
  have hwa : last + 1 ≤ last + a ∧ last + a < last + 1 + n := by omega
  have hwb : last + 1 ≤ last + b ∧ last + b < last + 1 + n := by omega
  exact WordArithmetic.mod_ne_of_window hwa hwb (by omega) (hla.trans hlb.symm)

/-- From a position on the way. -/
theorem Ahead.sub {n last mid j a b : Nat} (ha : Ahead n last mid a) (hb : Ahead n last j b)
    (hlt : a < b) : Ahead n mid j (b - a) where
  pos := by omega
  le := Nat.le_trans (Nat.sub_le b a) hb.le
  lands := by
    rw [← ha.lands, Nat.mod_add_mod, show last + a + (b - a) = last + b by omega]
    exact hb.lands

/-- **The search does not go past what is searched for.** -/
theorem find_closer {j D : Nat} {y : α} (h : find p xs last = some (idx, x))
    (hget : xs[j]? = some y) (hp : p y = true) (hj : Ahead xs.length last j D) :
    ∃ offset, Ahead xs.length last idx offset ∧ offset ≤ D := by
  obtain ⟨before, offset, after, hrange, hprobe, hnone⟩ := List.findSome?_eq_some_iff.mp h
  have hmem : offset ∈ List.range' 1 xs.length := by
    rw [hrange]
    exact List.mem_append_right _ List.mem_cons_self
  obtain ⟨hpos, hle⟩ := List.mem_range'_1.mp hmem
  have hlands : (last + offset) % xs.length = idx := by
    rw [probe] at hprobe
    split at hprobe
    next => cases hprobe
    next =>
      split at hprobe
      next => exact (Prod.mk.inj (Option.some.inj hprobe)).1
      next => cases hprobe
  refine ⟨offset, ⟨hpos, by omega, hlands⟩, ?_⟩
  by_contra hlt
  -- the search would have stopped at `D` already
  have hbefore : D ∈ before := by
    have hD : D ∈ List.range' 1 xs.length :=
      List.mem_range'_1.mpr ⟨hj.pos, by have := hj.le; omega⟩
    have hsorted : (List.range' 1 xs.length).Pairwise (· < ·) := List.pairwise_lt_range'
    rw [hrange] at hD hsorted
    rcases List.mem_append.mp hD with hD | hD
    · exact hD
    · have hafter := (List.pairwise_cons.mp (List.pairwise_append.mp hsorted).2.1).1
      rcases List.mem_cons.mp hD with rfl | hD
      · exact absurd (Nat.le_refl D) hlt
      · exact absurd (Nat.le_of_lt (hafter D hD)) hlt
  have hD := hnone D hbefore
  rw [probe, hj.lands, hget] at hD
  simp only [hp, if_true] at hD
  cases hD

theorem find_ne_none (last : Nat) (hmem : x ∈ xs) (hp : p x = true) : find p xs last ≠ none := by
  intro hnone
  obtain ⟨j, hj, rfl⟩ := List.mem_iff_getElem.mp hmem
  obtain ⟨offset, hoffset, hidx⟩ := exists_offset last hj
  have hprobe := List.findSome?_eq_none_iff.mp hnone offset hoffset
  rw [probe, hidx, List.getElem?_eq_getElem hj] at hprobe
  simp only [hp, if_true] at hprobe
  cases hprobe

/-! ## One search after the other -/

/-- A search over `n` elements could stop at `j`. -/
def Stops (p : α → Bool) (n j : Nat) (xs : List α) : Prop :=
  xs.length = n ∧ ∃ y, xs[j]? = some y ∧ p y = true

/-- The positions that are found, each search beginning behind the last one. -/
def visits (p : α → Bool) : Nat → List (List α) → List Nat
  | _, [] => []
  | last, xs :: rest =>
    match find p xs last with
    | none => visits p last rest
    | some (idx, _) => idx :: visits p idx rest

variable {n j : Nat}

/-- Where a search could stop it finds something. -/
theorem Stops.visits_cons (h : Stops p n j xs) (last : Nat) (rest : List (List α)) :
    ∃ idx x, find p xs last = some (idx, x) ∧ idx < n ∧
      visits p last (xs :: rest) = idx :: visits p idx rest := by
  obtain ⟨hlen, y, hget, hp⟩ := h
  cases hfind : find p xs last with
  | none => exact absurd hfind (find_ne_none last (List.mem_of_getElem? hget) hp)
  | some found =>
    obtain ⟨idx, x⟩ := found
    have hidx : idx < xs.length := (List.getElem?_eq_some_iff.mp (find_eq_some hfind).1).1
    refine ⟨idx, x, rfl, hlen ▸ hidx, ?_⟩
    rw [visits, hfind]

/-- What a search does to the distance of a position where it could stop. -/
theorem Stops.closer {D : Nat} (h : Stops p n j xs) (hj : Ahead n last j D)
    (hfind : find p xs last = some (idx, x)) :
    ∃ offset, Ahead n last idx offset ∧ offset ≤ D ∧ (offset = D ↔ idx = j) ∧
      (offset < D → Ahead n idx j (D - offset)) := by
  obtain ⟨rfl, y, hget, hp⟩ := h
  obtain ⟨offset, hidx, hle⟩ := find_closer hfind hget hp hj
  refine ⟨offset, hidx, hle, ?_, hidx.sub hj⟩
  constructor
  · rintro rfl
    exact hidx.lands.symm.trans hj.lands
  · rintro rfl
    exact hidx.unique hj

/-- **A position at distance `D` is found in `D` searches.** -/
theorem mem_visits : ∀ (lists : List (List α)) (last D : Nat), Ahead n last j D →
    D ≤ lists.length → (∀ xs ∈ lists, Stops p n j xs) → j ∈ visits p last lists := by
  intro lists
  induction lists with
  | nil =>
    intro last D hj hD
    have hpos := hj.pos
    rw [List.length_nil] at hD
    omega
  | cons xs rest ih =>
    intro last D hj hD hstops
    have hxs := hstops xs List.mem_cons_self
    obtain ⟨idx, x, hfind, -, hvisits⟩ := hxs.visits_cons last rest
    obtain ⟨offset, hoffset, hle, hiff, hsub⟩ := hxs.closer hj hfind
    rw [hvisits]
    by_cases hidx : idx = j
    · rw [hidx]
      exact List.mem_cons_self
    · have hlt : offset < D := Nat.lt_of_le_of_ne hle (mt hiff.mp hidx)
      have hpos := hoffset.pos
      refine List.mem_cons_of_mem idx (ih idx (D - offset) (hsub hlt) ?_ ?_)
      · rw [List.length_cons] at hD
        omega
      · intro ys hys
        exact hstops ys (List.mem_cons_of_mem xs hys)

/-- **Between two times that `q` is found, `r` is found exactly once**: as often as it lies
    before `q`. -/
theorem count_visits {q r : Nat} (hqr : r ≠ q) :
    ∀ (lists : List (List α)) (last Dq Dr : Nat) (mid : List Nat), Ahead n last q Dq →
      Ahead n last r Dr → (∀ xs ∈ lists, Stops p n q xs ∧ Stops p n r xs) →
      visits p last lists = mid ++ [q] → q ∉ mid → mid.count r = if Dr < Dq then 1 else 0 := by
  intro lists
  induction lists with
  | nil =>
    intro last Dq Dr mid _ _ _ hvisits
    exact absurd hvisits.symm (List.append_ne_nil_of_right_ne_nil mid (List.cons_ne_nil q []))
  | cons xs rest ih =>
    intro last Dq Dr mid hq hr hstops hvisits hmid
    obtain ⟨hsq, hsr⟩ := hstops xs List.mem_cons_self
    obtain ⟨idx, x, hfind, hidx, hcons⟩ := hsq.visits_cons last rest
    obtain ⟨offset, hoffset, hleq, hiffq, hsubq⟩ := hsq.closer hq hfind
    obtain ⟨offset', hoffset', hler, hiffr, hsubr⟩ := hsr.closer hr hfind
    obtain rfl : offset' = offset := hoffset'.unique hoffset
    rw [hcons] at hvisits
    cases mid with
    | nil =>
      -- `q` is found, and `r` is not before it
      have heq : idx = q := (List.cons.inj hvisits).1
      rw [if_neg (by rw [← hiffq.mpr heq]; omega)]
      rfl
    | cons m mid =>
      obtain ⟨rfl, hrest⟩ := List.cons.inj hvisits
      obtain ⟨hne, hmid⟩ := not_or.mp (mt List.mem_cons.mpr hmid)
      have hlt : offset' < Dq := Nat.lt_of_le_of_ne hleq (mt hiffq.mp (Ne.symm hne))
      have htail : ∀ ys ∈ rest, Stops p n q ys ∧ Stops p n r ys :=
        fun ys hys => hstops ys (List.mem_cons_of_mem xs hys)
      by_cases hir : idx = r
      · -- `r` is found, and is then a whole round away
        subst hir
        rw [List.count_cons_self, ih idx _ n mid (hsubq hlt) (ahead_self hidx) htail hrest hmid,
          if_neg (by have := hq.le; omega), if_pos (by omega)]
      · have hltr : offset' < Dr := Nat.lt_of_le_of_ne hler (mt hiffr.mp hir)
        rw [List.count_cons_of_ne hir, ih idx _ _ mid (hsubq hlt) (hsubr hltr) htail hrest hmid]
        by_cases hlt' : Dr < Dq
        · rw [if_pos hlt', if_pos (by omega)]
        · rw [if_neg hlt', if_neg (by omega)]

end CyclicSearch
