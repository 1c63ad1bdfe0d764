import Mathlib.Data.List.GetD
import Mathlib.Data.List.Nodup

/-!
# Growing vectors and keyed maps

A vector that is resized on demand is read through `List.getD`: an index beyond the end
reads as the default, so resizing with the default is invisible, and writing is an update
of one index (`getD_modify`, `getD_put`, `getD_clear`).

A map is a list of entries with distinct keys (`Keyed`).
-/

namespace Table

/-! ## Vectors -/

section Vector

variable {α : Type}

/-- The vector with at least `n` elements. -/
def resize (l : List α) (n : Nat) (d : α) : List α := l ++ List.replicate (n - l.length) d

/-- The vector with an element at `i`. -/
def ensure (l : List α) (i : Nat) (d : α) : List α := if i < l.length then l else resize l (i + 1) d

/-- Change the element at `i`. -/
def modify (l : List α) (i : Nat) (d : α) (f : α → α) : List α := (ensure l i d).modify i f

/-- Store at `i`. -/
def put (l : List α) (i : Nat) (d v : α) : List α := (ensure l i d).set i v

/-- Set the element at `i` to the default, if there is one. -/
def clear (l : List α) (i : Nat) (d : α) : List α := if i < l.length then l.set i d else l

/-- The same for several elements. -/
def clearAll (d : α) (is : List Nat) (l : List α) : List α := is.foldl (clear · · d) l

variable {l : List α} {i j n : Nat} {d v : α} {f : α → α}

theorem getD_resize : (resize l n d).getD j d = l.getD j d := by
  rw [resize]
  rcases Nat.lt_or_ge j l.length with hj | hj
  · rw [List.getD_append _ _ _ _ hj]
  · grind

theorem getD_ensure : (ensure l i d).getD j d = l.getD j d := by
  rw [ensure]
  split
  · rfl
  · exact getD_resize

theorem lt_length_resize (hi : i < n) : i < (resize l n d).length := by
  rw [resize, List.length_append, List.length_replicate]
  omega

theorem lt_length_ensure : i < (ensure l i d).length := by
  rw [ensure]
  split
  · assumption
  · exact lt_length_resize (Nat.lt_succ_self i)

theorem getD_modify : (modify l i d f).getD j d = if j = i then f (l.getD i d) else l.getD j d := by
  have hi : i < (ensure l i d).length := lt_length_ensure
  rw [modify, List.getD_eq_getElem?_getD, List.getElem?_modify]
  split
  · rename_i hij
    obtain rfl := hij
    rw [if_pos rfl, ← getD_ensure (i := i), List.getD_eq_getElem?_getD, List.getElem?_eq_getElem hi]
    rfl
  · rename_i hij
    rw [if_neg (Ne.symm hij), ← getD_ensure (i := i), List.getD_eq_getElem?_getD,
      show (fun a : α => a) = id from rfl, id_map]

theorem getD_set (hi : i < l.length) : (l.set i v).getD j d = if j = i then v else l.getD j d := by
  rw [List.getD_eq_getElem?_getD]
  rcases eq_or_ne j i with rfl | hne
  · rw [if_pos rfl, List.getElem?_set_self hi]
    rfl
  · rw [if_neg hne, List.getElem?_set_ne (Ne.symm hne), ← List.getD_eq_getElem?_getD]

theorem lt_length_grown (hn : i < n) :
    i < ((if i < l.length then l else resize l n d).set i v).length := by
  rw [List.length_set]
  split
  · assumption
  · exact lt_length_resize hn

/-- Store at `i` in a vector that has been made to hold `i`. -/
theorem getD_set_grown (hn : i < n) :
    ((if i < l.length then l else resize l n d).set i v).getD j d =
      if j = i then v else l.getD j d := by
  split
  next hi => rw [getD_set hi]
  next => rw [getD_set (lt_length_resize hn), getD_resize]

theorem getD_put : (put l i d v).getD j d = if j = i then v else l.getD j d := by
  rw [put, getD_set lt_length_ensure, getD_ensure]

theorem getD_clear : (clear l i d).getD j d = if j = i then d else l.getD j d := by
  rw [clear]
  split
  · rename_i hi
    rw [getD_set hi]
  · rename_i hi
    rcases eq_or_ne j i with rfl | hne
    · rw [if_pos rfl, List.getD_eq_default _ _ (Nat.le_of_not_lt hi)]
    · rw [if_neg hne]

theorem getD_clearAll (is : List Nat) : ∀ l : List α,
    (clearAll d is l).getD j d = if j ∈ is then d else l.getD j d := by
  induction is with
  | nil => intro l; simp [clearAll]
  | cons i is ih =>
    intro l
    show (clearAll d is (clear l i d)).getD j d = _
    rw [ih, getD_clear]
    by_cases hmem : j ∈ is
    · rw [if_pos hmem, if_pos (List.mem_cons_of_mem i hmem)]
    · rw [if_neg hmem]
      simp only [List.mem_cons, hmem, or_false]

end Vector

/-! ## Maps -/

section Map

variable {κ ν : Type} [DecidableEq κ]

/-- `m[k] = v`. -/
def assign (m : List (κ × ν)) (k : κ) (v : ν) : List (κ × ν) :=
  (k, v) :: m.filter fun e => e.1 ≠ k

def Keyed (m : List (κ × ν)) : Prop := (m.map Prod.fst).Nodup

variable {m : List (κ × ν)} {k k' : κ} {v v' : ν}

theorem mem_assign : (k', v') ∈ assign m k v ↔ (k' = k ∧ v' = v) ∨ (k' ≠ k ∧ (k', v') ∈ m) := by
  simp only [assign, List.mem_cons, Prod.mk.injEq, List.mem_filter, decide_eq_true_eq]
  exact or_congr_right and_comm

theorem assign_assign : assign (assign m k v) k v' = assign m k v' := by
  simp only [assign, List.filter_cons, ne_eq, not_true_eq_false, decide_false,
    Bool.false_eq_true, if_false, List.filter_filter, Bool.and_self]

/-- Where at most one entry meets the test, none is left behind that does. -/
theorem not_of_mem_eraseP {α : Type} {l : List α} {p : α → Bool}
    (hone : l.Pairwise fun a b => ¬(p a = true ∧ p b = true)) {e : α} (he : e ∈ l.eraseP p) :
    ¬ p e = true := by
  induction l with
  | nil => cases he
  | cons a l ih =>
    obtain ⟨hfirst, hrest⟩ := List.pairwise_cons.mp hone
    cases hp : p a with
    | true =>
      rw [List.eraseP_cons_of_pos hp] at he
      exact fun hpe => hfirst e he ⟨hp, hpe⟩
    | false =>
      rw [List.eraseP_cons_of_neg (by rw [hp]; exact Bool.false_ne_true)] at he
      rcases List.mem_cons.mp he with rfl | hmem
      · rw [hp]
        exact Bool.false_ne_true
      · exact ih hrest hmem

omit [DecidableEq κ] in
theorem Keyed.filter (h : Keyed m) (p : κ × ν → Bool) : Keyed (m.filter p) :=
  List.Nodup.sublist (List.filter_sublist.map Prod.fst) h

theorem Keyed.assign (h : Keyed m) (k : κ) (v : ν) : Keyed (assign m k v) := by
  refine List.nodup_cons.mpr ⟨fun hmem => ?_, h.filter _⟩
  obtain ⟨e, he, hk⟩ := List.mem_map.mp hmem
  exact of_decide_eq_true (List.mem_filter.mp he).2 hk

omit [DecidableEq κ] in
/-- Looking up finds the one entry with the key. -/
theorem Keyed.lookup_eq_some [BEq κ] [LawfulBEq κ] (h : Keyed m) :
    m.lookup k = some v ↔ (k, v) ∈ m := by
  induction m with
  | nil => simp
  | cons e m ih =>
    classical
    obtain ⟨k₀, v₀⟩ := e
    obtain ⟨hnot, hrest⟩ := List.nodup_cons.mp h
    rw [List.lookup_cons]
    rcases eq_or_ne k k₀ with rfl | hne
    · simp only [beq_self_eq_true, List.mem_cons, Prod.mk.injEq, true_and, Option.some.injEq]
      refine ⟨fun heq => .inl heq.symm, fun hv => hv.elim Eq.symm fun hmem => ?_⟩
      exact absurd (List.mem_map_of_mem hmem) hnot
    · rw [beq_false_of_ne hne]
      simp only [List.mem_cons, Prod.mk.injEq, hne, false_and, false_or]
      exact ih hrest

end Map

end Table
