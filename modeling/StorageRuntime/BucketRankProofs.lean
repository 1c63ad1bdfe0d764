import Mathlib.Data.List.Sort
import StorageRuntime.WordArithmeticProofs

/-!
# BucketRank — ranks in a histogram

Samples of a linear order are counted in buckets that are numbered from 0 and
follow the order.  The bucket of the `k`-th smallest sample can be read off the
numbers of samples in the buckets: it is the bucket in which the running sum
first comes to `k` (`reaches_iff`).  A table of wrapping counters that is raised
once for each sample holds these numbers (`counts_modify`).
-/

namespace BucketRank

open WordArithmetic

variable {α : Type}

/-- The number of samples in the buckets before bucket `i`. -/
def below (b : α → Nat) (l : List α) (i : Nat) : Nat := l.countP (fun x => decide (b x < i))

/-- The number of samples in bucket `i`. -/
def inBucket (b : α → Nat) (l : List α) (i : Nat) : Nat := l.countP (fun x => decide (b x = i))

/-- The running sum over the buckets first comes to `k` in bucket `i`. -/
def Reaches (b : α → Nat) (l : List α) (k i : Nat) : Prop :=
  k ≤ below b l (i + 1) ∧ (i = 0 ∨ below b l i < k)

variable {b : α → Nat} {l : List α} {i j k : Nat}

theorem below_zero (b : α → Nat) (l : List α) : below b l 0 = 0 := by simp [below]

theorem below_succ (b : α → Nat) (l : List α) (i : Nat) :
    below b l (i + 1) = below b l i + inBucket b l i := by
  induction l with
  | nil => rfl
  | cons x l ih =>
    simp only [below, inBucket, List.countP_cons, decide_eq_true_eq] at ih ⊢
    rcases Nat.lt_trichotomy (b x) i with hlt | heq | hgt
    · rw [if_pos (by omega), if_pos hlt, if_neg (by omega), ih]
      omega
    · rw [if_pos (by omega), if_neg (by omega), if_pos heq, ih]
      omega
    · rw [if_neg (by omega), if_neg (by omega), if_neg (by omega), ih]
      omega

theorem below_le_length (b : α → Nat) (l : List α) (i : Nat) : below b l i ≤ l.length :=
  List.countP_le_length

theorem below_eq_length (h : ∀ x ∈ l, b x < i) : below b l i = l.length :=
  List.countP_eq_length.mpr (fun x hx => decide_eq_true (h x hx))

theorem below_mono (hij : i ≤ j) : below b l i ≤ below b l j :=
  List.countP_mono_left (fun _ _ hx => decide_eq_true ((of_decide_eq_true hx).trans_le hij))

/-- A higher rank comes in the same or a later bucket. -/
theorem Reaches.le {k' : Nat} (hi : Reaches b l k i) (hj : Reaches b l k' j) (hk : k ≤ k') :
    i ≤ j := by
  rcases hi.2 with rfl | hlow
  · exact Nat.zero_le j
  · by_contra hlt
    have := below_mono (b := b) (l := l) (Nat.not_le.mp hlt)
    exact absurd (hlow.trans_le (hk.trans (hj.1.trans this))) (Nat.lt_irrefl _)

theorem Reaches.unique (hi : Reaches b l k i) (hj : Reaches b l k j) : i = j :=
  Nat.le_antisymm (hi.le hj (Nat.le_refl k)) (hj.le hi (Nat.le_refl k))

/-- The bucket a positive rank is reached in holds a sample. -/
theorem Reaches.below_lt (h : Reaches b l k i) (hk : 1 ≤ k) : below b l i < k := by
  rcases h.2 with rfl | hlow
  · rwa [below_zero]
  · exact hlow

/-- Raising the counter of a sample's bucket. -/
theorem counts_modify (n : Nat) (b : α → Nat) {l : List α} (x : α)
    (hlen : l.length + 1 < wordSize) : ((List.range n).map (inBucket b l)).modify (b x) (wadd · 1) =
      (List.range n).map (inBucket b (l ++ [x])) := by
  refine List.ext_getElem? (fun i => ?_)
  rw [List.getElem?_modify, List.getElem?_map, List.getElem?_map]
  cases hi : (List.range n)[i]? with
  | none => rfl
  | some j =>
    obtain ⟨hlt, rfl⟩ := List.getElem?_eq_some_iff.mp hi
    rw [List.getElem_range]
    have hle : inBucket b l i ≤ l.length := List.countP_le_length
    have happ : inBucket b (l ++ [x]) i = inBucket b l i + if b x = i then 1 else 0 := by
      simp [inBucket, List.countP_append, List.countP_singleton]
    simp only [Option.map_some, Option.map_eq_map, happ]
    split
    next => rw [wadd_eq (by omega)]
    next => rw [Nat.add_zero]

variable [LinearOrder α]

/-- The `k`-th smallest sample, counted from 1. -/
def kthSmallest (l : List α) : Nat → Option α
  | 0 => none
  | k + 1 => (l.insertionSort (· ≤ ·))[k]?

/-- In a sorted list, what satisfies a downward closed property comes first. -/
theorem getElem_iff_lt_countP {p : α → Bool} (hp : ∀ x y, x ≤ y → p y = true → p x = true) :
    ∀ {l : List α}, l.Pairwise (· ≤ ·) → ∀ {k : Nat} {x : α}, l[k]? = some x →
      (p x = true ↔ k < l.countP p) := by
  intro l hl
  induction l with
  | nil =>
    intro k x hx
    simp at hx
  | cons a l ih =>
    intro k x hx
    obtain ⟨ha, hl⟩ := List.pairwise_cons.mp hl
    by_cases hpa : p a = true
    · rw [List.countP_cons_of_pos hpa]
      cases k with
      | zero =>
        obtain rfl : a = x := by simpa using hx
        simp [hpa]
      | succ k =>
        rw [ih hl (by simpa using hx)]
        omega
    · -- nothing after `a` satisfies it either
      have hnone : ∀ y ∈ a :: l, ¬ p y = true := by
        intro y hy hpy
        rcases List.mem_cons.mp hy with rfl | hmem
        · exact hpa hpy
        · exact hpa (hp a y (ha y hmem) hpy)
      rw [List.countP_eq_zero.mpr hnone]
      exact iff_of_false (hnone x (List.mem_of_getElem? hx)) (Nat.not_lt_zero k)

/-- The rank of a sample and the running sums. -/
theorem lt_bucket_iff (hb : Monotone b) {x : α} (hx : kthSmallest l (k + 1) = some x) (i : Nat) :
    b x < i ↔ k < below b l i := by
  have hsorted := List.pairwise_insertionSort (· ≤ ·) l
  have hperm := List.perm_insertionSort (· ≤ ·) l
  have := getElem_iff_lt_countP (p := fun x => decide (b x < i))
    (fun y z hyz hz => decide_eq_true ((hb hyz).trans_lt (of_decide_eq_true hz))) hsorted hx
  rw [hperm.countP_eq] at this
  simpa [below] using this

/-- **The bucket of the `k`-th smallest sample** is the one in which the running sum comes
    to `k`. -/
theorem reaches_iff (hb : Monotone b) {x : α} (hx : kthSmallest l k = some x) :
    Reaches b l k i ↔ b x = i := by
  cases k with
  | zero => cases hx
  | succ k =>
    have hlow := lt_bucket_iff hb hx i
    have hhigh := lt_bucket_iff hb hx (i + 1)
    constructor
    · rintro ⟨hk, rfl | hlt⟩ <;> omega
    · rintro rfl
      exact ⟨by omega, .inr (by omega)⟩

theorem exists_kthSmallest (h1 : 1 ≤ k) (hk : k ≤ l.length) : ∃ x, kthSmallest l k = some x := by
  cases k with
  | zero => omega
  | succ k =>
    have hlen : k < (l.insertionSort (· ≤ ·)).length := by
      rw [List.length_insertionSort]
      omega
    exact ⟨_, List.getElem?_eq_getElem hlen⟩

end BucketRank
