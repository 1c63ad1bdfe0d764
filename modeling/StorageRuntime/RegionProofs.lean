import Mathlib.Data.List.Perm.Basic
import Mathlib.Data.List.Pairwise
import Mathlib.Data.List.Flatten

/-!
# Regions — who owns which bytes

A `Region` is a range of addresses.  An allocator takes regions from the system
(its HEAP), cuts them up, and hands the pieces around; `Inventory limit heap owned`
is what it has to keep: the system's regions do not overlap, the pieces do not
overlap, and every piece is a non-empty part of one of the system's regions.

The rules of this file are what an allocator may do with pieces: move them
(`Inventory.perm`), forget some (`Inventory.sublist`), cut one
(`Inventory.shrink`, `Inventory.split`), get more from the system
(`Inventory.obtain`, `Inventory.hand`) and give a whole region back
(`Inventory.release`).
-/

namespace Regions

/-- The addresses from `base` up to `base + size`. -/
structure Region where
  base : Nat
  size : Nat
deriving DecidableEq, Repr

/-- The regions overlap nowhere. -/
def Clear (r q : Region) : Prop := r.base + r.size ≤ q.base ∨ q.base + q.size ≤ r.base
deriving Decidable

/-- `r` is a part of `q`. -/
def Within (r q : Region) : Prop := q.base ≤ r.base ∧ r.base + r.size ≤ q.base + q.size
deriving Decidable

/-- The address `a` is in `r`. -/
def Region.Has (r : Region) (a : Nat) : Prop := r.base ≤ a ∧ a < r.base + r.size
deriving Decidable

variable {r q r' q' : Region}

theorem Clear.symm (h : Clear r q) : Clear q r := Or.symm h

theorem Within.refl (r : Region) : Within r r := ⟨Nat.le_refl _, Nat.le_refl _⟩

theorem Within.trans (h : Within r q) (h' : Within q q') : Within r q' :=
  ⟨Nat.le_trans h'.1 h.1, Nat.le_trans h.2 h'.2⟩

/-- Parts of regions clear of each other are clear of each other. -/
theorem Clear.mono (h : Clear r q) (hr : Within r' r) (hq : Within q' q) : Clear r' q' := by
  simp only [Clear, Within] at *
  omega

/-- Clear regions share no address. -/
theorem Clear.not_has {a : Nat} (h : Clear r q) (hr : r.Has a) : ¬ q.Has a := by
  simp only [Clear, Region.Has] at *
  omega

theorem Within.has {a : Nat} (h : Within r q) (ha : r.Has a) : q.Has a := by
  simp only [Within, Region.Has] at *
  omega

/-- A non-empty part of a region is not clear of it. -/
theorem Within.not_clear (h : Within r q) (hpos : 0 < r.size) : ¬ Clear r q := by
  simp only [Clear, Within] at *
  omega

/-! ## Lists of regions -/

/-- No two regions of the list overlap. -/
def Apart (l : List Region) : Prop := l.Pairwise Clear
deriving Decidable

theorem Apart.perm {l l' : List Region} (h : Apart l) (hp : l.Perm l') : Apart l' :=
  List.Pairwise.perm h hp Clear.symm

theorem Apart.cons_iff {l : List Region} :
    Apart (r :: l) ↔ (∀ q ∈ l, Clear r q) ∧ Apart l := List.pairwise_cons

theorem Apart.append_iff {l l' : List Region} :
    Apart (l ++ l') ↔ Apart l ∧ Apart l' ∧ ∀ r ∈ l, ∀ q ∈ l', Clear r q :=
  List.pairwise_append

/-- Regions that overlap nowhere are told apart by their bases. -/
theorem Apart.eq_of_base {l : List Region} (h : Apart l) (hr : r ∈ l) (hq : q ∈ l)
    (hrpos : 0 < r.size) (hqpos : 0 < q.size) (hbase : r.base = q.base) : r = q := by
  by_contra hne
  have : Std.Symm Clear := ⟨fun _ _ => Clear.symm⟩
  have hclear : Clear r q := List.Pairwise.forall h hr hq hne
  rw [Clear] at hclear
  omega

/-- What the system may hand out next: regions inside the address space, not at the
    null address, that overlap neither each other nor the heap. -/
structure Fresh (limit : Nat) (heap regions : List Region) : Prop where
  bounds : ∀ r ∈ regions, 0 < r.base ∧ r.base + r.size ≤ limit
  apart : Apart regions
  clear : ∀ r ∈ regions, ∀ q ∈ heap, Clear r q

instance (limit : Nat) (heap regions : List Region) :
    Decidable (Fresh limit heap regions) :=
  decidable_of_iff ((∀ r ∈ regions, 0 < r.base ∧ r.base + r.size ≤ limit) ∧ Apart regions ∧
      ∀ r ∈ regions, ∀ q ∈ heap, Clear r q)
    ⟨fun h => ⟨h.1, h.2.1, h.2.2⟩, fun h => ⟨h.bounds, h.apart, h.clear⟩⟩

/-- **The inventory of an allocator**: what it took from the system, and the pieces. -/
structure Inventory (limit : Nat) (heap owned : List Region) : Prop where
  bounds : ∀ q ∈ heap, 0 < q.base ∧ q.base + q.size ≤ limit
  heapApart : Apart heap
  apart : Apart owned
  within : ∀ r ∈ owned, ∃ q ∈ heap, Within r q
  pos : ∀ r ∈ owned, 0 < r.size

section Moves

variable {limit : Nat} {heap heap' owned owned' regions : List Region}

/-- Nothing was taken from the system yet. -/
theorem Inventory.empty (limit : Nat) : Inventory limit [] [] :=
  ⟨nofun, List.Pairwise.nil, List.Pairwise.nil, nofun, nofun⟩

/-- Pieces are moved around. -/
theorem Inventory.perm (h : Inventory limit heap owned) (hh : heap.Perm heap')
    (ho : owned.Perm owned') : Inventory limit heap' owned' where
  bounds := fun q hq => h.bounds q (hh.mem_iff.mpr hq)
  heapApart := h.heapApart.perm hh
  apart := h.apart.perm ho
  within := by
    intro r hr
    obtain ⟨q, hq, hw⟩ := h.within r (ho.mem_iff.mpr hr)
    exact ⟨q, hh.mem_iff.mp hq, hw⟩
  pos := fun r hr => h.pos r (ho.mem_iff.mpr hr)

/-- Pieces are forgotten. -/
theorem Inventory.sublist (h : Inventory limit heap owned) (hs : owned'.Sublist owned) :
    Inventory limit heap owned' where
  bounds := h.bounds
  heapApart := h.heapApart
  apart := h.apart.sublist hs
  within := fun r hr => h.within r (hs.subset hr)
  pos := fun r hr => h.pos r (hs.subset hr)

/-- A piece is replaced by a non-empty part of it. -/
theorem Inventory.shrink (h : Inventory limit heap (q :: owned)) (hw : Within r q)
    (hpos : 0 < r.size) : Inventory limit heap (r :: owned) where
  bounds := h.bounds
  heapApart := h.heapApart
  apart := by
    obtain ⟨hq, ho⟩ := Apart.cons_iff.mp h.apart
    exact Apart.cons_iff.mpr ⟨fun p hp => (hq p hp).mono hw (Within.refl p), ho⟩
  within := by
    intro p hp
    rcases List.mem_cons.mp hp with rfl | hp
    · obtain ⟨q', hq', hw'⟩ := h.within q List.mem_cons_self
      exact ⟨q', hq', hw.trans hw'⟩
    · exact h.within p (List.mem_cons_of_mem _ hp)
  pos := by
    intro p hp
    rcases List.mem_cons.mp hp with rfl | hp
    · exact hpos
    · exact h.pos p (List.mem_cons_of_mem _ hp)

/-- A piece is cut into two non-empty parts, clear of each other. -/
theorem Inventory.split (h : Inventory limit heap (q :: owned)) (hr : Within r q)
    (hr' : Within r' q) (hd : Clear r r') (hpos : 0 < r.size) (hpos' : 0 < r'.size) :
    Inventory limit heap (r :: r' :: owned) where
  bounds := h.bounds
  heapApart := h.heapApart
  apart := by
    have hfirst := Apart.cons_iff.mp (h.shrink hr hpos).apart
    have hsecond := (h.shrink hr' hpos').apart
    refine Apart.cons_iff.mpr ⟨fun p hp => ?_, hsecond⟩
    rcases List.mem_cons.mp hp with rfl | hp
    · exact hd
    · exact hfirst.1 p hp
  within := by
    intro p hp
    rcases List.mem_cons.mp hp with rfl | hp
    · exact (h.shrink hr hpos).within p List.mem_cons_self
    · exact (h.shrink hr' hpos').within p hp
  pos := by
    intro p hp
    rcases List.mem_cons.mp hp with rfl | hp
    · exact hpos
    · exact (h.shrink hr' hpos').pos p hp

/-- The system hands out regions, of which nothing is used yet. -/
theorem Inventory.obtain (h : Inventory limit heap owned)
    (hf : Fresh limit heap regions) : Inventory limit (regions ++ heap) owned where
  bounds := by
    intro q hq
    rcases List.mem_append.mp hq with hq | hq
    · exact hf.bounds q hq
    · exact h.bounds q hq
  heapApart := Apart.append_iff.mpr ⟨hf.apart, h.heapApart, hf.clear⟩
  apart := h.apart
  within := by
    intro r hr
    obtain ⟨q, hq, hw⟩ := h.within r hr
    exact ⟨q, List.mem_append_right _ hq, hw⟩
  pos := h.pos

/-- The system hands out regions, and they become pieces as they are. -/
theorem Inventory.hand (h : Inventory limit heap owned) (hf : Fresh limit heap regions)
    (hpos : ∀ r ∈ regions, 0 < r.size) :
    Inventory limit (regions ++ heap) (regions ++ owned) where
  bounds := (h.obtain hf).bounds
  heapApart := (h.obtain hf).heapApart
  apart := by
    refine Apart.append_iff.mpr ⟨hf.apart, h.apart, ?_⟩
    intro r hr p hp
    obtain ⟨q, hq, hw⟩ := h.within p hp
    exact (hf.clear r hr q hq).mono (Within.refl r) hw
  within := by
    intro r hr
    rcases List.mem_append.mp hr with hr | hr
    · exact ⟨r, List.mem_append_left _ hr, Within.refl r⟩
    · exact (h.obtain hf).within r hr
  pos := by
    intro r hr
    rcases List.mem_append.mp hr with hr | hr
    · exact hpos r hr
    · exact h.pos r hr

/-- A region that is one piece goes back to the system: no other piece is in it. -/
theorem Inventory.release (h : Inventory limit (q :: heap) (q :: owned)) :
    Inventory limit heap owned where
  bounds := fun p hp => h.bounds p (List.mem_cons_of_mem _ hp)
  heapApart := (Apart.cons_iff.mp h.heapApart).2
  apart := (Apart.cons_iff.mp h.apart).2
  within := by
    intro r hr
    obtain ⟨p, hp, hw⟩ := h.within r (List.mem_cons_of_mem _ hr)
    rcases List.mem_cons.mp hp with rfl | hp
    · have hd := (Apart.cons_iff.mp h.apart).1 r hr
      exact absurd hd.symm (hw.not_clear (h.pos r (List.mem_cons_of_mem _ hr)))
    · exact ⟨p, hp, hw⟩
  pos := fun r hr => h.pos r (List.mem_cons_of_mem _ hr)

/-- The pieces lie in the address space and not at the null address. -/
theorem Inventory.bounds_owned (h : Inventory limit heap owned) (hr : r ∈ owned) :
    0 < r.base ∧ r.base + r.size ≤ limit := by
  obtain ⟨q, hq, hw⟩ := h.within r hr
  have hb := h.bounds q hq
  simp only [Within] at hw
  omega

/-- No piece is listed twice. -/
theorem Inventory.nodup (h : Inventory limit heap owned) : owned.Nodup := by
  refine List.Pairwise.imp_of_mem ?_ h.apart
  rintro r q hr - hclear rfl
  exact (Within.refl r).not_clear (h.pos r hr) hclear

end Moves

/-! ## Pieces that are sorted into families -/

/-- The pieces of one family can be taken out and put back changed: the other
    families do not notice. -/
theorem flatMap_update_perm {ι β : Type} [DecidableEq ι] (f : ι → List β) {l : List ι}
    {i : ι} (hl : l.Nodup) (hi : i ∈ l) : ∃ rest : List β, (l.flatMap f).Perm (f i ++ rest) ∧
      ∀ g : ι → List β, (∀ j, j ≠ i → g j = f j) → (l.flatMap g).Perm (g i ++ rest) := by
  refine ⟨(l.erase i).flatMap f, ?_, ?_⟩
  · exact (List.perm_cons_erase hi).flatMap_right f
  · intro g hg
    have hrest : (l.erase i).flatMap g = (l.erase i).flatMap f := by
      refine List.flatMap_congr fun j hj => hg j ?_
      rintro rfl
      exact (hl.not_mem_erase) hj
    rw [← hrest]
    exact (List.perm_cons_erase hi).flatMap_right g

end Regions
