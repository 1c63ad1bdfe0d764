import Mathlib.Data.Nat.Prime.Basic
import StorageRuntime.PoolReuseProofs

/-!
# Alignment of the blocks

`allocate` rounds the size up to the alignment, but passes the alignment on to
`allocate_from_block` only, and that aligns the offset in a block, not the address.
What a pointer is a multiple of depends on where the block comes from: 64 for a 1 MB
block, the alignment of the cut behind it, 16 for `operator new`, and for a block
that is used again whatever it was cut for.

* **`live_blocks_aligned`**: every pointer is a multiple of the alignment it was asked
  for, while medium and large requests ask for at most 16, small ones for at most 64,
  and each class cuts its blocks for the largest alignment that is asked of it.
* **`misaligned_blocks`**: a block of each kind where that is not so.
-/

namespace MemoryPool

open WordArithmetic Regions ByteMemory ReturnRing Interleaving
open scoped List

/-- `kBlockAlignment`. -/
def blockAlignment : Nat := 64

/-! ## What the system and the user do -/

/-- The blocks of 1 MB come with their alignment, other memory with the default one. -/
def SystemAligned (s : State) (act : Act) : Prop :=
  match act with
  | .allocate _ _ _ _ => ∀ e ∈ event s act, ∀ r ∈ e.obtained,
      (if e.carved.isSome then blockAlignment else maxAlign) ∣ r.base
  | .warmup _ blocks => ∀ block ∈ blocks, blockAlignment ∣ block
  | _ => True

instance (s : State) (act : Act) : Decidable (SystemAligned s act) :=
  match act with
  | .allocate .. =>
    inferInstanceAs (Decidable (∀ e ∈ event s _, ∀ r ∈ e.obtained, (_ : Nat) ∣ r.base))
  | .warmup _ blocks => inferInstanceAs (Decidable (∀ block ∈ blocks, blockAlignment ∣ block))
  | .deallocate .. | .write .. => isTrue trivial

/-- Class `i` is asked for alignments up to `align i`, and for no less when it has nothing to
    hand out, so that a block is cut; nobody asks for more than the default alignment of a
    block that is not small. -/
def AlignedUse (align : Nat → Nat) (s : State) (act : Act) : Prop :=
  match act with
  | .allocate bytes alignment _ _ =>
    if allocSize bytes alignment ≤ smallObjectMax then
      alignment ∣ align (sizeClassIndex (allocSize bytes alignment)) ∧
        (s.pool.Bare (sizeClassIndex (allocSize bytes alignment)) →
          align (sizeClassIndex (allocSize bytes alignment)) ∣ max alignment 16)
    else alignment ∣ maxAlign
  | _ => True

instance (align : Nat → Nat) (s : State) (act : Act) : Decidable (AlignedUse align s act) :=
  match act with
  | .allocate bytes alignment _ _ =>
    inferInstanceAs (Decidable (if allocSize bytes alignment ≤ smallObjectMax then
      (_ : Nat) ∣ _ ∧ (s.pool.Bare _ → (_ : Nat) ∣ _) else (_ : Nat) ∣ _))
  | .deallocate .. | .warmup .. | .write .. => isTrue trivial

/-! ## Cuts -/

/-- Rounding up to a power of two gives a multiple of it. -/
theorem dvd_alignUp {x a : Nat} (ha : a ∣ blockAlignment) : a ∣ alignUp x a := by
  obtain ⟨k, hk, rfl⟩ := (Nat.dvd_prime_pow (m := 6) Nat.prime_two).mp ha
  have hle : 2 ^ k ≤ 2 ^ 6 := Nat.pow_le_pow_right (by decide) hk
  have hmask : wsub (2 ^ k) 1 = 2 ^ k - 1 := by
    simp only [wsub, wordSize]
    omega
  rw [alignUp, hmask]
  have hy : wsub (wadd x (2 ^ k)) 1 < wordSize := Nat.mod_lt _ (by decide)
  generalize wsub (wadd x (2 ^ k)) 1 = y at *
  have hbits := and_add_and_wnot (m := 2 ^ k - 1) hy (by simp only [wordSize]; omega)
  rw [Nat.and_two_pow_sub_one_eq_mod] at hbits
  have hdiv := Nat.mod_add_div y (2 ^ k)
  exact ⟨y / 2 ^ k, by omega⟩

theorem nextBlock_mem : ∀ {l : List Nat} {idx : Nat} {next : Nat × Nat},
    nextBlock l idx = some next → next.2 ∈ l := by
  intro l
  induction l with
  | nil => exact nofun
  | cons block l ih =>
    intro idx next h
    rw [nextBlock] at h
    split at h
    next =>
      cases h
      exact List.mem_cons_self
    next => exact List.mem_cons_of_mem _ (ih h)

/-- The blocks of 1 MB are aligned. -/
structure Bump.Aligned (b : Bump) : Prop where
  blocks : ∀ block ∈ b.blocks, blockAlignment ∣ block
  ptr : blockAlignment ∣ b.ptr

/-- **A cut is aligned** to what it was made for. -/
theorem Bump.Aligned.cut {b : Bump} {size alignment fresh : Nat} (h : b.Aligned)
    (ha : max alignment 16 ∣ blockAlignment)
    (hfresh : ∀ r ∈ (b.allocateFromBlock size alignment fresh).obtained, blockAlignment ∣ r.base) :
    max alignment 16 ∣ (b.allocateFromBlock size alignment fresh).ptr ∧
      (b.allocateFromBlock size alignment fresh).bump.Aligned := by
  simp only [Bump.allocateFromBlock] at *
  generalize max alignment 16 = a at *
  by_cases hfits : b.ptr ≠ 0 ∧ wadd (alignUp b.offset a) (alignUp size a) ≤ blockSize
  · simp only [if_pos hfits] at *
    exact ⟨Nat.dvd_add (Nat.dvd_trans ha h.ptr) (dvd_alignUp ha), h.blocks, h.ptr⟩
  · simp only [if_neg hfits] at *
    cases hnext : nextBlock (b.blocks.drop (b.idx + 1)) (b.idx + 1) with
    | some next =>
      have hblock : blockAlignment ∣ next.2 :=
        h.blocks next.2 (List.mem_of_mem_drop (nextBlock_mem hnext))
      exact ⟨Nat.dvd_trans ha hblock, h.blocks, hblock⟩
    | none =>
      rw [hnext] at hfresh
      have hblock : blockAlignment ∣ fresh := hfresh _ List.mem_cons_self
      refine ⟨Nat.dvd_trans ha hblock, fun block hmem => ?_, hblock⟩
      rcases List.mem_append.mp hmem with hmem | hmem
      · exact h.blocks block hmem
      · rw [List.mem_singleton.mp hmem]
        exact hblock

/-! ## The depot -/

/-- What the address of a block is a multiple of. -/
def Block.grain (align : Nat → Nat) (b : Block) : Nat :=
  if b.size ≤ smallObjectMax then align (sizeClassIndex b.size) else maxAlign

/-- Every block is aligned to what its class, or the system, cuts for. -/
structure Depot.Aligned (align : Nat → Nat) (d : Depot) : Prop where
  live : ∀ b ∈ d.live, b.alignment ∣ b.grain align ∧ b.grain align ∣ b.ptr
  shelves : ∀ i, ∀ ptr ∈ (d.shelves i).slots, align i ∣ ptr
  medium : ∀ node ∈ d.medium, maxAlign ∣ node.1
  bump : d.bump.Aligned

section Calls

variable {align : Nat → Nat} {d d' : Depot} {s : State} {b : Block}

theorem Block.grain_small (h : b.size ≤ smallObjectMax) :
    b.grain align = align (sizeClassIndex b.size) := if_pos h

theorem Block.grain_of_gt (h : smallObjectMax < b.size) : b.grain align = maxAlign :=
  if_neg (Nat.not_le.mpr h)

/-- A block that is aligned to its grain is lent. -/
theorem Depot.Aligned.lend (h : d.Aligned align) (hask : b.alignment ∣ b.grain align)
    (hptr : b.grain align ∣ b.ptr) : (d.lend b).Aligned align :=
  ⟨List.forall_mem_cons.mpr ⟨⟨hask, hptr⟩, h.live⟩, h.shelves, h.medium, h.bump⟩

theorem Depot.Aligned.setShelf {i : Nat} {sh : Shelf} (h : d.Aligned align)
    (hsh : ∀ ptr ∈ sh.slots, align i ∣ ptr) : (d.setShelf i sh).Aligned align :=
  ⟨h.live, forall_update (P := fun i (sh : Shelf) => ∀ ptr ∈ sh.slots, align i ∣ ptr) h.shelves
    hsh, h.medium, h.bump⟩

/-- The blocks on a shelf after draining its ring. -/
theorem Depot.Aligned.drain (h : d.Aligned align) (i : Nat) :
    ∀ ptr ∈ ((d.shelves i).drain 16).slots, align i ∣ ptr :=
  fun ptr hptr => h.shelves i ptr (((d.shelves i).slots_drain 16).mem_iff.mp hptr)

/-- **`allocate` hands out aligned blocks**, if a block is cut for the alignment of its class and
    the system aligns what it hands out. -/
theorem Depot.Lends.aligned {fresh : Nat} {r : Depot.Handout}
    (hlends : d.Lends b.size b.alignment fresh r) (hptr : b.ptr = r.ptr) (h : d.Aligned align)
    (halign : ∀ i, align i ∣ blockAlignment) (hask : b.alignment ∣ b.grain align)
    (hcut : r.carved = true → b.grain align ∣ max b.alignment 16)
    (hnew : ∀ x ∈ r.obtained, (if r.carved then blockAlignment else maxAlign) ∣ x.base) :
    (r.depot.lend b).Aligned align := by
  suffices hall : r.depot.Aligned align ∧ b.grain align ∣ r.ptr from
    hall.1.lend hask (hptr ▸ hall.2)
  cases hlends with
  | @shelved i ptr free hsmall hi hfree =>
    rw [Block.grain_small hsmall, hi]
    have hmem : ∀ x ∈ ptr :: free, align i ∣ x := by
      intro x hx
      rw [← hfree] at hx
      exact h.drain i x (Shelf.mem_slots_free hx)
    refine ⟨h.setShelf fun x hx => ?_, hmem ptr List.mem_cons_self⟩
    rcases List.mem_append.mp hx with hx | hx
    · exact h.drain i x (List.mem_append_left _ hx)
    · exact hmem x (List.mem_cons_of_mem _ hx)
  | @cut i _ hsmall hi _ heq =>
    subst heq
    rw [Block.grain_small hsmall, hi] at hask hcut ⊢
    have hmax : max b.alignment 16 ∣ blockAlignment := by
      rcases Nat.le_total b.alignment maxAlign with hle | hle
      · rw [show max b.alignment 16 = 16 from Nat.max_eq_right hle]
        decide
      · rw [show max b.alignment 16 = b.alignment from Nat.max_eq_left hle]
        exact Nat.dvd_trans hask (halign i)
    obtain ⟨hptr, hbump⟩ := h.bump.cut hmax hnew
    exact ⟨{ h.setShelf (h.drain i) with bump := hbump }, Nat.dvd_trans (hcut rfl) hptr⟩
  | listed hsize hfind =>
    rw [Block.grain_of_gt hsize.1]
    exact ⟨{ h with medium := fun node hnode => h.medium node (List.mem_of_mem_eraseP hnode) },
      h.medium _ (List.mem_of_find?_eq_some hfind)⟩
  | new hsize _ =>
    rw [Block.grain_of_gt hsize.1]
    exact ⟨{ h with }, hnew _ List.mem_cons_self⟩
  | large hsize =>
    rw [Block.grain_of_gt (Nat.lt_trans (by decide) hsize)]
    exact ⟨h, hnew _ List.mem_cons_self⟩

/-- **`deallocate` keeps the alignment of the class.** -/
theorem Depot.Aligned.deallocate (h : d.Aligned align) (hb : b ∈ d.live) :
    ((d.deallocate b).takeBack b).Aligned align := by
  obtain ⟨-, hptr⟩ := h.live b hb
  have hlive : ∀ x ∈ d.live.erase b, x.alignment ∣ x.grain align ∧ x.grain align ∣ x.ptr :=
    fun x hx => h.live x (List.mem_of_mem_erase hx)
  rw [Depot.deallocate]
  split
  next hsmall =>
    rw [Block.grain_small hsmall] at hptr
    have hshelf : (d.setShelf (sizeClassIndex b.size)
        ((d.shelves (sizeClassIndex b.size)).putBack b.ptr)).Aligned align := by
      refine h.setShelf fun x hx => ?_
      rcases (d.shelves _).putBack_cases b.ptr with hput | ⟨hlost, -⟩
      · rcases List.mem_cons.mp (hput.mem_iff.mp hx) with rfl | hx
        · exact hptr
        · exact h.shelves _ x hx
      · exact h.shelves _ x (hlost ▸ hx)
    exact ⟨hlive, hshelf.shelves, h.medium, h.bump⟩
  next hsmall =>
    rw [Block.grain_of_gt (Nat.lt_of_not_le hsmall)] at hptr
    split
    next => exact ⟨hlive, h.shelves, List.forall_mem_cons.mpr ⟨hptr, h.medium⟩, h.bump⟩
    next => exact ⟨hlive, h.shelves, h.medium, h.bump⟩

theorem Depot.Aligned.step {act : Act} (h : d.Aligned align)
    (halign : ∀ i, align i ∣ blockAlignment) (hrep : Represents s.pool d)
    (hevent : MemoryPool.event s act = d.event act) (hsystem : SystemAligned s act)
    (huse : AlignedUse align s act) (hstep : d.step act = some d') : d'.Aligned align := by
  cases act with
  | allocate bytes alignment fresh fuel =>
    cases hstep
    refine (d.lends_allocate bytes alignment fresh).aligned (b := ⟨_, bytes, alignment⟩) rfl h
      halign ?_ (fun hcut => ?_) ?_
    · rw [Block.grain]
      split
      next hsmall => exact ((if_pos hsmall).mp huse).1
      next hsmall => exact (if_neg hsmall).mp huse
    · obtain ⟨hsmall, hempty⟩ := d.carved_iff.mp hcut
      rw [Block.grain_small (b := ⟨_, bytes, alignment⟩) hsmall]
      exact ((if_pos hsmall).mp huse).2
        ((hrep.bare_iff (sizeClassIndex_spec hsmall).1).mpr hempty)
    · have hnew := hsystem _ hevent
      generalize d.allocate bytes alignment fresh = r at *
      cases hr : r.carved <;> simpa [hr] using hnew
  | deallocate b =>
    obtain ⟨hb, rfl⟩ := Option.ite_some_none_eq_some.mp hstep
    exact h.deallocate hb
  | warmup totalBytes blocks =>
    obtain ⟨-, rfl⟩ := Option.ite_some_none_eq_some.mp hstep
    refine ⟨h.live, h.shelves, h.medium, fun block hblock => ?_, h.bump.ptr⟩
    rcases List.mem_append.mp hblock with hblock | hblock
    · exact h.bump.blocks block hblock
    · exact hsystem block hblock
  | write a v =>
    cases hstep
    exact h

end Calls

/-! ## Runs -/

section Runs

variable {mem : Memory} {blocks : List Nat} {t : List Event} {s : State} {align : Nat → Nat}

/-- **Every block that the user has is aligned as it was asked for.** -/
theorem live_blocks_aligned (halign : ∀ i, align i ∣ blockAlignment)
    (hlen : blocks.length = initialBlocks)
    (hfresh : Fresh wordSize [] (blocks.map blockRegion))
    (hblocks : ∀ block ∈ blocks, blockAlignment ∣ block)
    (h : Exec machine (fun t s act => Sound t s act ∧ SystemAligned s act ∧ AlignedUse align s act)
      (init mem blocks) t s) :
    ∀ b ∈ s.live, b.alignment ∣ b.ptr := by
  have hstart : (Depot.new blocks).Aligned align := by
    refine ⟨nofun, nofun, nofun, hblocks, ?_⟩
    cases blocks with
    | nil => exact Nat.dvd_zero _
    | cons block rest => exact hblocks block List.mem_cons_self
  obtain ⟨d, href, -, haligned⟩ := refines_invariant (J := fun _ d => d.Aligned align) hlen hfresh
    (fun _ _ _ hc => hc.1) hstart
    (fun _ _ _ _ _ href _ hj hc hstep hevent =>
      hj.step halign href.pool hevent hc.2.1 hc.2.2 hstep) h
  intro b hb
  rw [href.live] at hb
  obtain ⟨hask, hptr⟩ := haligned.live b hb
  exact Nat.dvd_trans hask hptr

/-- A class that cuts all its blocks for an alignment of 64, and the others for 16.  A medium
    block is used again. -/
theorem cache_line_blocks_aligned : ∃ t s, Exec machine
      (fun t s act => Sound t s act ∧ SystemAligned s act ∧
        AlignedUse (fun i => if i = 3 then 64 else 16) s act)
      (init (fun _ => 0) fourBlocks) t s ∧
    s.live = [⟨0x900010, 280, 8⟩, ⟨0x100040, 40, 64⟩, ⟨0x100010, 8, 8⟩] ∧
    ∀ b ∈ s.live, b.alignment ∣ b.ptr := by
  have hexec : Exec machine (fun t s act => Sound t s act ∧ SystemAligned s act ∧
        AlignedUse (fun i => if i = 3 then 64 else 16) s act)
      (init (fun _ => 0) fourBlocks) _ _ :=
    exec_run [.allocate 8 8 0 0, .allocate 8 8 0 0, .allocate 40 64 0 0,
      .allocate 300 16 0x900010 1, .deallocate ⟨0x900010, 300, 16⟩,
      .deallocate ⟨0x100000, 8, 8⟩, .allocate 280 8 0 2]
  refine ⟨_, _, hexec, by decide +kernel, live_blocks_aligned (fun i => ?_) (by decide)
    (by decide +kernel) (by decide) hexec⟩
  split <;> decide

/-- **Misaligned blocks**: a small one at the start of a block that is aligned to 64 only, and a
    medium one that was obtained with the default alignment and is used again.  The alignments
    asked for are 128 and 64. -/
theorem misaligned_blocks : ∃ t s, Exec machine (fun t s act => Sound t s act ∧ SystemAligned s act)
      (init (fun _ => 0) [0x100040, 0x300000, 0x500000, 0x700000]) t s ∧
    s.live = [⟨0x900010, 300, 64⟩, ⟨0x100040, 100, 128⟩] ∧
    ∀ b ∈ s.live, b.alignment.isPowerOfTwo ∧ ¬ b.alignment ∣ b.ptr := by
  have hexec : Exec machine (fun t s act => Sound t s act ∧ SystemAligned s act)
      (init (fun _ => 0) [0x100040, 0x300000, 0x500000, 0x700000]) _ _ :=
    exec_run [.allocate 100 128 0 0, .allocate 320 16 0x900010 1,
      .deallocate ⟨0x900010, 320, 16⟩, .allocate 300 64 0 2]
  exact ⟨_, _, hexec, by decide +kernel⟩

end Runs

end MemoryPool
