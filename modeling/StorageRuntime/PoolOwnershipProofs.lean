import StorageRuntime.PoolRefinementProofs

/-!
# What the pool's user can rely on

* **`live_blocks_clear`**: the blocks that the user holds do not overlap, lie in
  memory from the system, and have the bytes that were asked for.
* **`small_blocks_accounted`**: while no `deallocate` finds both the thread-local
  cache and the return ring of its class full, every small block that was ever cut
  is in exactly one place.
* **`freed_block_lost`**: a block that comes back when both are full is nowhere.
-/

namespace MemoryPool

open WordArithmetic Regions ByteMemory ReturnRing Interleaving IntrusiveChain
open scoped List

variable {mem : Memory} {blocks : List Nat} {t : List Event} {s : State}

/-- **The blocks of the user do not overlap and are large enough.** -/
theorem live_blocks_clear (hlen : blocks.length = initialBlocks)
    (hfresh : Fresh wordSize [] (blocks.map blockRegion))
    (h : Exec machine Sound (init mem blocks) t s) :
    s.live.Pairwise (fun b b' => Clear b.extent b'.extent) ∧
      ∀ b ∈ s.live, b.bytes ≤ b.extent.size ∧ ∃ r ∈ heap s, Within b.extent r := by
  obtain ⟨d, href, hinv, -⟩ := refines_invariant (J := fun _ _ => True) hlen hfresh
    (fun _ _ _ hsound => hsound) trivial (fun _ _ _ _ _ _ _ _ _ _ _ => trivial) h
  obtain ⟨hlive, -, -⟩ := Apart.append_iff.mp hinv.inventory.apart
  rw [href.live, href.heap]
  refine ⟨List.pairwise_map.mp hlive, fun b hb => ⟨hinv.enough b hb, ?_⟩⟩
  exact hinv.inventory.within _ (List.mem_append_left _ (List.mem_map_of_mem hb))

/-- Four blocks for the constructor. -/
def fourBlocks : List Nat := [0x100000, 0x200000, 0x300000, 0x400000]

/-- A small block, a medium block that is written to, freed and handed out again, and a
    large block. -/
def mixedCalls : List Act :=
  [.allocate 24 64 0 0, .allocate 300 16 0x900000 1, .write 0x900000 7,
    .deallocate ⟨0x900000, 300, 16⟩, .allocate 280 16 0 2, .warmup 1 [0x500000],
    .allocate 5000 16 0xa00000 0]

/-- The three blocks of those calls do not overlap. -/
theorem mixed_blocks_clear : ∃ t s, Exec machine Sound (init (fun _ => 0) fourBlocks) t s ∧
    s.live = [⟨0xa00000, 5000, 16⟩, ⟨0x900000, 280, 16⟩, ⟨0x100000, 24, 64⟩] ∧
    s.live.Pairwise (fun b b' => Clear b.extent b'.extent) ∧
    ∀ b ∈ s.live, b.bytes ≤ b.extent.size ∧ ∃ r ∈ heap s, Within b.extent r := by
  have hexec : Exec machine Sound (init (fun _ => 0) fourBlocks) _ _ :=
    exec_run mixedCalls
  exact ⟨_, _, hexec, by decide +kernel, live_blocks_clear (by decide) (by decide +kernel) hexec⟩

/-! ## Small blocks are not lost -/

/-- The small block of class `i` that a call cut, if any. -/
def Event.cut (i : Nat) (e : Event) : List Nat :=
  match e.carved with
  | some (j, ptr) => if j = i then [ptr] else []
  | none => []

/-- Every block of class `i` that was ever cut out of a 1 MB block. -/
def carved (i : Nat) (t : List Event) : List Nat := t.flatMap (Event.cut i)

/-- The block is a small one of class `i`. -/
def Block.OfClass (i : Nat) (b : Block) : Prop :=
  b.size ≤ smallObjectMax ∧ sizeClassIndex b.size = i
deriving Decidable

/-- The blocks of class `i` that the user holds. -/
def liveOf (i : Nat) (live : List Block) : List Nat :=
  (live.filter fun b => b.OfClass i).map Block.ptr

/-- A `deallocate` that finds the thread-local cache of the class full finds room in the
    return ring. -/
def RingTakes (s : State) : Act → Prop
  | .deallocate b => b.size ≤ smallObjectMax → 64 < s.pool.listCount (sizeClassIndex b.size) →
      ((s.pool.returnRings (sizeClassIndex b.size)).tryEnqueue ringCapacity b.ptr).map Prod.fst =
        some true
  | _ => True

instance (s : State) (act : Act) : Decidable (RingTakes s act) :=
  match act with
  | .deallocate b => inferInstanceAs (Decidable (b.size ≤ smallObjectMax → _ → _ = _))
  | .allocate .. | .warmup .. | .write .. => isTrue trivial

section Places

variable {d d' : Depot} {b : Block} {i : Nat} {live : List Block}

theorem liveOf_cons_of (h : b.OfClass i) : liveOf i (b :: live) = b.ptr :: liveOf i live := by
  rw [liveOf, List.filter_cons_of_pos (p := fun b : Block => b.OfClass i) (decide_eq_true h)]
  rfl

theorem liveOf_cons_of_not (h : ¬ b.OfClass i) : liveOf i (b :: live) = liveOf i live := by
  rw [liveOf, List.filter_cons_of_neg (by simpa using h)]
  rfl

theorem liveOf_takeBack (hb : b ∈ live) : liveOf i live ~ liveOf i (b :: live.erase b) :=
  ((List.perm_cons_erase hb).filter _).map _

/-- Where the blocks of class `i` are. -/
def Depot.places (i : Nat) (d : Depot) : List Nat := liveOf i d.live ++ (d.shelves i).slots

/-- A change of another class's shelf. -/
theorem Depot.slots_setShelf_of_ne {j : Nat} {sh : Shelf} (h : i ≠ j) :
    (d.setShelf j sh).shelves i = d.shelves i := Function.update_of_ne h ..

/-- What class `i` has after a block of class `j` was lent, with `sh` left on its
    shelf: `out` is the block, if the shelf did not have it before. -/
theorem Depot.places_lend {j : Nat} {sh : Shelf} (out : List Nat) (hb : b.OfClass j)
    (hslots : b.ptr :: sh.slots ~ out ++ (d.shelves j).slots) :
    ((d.setShelf j sh).lend b).places i ~ (if j = i then out else []) ++ d.places i := by
  by_cases hji : j = i
  · subst hji
    rw [if_pos rfl]
    show liveOf j (b :: d.live) ++ ((d.setShelf j sh).shelves j).slots ~ _
    rw [liveOf_cons_of hb, Depot.shelves_setShelf_self]
    calc b.ptr :: liveOf j d.live ++ sh.slots
        _ ~ liveOf j d.live ++ b.ptr :: sh.slots := List.perm_middle.symm
        _ ~ liveOf j d.live ++ (out ++ (d.shelves j).slots) := hslots.append_left _
        _ ~ out ++ (liveOf j d.live ++ (d.shelves j).slots) := by
          rw [← List.append_assoc, ← List.append_assoc]
          exact List.perm_append_comm.append_right _
  · have hnot : ¬ b.OfClass i := fun h => hji (hb.2.symm.trans h.2)
    rw [if_neg hji]
    show liveOf i (b :: d.live) ++ ((d.setShelf j sh).shelves i).slots ~ _
    rw [liveOf_cons_of_not hnot, Depot.slots_setShelf_of_ne (Ne.symm hji)]
    exact .refl _

/-- A block that is not small is not among them. -/
theorem Depot.places_lend_of_gt (hb : smallObjectMax < b.size) :
    (d.lend b).places i = d.places i := by
  show liveOf i (b :: d.live) ++ (d.shelves i).slots = _
  rw [liveOf_cons_of_not fun h => absurd h.1 (by omega)]
  rfl

/-- **`allocate` moves a block to the user, or cuts a new one.** -/
theorem Depot.Lends.places {fresh : Nat} {r : Depot.Handout}
    (h : d.Lends b.size b.alignment fresh r) (hptr : b.ptr = r.ptr) (i : Nat) :
    (r.depot.lend b).places i ~
      (if r.carved = true ∧ sizeClassIndex b.size = i then [r.ptr] else []) ++ d.places i := by
  cases h with
  | @shelved j ptr free hsmall hj hfree =>
    cases hptr
    refine (d.places_lend [] ⟨hsmall, hj⟩ ?_).trans (by simp)
    refine .trans ?_ ((d.shelves j).slots_drain 16)
    rw [Shelf.slots, Shelf.slots, hfree]
    exact List.perm_middle.symm
  | @cut j cut hsmall hj =>
    subst hj
    simp only [true_and, ← show b.ptr = cut.ptr from hptr]
    exact d.places_lend [b.ptr] ⟨hsmall, rfl⟩ (((d.shelves _).slots_drain 16).cons _)
  | listed hsize _ | new hsize _ => exact .of_eq (Depot.places_lend_of_gt hsize.1)
  | large hsize => exact .of_eq (Depot.places_lend_of_gt (Nat.lt_trans (by decide) hsize))

theorem Shelf.free_putBack (sh : Shelf) (ptr : Nat) : (sh.putBack ptr).free = sh.free := by
  rw [Shelf.putBack]
  split
  · split <;> rfl
  · rfl

/-- **`deallocate` moves a block from the user to its shelf**, if the shelf has room. -/
theorem Depot.places_deallocate (hb : b ∈ d.live) (h : b.size ≤ smallObjectMax →
      64 < (d.shelves (sizeClassIndex b.size)).cached.length →
      (d.shelves (sizeClassIndex b.size)).ring.length < ringCapacity) :
    ((d.deallocate b).takeBack b).places i ~ d.places i := by
  have hlive := liveOf_takeBack (i := i) hb
  simp only [Depot.deallocate]
  split
  next hsmall =>
    have hslots := ((d.shelves _).putBack_cases b.ptr).resolve_right
      fun hfull => hfull.2.2 (h hsmall hfull.2.1)
    have hclass : b.OfClass (sizeClassIndex b.size) := ⟨hsmall, rfl⟩
    generalize sizeClassIndex b.size = j at *
    show liveOf i (d.live.erase b) ++ ((d.setShelf j _).shelves i).slots ~ _
    by_cases hji : j = i
    · subst hji
      rw [liveOf_cons_of hclass] at hlive
      rw [Depot.shelves_setShelf_self]
      calc liveOf j (d.live.erase b) ++ ((d.shelves j).putBack b.ptr).slots
          _ ~ liveOf j (d.live.erase b) ++ b.ptr :: (d.shelves j).slots := hslots.append_left _
          _ ~ b.ptr :: liveOf j (d.live.erase b) ++ (d.shelves j).slots := List.perm_middle
          _ ~ liveOf j d.live ++ (d.shelves j).slots := hlive.symm.append_right _
    · have hnot : ¬ b.OfClass i := fun h => hji (hclass.2.symm.trans h.2)
      rw [liveOf_cons_of_not hnot] at hlive
      rw [Depot.slots_setShelf_of_ne (Ne.symm hji)]
      exact hlive.symm.append_right _
  next hsmall =>
    rw [liveOf_cons_of_not fun h => hsmall h.1] at hlive
    have hsame : d.places i ~ liveOf i (d.live.erase b) ++ (d.shelves i).slots :=
      hlive.append_right _
    split <;> exact hsame.symm

/-- **No block of a class is in two places.** -/
theorem Depot.Inv.nodup_places (h : d.Inv) (hi : i < numSizeClasses) : (d.places i).Nodup := by
  have hall : (d.live.map Block.extent ++ d.stock).Nodup := h.inventory.nodup
  obtain ⟨hlive, hstock, hcross⟩ := List.nodup_append.mp hall
  have hsmall : d.small.Nodup := (List.nodup_append.mp hstock).1
  have hext : (liveOf i d.live).map (smallPiece i) =
      (d.live.filter fun b => b.OfClass i).map Block.extent := by
    rw [liveOf, List.map_map]
    refine List.map_congr_left fun b hb => ?_
    have hclass : b.OfClass i := of_decide_eq_true (List.mem_filter.mp hb).2
    show smallPiece i b.ptr = b.extent
    rw [Block.extent_small hclass.1, hclass.2]
  have hsub : ((liveOf i d.live).map (smallPiece i)).Sublist (d.live.map Block.extent) := by
    rw [hext]
    exact List.filter_sublist.map _
  refine List.nodup_append.mpr ⟨?_, ?_, ?_⟩
  · exact (hlive.sublist hsub).of_map
  · obtain ⟨rest, hperm, -⟩ := d.small_setShelf hi
    exact (List.nodup_append.mp (hperm.nodup_iff.mp hsmall)).1.of_map
  · rintro a ha a' ha' rfl
    exact hcross _ (hsub.subset (List.mem_map_of_mem ha)) _ (Depot.mem_stock_small hi ha') rfl

/-- **One call keeps the account**: what was cut is what is somewhere. -/
theorem Depot.places_step {act : Act} (href : Refines s d)
    (htakes : RingTakes s act) (hcarved : carved i t ~ d.places i)
    (hstep : d.step act = some d') : carved i (note t (d.event act)) ~ d'.places i := by
  cases act with
  | allocate bytes alignment fresh fuel =>
    cases hstep
    refine .trans ?_ ((d.lends_allocate bytes alignment fresh).places
      (b := ⟨_, bytes, alignment⟩) rfl i).symm
    refine .append ?_ hcarved
    rw [Event.cut]
    generalize d.allocate bytes alignment fresh = r
    cases r.carved with
    | false | true => simp [Block.size]
  | deallocate b =>
    obtain ⟨hb, rfl⟩ := Option.ite_some_none_eq_some.mp hstep
    refine hcarved.trans (Depot.places_deallocate hb ?_).symm
    intro hsmall hfull
    obtain ⟨hj, -⟩ := sizeClassIndex_spec hsmall
    have htrue := htakes hsmall (by
      rw [Pool.listCount, if_pos hj, href.pool.count _ hj]
      exact hfull)
    by_contra hge
    have hholds := href.pool.rings _ hj
    have hlen : (d.shelves (sizeClassIndex b.size)).ring.length = ringCapacity := by
      obtain ⟨head, hat⟩ := hholds
      have hbound := hat.bound
      omega
    rw [SeqRing.tryEnqueue_of_full ringCapacity_eq (by omega) hholds hlen] at htrue
    simp only [Option.map_some, Option.some.injEq, Bool.false_eq_true] at htrue
  | warmup totalBytes blocks =>
    obtain ⟨-, rfl⟩ := Option.ite_some_none_eq_some.mp hstep
    exact hcarved
  | write a v =>
    cases hstep
    exact hcarved

end Places

/-- **What was cut is what is somewhere**, after every run in which full caches find room. -/
theorem exists_places (hlen : blocks.length = initialBlocks)
    (hfresh : Fresh wordSize [] (blocks.map blockRegion))
    (h : Exec machine (fun t s act => Sound t s act ∧ RingTakes s act) (init mem blocks) t s) :
    ∃ d, Refines s d ∧ d.Inv ∧ ∀ i, i < numSizeClasses → carved i t ~ d.places i :=
  refines_invariant (J := fun t d => ∀ i, i < numSizeClasses → carved i t ~ d.places i)
    hlen hfresh (fun _ _ _ hc => hc.1) (fun _ _ => List.Perm.refl _)
    (fun _ _ _ _ _ href _ hj hc hstep _ i hi =>
      Depot.places_step href hc.2 (hj i hi) hstep) h

/-- **Every small block that was ever cut is in exactly one place**: with the user, in the
    thread-local cache, in the return ring or in the class list, while every full cache
    finds room in the ring. -/
theorem small_blocks_accounted (hlen : blocks.length = initialBlocks)
    (hfresh : Fresh wordSize [] (blocks.map blockRegion))
    (h : Exec machine (fun t s act => Sound t s act ∧ RingTakes s act) (init mem blocks) t s) :
    ∃ d, Refines s d ∧ ∀ i, i < numSizeClasses →
      carved i t ~ liveOf i s.live ++
        ((d.shelves i).cached ++ (d.shelves i).ring ++ (d.shelves i).free) ∧
      (carved i t).Nodup := by
  obtain ⟨d, href, hinv, hplaces⟩ := exists_places hlen hfresh h
  refine ⟨d, href, fun i hi => ⟨?_, ?_⟩⟩
  · rw [href.live]
    exact hplaces i hi
  · exact (hplaces i hi).nodup_iff.mpr (hinv.nodup_places hi)

/-- Two small blocks are cut, one comes back and is accounted for. -/
theorem two_blocks_accounted : ∃ t s,
    Exec machine (fun t s act => Sound t s act ∧ RingTakes s act)
      (init (fun _ => 0) fourBlocks) t s ∧ carved 0 t = [0x100010, 0x100000] ∧
    ∃ d, Refines s d ∧ ∀ i, i < numSizeClasses →
      carved i t ~ liveOf i s.live ++
        ((d.shelves i).cached ++ (d.shelves i).ring ++ (d.shelves i).free) ∧
      (carved i t).Nodup := by
  have hexec : Exec machine (fun t s act => Sound t s act ∧ RingTakes s act)
      (init (fun _ => 0) fourBlocks) _ _ :=
    exec_run [.allocate 8 8 0 0, .allocate 8 8 0 0, .deallocate ⟨0x100000, 8, 8⟩]
  exact ⟨_, _, hexec, by decide +kernel,
    small_blocks_accounted (by decide) (by decide +kernel) hexec⟩

/-! ## A block that is lost -/

/-- The `n`-th block that is cut by `allocate(8, 8)` alone. -/
def cell (n : Nat) : Block := ⟨0x100000 + 16 * n, 8, 8⟩

/-- The depot after `n` calls of `allocate(8, 8)`. -/
def Depot.filled (n : Nat) : Depot := { Depot.new fourBlocks with
  live := ((List.range n).map cell).reverse
  bump := ⟨fourBlocks, 0x100000, 16 * n, 0⟩ }

section Leak

/-- One more call cuts one more block. -/
theorem Depot.allocate_filled {n : Nat} (hn : n < 65536) :
    (Depot.filled n).allocate 8 8 0 = ⟨(cell n).ptr, { Depot.filled n with
      bump := ⟨fourBlocks, 0x100000, 16 * (n + 1), 0⟩ }, [], true⟩ := by
  have hoffset : alignUp (16 * n) 16 = 16 * n := alignUp_mul (k := 4) (by
    simp only [wordSize]
    omega)
  have hsize : alignUp 8 16 = 16 := by decide +kernel
  have hfits : wadd (16 * n) 16 ≤ blockSize := by
    rw [wadd_eq (by simp only [wordSize]; omega)]
    simp only [blockSize]
    omega
  have hcut : (Depot.filled n).bump.allocateFromBlock (classSize 0) 8 0 =
      ⟨(cell n).ptr, ⟨fourBlocks, 0x100000, 16 * (n + 1), 0⟩, []⟩ := by
    show Bump.allocateFromBlock ⟨fourBlocks, 0x100000, 16 * n, 0⟩ 8 8 0 = _
    simp only [Bump.allocateFromBlock, show max 8 16 = 16 from rfl, hoffset, hsize]
    rw [if_pos ⟨by decide, hfits⟩, wadd_eq (by simp only [wordSize]; omega)]
    rfl
  have hsmall : (Depot.filled n).allocate 8 8 0 = (Depot.filled n).allocateSmall 0 8 0 := rfl
  have hdrain : ((Depot.filled n).shelves 0).drain 16 = (Depot.filled n).shelves 0 := rfl
  rw [hsmall, Depot.allocateSmall, hdrain, Depot.setShelf_self, hcut]
  rfl

theorem Depot.step_filled {n : Nat} (hn : n < 65536) :
    (Depot.filled n).step (.allocate 8 8 0 1) = some (Depot.filled (n + 1)) := by
  simp only [Depot.step, Depot.allocate_filled hn]
  rw [Depot.filled, Depot.filled, List.range_succ, List.map_append, List.reverse_append]
  rfl

theorem Depot.event_filled {n : Nat} (hn : n < 65536) :
    (Depot.filled n).event (.allocate 8 8 0 1) = some ⟨[], some (0, (cell n).ptr)⟩ := by
  simp only [Depot.event, Depot.allocate_filled hn]
  rfl

/-- **Allocating fills the first block.** -/
theorem exec_filled : ∀ n ≤ 65536, ∃ t s, Exec machine Sound (init (fun _ => 0) fourBlocks) t s ∧
    Refines s (Depot.filled n) ∧ (Depot.filled n).Inv ∧
    carved 0 t = (Depot.filled n).live.map Block.ptr := by
  intro n
  induction n with
  | zero =>
    intro _
    exact ⟨[], _, Exec.start, refines_new _ _, Depot.inv_new rfl (by decide +kernel), rfl⟩
  | succ n ih =>
    intro hn
    obtain ⟨t, s, hexec, href, hinv, hcarved⟩ := ih (by omega)
    have hevent := Depot.event_filled (n := n) (by omega)
    have hsound : Depot.Sound t (Depot.filled n) (.allocate 8 8 0 1) := by
      rw [Depot.Sound, hevent]
      refine ⟨⟨by rintro _ ⟨⟩, List.Pairwise.nil, by rintro _ ⟨⟩⟩, by decide, fun _ => ?_⟩
      have hoffset : alignUp (16 * n) 16 = 16 * n := alignUp_mul (k := 4) (by
        simp only [wordSize]
        omega)
      have hsize : alignUp 8 16 = 16 := by decide +kernel
      show 16 * n + 16 ≤ wordSize ∧ 8 + 16 ≤ wordSize ∧
        alignUp (16 * n) 16 + alignUp 8 16 < wordSize
      simp only [wordSize]
      omega
    obtain ⟨s', hexec', href', hinv'⟩ := href.extend hexec hinv
      (by rintro _ _ _ _ ⟨⟩; exact Nat.zero_lt_one) (by rintro _ _ ⟨⟩) hsound
      (Depot.step_filled (by omega))
    rw [hevent] at hexec'
    refine ⟨_, s', hexec', href', hinv', ?_⟩
    show (cell n).ptr :: carved 0 t = _
    rw [hcarved, Depot.filled, Depot.filled, List.range_succ, List.map_append, List.reverse_append]
    rfl

/-- The blocks are different. -/
theorem nodup_filled (n : Nat) : ((Depot.filled n).live.map Block.ptr).Nodup := by
  show ((((List.range n).map cell).reverse).map Block.ptr).Nodup
  rw [List.map_reverse, List.nodup_reverse, List.map_map]
  refine List.nodup_range.map fun i j hij => ?_
  have hptr : 0x100000 + 16 * i = 0x100000 + 16 * j := hij
  omega

/-- **Freeing without allocating keeps nothing in the class list.** -/
theorem exec_freed {s₀ : State} {t : List Event} : ∀ {live : List Block} {s : State} {d : Depot},
    Exec machine Sound s₀ t s → Refines s d → d.Inv → d.live = live → (d.shelves 0).free = [] →
    ∃ s' d', Exec machine Sound s₀ t s' ∧ Refines s' d' ∧ d'.Inv ∧ d'.live = [] ∧
      (d'.shelves 0).free = [] := by
  intro live
  induction live with
  | nil =>
    intro s d hexec href hinv hlive hfree
    exact ⟨s, d, hexec, href, hinv, hlive, hfree⟩
  | cons b live ih =>
    intro s d hexec href hinv hlive hfree
    have hb : b ∈ d.live := by
      rw [hlive]
      exact List.mem_cons_self
    have hstep : d.step (.deallocate b) = some ((d.deallocate b).takeBack b) := by
      rw [Depot.step, if_pos hb]
      rfl
    have hsound : Depot.Sound t d (.deallocate b) := trivial
    obtain ⟨s', hexec', href', hinv'⟩ := href.extend hexec hinv (by rintro _ _ _ _ ⟨⟩)
      (by rintro _ _ ⟨⟩) hsound hstep
    refine ih hexec' href' hinv' ?_ ?_
    · show (d.deallocate b).live.erase b = live
      rw [(d.kept_deallocate b).1, hlive, List.erase_cons_head]
    · show ((d.deallocate b).shelves 0).free = []
      rw [Depot.deallocate]
      split
      next =>
        by_cases hidx : sizeClassIndex b.size = 0
        · rw [hidx, Depot.shelves_setShelf_self, Shelf.free_putBack]
          exact hfree
        · rw [Depot.slots_setShelf_of_ne (Ne.symm hidx)]
          exact hfree
      next =>
        split <;> exact hfree

/-- A shelf with nothing in its class list holds 321 blocks at most. -/
theorem length_slots_le {p : Pool} {d : Depot} (hinv : d.Inv) (h : Represents p d)
    (hfree : (d.shelves 0).free = []) : (d.shelves 0).slots.length ≤ 321 := by
  have hring : (d.shelves 0).ring.length ≤ 256 := by
    obtain ⟨head, hat⟩ := h.rings 0 (by decide)
    exact hat.bound
  have hcached := hinv.cached 0
  rw [Shelf.slots, hfree, List.append_nil, List.length_append]
  omega

/-- **A lost block**: of 322 blocks of one class that are allocated and then freed, 65 fill
    the thread-local cache and 256 the return ring; `deallocate` drops the last one. -/
theorem freed_block_lost : ∃ t s ptr, Exec machine Sound (init (fun _ => 0) fourBlocks) t s ∧
    ptr ∈ carved 0 t ∧ ptr ∉ liveOf 0 s.live ∧
    ∀ d, Refines s d →
      ptr ∉ (d.shelves 0).cached ++ (d.shelves 0).ring ++ (d.shelves 0).free := by
  obtain ⟨t, s, hexec, href, hinv, hcarved⟩ := exec_filled 322 (by decide)
  obtain ⟨s', d', hexec', href', hinv', hlive, hfree⟩ := exec_freed hexec href hinv rfl rfl
  have hlen : (carved 0 t).length = 322 := by
    rw [hcarved]
    simp [Depot.filled]
  have hnodup : (carved 0 t).Nodup := by
    rw [hcarved]
    exact nodup_filled 322
  -- 322 different blocks do not fit where at most 321 are
  obtain ⟨ptr, hptr, hnot⟩ : ∃ ptr ∈ carved 0 t, ptr ∉ (d'.shelves 0).slots := by
    by_contra hall
    have hsub : carved 0 t ⊆ (d'.shelves 0).slots := fun a ha => by
      by_contra hna
      exact hall ⟨a, ha, hna⟩
    have hle := (List.subperm_of_subset hnodup hsub).length_le
    have hbound := length_slots_le hinv' href'.pool hfree
    omega
  refine ⟨t, s', ptr, hexec', hptr, ?_, fun d hd => ?_⟩
  · rw [href'.live, hlive]
    exact List.not_mem_nil
  · rw [hd.pool.shelf_unique href'.pool (by decide)]
    exact hnot

end Leak

end MemoryPool
