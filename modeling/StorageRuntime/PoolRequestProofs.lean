import StorageRuntime.PoolOwnershipProofs

/-!
# Requests of every size

`MemoryPool::allocate` for every byte count and every alignment that is a power of
two.  `operator new` may throw: then the call leaves the pool as far as it got, and
the run goes on from there.  (A `warmup` that fails half-way is a `warmup` of fewer
bytes.)

Two sums wrap around.  Rounding the byte count up to an alignment above 16 gives 0
when there is no multiple of the alignment left below 2^64.  And the offset of the
bump allocator plus the rounded class size is 2^64 when nothing is asked for, aligned
to 2^63.

* `Fits.noWrap`: for every other request no sum of `allocate_from_block` wraps around,
  because the offset never passes 2^62 (`offsetMax`).
* `Holds.allocateThrows`: a call that throws keeps the ownership of the depot.
* **`requests_served`**: then every request returns the bytes that were asked for,
  inside memory from the system, or throws, which it can do exactly when it needs
  memory from the system.
-/

namespace MemoryPool

open WordArithmetic Regions ByteMemory ReturnRing Interleaving IntrusiveChain
open scoped List

/-! ## Calls that throw -/

/-- `allocate_from_block` up to an `operator new` that throws: the offset is rounded up
    and the loop has passed all blocks.  `none` if the call does not get there. -/
def Bump.allocateThrows (b : Bump) (size alignment : Nat) : Option Bump :=
  let align := max alignment 16
  let offset := alignUp b.offset align
  let size := alignUp size align
  if b.ptr ≠ 0 ∧ wadd offset size ≤ blockSize then none
  else
    match nextBlock (b.blocks.drop (b.idx + 1)) (b.idx + 1) with
    | some _ => none
    | none => some { b with offset := offset, idx := max (b.idx + 1) b.blocks.length }

/-- The small object path of an `allocate` that throws. -/
def Pool.allocateSmallThrows (p : Pool) (i alignment : Nat) : Option Pool :=
  let (ptr, p) := p.cacheAllocate i
  if ptr ≠ 0 then none
  else
    match p.drain i 16 with
    | none => none
    | some p =>
      let (ptr, p) := p.popSmall i
      if ptr ≠ 0 then none
      else (p.bump.allocateThrows (classSize i) alignment).map fun bump =>
        { p with bump := bump }

/-- `allocate` when `operator new` throws; `none` if the call needs no memory. -/
def Pool.allocateThrows (p : Pool) (bytes alignment fuel : Nat) : Option Pool :=
  let size := allocSize bytes alignment
  if size ≤ smallObjectMax then p.allocateSmallThrows (sizeClassIndex size) alignment
  else if size ≤ mediumObjectMax then
    match p.centralPop size fuel with
    | none => none
    | some (ptr, p) => if ptr ≠ 0 then none else some p
  else some p

/-- The same call on the depot. -/
def Depot.allocateThrows (d : Depot) (bytes alignment : Nat) : Option Depot :=
  let size := allocSize bytes alignment
  if size ≤ smallObjectMax then
    let i := sizeClassIndex size
    match ((d.shelves i).drain 16).free with
    | _ :: _ => none
    | [] => (d.bump.allocateThrows (classSize i) alignment).map fun bump =>
      { d.setShelf i ((d.shelves i).drain 16) with bump := bump }
  else if size ≤ mediumObjectMax then
    match d.medium.find? (size ≤ ·.2) with
    | some _ => none
    | none => some d
  else some d

/-- A call, and how it ended. -/
inductive Call where
  | returned (act : Act)
  /-- An `allocate` in which `operator new` throws. -/
  | thrown (bytes alignment fuel : Nat)

def Call.step (s : State) : Call → Option State
  | .returned act => MemoryPool.step s act
  | .thrown bytes alignment fuel =>
    (s.pool.allocateThrows bytes alignment fuel).map fun p => { s with pool := p }

def Call.event (s : State) : Call → Option Event
  | .returned act => MemoryPool.event s act
  | .thrown _ _ _ => none

/-- The pool with `operator new` as it is. -/
def requests : Machine State Call Event := ⟨Call.step, Call.event⟩

/-- What `operator new` returns is fresh memory. -/
def Handed (_ : List Event) (s : State) (call : Call) : Prop :=
  ∀ e ∈ call.event s, Fresh wordSize (heap s) e.obtained
deriving Decidable

/-- **The request can be met**: a multiple of the alignment is left above the bytes, and
    not even an empty block is asked for at a multiple of 2^63. -/
structure Fits (bytes alignment : Nat) : Prop where
  power : ∃ k < 64, alignment = 2 ^ k
  size : maxAlign < alignment → bytes + alignment ≤ wordSize
  empty : bytes = 0 → alignment < 2 ^ 63

instance (bytes alignment : Nat) : Decidable (Fits bytes alignment) :=
  decidable_of_iff ((∃ k < 64, alignment = 2 ^ k) ∧
      (maxAlign < alignment → bytes + alignment ≤ wordSize) ∧ (bytes = 0 → alignment < 2 ^ 63))
    ⟨fun h => ⟨h.1, h.2.1, h.2.2⟩, fun h => ⟨h.power, h.size, h.empty⟩⟩

/-- What the call asks for can be met. -/
def Call.Fits : Call → Prop
  | .returned (.allocate bytes alignment _ _) => MemoryPool.Fits bytes alignment
  | .thrown bytes alignment _ => MemoryPool.Fits bytes alignment
  | _ => True

instance (call : Call) : Decidable call.Fits :=
  match call with
  | .returned (.allocate bytes alignment ..) | .thrown bytes alignment _ =>
    inferInstanceAs (Decidable (MemoryPool.Fits bytes alignment))
  | .returned (.deallocate ..) | .returned (.warmup ..) | .returned (.write ..) => isTrue trivial

def Fitting (t : List Event) (s : State) (call : Call) : Prop := Handed t s call ∧ call.Fits
deriving Decidable

/-! ## No sum wraps around -/

/-- The offset of the bump allocator stays below this, and so does a rounded size. -/
def offsetMax : Nat := 2 ^ 62

/-- Rounding up to a power of two, when nothing wraps around. -/
theorem alignUp_eq {x k : Nat} (h : x + 2 ^ k ≤ wordSize) :
    alignUp x (2 ^ k) = 2 ^ k * ((x + 2 ^ k - 1) / 2 ^ k) := by
  have hpos := Nat.two_pow_pos k
  have hsum : wsub (wadd x (2 ^ k)) 1 = x + 2 ^ k - 1 := by
    simp only [wsub, wadd, wordSize] at *
    omega
  have hmask : wsub (2 ^ k) 1 = 2 ^ k - 1 := by
    simp only [wsub, wordSize] at *
    omega
  have hbits := and_add_and_wnot (y := x + 2 ^ k - 1) (m := 2 ^ k - 1) (by omega) (by omega)
  rw [Nat.and_two_pow_sub_one_eq_mod] at hbits
  have hdiv := Nat.mod_add_div (x + 2 ^ k - 1) (2 ^ k)
  rw [alignUp, hsum, hmask]
  omega

/-- A non-empty request is rounded up to the alignment at least. -/
theorem two_pow_le_alignUp {x k : Nat} (hx : 0 < x) (h : x + 2 ^ k ≤ wordSize) :
    2 ^ k ≤ alignUp x (2 ^ k) := by
  have hpos := Nat.two_pow_pos k
  rw [alignUp_eq h]
  exact Nat.le_mul_of_pos_right _ (Nat.div_pos (by omega) hpos)

/-- Rounding up does not pass a larger power of two. -/
theorem alignUp_le_offsetMax {x k : Nat} (hk : k ≤ 62) (hx : x ≤ offsetMax) :
    alignUp x (2 ^ k) ≤ offsetMax := by
  have hpow : 2 ^ k ≤ 2 ^ 62 := Nat.pow_le_pow_right (by decide) hk
  have hpos := Nat.two_pow_pos k
  have hword : x + 2 ^ k ≤ wordSize := by
    simp only [wordSize, offsetMax] at *
    omega
  have hsplit : offsetMax = 2 ^ k * 2 ^ (62 - k) := by
    rw [← Nat.pow_add, offsetMax, Nat.add_sub_cancel' hk]
  rw [alignUp_eq hword, hsplit]
  refine Nat.mul_le_mul_left _ (Nat.le_of_lt_succ ?_)
  rw [Nat.div_lt_iff_lt_mul hpos, Nat.succ_mul, Nat.mul_comm, ← hsplit]
  omega

section Requests

variable {bytes alignment : Nat}

/-- The alignment of `allocate_from_block` is a power of two, not above 2^62 for a small
    object: more is only rounded down to a small size from nothing. -/
theorem Fits.exists_align (h : Fits bytes alignment)
    (hsmall : allocSize bytes alignment ≤ smallObjectMax) : ∃ k ≤ 62, max alignment 16 = 2 ^ k := by
  obtain ⟨k, hk, rfl⟩ := h.power
  rcases Nat.lt_or_ge 4 k with hlt | hle
  · -- rounded up: the size is 0 or a multiple of the alignment
    have halign : (2 : Nat) ^ 4 < 2 ^ k := Nat.pow_lt_pow_right (by decide) hlt
    refine ⟨k, ?_, Nat.max_eq_left (Nat.le_of_lt halign)⟩
    rw [allocSize, if_pos (show maxAlign < 2 ^ k from halign)] at hsmall
    rcases Nat.eq_zero_or_pos bytes with hzero | hpos
    · have hbound := (Nat.pow_lt_pow_iff_right (by decide : 1 < 2)).mp (h.empty hzero)
      omega
    · have hround := Nat.le_trans (two_pow_le_alignUp hpos (h.size halign)) hsmall
      have hpow : 2 ^ k ≤ 2 ^ 8 := hround
      have := (Nat.pow_le_pow_iff_right (by decide : 1 < 2)).mp hpow
      omega
  · have halign : (2 : Nat) ^ k ≤ 2 ^ 4 := Nat.pow_le_pow_right (by decide) hle
    exact ⟨4, by decide, Nat.max_eq_right halign⟩

/-- **No sum of `allocate_from_block` wraps around.** -/
theorem Fits.noWrap {b : Bump} (h : Fits bytes alignment)
    (hsmall : allocSize bytes alignment ≤ smallObjectMax) (hoffset : b.offset ≤ offsetMax) :
    b.NoWrap (classSize (sizeClassIndex (allocSize bytes alignment))) alignment := by
  obtain ⟨k, hk, halign⟩ := h.exists_align hsmall
  have hclass := (classSize_bounds (sizeClassIndex_spec hsmall).1).2
  generalize classSize (sizeClassIndex (allocSize bytes alignment)) = size at *
  have hpow : 2 ^ k ≤ 2 ^ 62 := Nat.pow_le_pow_right (by decide) hk
  have hsize : size ≤ offsetMax := Nat.le_trans hclass (by decide)
  have hup := alignUp_le_offsetMax hk hoffset
  have hup' := alignUp_le_offsetMax hk hsize
  rw [Bump.NoWrap, halign]
  simp only [offsetMax, wordSize] at *
  omega

/-- The offset after a cut: inside the block, or the rounded size. -/
theorem Bump.offset_allocateFromBlock_le {b : Bump} {size fresh : Nat}
    (hsize : alignUp size (max alignment 16) ≤ offsetMax) :
    (b.allocateFromBlock size alignment fresh).bump.offset ≤ offsetMax := by
  simp only [Bump.allocateFromBlock]
  split
  next hfits => exact Nat.le_trans hfits.2 (by decide)
  next => split <;> exact hsize

/-- The offset after an `allocate`. -/
theorem Depot.offset_allocate {d : Depot} {fresh : Nat} (h : Fits bytes alignment)
    (hoffset : d.bump.offset ≤ offsetMax) :
    (d.allocate bytes alignment fresh).depot.bump.offset ≤ offsetMax := by
  have hlends := d.lends_allocate bytes alignment fresh
  generalize d.allocate bytes alignment fresh = r at *
  cases hlends with
  | cut hsmall hi _ hcut =>
    subst hi hcut
    obtain ⟨k, hk, halign⟩ := h.exists_align hsmall
    have hclass := (classSize_bounds (sizeClassIndex_spec hsmall).1).2
    refine Bump.offset_allocateFromBlock_le ?_
    rw [halign]
    exact alignUp_le_offsetMax hk (Nat.le_trans hclass (by decide))
  | _ => exact hoffset

end Requests

/-! ## A call that throws keeps the ownership -/

/-- A piece that is rounded away at its front is still a part of it. -/
theorem restAt_rest {ptr off o : Nat} {heap owned : List Region} (ho : off ≤ o)
    (h : Inventory wordSize heap (restAt ptr off ++ owned)) :
    Inventory wordSize heap (restAt ptr o ++ owned) := by
  simp only [restAt] at *
  split
  next hlt =>
    rw [if_pos (by omega)] at h
    refine Inventory.shrink h ?_ (Nat.sub_pos_of_lt hlt)
    simp only [Within]
    omega
  next => exact h.sublist (List.sublist_append_right ..)

/-- The bump allocator after a call that throws. -/
theorem Bump.allocateThrows_eq {b b' : Bump} {size alignment : Nat}
    (h : b.allocateThrows size alignment = some b') :
    b' = { b with offset := alignUp b.offset (max alignment 16),
                  idx := max (b.idx + 1) b.blocks.length } := by
  simp only [Bump.allocateThrows, Option.ite_none_left_eq_some] at h
  obtain ⟨-, h⟩ := h
  split at h
  next => cases h
  next => exact (Option.some.inj h).symm

/-- A part of the reserve is given up: the offset and the index move on. -/
theorem Depot.Holds.skip {d : Depot} {offset idx : Nat} (h : d.Holds)
    (hoffset : d.bump.offset ≤ offset) (hidx : d.bump.idx ≤ idx) :
    ({ d with bump := { d.bump with offset := offset, idx := idx } } : Depot).Holds := by
  refine ⟨?_, h.cached, h.medium, h.enough⟩
  have hpieces := ({ d with
    bump := { d.bump with offset := offset, idx := idx } } : Depot).owned_perm
  have hinv := h.inventory.perm (.refl _) d.owned_perm
  refine Inventory.perm ?_ (.refl _) hpieces.symm
  rw [Bump.reserve, List.append_assoc] at hinv ⊢
  refine (restAt_rest hoffset hinv).sublist (List.Sublist.append_left ?_ _)
  refine .append_right (List.Sublist.map _ ?_) _
  exact List.drop_sublist_drop_left _ (Nat.succ_le_succ hidx)

/-- **A call that throws keeps the ownership invariant.** -/
theorem Depot.Holds.allocateThrows {d d' : Depot} {bytes alignment : Nat} (h : d.Holds)
    (hfits : Fits bytes alignment) (hoffset : d.bump.offset ≤ offsetMax)
    (hthrows : d.allocateThrows bytes alignment = some d') :
    d'.Holds ∧ d'.live = d.live ∧ d'.bump.offset ≤ offsetMax := by
  simp only [Depot.allocateThrows] at hthrows
  split at hthrows
  next hsmall =>
    obtain ⟨hnowrap, -, -⟩ := hfits.noWrap hsmall hoffset
    obtain ⟨k, hk, halign⟩ := hfits.exists_align hsmall
    obtain ⟨hi, -⟩ := sizeClassIndex_spec hsmall
    generalize sizeClassIndex (allocSize bytes alignment) = i at *
    split at hthrows
    next => cases hthrows
    next =>
      obtain ⟨bump, hbump, rfl⟩ := Option.map_eq_some_iff.mp hthrows
      obtain rfl := Bump.allocateThrows_eq hbump
      have hup : d.bump.offset ≤ alignUp d.bump.offset (max alignment 16) :=
        le_alignUp (by omega) hnowrap
      refine ⟨(h.drain hi).skip hup (Nat.le_trans (Nat.le_succ _) (Nat.le_max_left ..)), rfl, ?_⟩
      rw [halign]
      exact alignUp_le_offsetMax hk hoffset
  next =>
    split at hthrows
    next =>
      split at hthrows
      next => cases hthrows
      next =>
        cases hthrows
        exact ⟨h, rfl, hoffset⟩
    next =>
      cases hthrows
      exact ⟨h, rfl, hoffset⟩

/-! ## The pool and the depot throw together -/

section Throws

variable {p p' : Pool} {d : Depot} {heap : List Region}

/-- **The small object path.** -/
theorem Represents.allocateSmallThrows {i : Nat} (h : Represents p d) (hi : i < numSizeClasses)
    (hwide : d.Wide) (hinv : Inventory wordSize heap d.owned) (alignment : Nat) :
    Option.Rel Represents (p.allocateSmallThrows i alignment)
      (match ((d.shelves i).drain 16).free with
      | _ :: _ => none
      | [] => (d.bump.allocateThrows (classSize i) alignment).map fun bump =>
        { d.setShelf i ((d.shelves i).drain 16) with bump := bump }) := by
  obtain ⟨hcache, p', hdrain, hcons, hnil⟩ := h.drainPop hi hwide hinv
  simp only [Pool.allocateSmallThrows, hcache, ne_eq, not_true_eq_false, if_false, hdrain]
  cases hfree : ((d.shelves i).drain 16).free with
  | cons ptr free =>
    obtain ⟨hne, p'', hpop, -⟩ := hcons ptr free hfree
    simp only [hpop, hne, not_false_eq_true, if_true]
    exact Option.Rel.none
  | nil =>
    obtain ⟨hpop, hrep⟩ := hnil hfree
    have hbump : p'.bump = d.bump := hrep.bump
    simp only [hpop, not_true_eq_false, if_false, hbump]
    cases d.bump.allocateThrows (classSize i) alignment with
    | none => exact Option.Rel.none
    | some bump =>
      exact Option.Rel.some { hrep with bump := rfl }

/-- **The pool throws where the depot does**, with fuel for the walk. -/
theorem Represents.allocateThrows {fuel : Nat} (h : Represents p d) (hinv : d.Holds)
    (hfuel : d.medium.length < fuel) (bytes alignment : Nat) :
    Option.Rel Represents (p.allocateThrows bytes alignment fuel)
      (d.allocateThrows bytes alignment) := by
  have hwide := hinv.wide
  simp only [Pool.allocateThrows, Depot.allocateThrows]
  split
  next hsmall =>
    exact h.allocateSmallThrows (sizeClassIndex_spec hsmall).1 hwide hinv.inventory alignment
  next =>
    split
    next =>
      cases hfind : d.medium.find? (allocSize bytes alignment ≤ ·.2) with
      | none =>
        have hpop := h.centralPop_none hfind hfuel
        simp only [hpop, ne_eq, not_true_eq_false, if_false]
        exact Option.Rel.some h
      | some node =>
        obtain ⟨hne, p', hpop, -⟩ := h.centralPop_some hwide hinv.inventory hfind hfuel
        simp only [hpop, ne_eq, hne, not_false_eq_true, if_true]
        exact Option.Rel.none
    next => exact Option.Rel.some h

theorem allocateThrows_mono {bytes alignment fuel : Nat} (k : Nat)
    (h : p.allocateThrows bytes alignment fuel = some p') :
    p.allocateThrows bytes alignment (fuel + k) = some p' := by
  simp only [Pool.allocateThrows] at h ⊢
  split_ifs at h ⊢
  · exact h
  · cases hpop : p.centralPop (allocSize bytes alignment) fuel with
    | none => simp only [hpop, reduceCtorEq] at h
    | some result =>
      simp only [hpop] at h
      simp only [centralPop_mono k hpop]
      exact h
  · exact h

end Throws

/-- `allocate_from_block` throws exactly where it would take memory from the system. -/
theorem Bump.throws_iff (b : Bump) (size alignment fresh : Nat) :
    (b.allocateThrows size alignment).isSome ↔
      (b.allocateFromBlock size alignment fresh).obtained ≠ [] := by
  simp only [Bump.allocateThrows, Bump.allocateFromBlock]
  split
  next => simp
  next => cases nextBlock (b.blocks.drop (b.idx + 1)) (b.idx + 1) <;> simp

/-- **A call can throw exactly when it needs memory from the system.** -/
theorem Depot.throws_iff (d : Depot) (bytes alignment fresh : Nat) :
    (d.allocateThrows bytes alignment).isSome ↔
      (d.allocate bytes alignment fresh).obtained ≠ [] := by
  simp only [Depot.allocateThrows, Depot.allocate, Depot.allocateSmall, Depot.allocateMedium]
  split
  next =>
    generalize sizeClassIndex (allocSize bytes alignment) = i
    cases ((d.shelves i).drain 16).free with
    | nil =>
      rw [Option.isSome_map]
      exact d.bump.throws_iff ..
    | cons ptr free => simp
  next =>
    split
    next => cases d.medium.find? (allocSize bytes alignment ≤ ·.2) <;> simp
    next => simp

/-! ## Runs -/

section Runs

variable {mem : Memory} {blocks : List Nat} {t : List Event} {s : State} {d d' : Depot}

/-- A call that fits and gets fresh memory is a sound one. -/
theorem Depot.sound_of_fits {act : Act} (hfits : (Call.returned act).Fits)
    (hoffset : d.bump.offset ≤ offsetMax)
    (hfresh : ∀ e ∈ d.event act, Fresh wordSize d.heap e.obtained) : Depot.Sound t d act := by
  cases act with
  | allocate bytes alignment fresh fuel =>
    refine ⟨hfresh _ rfl, hfits.size, fun hcut => ?_⟩
    have hcarved : (d.allocate bytes alignment fresh).carved := by
      by_contra hnot
      simp only [hnot] at hcut
      cases hcut
    exact hfits.noWrap (d.carved_iff.mp hcarved).1 hoffset
  | deallocate b | write a v => exact trivial
  | warmup totalBytes blocks => exact ⟨hfresh _ rfl, trivial⟩

/-- Every call that returns keeps the bound on the offset. -/
theorem Depot.offset_step {act : Act} (hfits : (Call.returned act).Fits)
    (hoffset : d.bump.offset ≤ offsetMax) (hstep : d.step act = some d') :
    d'.bump.offset ≤ offsetMax := by
  cases act with
  | allocate bytes alignment fresh fuel =>
    cases hstep
    exact Depot.offset_allocate (show Fits bytes alignment from hfits) hoffset
  | deallocate b =>
    obtain ⟨-, rfl⟩ := Option.ite_some_none_eq_some.mp hstep
    rw [(d.kept_deallocate b).2.1]
    exact hoffset
  | warmup totalBytes blocks =>
    obtain ⟨-, rfl⟩ := Option.ite_some_none_eq_some.mp hstep
    exact hoffset
  | write a v =>
    cases hstep
    exact hoffset

/-- What holds of the pool after every run: it keeps the lists of a depot, which owns
    its pieces. -/
structure Upheld (s : State) (d : Depot) : Prop where
  refines : Refines s d
  holds : d.Holds
  offset : d.bump.offset ≤ offsetMax

/-- **Every call keeps this**, also one that throws. -/
theorem Upheld.step {s' : State} {call : Call} (h : Upheld s d) (hfitting : Fitting t s call)
    (hstep : call.step s = some s') : ∃ d', Upheld s' d' := by
  obtain ⟨hhanded, hfits⟩ := hfitting
  cases call with
  | returned act =>
    obtain ⟨d', hstep', href', hevent⟩ := h.refines.step h.holds hstep
    have hsound : Depot.Sound t d act := by
      refine Depot.sound_of_fits hfits h.offset fun e he => ?_
      rw [← h.refines.heap]
      refine hhanded e ?_
      show e ∈ event s act
      rw [hevent]
      exact he
    exact ⟨d', href', h.holds.step hsound hstep', Depot.offset_step hfits h.offset hstep'⟩
  | thrown bytes alignment fuel =>
    obtain ⟨p', hthrows, rfl⟩ := Option.map_eq_some_iff.mp hstep
    have hfuel : d.medium.length < fuel + (d.medium.length + 1) := by omega
    have hrel := h.refines.pool.allocateThrows h.holds hfuel bytes alignment
    rw [allocateThrows_mono _ hthrows] at hrel
    cases hd : d.allocateThrows bytes alignment with
    | none =>
      rw [hd] at hrel
      cases hrel
    | some d' =>
      rw [hd] at hrel
      obtain ⟨hholds, hlive, hoffset⟩ := h.holds.allocateThrows hfits h.offset hd
      cases hrel with
      | some hrep => exact ⟨d', ⟨hrep, h.refines.live.trans hlive.symm⟩, hholds, hoffset⟩

theorem upheld_new (mem : Memory) (hlen : blocks.length = initialBlocks)
    (hfresh : Fresh wordSize [] (blocks.map blockRegion)) : ∃ d, Upheld (init mem blocks) d :=
  ⟨Depot.new blocks, refines_new mem blocks, (Depot.inv_new hlen hfresh).holds, Nat.zero_le _⟩

theorem exists_upheld (hlen : blocks.length = initialBlocks)
    (hfresh : Fresh wordSize [] (blocks.map blockRegion))
    (hrun : Exec requests Fitting (init mem blocks) t s) : ∃ d, Upheld s d := by
  refine hrun.invariant (fun _ s => ∃ d, Upheld s d) (upheld_new mem hlen hfresh) ?_
  rintro t s call s' ⟨d, h⟩ hfitting hstep
  exact h.step hfitting hstep

/-- Where a live block is. -/
theorem Depot.Holds.served {b : Block} (h : d.Holds) (hb : b ∈ d.live) :
    ∃ q ∈ d.heap, Within ⟨b.ptr, b.bytes⟩ q := by
  obtain ⟨q, hq, hwithin⟩ :=
    h.inventory.within b.extent (List.mem_append_left _ (List.mem_map_of_mem hb))
  have hpart : Within ⟨b.ptr, b.bytes⟩ b.extent :=
    ⟨Nat.le_refl _, Nat.add_le_add_left (h.enough b hb) _⟩
  exact ⟨q, hq, hpart.trans hwithin⟩

end Runs

/-- The call returned `bytes` bytes inside memory that the pool, or its user through it,
    has from the system. -/
def Result.Serves (r : Result) (live : List Block) (bytes alignment : Nat) : Prop :=
  ∃ q ∈ heap ⟨r.pool, ⟨r.ptr, bytes, alignment⟩ :: live⟩, Within ⟨r.ptr, bytes⟩ q
deriving Decidable

/-- **A request that fits is never shrunk**: after every run, with calls that threw in it,
    it returns its bytes inside memory from the system, or throws, which it can do exactly
    when it needs such memory. -/
theorem requests_served {mem : Memory} {blocks : List Nat} {t : List Event} {s : State}
    {bytes alignment : Nat} (hlen : blocks.length = initialBlocks)
    (hfresh : Fresh wordSize [] (blocks.map blockRegion))
    (hrun : Exec requests Fitting (init mem blocks) t s) (hfits : Fits bytes alignment) :
    ∃ n, ∀ fuel, n < fuel → ∀ fresh, ∃ r,
      s.pool.allocate bytes alignment fresh fuel = some r ∧
      ((s.pool.allocateThrows bytes alignment fuel).isSome ↔ r.obtained ≠ []) ∧
      (Fresh wordSize (heap s) r.obtained → r.Serves s.live bytes alignment) := by
  obtain ⟨d, href, hholds, hoffset⟩ := exists_upheld hlen hfresh hrun
  refine ⟨d.medium.length, fun fuel hfuel fresh => ?_⟩
  obtain ⟨r, hcall, hmatch⟩ := href.pool.allocate fuel hholds hfuel bytes alignment fresh
  refine ⟨r, hcall, ?_, fun hobtained => ?_⟩
  · rw [hmatch.obtained, ← d.throws_iff bytes alignment fresh]
    have hrel := href.pool.allocateThrows hholds hfuel bytes alignment
    generalize s.pool.allocateThrows bytes alignment fuel = o at *
    generalize d.allocateThrows bytes alignment = o' at *
    cases hrel <;> rfl
  · -- the call is a step of the run, and its block is live after it
    have hstep : Call.step s (.returned (.allocate bytes alignment fresh fuel)) =
        some ⟨r.pool, ⟨r.ptr, bytes, alignment⟩ :: s.live⟩ := by
      simp only [Call.step, step, hcall, Option.map_some]
    have hfitting : Fitting t s (.returned (.allocate bytes alignment fresh fuel)) := by
      refine ⟨fun e he => ?_, hfits⟩
      simp only [Call.event, event, hcall, Option.map_some, Option.mem_def, Option.some.injEq] at he
      subst he
      exact hobtained
    obtain ⟨d', href', hholds', -⟩ := Upheld.step ⟨href, hholds, hoffset⟩ hfitting hstep
    have hlive : (⟨r.ptr, bytes, alignment⟩ : Block) ∈ d'.live := by
      rw [← href'.live]
      exact List.mem_cons_self
    rw [Result.Serves, href'.heap]
    exact hholds'.served hlive

/-- The largest request for an alignment of 64, after a call that threw. -/
theorem largest_request_served : ∃ t s,
    Exec requests Fitting (init (fun _ => 0) fourBlocks) t s ∧ Fits (2 ^ 64 - 64) 64 ∧
    ∃ n, ∀ fuel, n < fuel → ∀ fresh, ∃ r,
      s.pool.allocate (2 ^ 64 - 64) 64 fresh fuel = some r ∧
      ((s.pool.allocateThrows (2 ^ 64 - 64) 64 fuel).isSome ↔ r.obtained ≠ []) ∧
      (Fresh wordSize (heap s) r.obtained → r.Serves s.live (2 ^ 64 - 64) 64) := by
  have hexec : Exec requests Fitting (init (fun _ => 0) fourBlocks) _ _ :=
    exec_run [.returned (.allocate 24 64 0 0), .thrown (2 ^ 64 - 64) 64 0]
  exact ⟨_, _, hexec, by decide, requests_served (by decide) (by decide +kernel) hexec (by decide)⟩

/-- **Requests that are shrunk.**  `2^64 - 10` bytes at a multiple of 64 are rounded up to
    0, and the call returns a block of 8 bytes.  Nothing at a multiple of 2^63 is cut, if
    the offset is not 0, 2^63 bytes behind the block: the offset and the size add up to
    2^64. -/
theorem request_shrunk :
    (∃ r, (Pool.new (fun _ => 0) fourBlocks).allocate (2 ^ 64 - 10) 64 0 0 = some r ∧
      r.ptr = 0x100000 ∧ r.obtained = [] ∧ (⟨r.ptr, 2 ^ 64 - 10, 64⟩ : Block).extent.size = 8 ∧
      ¬ r.Serves [] (2 ^ 64 - 10) 64) ∧
    ∃ t s, Exec requests Handed (init (fun _ => 0) fourBlocks) t s ∧
      ∃ r, s.pool.allocate 0 (2 ^ 63) 0 0 = some r ∧ r.ptr = 0x100000 + 2 ^ 63 ∧
        r.obtained = [] ∧ ¬ r.Serves s.live 0 (2 ^ 63) := by
  refine ⟨⟨_, rfl, by decide +kernel⟩, ?_⟩
  have hexec : Exec requests Handed (init (fun _ => 0) fourBlocks) _ _ :=
    exec_run [.returned (.allocate 16 8 0 0)]
  exact ⟨_, _, hexec, _, rfl, by decide +kernel⟩

end MemoryPool
