import StorageRuntime.MemoryPoolProofs

/-!
# The depot — the pool without its memory

What the pool of `MemoryPool` keeps track of, with plain lists in place of lists
threaded through memory: the blocks with the user, a shelf for each size class
(thread-local cache, return ring, class list), the free medium blocks with their
recorded sizes, and the bump allocator.  The same calls act on it.

`Depot.owned` lists every piece of memory that is somewhere: live, free, or not yet
cut.  The ownership invariant `Depot.Inv` says that the pieces are an inventory of
the memory from the system.

**`Depot.Holds.step`**, **`Depot.Inv.step`**: every call keeps the ownership invariant.
A `deallocate` that finds both the cache and the ring full keeps the block nowhere
(`Shelf.putBack`); the invariant allows for that.
-/

namespace MemoryPool

open Function WordArithmetic Regions ByteMemory ReturnRing Interleaving
open scoped List

/-- The free blocks of one size class. -/
@[ext]
structure Shelf where
  /-- In the thread-local cache of `deallocate`, the latest first. -/
  cached : List Nat
  /-- In the return ring, the oldest first. -/
  ring : List Nat
  /-- In the class list, the latest first. -/
  free : List Nat

def Shelf.slots (sh : Shelf) : List Nat := sh.cached ++ sh.ring ++ sh.free

/-- At most `n` blocks go from the ring to the class list. -/
def Shelf.drain : Nat → Shelf → Shelf
  | 0, sh => sh
  | n + 1, sh =>
    match sh.ring with
    | [] => sh
    | ptr :: ring => Shelf.drain n { sh with ring := ring, free := ptr :: sh.free }

structure Depot where
  live : List Block
  shelves : Nat → Shelf
  /-- The free medium blocks with their recorded sizes, the latest first. -/
  medium : List (Nat × Nat)
  allocatedBlocks : List Region
  bump : Bump

def Depot.setShelf (d : Depot) (i : Nat) (sh : Shelf) : Depot :=
  { d with shelves := update d.shelves i sh }

theorem Depot.setShelf_self (d : Depot) (i : Nat) : d.setShelf i (d.shelves i) = d := by
  rw [Depot.setShelf, update_eq_self]

@[simp] theorem Depot.shelves_setShelf_self (d : Depot) (i : Nat) (sh : Shelf) :
    (d.setShelf i sh).shelves i = sh := update_self ..

/-- What `allocate` hands out, leaves behind, and takes from the system. -/
structure Depot.Handout where
  ptr : Nat
  depot : Depot
  obtained : List Region
  carved : Bool

def Depot.allocateSmall (d : Depot) (i alignment fresh : Nat) : Depot.Handout :=
  let sh := (d.shelves i).drain 16
  match sh.free with
  | ptr :: free => ⟨ptr, d.setShelf i { sh with free := free }, [], false⟩
  | [] =>
    let cut := d.bump.allocateFromBlock (classSize i) alignment fresh
    ⟨cut.ptr, { d.setShelf i sh with bump := cut.bump }, cut.obtained, true⟩

def Depot.allocateMedium (d : Depot) (size fresh : Nat) : Depot.Handout :=
  match d.medium.find? (size ≤ ·.2) with
  | some (ptr, _) => ⟨ptr, { d with medium := d.medium.eraseP (size ≤ ·.2) }, [], false⟩
  | none =>
    ⟨fresh, { d with allocatedBlocks := d.allocatedBlocks ++ [⟨fresh, size⟩] },
      [⟨fresh, size⟩], false⟩

def Depot.allocate (d : Depot) (bytes alignment fresh : Nat) : Depot.Handout :=
  let size := allocSize bytes alignment
  if size ≤ smallObjectMax then d.allocateSmall (sizeClassIndex size) alignment fresh
  else if size ≤ mediumObjectMax then d.allocateMedium size fresh
  else ⟨fresh, d, [⟨fresh, size⟩], false⟩

/-- A small block comes back: to the cache, or to the ring, or to nowhere. -/
def Shelf.putBack (sh : Shelf) (ptr : Nat) : Shelf :=
  if 64 < sh.cached.length then
    if sh.ring.length < ringCapacity then { sh with ring := sh.ring ++ [ptr] } else sh
  else { sh with cached := ptr :: sh.cached }

def Depot.deallocate (d : Depot) (b : Block) : Depot :=
  if b.size ≤ smallObjectMax then
    d.setShelf (sizeClassIndex b.size) ((d.shelves (sizeClassIndex b.size)).putBack b.ptr)
  else if b.size ≤ mediumObjectMax then { d with medium := (b.ptr, b.size) :: d.medium }
  else d

/-- What `allocate` can do for a request of `size` bytes: hand out a small block of its class, or
    cut one; hand out a free medium block, or take one from the system; or take a large one. -/
inductive Depot.Lends (d : Depot) (size alignment fresh : Nat) : Depot.Handout → Prop
  | shelved {i ptr : Nat} {free : List Nat} : size ≤ smallObjectMax → sizeClassIndex size = i →
      ((d.shelves i).drain 16).free = ptr :: free → Depot.Lends d size alignment fresh
        ⟨ptr, d.setShelf i { (d.shelves i).drain 16 with free := free }, [], false⟩
  | cut {i : Nat} {cut : Cut} : size ≤ smallObjectMax → sizeClassIndex size = i →
      ((d.shelves i).drain 16).free = [] →
      d.bump.allocateFromBlock (classSize i) alignment fresh = cut →
      Depot.Lends d size alignment fresh
        ⟨cut.ptr, { d.setShelf i ((d.shelves i).drain 16) with bump := cut.bump }, cut.obtained,
          true⟩
  | listed {node : Nat × Nat} : smallObjectMax < size ∧ size ≤ mediumObjectMax →
      d.medium.find? (size ≤ ·.2) = some node → Depot.Lends d size alignment fresh
        ⟨node.1, { d with medium := d.medium.eraseP (size ≤ ·.2) }, [], false⟩
  | new : smallObjectMax < size ∧ size ≤ mediumObjectMax → d.medium.find? (size ≤ ·.2) = none →
      Depot.Lends d size alignment fresh
        ⟨fresh, { d with allocatedBlocks := d.allocatedBlocks ++ [⟨fresh, size⟩] },
          [⟨fresh, size⟩], false⟩
  | large : mediumObjectMax < size →
      Depot.Lends d size alignment fresh ⟨fresh, d, [⟨fresh, size⟩], false⟩

theorem Depot.lends_allocate (d : Depot) (bytes alignment fresh : Nat) :
    d.Lends (allocSize bytes alignment) alignment fresh (d.allocate bytes alignment fresh) := by
  rw [Depot.allocate]
  split
  next hsmall =>
    rw [Depot.allocateSmall]
    split
    next hfree => exact .shelved hsmall rfl hfree
    next hfree => exact .cut hsmall rfl hfree rfl
  next hsmall =>
    split
    next hmedium =>
      rw [Depot.allocateMedium]
      split
      next hfind => exact .listed ⟨by omega, hmedium⟩ hfind
      next hfind => exact .new ⟨by omega, hmedium⟩ hfind
    next hmedium => exact .large (by omega)

theorem Depot.Lends.live {d : Depot} {size alignment fresh : Nat} {r : Depot.Handout}
    (h : d.Lends size alignment fresh r) : r.depot.live = d.live := by
  cases h <;> rfl

/-- What `deallocate` does not touch. -/
theorem Depot.kept_deallocate (d : Depot) (b : Block) : (d.deallocate b).live = d.live ∧
    (d.deallocate b).bump = d.bump ∧ (d.deallocate b).allocatedBlocks = d.allocatedBlocks := by
  rw [Depot.deallocate]
  split
  · exact ⟨rfl, rfl, rfl⟩
  · split <;> exact ⟨rfl, rfl, rfl⟩

/-- The memory from the system. -/
def Depot.heap (d : Depot) : List Region :=
  d.bump.blocks.map blockRegion ++ d.allocatedBlocks ++ large d.live

/-- The calls on the depot.  A written byte changes nothing here. -/
def Depot.step (d : Depot) : Act → Option Depot
  | .allocate bytes alignment fresh _ =>
    let r := d.allocate bytes alignment fresh
    some { r.depot with live := ⟨r.ptr, bytes, alignment⟩ :: r.depot.live }
  | .deallocate b =>
    if b ∈ d.live then
      let d := d.deallocate b
      some { d with live := d.live.erase b }
    else none
  | .warmup totalBytes blocks =>
    if blocks.length = blocksNeeded totalBytes then
      some { d with bump := { d.bump with blocks := d.bump.blocks ++ blocks } }
    else none
  | .write _ _ => some d

def Depot.event (d : Depot) : Act → Option Event
  | .allocate bytes alignment fresh _ =>
    let r := d.allocate bytes alignment fresh
    some ⟨r.obtained, if r.carved then
      some (sizeClassIndex (allocSize bytes alignment), r.ptr) else none⟩
  | .warmup _ blocks => some ⟨blocks.map blockRegion, none⟩
  | _ => none

def Depot.new (blocks : List Nat) : Depot where
  live := []
  shelves := fun _ => ⟨[], [], []⟩
  medium := []
  allocatedBlocks := []
  bump := ⟨blocks, blocks.headD 0, 0, 0⟩

/-! ## Ownership -/

/-- What is left of the block at `ptr` behind the offset. -/
def restAt (ptr offset : Nat) : List Region :=
  if offset < blockSize then [⟨ptr + offset, blockSize - offset⟩] else []

/-- The memory that is not cut yet. -/
def Bump.reserve (b : Bump) : List Region :=
  restAt b.ptr b.offset ++ (b.blocks.drop (b.idx + 1)).map blockRegion

/-- A block of class `i`. -/
def smallPiece (i ptr : Nat) : Region := ⟨ptr, classSize i⟩

/-- The free pieces of class `i`. -/
def Shelf.pieces (i : Nat) (sh : Shelf) : List Region := sh.slots.map (smallPiece i)

/-- The free small pieces. -/
def Depot.small (d : Depot) : List Region :=
  (List.range numSizeClasses).flatMap fun i => (d.shelves i).pieces i

def mediumPiece (node : Nat × Nat) : Region := ⟨node.1, node.2⟩

/-- What the pool could hand out. -/
def Depot.stock (d : Depot) : List Region :=
  d.small ++ (d.medium.map mediumPiece ++ d.bump.reserve)

/-- **Every piece of memory that is somewhere.** -/
def Depot.owned (d : Depot) : List Region := d.live.map Block.extent ++ d.stock

/-- The pieces that were cut already. -/
def Depot.pieces (d : Depot) : List Region :=
  d.live.map Block.extent ++ (d.small ++ d.medium.map mediumPiece)

theorem Depot.owned_perm (d : Depot) : d.owned ~ d.bump.reserve ++ d.pieces := by
  rw [Depot.owned, Depot.stock, Depot.pieces, ← List.append_assoc d.small, ← List.append_assoc]
  exact List.perm_append_comm

/-- The ownership invariant without the current block: after an `allocate` whose
    `operator new` threw, the index of the bump allocator is behind all blocks. -/
structure Depot.Holds (d : Depot) : Prop where
  inventory : Inventory wordSize d.heap d.owned
  cached : ∀ i, (d.shelves i).cached.length ≤ 65
  medium : ∀ node ∈ d.medium, smallObjectMax < node.2 ∧ node.2 ≤ mediumObjectMax
  enough : ∀ b ∈ d.live, b.bytes ≤ b.extent.size

structure Depot.Inv (d : Depot) : Prop extends holds : Depot.Holds d where
  current : d.bump.blocks[d.bump.idx]? = some d.bump.ptr

section Pieces

variable {d : Depot} {limit : Nat}

/-- Class `i` can be taken out of the small pieces and put back changed. -/
theorem Depot.small_setShelf (d : Depot) {i : Nat} (hi : i < numSizeClasses) :
    ∃ rest, d.small.Perm ((d.shelves i).pieces i ++ rest) ∧
      ∀ sh, (d.setShelf i sh).small.Perm (sh.pieces i ++ rest) := by
  obtain ⟨rest, hall, hset⟩ := flatMap_update_perm (fun i => (d.shelves i).pieces i)
    List.nodup_range (List.mem_range.mpr hi)
  refine ⟨rest, hall, fun sh => ?_⟩
  have h := hset (fun j => ((d.setShelf i sh).shelves j).pieces j) fun j hj => by
    show (update d.shelves i sh j).pieces j = _
    rw [update_of_ne hj]
  rwa [Depot.shelves_setShelf_self] at h

/-- A change of one shelf that moves its blocks around, with `l` coming in and `l'`
    going out, moves pieces around. -/
theorem Depot.small_setShelf_perm (d : Depot) {i : Nat} (hi : i < numSizeClasses) {sh : Shelf}
    (l l' : List Nat) (h : l ++ (d.shelves i).slots ~ l' ++ sh.slots) :
    l.map (smallPiece i) ++ d.small ~ l'.map (smallPiece i) ++ (d.setShelf i sh).small := by
  obtain ⟨rest, hall, hset⟩ := d.small_setShelf hi
  have hslots := h.map (smallPiece i)
  rw [List.map_append, List.map_append] at hslots
  calc l.map (smallPiece i) ++ d.small
      _ ~ l.map (smallPiece i) ++ ((d.shelves i).pieces i ++ rest) := hall.append_left _
      _ ~ l'.map (smallPiece i) ++ (sh.pieces i ++ rest) := by
        rw [← List.append_assoc, ← List.append_assoc]
        exact hslots.append_right rest
      _ ~ l'.map (smallPiece i) ++ (d.setShelf i sh).small := (hset sh).symm.append_left _

/-- Draining moves blocks within the shelf. -/
theorem Shelf.slots_drain (n : Nat) : ∀ sh : Shelf, (sh.drain n).slots.Perm sh.slots := by
  induction n with
  | zero => intro sh; exact .refl _
  | succ n ih =>
    intro sh
    rw [Shelf.drain]
    split
    next => exact .refl _
    next ptr ring hring =>
      refine (ih _).trans ?_
      simp only [Shelf.slots, hring, List.append_assoc]
      exact .append_left _ List.perm_middle

theorem Shelf.cached_drain (n : Nat) : ∀ sh : Shelf, (sh.drain n).cached = sh.cached := by
  induction n with
  | zero => intro sh; rfl
  | succ n ih =>
    intro sh
    rw [Shelf.drain]
    split
    next => rfl
    next => exact ih _

/-- The shelf takes a block back, or finds both the cache and the ring full. -/
theorem Shelf.putBack_cases (sh : Shelf) (ptr : Nat) : (sh.putBack ptr).slots ~ ptr :: sh.slots ∨
    sh.putBack ptr = sh ∧ 64 < sh.cached.length ∧ ¬ sh.ring.length < ringCapacity := by
  rw [Shelf.putBack]
  split
  next hfull =>
    split
    next =>
      refine .inl ?_
      simp only [Shelf.slots, List.append_assoc]
      exact (List.Perm.append_left _ List.perm_middle).trans List.perm_middle
    next hring => exact .inr ⟨rfl, hfull, hring⟩
  next => exact .inl (.refl _)

/-- Cutting a slot of `size` bytes at offset `o` out of what is left behind `off`. -/
theorem inventory_cut {heap owned : List Region} {ptr n size : Nat} (off o : Nat)
    (h : Inventory limit heap (⟨ptr + off, blockSize - off⟩ :: owned)) (ho : off ≤ o)
    (hn : size ≤ n) (hpos : 0 < size) (hfits : o + size ≤ blockSize) :
    Inventory limit heap (⟨ptr + o, size⟩ :: (restAt ptr (o + n) ++ owned)) := by
  have hslot : Within ⟨ptr + o, size⟩ ⟨ptr + off, blockSize - off⟩ := by
    simp only [Within]
    omega
  rw [restAt]
  split
  next hrest =>
    refine h.split hslot ?_ ?_ hpos ?_
    · simp only [Within]
      omega
    · simp only [Clear]
      omega
    · show 0 < blockSize - (o + n)
      omega
  next => exact h.shrink hslot hpos

theorem pos_of_mem_blocks (blocks : List Nat) : ∀ r ∈ blocks.map blockRegion, 0 < r.size := by
  intro r hr
  obtain ⟨block, -, rfl⟩ := List.mem_map.mp hr
  show 0 < blockSize
  decide

/-- **A cut takes its slot out of the reserve**, which a new block enlarges first. -/
theorem inventory_carve {b : Bump} {cut : Cut} {size fresh : Nat} {heap owned : List Region}
    (hcuts : b.Cuts size fresh cut) (hpos : 0 < size) (hle : size ≤ blockSize)
    (hfresh : Fresh limit (b.blocks.map blockRegion ++ heap) cut.obtained)
    (h : Inventory limit (b.blocks.map blockRegion ++ heap) (b.reserve ++ owned)) :
    Inventory limit (cut.bump.blocks.map blockRegion ++ heap)
      (⟨cut.ptr, size⟩ :: (cut.bump.reserve ++ owned)) := by
  cases hcuts with
  | @here o n ho hn hfits =>
    have hrest : restAt b.ptr b.offset = [⟨b.ptr + b.offset, blockSize - b.offset⟩] :=
      if_pos (by omega)
    rw [Bump.reserve, hrest, List.append_assoc, List.singleton_append] at h
    have hcut := inventory_cut b.offset o h ho hn hpos (by omega)
    rw [← List.append_assoc] at hcut
    exact hcut
  | @next n block rest hn hdrop =>
    have hlater : b.blocks.drop (b.idx + 1 + 1) = rest := by
      rw [← List.drop_drop, hdrop]
      rfl
    rw [Bump.reserve, hdrop, List.append_assoc, List.map_cons, List.cons_append] at h
    have hblock := h.sublist (List.sublist_append_right ..)
    have hcut := inventory_cut 0 0 hblock (Nat.le_refl 0) hn hpos (by omega)
    rw [Nat.zero_add, ← List.append_assoc] at hcut
    rw [Bump.reserve, hlater]
    exact hcut
  | @new n hn hdrop =>
    have hhand := h.hand hfresh (pos_of_mem_blocks [fresh])
    have hnew : Inventory limit ([blockRegion fresh] ++ (b.blocks.map blockRegion ++ heap))
        (blockRegion fresh :: owned) :=
      hhand.sublist ((List.sublist_append_right ..).cons_cons _)
    have hcut := inventory_cut 0 0 hnew (Nat.le_refl 0) hn hpos (by omega)
    rw [Nat.zero_add] at hcut
    have hlater : (b.blocks ++ [fresh]).drop (b.blocks.length + 1) = [] :=
      List.drop_eq_nil_of_le (by rw [List.length_append]; exact Nat.le_refl _)
    rw [Bump.reserve, hlater, List.map_nil, List.append_nil]
    refine hcut.perm ?_ (.refl _)
    rw [List.map_append, List.append_assoc, List.map_singleton, List.singleton_append,
      List.singleton_append]
    exact List.perm_middle.symm

/-- The current block stays one of the pool's blocks. -/
theorem Bump.Cuts.current {b : Bump} {cut : Cut} {size fresh : Nat}
    (hcuts : b.Cuts size fresh cut) (h : b.blocks[b.idx]? = some b.ptr) :
    cut.bump.blocks[cut.bump.idx]? = some cut.bump.ptr := by
  cases hcuts with
  | here => exact h
  | @next n block rest hn hdrop =>
    have hfirst := congrArg (fun l : List Nat => l[0]?) hdrop
    rw [List.getElem?_drop] at hfirst
    exact hfirst
  | new => exact List.getElem?_concat_length

/-- A block that is not large does not count for the system's memory. -/
theorem large_cons_of_le {b : Block} {live : List Block} (h : b.size ≤ mediumObjectMax) :
    large (b :: live) = large live := by
  have hb : decide (mediumObjectMax < b.size) = false := decide_eq_false (by omega)
  rw [large, List.filter_cons, hb]
  rfl

theorem large_cons_of_gt {b : Block} {live : List Block} (h : mediumObjectMax < b.size) :
    large (b :: live) = b.extent :: large live := by
  have hb : decide (mediumObjectMax < b.size) = true := decide_eq_true h
  rw [large, List.filter_cons, hb]
  rfl

theorem large_perm {live live' : List Block} (h : live ~ live') : large live ~ large live' :=
  (h.filter _).map _

theorem Block.extent_small {b : Block} (h : b.size ≤ smallObjectMax) :
    b.extent = smallPiece (sizeClassIndex b.size) b.ptr := by
  rw [Block.extent, if_pos h]
  rfl

theorem Block.extent_of_gt {b : Block} (h : smallObjectMax < b.size) :
    b.extent = ⟨b.ptr, b.size⟩ := by
  rw [Block.extent, if_neg (by omega)]

/-- The block behind an allocation has the bytes that were asked for. -/
theorem Block.bytes_le {b : Block} (h : maxAlign < b.alignment → b.bytes + b.alignment ≤ wordSize) :
    b.bytes ≤ b.extent.size := by
  have hbytes : b.bytes ≤ b.size := le_allocSize h
  by_cases hsmall : b.size ≤ smallObjectMax
  · rw [Block.extent_small hsmall]
    exact Nat.le_trans hbytes (sizeClassIndex_spec hsmall).2
  · rw [Block.extent_of_gt (by omega)]
    exact hbytes

end Pieces

/-! ## Every call keeps the ownership -/

/-- The depot with one more live block. -/
def Depot.lend (d : Depot) (b : Block) : Depot := { d with live := b :: d.live }

section Calls

variable {d d' : Depot} {b : Block} {r : Region}

/-- A piece that leaves the stock. -/
theorem Depot.owned_take (hlive : d'.live = d.live) (hstock : d.stock ~ r :: d'.stock) :
    d.owned ~ r :: d'.owned := by
  rw [Depot.owned, Depot.owned, hlive]
  exact (hstock.append_left _).trans List.perm_middle

/-- The block of the piece that left the stock is lent. -/
theorem Depot.owned_lend : (d.lend b).owned = b.extent :: d.owned := rfl

theorem Depot.heap_lend_of_le (h : b.size ≤ mediumObjectMax) : (d.lend b).heap = d.heap := by
  show _ ++ large (b :: d.live) = _
  rw [large_cons_of_le h]
  rfl

/-- The live blocks with `b` in front. -/
theorem Depot.live_perm (hb : b ∈ d.live) : d.live ~ b :: d.live.erase b :=
  List.perm_cons_erase hb

/-- A small block from the class list. -/
theorem Depot.Holds.popSmall (h : d.Holds) {free : List Nat} (hb : b.size ≤ smallObjectMax)
    (hfree : ((d.shelves (sizeClassIndex b.size)).drain 16).free = b.ptr :: free)
    (hbytes : b.bytes ≤ b.extent.size) :
    ((d.setShelf (sizeClassIndex b.size)
      { (d.shelves (sizeClassIndex b.size)).drain 16 with free := free }).lend b).Holds := by
  obtain ⟨hi, -⟩ := sizeClassIndex_spec hb
  have hext := Block.extent_small hb
  generalize sizeClassIndex b.size = i at *
  have hslots : (d.shelves i).slots ~
      b.ptr :: ({ (d.shelves i).drain 16 with free := free } : Shelf).slots := by
    refine ((d.shelves i).slots_drain 16).symm.trans ?_
    rw [Shelf.slots, hfree]
    exact List.perm_middle
  have hstock := (d.small_setShelf_perm hi [] [b.ptr] hslots).append_right
    (d.medium.map mediumPiece ++ d.bump.reserve)
  refine ⟨?_, ?_, h.medium, List.forall_mem_cons.mpr ⟨hbytes, h.enough⟩⟩
  · rw [Depot.heap_lend_of_le (Nat.le_trans hb (by decide)), Depot.owned_lend, hext]
    exact h.inventory.perm (.refl _) (Depot.owned_take rfl hstock)
  · refine forall_update (P := fun _ (sh : Shelf) => sh.cached.length ≤ 65) h.cached ?_
    rw [Shelf.cached_drain]
    exact h.cached i

/-- Blocks of class `i` move from the ring to the class list. -/
theorem Depot.Holds.drain (h : d.Holds) {i : Nat} (hi : i < numSizeClasses) :
    (d.setShelf i ((d.shelves i).drain 16)).Holds := by
  have hstock := (d.small_setShelf_perm hi [] [] ((d.shelves i).slots_drain 16).symm).append_right
    (d.medium.map mediumPiece ++ d.bump.reserve)
  refine ⟨h.inventory.perm (.refl _) (hstock.append_left _), ?_, h.medium, h.enough⟩
  refine forall_update (P := fun _ (sh : Shelf) => sh.cached.length ≤ 65) h.cached ?_
  rw [Shelf.cached_drain]
  exact h.cached i

theorem Depot.Holds.blocks_pos (h : d.Holds) : ∀ block ∈ d.bump.blocks, 0 < block := by
  intro block hblock
  have hmem : blockRegion block ∈ d.heap :=
    List.mem_append_left _ (List.mem_append_left _ (List.mem_map_of_mem hblock))
  exact (h.inventory.bounds _ hmem).1

/-- A small block that is cut out of a 1 MB block. -/
theorem Depot.Holds.carve (h : d.Holds) {fresh : Nat} {cut : Cut} (hb : b.size ≤ smallObjectMax)
    (hcuts : d.bump.Cuts (classSize (sizeClassIndex b.size)) fresh cut) (hptr : b.ptr = cut.ptr)
    (hfresh : Fresh wordSize d.heap cut.obtained) (hbytes : b.bytes ≤ b.extent.size) :
    (Depot.lend { d with bump := cut.bump } b).Holds := by
  obtain ⟨height, hblock⟩ := classSize_bounds (sizeClassIndex_spec hb).1
  have hheap : ∀ {d : Depot}, d.heap = d.bump.blocks.map blockRegion ++
      (d.allocatedBlocks ++ large d.live) := List.append_assoc ..
  rw [hheap] at hfresh
  have hinv := h.inventory.perm (.refl _) d.owned_perm
  rw [hheap] at hinv
  have hcarve := inventory_carve hcuts (by omega) hblock hfresh hinv
  refine ⟨?_, h.cached, h.medium, List.forall_mem_cons.mpr ⟨hbytes, h.enough⟩⟩
  rw [Depot.heap_lend_of_le (Nat.le_trans hb (by decide)), Depot.owned_lend, Block.extent_small hb,
    hptr, hheap]
  exact hcarve.perm (.refl _) (({ d with bump := cut.bump } : Depot).owned_perm.symm.cons _)

/-- The first medium node that is large enough, with the nodes around it. -/
theorem firstFit_split {l : List (Nat × Nat)} {size : Nat} {node : Nat × Nat}
    (hfind : l.find? (size ≤ ·.2) = some node) : ∃ before after, l = before ++ node :: after ∧
      l.eraseP (size ≤ ·.2) = before ++ after ∧ (∀ x ∈ before, x.2 < size) ∧ size ≤ node.2 := by
  obtain ⟨hle, before, after, rfl, hbefore⟩ := List.find?_eq_some_iff_append.mp hfind
  refine ⟨before, after, rfl, ?_, fun x hx => by simpa using hbefore x hx, of_decide_eq_true hle⟩
  rw [List.eraseP_append_right _ (fun x hx => by simpa using hbefore x hx)]
  exact congrArg (before ++ ·) (List.eraseP_cons_of_pos (p := fun x : Nat × Nat => size ≤ x.2) hle)

/-- A free medium block that is large enough. -/
theorem Depot.Holds.popMedium (h : d.Holds) {node : Nat × Nat}
    (hfind : d.medium.find? (b.size ≤ ·.2) = some node) (hptr : b.ptr = node.1)
    (hb : smallObjectMax < b.size ∧ b.size ≤ mediumObjectMax) (hbytes : b.bytes ≤ b.extent.size) :
    (Depot.lend { d with medium := d.medium.eraseP (b.size ≤ ·.2) } b).Holds := by
  obtain ⟨before, after, hmedium, herase, -, hnode⟩ := firstFit_split hfind
  rw [herase]
  have hstock : d.stock ~ mediumPiece node ::
      ({ d with medium := before ++ after } : Depot).stock := by
    refine .trans (List.Perm.append_left _ ?_) List.perm_middle
    rw [hmedium, List.map_append, List.map_append, List.map_cons, List.append_assoc,
      List.append_assoc, List.cons_append]
    exact List.perm_middle
  refine ⟨?_, h.cached, ?_, List.forall_mem_cons.mpr ⟨hbytes, h.enough⟩⟩
  · rw [Depot.heap_lend_of_le hb.2, Depot.owned_lend]
    have howned : d.owned ~ mediumPiece node :: Depot.owned { d with medium := before ++ after } :=
      Depot.owned_take rfl hstock
    refine (h.inventory.perm (.refl _) howned).shrink ?_ ?_
    · rw [Block.extent_of_gt hb.1, hptr]
      exact ⟨Nat.le_refl _, Nat.add_le_add_left hnode _⟩
    · rw [Block.extent_of_gt hb.1]
      exact Nat.zero_lt_of_lt hb.1
  · intro x hx
    refine h.medium x ?_
    rw [hmedium]
    rcases List.mem_append.mp hx with hx | hx
    · exact List.mem_append_left _ hx
    · exact List.mem_append_right _ (List.mem_cons_of_mem _ hx)

/-- A block of its own from the system. -/
theorem Depot.Holds.obtain (h : d.Holds) (hfresh : Fresh wordSize d.heap [⟨b.ptr, b.size⟩])
    (hb : smallObjectMax < b.size) :
    Inventory wordSize (⟨b.ptr, b.size⟩ :: d.heap) (d.lend b).owned := by
  rw [Depot.owned_lend, Block.extent_of_gt hb]
  refine h.inventory.hand hfresh fun r hr => ?_
  rw [List.mem_singleton.mp hr]
  exact Nat.zero_lt_of_lt hb

/-- A medium block from the system. -/
theorem Depot.Holds.newMedium (h : d.Holds) (hfresh : Fresh wordSize d.heap [⟨b.ptr, b.size⟩])
    (hb : smallObjectMax < b.size ∧ b.size ≤ mediumObjectMax) (hbytes : b.bytes ≤ b.extent.size) :
    (Depot.lend { d with allocatedBlocks := d.allocatedBlocks ++ [⟨b.ptr, b.size⟩] } b).Holds := by
  refine ⟨?_, h.cached, h.medium, List.forall_mem_cons.mpr ⟨hbytes, h.enough⟩⟩
  rw [Depot.heap_lend_of_le hb.2]
  refine (h.obtain hfresh hb.1).perm ?_ (.refl _)
  rw [Depot.heap, Depot.heap, ← List.append_assoc _ d.allocatedBlocks, List.append_assoc _ [_],
    List.singleton_append]
  exact List.perm_middle.symm

/-- A large block from the system. -/
theorem Depot.Holds.newLarge (h : d.Holds) (hfresh : Fresh wordSize d.heap [⟨b.ptr, b.size⟩])
    (hb : mediumObjectMax < b.size) (hbytes : b.bytes ≤ b.extent.size) : (d.lend b).Holds := by
  have hsmall : smallObjectMax < b.size := Nat.lt_trans (by decide) hb
  refine ⟨?_, h.cached, h.medium, List.forall_mem_cons.mpr ⟨hbytes, h.enough⟩⟩
  refine (h.obtain hfresh hsmall).perm ?_ (.refl _)
  show _ ~ d.bump.blocks.map blockRegion ++ d.allocatedBlocks ++ large (b :: d.live)
  rw [large_cons_of_gt hb, Block.extent_of_gt hsmall]
  exact List.perm_middle.symm

/-- **`allocate` keeps the ownership.** -/
theorem Depot.Lends.holds {fresh : Nat} {r : Depot.Handout}
    (hlends : d.Lends b.size b.alignment fresh r) (hptr : b.ptr = r.ptr) (h : d.Holds)
    (hwrap : maxAlign < b.alignment → b.bytes + b.alignment ≤ wordSize)
    (hbump : r.carved → d.bump.NoWrap (classSize (sizeClassIndex b.size)) b.alignment)
    (hfresh : Fresh wordSize d.heap r.obtained) : (r.depot.lend b).Holds := by
  have hbytes := Block.bytes_le hwrap
  cases hlends with
  | shelved hsmall hi hfree =>
    subst hi
    cases hptr
    exact h.popSmall hsmall hfree hbytes
  | cut hsmall hi _ hcut =>
    subst hi hcut
    have hcuts := Bump.cuts_allocateFromBlock fresh h.blocks_pos (hbump rfl)
    exact (h.drain (sizeClassIndex_spec hsmall).1).carve hsmall hcuts hptr hfresh hbytes
  | listed hsize hfind => exact h.popMedium hfind hptr hsize hbytes
  | new hsize _ =>
    cases hptr
    exact h.newMedium hfresh hsize hbytes
  | large hsize =>
    cases hptr
    exact h.newLarge hfresh hsize hbytes

/-- The live block `b` leaves the user. -/
def Depot.takeBack (d : Depot) (b : Block) : Depot := { d with live := d.live.erase b }

/-- The pieces without `b`, which is free for other use. -/
theorem Depot.owned_takeBack (hb : b ∈ d.live) : d.owned ~ b.extent :: (d.takeBack b).owned :=
  ((Depot.live_perm hb).map _).append_right _

theorem Depot.heap_takeBack_of_le (hb : b ∈ d.live) (h : b.size ≤ mediumObjectMax) :
    d.heap ~ (d.takeBack b).heap := by
  have hlarge := large_perm (Depot.live_perm hb)
  rw [large_cons_of_le h] at hlarge
  exact hlarge.append_left _

/-- A small block comes back to its shelf, or is lost. -/
theorem Depot.Holds.putBack (h : d.Holds) (hb : b ∈ d.live) (hsmall : b.size ≤ smallObjectMax) :
    ((d.setShelf (sizeClassIndex b.size)
      ((d.shelves (sizeClassIndex b.size)).putBack b.ptr)).takeBack b).Holds := by
  obtain ⟨hi, -⟩ := sizeClassIndex_spec hsmall
  have hext := Block.extent_small hsmall
  generalize sizeClassIndex b.size = i at *
  have hheap := Depot.heap_takeBack_of_le hb (Nat.le_trans hsmall (by decide))
  have hinv := h.inventory.perm hheap (Depot.owned_takeBack hb)
  rw [hext] at hinv
  refine ⟨?_, ?_, h.medium, fun x hx => h.enough x (List.mem_of_mem_erase hx)⟩
  · rcases (d.shelves i).putBack_cases b.ptr with hput | ⟨hlost, -⟩
    · have hsmallPerm := (d.takeBack b).small_setShelf_perm hi [b.ptr] [] hput.symm
      refine hinv.perm (.refl _) (List.perm_middle.symm.trans (List.Perm.append_left _ ?_))
      exact hsmallPerm.append_right _
    · -- the block is in no list any more
      rw [hlost, Depot.setShelf_self]
      exact hinv.sublist (List.sublist_cons_self ..)
  · refine forall_update (P := fun _ (sh : Shelf) => sh.cached.length ≤ 65) h.cached ?_
    have hold := h.cached i
    rw [Shelf.putBack]
    split
    next =>
      split <;> exact hold
    next hle =>
      show (d.shelves i).cached.length + 1 ≤ 65
      omega

/-- A medium block comes back with its size recorded. -/
theorem Depot.Holds.pushMedium (h : d.Holds) (hb : b ∈ d.live)
    (hsize : smallObjectMax < b.size ∧ b.size ≤ mediumObjectMax) :
    (Depot.takeBack { d with medium := (b.ptr, b.size) :: d.medium } b).Holds := by
  have hheap := Depot.heap_takeBack_of_le hb hsize.2
  have hinv := h.inventory.perm hheap (Depot.owned_takeBack hb)
  rw [Block.extent_of_gt hsize.1] at hinv
  refine ⟨hinv.perm (.refl _) ?_, h.cached, List.forall_mem_cons.mpr ⟨hsize, h.medium⟩,
    fun x hx => h.enough x (List.mem_of_mem_erase hx)⟩
  refine List.perm_middle.symm.trans (List.Perm.append_left _ ?_)
  exact List.perm_middle.symm

/-- A large block goes back to the system. -/
theorem Depot.Holds.freeLarge (h : d.Holds) (hb : b ∈ d.live) (hsize : mediumObjectMax < b.size) :
    (d.takeBack b).Holds := by
  have hlarge := large_perm (Depot.live_perm hb)
  rw [large_cons_of_gt hsize] at hlarge
  have hheap : d.heap ~ b.extent :: (d.takeBack b).heap :=
    (hlarge.append_left _).trans List.perm_middle
  exact ⟨(h.inventory.perm hheap (Depot.owned_takeBack hb)).release, h.cached,
    h.medium, fun x hx => h.enough x (List.mem_of_mem_erase hx)⟩

theorem Depot.Holds.deallocate (h : d.Holds) (hb : b ∈ d.live) :
    ((d.deallocate b).takeBack b).Holds := by
  rw [Depot.deallocate]
  split
  next hsmall => exact h.putBack hb hsmall
  next hsmall =>
    split
    next hmedium => exact h.pushMedium hb ⟨by omega, hmedium⟩
    next hmedium => exact h.freeLarge hb (by omega)

theorem Depot.Holds.warmup (h : d.Holds) {blocks : List Nat}
    (hfresh : Fresh wordSize d.heap (blocks.map blockRegion)) :
    ({ d with bump := { d.bump with blocks := d.bump.blocks ++ blocks } } : Depot).Holds := by
  refine ⟨?_, h.cached, h.medium, h.enough⟩
  have hpieces := ({ d with
    bump := { d.bump with blocks := d.bump.blocks ++ blocks } } : Depot).owned_perm
  -- new blocks in front of the index are not used any more
  have hnew : (Bump.reserve { d.bump with blocks := d.bump.blocks ++ blocks }).Sublist
      (d.bump.reserve ++ blocks.map blockRegion) := by
    rw [Bump.reserve, Bump.reserve, List.drop_append, List.map_append, List.append_assoc]
    exact ((List.Sublist.refl _).append ((List.drop_sublist ..).map _)).append_left _
  have hall := (h.inventory.hand hfresh (pos_of_mem_blocks blocks)).perm
    (List.Perm.refl _) (d.owned_perm.append_left _)
  have hordered := hall.perm (List.Perm.refl _)
    (show _ ~ (d.bump.reserve ++ blocks.map blockRegion) ++ d.pieces by
      rw [← List.append_assoc]
      exact List.perm_append_comm.append_right _)
  refine ((hordered.sublist (hnew.append_right _)).perm ?_ hpieces.symm)
  rw [Depot.heap, Depot.heap, List.map_append, List.append_assoc, List.append_assoc,
    List.append_assoc, ← List.append_assoc, ← List.append_assoc (d.bump.blocks.map _)]
  exact List.perm_append_comm.append_right _

/-- The initial depot. -/
theorem Depot.inv_new {blocks : List Nat} (hlen : blocks.length = initialBlocks)
    (hfresh : Fresh wordSize [] (blocks.map blockRegion)) : (Depot.new blocks).Inv := by
  obtain ⟨block, rest, rfl⟩ : ∃ block rest, blocks = block :: rest :=
    List.exists_cons_of_length_eq_add_one hlen
  refine ⟨⟨?_, fun _ => Nat.zero_le _, nofun, nofun⟩, rfl⟩
  have hall := (Inventory.empty wordSize).hand hfresh (pos_of_mem_blocks _)
  have howned : (Depot.new (block :: rest)).owned = (block :: rest).map blockRegion := rfl
  have hheap : (Depot.new (block :: rest)).heap = (block :: rest).map blockRegion ++ [] ++ [] :=
    rfl
  rw [howned, hheap, List.append_nil, List.append_nil]
  rw [List.append_nil] at hall
  exact hall

/-- What a call on the depot has to meet. -/
def Depot.Sound (_ : List Event) (d : Depot) (act : Act) : Prop :=
  SoundCall d.heap d.bump act (d.event act)

theorem Depot.Holds.step {t : List Event} {act : Act} (h : d.Holds) (hsound : Depot.Sound t d act)
    (hstep : d.step act = some d') : d'.Holds := by
  cases act with
  | allocate bytes alignment fresh fuel =>
    cases hstep
    obtain ⟨hfresh, hwrap, hbump⟩ := hsound
    refine (d.lends_allocate bytes alignment fresh).holds (b := ⟨_, bytes, alignment⟩) rfl h hwrap
      (fun hcarved => hbump ?_) hfresh
    rw [if_pos hcarved]
    rfl
  | deallocate b =>
    obtain ⟨hb, rfl⟩ := Option.ite_some_none_eq_some.mp hstep
    exact h.deallocate hb
  | warmup totalBytes blocks =>
    obtain ⟨-, rfl⟩ := Option.ite_some_none_eq_some.mp hstep
    exact h.warmup hsound.1
  | write a v =>
    cases hstep
    exact h

/-- **Every call that returns keeps the current block.** -/
theorem Depot.Inv.current_step {t : List Event} {act : Act} (h : d.Inv)
    (hsound : Depot.Sound t d act) (hstep : d.step act = some d') :
    d'.bump.blocks[d'.bump.idx]? = some d'.bump.ptr := by
  cases act with
  | allocate bytes alignment fresh fuel =>
    cases hstep
    obtain ⟨-, -, hbump⟩ := hsound
    have hlends := d.lends_allocate bytes alignment fresh
    generalize d.allocate bytes alignment fresh = r at *
    cases hlends with
    | cut _ hi _ hcut =>
      subst hi hcut
      exact (Bump.cuts_allocateFromBlock fresh h.holds.blocks_pos (hbump rfl)).current h.current
    | _ => exact h.current
  | deallocate b =>
    obtain ⟨-, rfl⟩ := Option.ite_some_none_eq_some.mp hstep
    rw [(d.kept_deallocate b).2.1]
    exact h.current
  | warmup totalBytes blocks =>
    obtain ⟨-, rfl⟩ := Option.ite_some_none_eq_some.mp hstep
    obtain ⟨hidx, -⟩ := List.getElem?_eq_some_iff.mp h.current
    rw [List.getElem?_append_left hidx]
    exact h.current
  | write a v =>
    cases hstep
    exact h.current

theorem Depot.Inv.step {t : List Event} {act : Act} (h : d.Inv) (hsound : Depot.Sound t d act)
    (hstep : d.step act = some d') : d'.Inv :=
  ⟨h.holds.step hsound hstep, h.current_step hsound hstep⟩

end Calls

end MemoryPool
