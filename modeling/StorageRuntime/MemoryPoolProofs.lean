import StorageRuntime.ByteMemoryProofs
import StorageRuntime.ReturnRingProofs

/-!
# MemoryPool — the tiered allocator

The model of `runtime/memory_pool.cc` as one thread uses it: size classes, the bump
allocator over 1 MB blocks, the two thread-local caches (`allocate` and `deallocate`
each declare a `thread_local` cache of their own), the return rings, the class free
lists and the central list of medium blocks.  Free lists are threaded through the
bytes of the freed blocks, so the pool works on a byte memory that its user writes
to as well.

A step of the machine is one call, or one byte written by the user or the rest of
the process.  `operator new` is the label's: an `allocate` that needs memory gets it
at the label's address.  The event of a call shows what it took from the system and
whether it cut a small block out of a 1 MB block.

* `le_alignUp`: rounding up does not lose bytes, whatever the alignment.
* `sizeClassIndex_spec`: a small size has a class, and the class is large enough.
* `Bump.cuts_allocateFromBlock`: the three ways to cut a block.
-/

namespace MemoryPool

open Function WordArithmetic Regions ByteMemory ReturnRing Interleaving

/-! ## Sizes -/

def sizeClasses : List Nat := [8, 16, 32, 64, 128, 256]

def numSizeClasses : Nat := 6

def smallObjectMax : Nat := 256

def mediumObjectMax : Nat := 4096

def blockSize : Nat := 1024 * 1024

/-- `alignof(std::max_align_t)`. -/
def maxAlign : Nat := 16

/-- The capacity of a return ring. -/
def ringCapacity : Nat := 256

/-- `kSizeClasses[i]`. -/
def classSize (i : Nat) : Nat := sizeClasses.getD i 0

/-- `__builtin_ctzll`. -/
def ctz (s : Nat) : Nat := ((List.range 64).find? s.testBit).getD 64

def sizeClassIndex (size : Nat) : Nat :=
  if size ≤ 8 then 0 else
  -- round up to the next power of two
  let s := size - 1
  let s := s ||| s >>> 1
  let s := s ||| s >>> 2
  let s := s ||| s >>> 4
  let s := s ||| s >>> 8
  let s := s ||| s >>> 16
  let s := s ||| s >>> 32
  let s := wadd s 1
  let idx := ctz s - 3
  if idx < numSizeClasses then idx else numSizeClasses

/-- `~w`. -/
def wnot (w : Nat) : Nat := wordSize - 1 - w

/-- `(x + a - 1) & ~(a - 1)`. -/
def alignUp (x a : Nat) : Nat := wsub (wadd x a) 1 &&& wnot (wsub a 1)

/-- The size that `allocate` and `deallocate` work with. -/
def allocSize (bytes alignment : Nat) : Nat :=
  if maxAlign < alignment then alignUp bytes alignment else bytes

/-- The bits of a word inside and outside a mask add up to the word. -/
theorem and_add_and_wnot {y m : Nat} (hy : y < wordSize) (hm : m < wordSize) :
    (y &&& m) + (y &&& wnot m) = y := by
  let v := BitVec.ofNat 64 y
  let k := BitVec.ofNat 64 m
  have hand : (v &&& k) &&& (v &&& ~~~k) = 0#64 := by
    ext i hi
    simp only [BitVec.getElem_and, BitVec.getElem_not, BitVec.getElem_zero]
    cases v[i] <;> cases k[i] <;> rfl
  have hor : (v &&& k) ||| (v &&& ~~~k) = v := by
    ext i hi
    simp only [BitVec.getElem_and, BitVec.getElem_not, BitVec.getElem_or]
    cases v[i] <;> cases k[i] <;> rfl
  have hsum := congrArg BitVec.toNat ((BitVec.add_eq_or_of_and_eq_zero _ _ hand).trans hor)
  have hv : v.toNat = y := Nat.mod_eq_of_lt hy
  have hk : k.toNat = m := Nat.mod_eq_of_lt hm
  rw [BitVec.toNat_add, BitVec.toNat_and, BitVec.toNat_and, BitVec.toNat_not, hv, hk] at hsum
  have hin : y &&& m ≤ m := Nat.and_le_right
  have hout : y &&& wnot m ≤ wnot m := Nat.and_le_right
  have hlt : (y &&& m) + (y &&& wnot m) < wordSize := by
    rw [wnot] at *
    omega
  calc (y &&& m) + (y &&& wnot m)
      _ = ((y &&& m) + (y &&& wnot m)) % wordSize := (Nat.mod_eq_of_lt hlt).symm
      _ = y := hsum

/-- **Rounding up does not lose bytes**, whatever the alignment. -/
theorem le_alignUp {x a : Nat} (ha : 0 < a) (h : x + a ≤ wordSize) : x ≤ alignUp x a := by
  have hsum : wsub (wadd x a) 1 = x + a - 1 := by
    simp only [wsub, wadd, wordSize] at *
    omega
  have hmask : wsub a 1 = a - 1 := by
    simp only [wsub, wordSize] at *
    omega
  rw [alignUp, hsum, hmask]
  have hbits := and_add_and_wnot (y := x + a - 1) (m := a - 1) (by omega) (by omega)
  have hlow : (x + a - 1) &&& (a - 1) ≤ a - 1 := Nat.and_le_right
  omega

/-- A multiple of the alignment is left alone. -/
theorem alignUp_mul {k n : Nat} (h : 2 ^ k * n + 2 ^ k ≤ wordSize) :
    alignUp (2 ^ k * n) (2 ^ k) = 2 ^ k * n := by
  have hpos := Nat.two_pow_pos k
  have hsum : wsub (wadd (2 ^ k * n) (2 ^ k)) 1 = 2 ^ k * n + (2 ^ k - 1) := by
    generalize 2 ^ k * n = x at *
    simp only [wsub, wadd, wordSize] at *
    omega
  have hmask : wsub (2 ^ k) 1 = 2 ^ k - 1 := by
    generalize 2 ^ k * n = x at *
    simp only [wsub, wordSize] at *
    omega
  have hlow : (2 ^ k * n + (2 ^ k - 1)) &&& (2 ^ k - 1) = 2 ^ k - 1 := by
    rw [Nat.and_two_pow_sub_one_eq_mod, Nat.mul_add_mod, Nat.mod_eq_of_lt (by omega)]
  have hbits := and_add_and_wnot (y := 2 ^ k * n + (2 ^ k - 1)) (m := 2 ^ k - 1)
    (by omega) (by omega)
  rw [alignUp, hsum, hmask]
  omega

theorem le_allocSize {bytes alignment : Nat}
    (h : maxAlign < alignment → bytes + alignment ≤ wordSize) :
    bytes ≤ allocSize bytes alignment := by
  rw [allocSize]
  split
  next halign => exact le_alignUp (by omega) (h halign)
  next => exact Nat.le_refl bytes

/-- **A small size has a class**, and the class is large enough. -/
theorem sizeClassIndex_spec {size : Nat} (h : size ≤ smallObjectMax) :
    sizeClassIndex size < numSizeClasses ∧ size ≤ classSize (sizeClassIndex size) := by
  have hall : ∀ size ∈ List.range (smallObjectMax + 1),
      sizeClassIndex size < numSizeClasses ∧ size ≤ classSize (sizeClassIndex size) := by
    decide +kernel
  exact hall size (List.mem_range.mpr (Nat.lt_succ_of_le h))

/-- A class holds a list node and fits in a block. -/
theorem classSize_bounds {i : Nat} (hi : i < numSizeClasses) :
    8 ≤ classSize i ∧ classSize i ≤ blockSize := by
  have hall : ∀ i ∈ List.range numSizeClasses, 8 ≤ classSize i ∧ classSize i ≤ blockSize := by
    decide
  exact hall i (List.mem_range.mpr hi)

/-! ## The bump allocator -/

/-- `preallocated_blocks_`, `bump_block_ptr_`, `bump_offset_` and `bump_block_idx_`. -/
structure Bump where
  blocks : List Nat
  ptr : Nat
  offset : Nat
  idx : Nat

def blockRegion (block : Nat) : Region := ⟨block, blockSize⟩

/-- The loop over the blocks that are left, from index `idx` on. -/
def nextBlock : List Nat → Nat → Option (Nat × Nat)
  | [], _ => none
  | block :: blocks, idx => if block ≠ 0 then some (idx, block) else nextBlock blocks (idx + 1)

/-- What `allocate_from_block` returns, does, and takes from the system. -/
structure Cut where
  ptr : Nat
  bump : Bump
  obtained : List Region

/-- `allocate_from_block`; a new block comes from `fresh`. -/
def Bump.allocateFromBlock (b : Bump) (size alignment fresh : Nat) : Cut :=
  let align := max alignment 16
  let offset := alignUp b.offset align
  let size := alignUp size align
  if b.ptr ≠ 0 ∧ wadd offset size ≤ blockSize then
    ⟨b.ptr + offset, { b with offset := wadd offset size }, []⟩
  else
    match nextBlock (b.blocks.drop (b.idx + 1)) (b.idx + 1) with
    | some (idx, block) => ⟨block, { b with ptr := block, offset := size, idx := idx }, []⟩
    | none => ⟨fresh, ⟨b.blocks ++ [fresh], fresh, size, b.blocks.length⟩, [blockRegion fresh]⟩

/-- No sum in `allocate_from_block` wraps around. -/
def Bump.NoWrap (b : Bump) (size alignment : Nat) : Prop :=
  b.offset + max alignment 16 ≤ wordSize ∧ size + max alignment 16 ≤ wordSize ∧
    alignUp b.offset (max alignment 16) + alignUp size (max alignment 16) < wordSize

instance (b : Bump) (size alignment : Nat) : Decidable (b.NoWrap size alignment) :=
  inferInstanceAs (Decidable (_ ∧ _))

/-- What a cut of `size` bytes can be: behind the offset in the current block, or at
    the beginning of the next block, or of a new one.  `n` is the rounded size. -/
inductive Bump.Cuts (b : Bump) (size fresh : Nat) : Cut → Prop
  | here {o n : Nat} : b.offset ≤ o → size ≤ n → o + n ≤ blockSize →
      Bump.Cuts b size fresh ⟨b.ptr + o, { b with offset := o + n }, []⟩
  | next {n block : Nat} {rest : List Nat} : size ≤ n →
      b.blocks.drop (b.idx + 1) = block :: rest →
      Bump.Cuts b size fresh ⟨block, { b with ptr := block, offset := n, idx := b.idx + 1 }, []⟩
  | new {n : Nat} : size ≤ n → b.blocks.drop (b.idx + 1) = [] →
      Bump.Cuts b size fresh
        ⟨fresh, ⟨b.blocks ++ [fresh], fresh, n, b.blocks.length⟩, [blockRegion fresh]⟩

/-- **What `allocate_from_block` can do**, when no sum wraps around. -/
theorem Bump.cuts_allocateFromBlock {b : Bump} {size alignment : Nat} (fresh : Nat)
    (hblocks : ∀ block ∈ b.blocks, 0 < block) (h : b.NoWrap size alignment) :
    b.Cuts size fresh (b.allocateFromBlock size alignment fresh) := by
  obtain ⟨hoffset, hsize, hsum⟩ := h
  have hpos : 0 < max alignment 16 := by omega
  have ho := le_alignUp hpos hoffset
  have hn := le_alignUp hpos hsize
  rw [Bump.allocateFromBlock, wadd_eq hsum]
  split
  next hfits => exact Bump.Cuts.here ho hn hfits.2
  next =>
    cases hrest : b.blocks.drop (b.idx + 1) with
    | nil => exact Bump.Cuts.new hn hrest
    | cons block rest =>
      have hblock : block ≠ 0 := by
        have hmem : block ∈ b.blocks.drop (b.idx + 1) := by
          rw [hrest]
          exact List.mem_cons_self
        exact Nat.pos_iff_ne_zero.mp (hblocks block (List.mem_of_mem_drop hmem))
      simp only [nextBlock, ne_eq, hblock, not_false_eq_true, if_true]
      exact Bump.Cuts.next hn hrest

/-! ## The pool -/

/-- `ThreadLocalCache::LocalFreeList`. -/
structure LocalFreeList where
  head : Nat
  count : Nat

/-- The pool, the thread-local caches, and the memory they work on.  Arrays over the
    size classes are functions. -/
structure Pool where
  mem : Memory
  smallFreeLists : Nat → Nat
  returnRings : Nat → SeqRing Nat
  bump : Bump
  centralFreeList : Nat
  /-- `allocated_blocks_`, each with the size it was asked for. -/
  allocatedBlocks : List Region
  /-- The `tls_cache` of `allocate`. -/
  allocCache : Nat → LocalFreeList
  /-- The `tls_cache` of `deallocate`. -/
  freeCache : Nat → LocalFreeList

/-- `SizeClassFreeList::push` on the list of class `i`. -/
def Pool.pushSmall (p : Pool) (i ptr : Nat) : Pool := { p with
  mem := store64 p.mem ptr (p.smallFreeLists i)
  smallFreeLists := update p.smallFreeLists i ptr }

/-- `SizeClassFreeList::pop` on the list of class `i`. -/
def Pool.popSmall (p : Pool) (i : Nat) : Nat × Pool :=
  if p.smallFreeLists i = 0 then (0, p)
  else (p.smallFreeLists i, { p with
    smallFreeLists := update p.smallFreeLists i (load64 p.mem (p.smallFreeLists i)) })

/-- `ThreadLocalCache::allocate` on the cache of `allocate`. -/
def Pool.cacheAllocate (p : Pool) (i : Nat) : Nat × Pool :=
  if i < numSizeClasses then
    let list := p.allocCache i
    if list.head = 0 then (0, p)
    else (list.head, { p with
      allocCache := update p.allocCache i ⟨load64 p.mem list.head, wsub list.count 1⟩ })
  else (0, p)

/-- `ThreadLocalCache::deallocate` on the cache of `deallocate`. -/
def Pool.cacheDeallocate (p : Pool) (ptr i : Nat) : Pool :=
  if i < numSizeClasses then
    let list := p.freeCache i
    { p with
      mem := store64 p.mem ptr list.head
      freeCache := update p.freeCache i ⟨ptr, wadd list.count 1⟩ }
  else p

/-- `ThreadLocalCache::list_count` on the cache of `deallocate`. -/
def Pool.listCount (p : Pool) (i : Nat) : Nat :=
  if i < numSizeClasses then (p.freeCache i).count else 0

/-- The loop that moves returned blocks to the class list, `n` times at most; `none`
    if a call on the ring never returns. -/
def Pool.drain (i : Nat) : Nat → Pool → Option Pool
  | 0, p => some p
  | n + 1, p =>
    match (p.returnRings i).tryDequeue ringCapacity with
    | none => none
    | some (none, ring) => some { p with returnRings := update p.returnRings i ring }
    | some (some ptr, ring) =>
      Pool.drain i n ({ p with returnRings := update p.returnRings i ring }.pushSmall i ptr)

/-- `CentralFreeList::push`: a node is its size, then its link. -/
def Pool.centralPush (p : Pool) (ptr size : Nat) : Pool := { p with
  mem := store64 (store64 p.mem ptr size) (ptr + 8) p.centralFreeList
  centralFreeList := ptr }

/-- The first loop of `CentralFreeList::pop`, with the values of `found`, `prev`,
    `curr` and `chain`; `none` if it does not end within the fuel. -/
def scan (minSize : Nat) : Nat → Memory → Nat → Nat → Nat → Nat → Option (Memory × Nat × Nat)
  | 0, _, _, _, _, _ => none
  | fuel + 1, mem, found, prev, curr, chain =>
    if curr = 0 then some (mem, found, chain)
    else if found = 0 ∧ minSize ≤ load64 mem curr then
      if prev ≠ 0 then
        let mem := store64 mem (prev + 8) (load64 mem (curr + 8))
        scan minSize fuel mem curr prev (load64 mem (curr + 8)) chain
      else scan minSize fuel mem curr prev (load64 mem (curr + 8)) (load64 mem (curr + 8))
    else scan minSize fuel mem found curr (load64 mem (curr + 8)) chain

/-- The second loop: the last node from `tail` on. -/
def lastNode (mem : Memory) : Nat → Nat → Option Nat
  | 0, _ => none
  | fuel + 1, tail =>
    if load64 mem (tail + 8) = 0 then some tail
    else lastNode mem fuel (load64 mem (tail + 8))

/-- `CentralFreeList::pop`: the whole chain is taken, searched, and put back. -/
def Pool.centralPop (p : Pool) (minSize fuel : Nat) : Option (Nat × Pool) :=
  if p.centralFreeList = 0 then some (0, p)
  else
    match scan minSize fuel p.mem 0 0 p.centralFreeList p.centralFreeList with
    | none => none
    | some (mem, found, chain) =>
      if chain ≠ 0 then
        match lastNode mem fuel chain with
        | none => none
        | some tail => some (found, { p with
            mem := store64 mem (tail + 8) 0
            centralFreeList := chain })
      else some (found, { p with mem := mem, centralFreeList := 0 })

/-- What a call of `allocate` returns, does, and takes from the system; `carved` says
    that it went through `allocate_from_block`. -/
structure Result where
  ptr : Nat
  pool : Pool
  obtained : List Region
  carved : Bool

/-- The small object path of `allocate`. -/
def Pool.allocateSmall (p : Pool) (i alignment fresh : Nat) : Option Result :=
  let (ptr, p) := p.cacheAllocate i
  if ptr ≠ 0 then some ⟨ptr, p, [], false⟩
  else
    match p.drain i 16 with
    | none => none
    | some p =>
      let (ptr, p) := p.popSmall i
      if ptr ≠ 0 then some ⟨ptr, p, [], false⟩
      else
        let cut := p.bump.allocateFromBlock (classSize i) alignment fresh
        some ⟨cut.ptr, { p with bump := cut.bump }, cut.obtained, true⟩

/-- The medium object path of `allocate`. -/
def Pool.allocateMedium (p : Pool) (size fresh fuel : Nat) : Option Result :=
  match p.centralPop size fuel with
  | none => none
  | some (ptr, p) =>
    if ptr ≠ 0 then some ⟨ptr, p, [], false⟩
    else some ⟨fresh, { p with allocatedBlocks := p.allocatedBlocks ++ [⟨fresh, size⟩] },
      [⟨fresh, size⟩], false⟩

/-- `allocate`; `fresh` is where `operator new` finds memory, `fuel` bounds the walks
    through the central list. -/
def Pool.allocate (p : Pool) (bytes alignment fresh fuel : Nat) : Option Result :=
  let size := allocSize bytes alignment
  if size ≤ smallObjectMax then p.allocateSmall (sizeClassIndex size) alignment fresh
  else if size ≤ mediumObjectMax then p.allocateMedium size fresh fuel
  else some ⟨fresh, p, [⟨fresh, size⟩], false⟩

/-- `deallocate`; `none` if the call on the ring never returns. -/
def Pool.deallocate (p : Pool) (ptr bytes alignment : Nat) : Option Pool :=
  let size := allocSize bytes alignment
  if size ≤ smallObjectMax then
    let i := sizeClassIndex size
    if 64 < p.listCount i then
      -- the result of `try_enqueue` is not looked at
      match (p.returnRings i).tryEnqueue ringCapacity ptr with
      | none => none
      | some (_, ring) => some { p with returnRings := update p.returnRings i ring }
    else some (p.cacheDeallocate ptr i)
  else if size ≤ mediumObjectMax then some (p.centralPush ptr size)
  else some p

/-- The number of blocks that `warmup` takes. -/
def blocksNeeded (totalBytes : Nat) : Nat := wsub (wadd totalBytes blockSize) 1 / blockSize

/-- `warmup`, with the addresses of its blocks. -/
def Pool.warmup (p : Pool) (blocks : List Nat) : Pool :=
  { p with bump := { p.bump with blocks := p.bump.blocks ++ blocks } }

/-- The number of blocks that the constructor takes. -/
def initialBlocks : Nat := 4

/-- The constructor, with the addresses of its blocks, on any memory. -/
def Pool.new (mem : Memory) (blocks : List Nat) : Pool where
  mem := mem
  smallFreeLists := fun _ => 0
  returnRings := fun _ => SeqRing.new
  bump := ⟨blocks, blocks.headD 0, 0, 0⟩
  centralFreeList := 0
  allocatedBlocks := []
  allocCache := fun _ => ⟨0, 0⟩
  freeCache := fun _ => ⟨0, 0⟩

/-! ## The machine -/

/-- A block that the user holds, with the arguments of its `allocate`. -/
structure Block where
  ptr : Nat
  bytes : Nat
  alignment : Nat
deriving DecidableEq, Repr

def Block.size (b : Block) : Nat := allocSize b.bytes b.alignment

/-- The memory behind the block: its whole size class for a small one. -/
def Block.extent (b : Block) : Region :=
  ⟨b.ptr, if b.size ≤ smallObjectMax then classSize (sizeClassIndex b.size) else b.size⟩

structure State where
  pool : Pool
  live : List Block

inductive Act where
  | allocate (bytes alignment fresh fuel : Nat)
  /-- A live block is freed, with the arguments it was allocated with. -/
  | deallocate (b : Block)
  | warmup (totalBytes : Nat) (blocks : List Nat)
  /-- A byte is written by the user, or by the rest of the process. -/
  | write (a : Nat) (v : UInt8)

/-- A call that took `obtained` from the system; `carved` is the class and the address
    of the small block it cut. -/
structure Event where
  obtained : List Region
  carved : Option (Nat × Nat)

/-- The blocks that came from `operator new` directly and go back to it. -/
def large (live : List Block) : List Region :=
  (live.filter fun b => mediumObjectMax < b.size).map Block.extent

/-- The memory that the pool and its user have from the system. -/
def heap (s : State) : List Region :=
  s.pool.bump.blocks.map blockRegion ++ s.pool.allocatedBlocks ++ large s.live

/-- The user writes to the bytes it asked for; the rest of the process does not write to
    the pool's memory. -/
def Writable (s : State) (a : Nat) : Prop :=
  (∃ b ∈ s.live, (⟨b.ptr, b.bytes⟩ : Region).Has a) ∨ ∀ r ∈ heap s, ¬ r.Has a
deriving Decidable

def step (s : State) : Act → Option State
  | .allocate bytes alignment fresh fuel =>
    (s.pool.allocate bytes alignment fresh fuel).map fun r =>
      ⟨r.pool, ⟨r.ptr, bytes, alignment⟩ :: s.live⟩
  | .deallocate b =>
    if b ∈ s.live then
      (s.pool.deallocate b.ptr b.bytes b.alignment).map fun p => ⟨p, s.live.erase b⟩
    else none
  | .warmup totalBytes blocks =>
    if blocks.length = blocksNeeded totalBytes then
      some { s with pool := s.pool.warmup blocks }
    else none
  | .write a v =>
    if Writable s a then
      some { s with pool := { s.pool with mem := update s.pool.mem a v } }
    else none

def event (s : State) : Act → Option Event
  | .allocate bytes alignment fresh fuel =>
    (s.pool.allocate bytes alignment fresh fuel).map fun r =>
      ⟨r.obtained, if r.carved then
        some (sizeClassIndex (allocSize bytes alignment), r.ptr) else none⟩
  | .warmup _ blocks => some ⟨blocks.map blockRegion, none⟩
  | _ => none

def machine : Machine State Act Event := ⟨step, event⟩

def init (mem : Memory) (blocks : List Nat) : State := ⟨Pool.new mem blocks, []⟩

/-- No sum that the call computes wraps around. -/
def NoWrap (b : Bump) (act : Act) (e : Event) : Prop :=
  match act with
  | .allocate bytes alignment _ _ =>
    (maxAlign < alignment → bytes + alignment ≤ wordSize) ∧
    (e.carved.isSome → b.NoWrap (classSize (sizeClassIndex (allocSize bytes alignment))) alignment)
  | _ => True

instance (b : Bump) (act : Act) (e : Event) : Decidable (NoWrap b act e) :=
  match act with
  | .allocate .. => inferInstanceAs (Decidable ((_ → _) ∧ (_ → _)))
  | .deallocate .. | .warmup .. | .write .. => isTrue trivial

/-- `operator new` returns fresh memory, and the arithmetic does not wrap around. -/
def SoundCall (heap : List Region) (b : Bump) (act : Act) : Option Event → Prop
  | none => True
  | some e => Fresh wordSize heap e.obtained ∧ NoWrap b act e

instance (heap : List Region) (b : Bump) (act : Act) :
    ∀ o : Option Event, Decidable (SoundCall heap b act o)
  | none => isTrue trivial
  | some e => inferInstanceAs (Decidable (Fresh wordSize heap e.obtained ∧ NoWrap b act e))

/-- What every call of a run has to meet. -/
def Sound (_ : List Event) (s : State) (act : Act) : Prop :=
  SoundCall (heap s) s.pool.bump act (event s act)
deriving Decidable

end MemoryPool
