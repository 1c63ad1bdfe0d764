import StorageRuntime.PoolDepotProofs

/-!
# The pool refines the depot

`Represents p d`: the lists threaded through the memory of the pool `p` are the lists
of the depot `d`.  A call writes link words only into blocks that nobody else owns,
and the user writes only into live blocks, so the lists of the depot are never
disturbed; the ownership invariant of the depot is what says so.

* `Represents.store`: a word written into a spare piece disturbs no list.
* `centralPop_none`, `centralPop_some`: the two loops of `CentralFreeList::pop` end and
  take the first node that is large enough.
* **`Refines.step`**: each call of the pool is the same call on the depot, with the
  same event; **`Refines.exists_step`**: and every call returns.
* **`refines_invariant`**: the invariant rule for runs of the pool, through the depot.
-/

namespace MemoryPool

open Function WordArithmetic Regions ByteMemory ReturnRing Interleaving IntrusiveChain
open scoped List

/-- The pool `p` keeps the lists of the depot `d`. -/
structure Represents (p : Pool) (d : Depot) : Prop where
  bump : p.bump = d.bump
  blocks : p.allocatedBlocks = d.allocatedBlocks
  -- nothing is ever put into the cache of `allocate`
  unused : ∀ i, i < numSizeClasses → (p.allocCache i).head = 0
  count : ∀ i, i < numSizeClasses → (p.freeCache i).count = (d.shelves i).cached.length
  rings : ∀ i, i < numSizeClasses → (p.returnRings i).Holds ringCapacity (d.shelves i).ring
  free : ∀ i, i < numSizeClasses →
    Linked p.mem 0 (p.smallFreeLists i) (d.shelves i).free
  cached : ∀ i, i < numSizeClasses →
    Linked p.mem 0 (p.freeCache i).head (d.shelves i).cached
  central : Linked p.mem 8 p.centralFreeList (d.medium.map Prod.fst)
  sizes : ∀ node ∈ d.medium, load64 p.mem node.1 = node.2

theorem ringCapacity_eq : ringCapacity = 2 ^ 8 := rfl

section Memory

variable {p : Pool} {d : Depot} {heap : List Region}

variable {i a ptr size minSize chain fuel : Nat} {node : Nat × Nat} {mem : Memory} {l : List Nat}

theorem Depot.mem_stock_small (hi : i < numSizeClasses) (ha : a ∈ (d.shelves i).slots) :
    smallPiece i a ∈ d.stock :=
  List.mem_append_left _ (List.mem_flatMap.mpr ⟨i, List.mem_range.mpr hi, List.mem_map_of_mem ha⟩)

theorem Depot.mem_stock_medium (h : node ∈ d.medium) : mediumPiece node ∈ d.stock :=
  List.mem_append_right _ (List.mem_append_left _ (List.mem_map_of_mem h))

theorem Shelf.mem_slots_cached {sh : Shelf} (h : a ∈ sh.cached) : a ∈ sh.slots :=
  List.mem_append_left _ (List.mem_append_left _ h)

theorem Shelf.mem_slots_free {sh : Shelf} (h : a ∈ sh.free) : a ∈ sh.slots :=
  List.mem_append_right _ h

/-- The shelves of a pool are determined by the pool. -/
theorem Represents.shelf_unique {d' : Depot} (h : Represents p d) (h' : Represents p d')
    (hi : i < numSizeClasses) : d.shelves i = d'.shelves i := by
  refine Shelf.ext ?_ ?_ ?_
  · exact chain_unique (h.cached i hi) (h'.cached i hi)
  · exact (h.rings i hi).unique ringCapacity_eq (by omega) (h'.rings i hi)
  · exact chain_unique (h.free i hi) (h'.free i hi)

/-- The link word of a small block is inside the block. -/
theorem within_smallPiece (hi : i < numSizeClasses) (a : Nat) :
    Within ⟨a + 0, 8⟩ (smallPiece i a) := by
  have hsize := (classSize_bounds hi).1
  simp only [Within, smallPiece]
  omega

/-- The two words of a medium node are inside the block. -/
theorem within_mediumPiece (h : smallObjectMax < node.2) :
    Within ⟨node.1, 8⟩ (mediumPiece node) ∧ Within ⟨node.1 + 8, 8⟩ (mediumPiece node) := by
  simp only [Within, mediumPiece, smallObjectMax] at *
  omega

/-- The nodes of the central list are larger than a small block. -/
def Depot.Wide (d : Depot) : Prop :=
  ∀ node ∈ d.medium, smallObjectMax < node.2

theorem Depot.Holds.wide (h : d.Holds) : d.Wide :=
  fun node hnode => (h.medium node hnode).1

/-- **A memory that agrees on the free blocks holds the same lists.** -/
theorem Represents.frame (h : Represents p d) (hwide : d.Wide)
    (hag : ∀ r ∈ d.stock, AgreeOn r p.mem mem) : Represents { p with mem := mem } d :=
  { h with
    free := fun i hi => (h.free i hi).frame fun a ha =>
      (hag _ (Depot.mem_stock_small hi (Shelf.mem_slots_free ha))).mono (within_smallPiece hi a)
    cached := fun i hi => (h.cached i hi).frame fun a ha =>
      (hag _ (Depot.mem_stock_small hi (Shelf.mem_slots_cached ha))).mono (within_smallPiece hi a)
    central := h.central.frame fun a ha => by
      obtain ⟨node, hnode, rfl⟩ := List.mem_map.mp ha
      exact (hag _ (Depot.mem_stock_medium hnode)).mono (within_mediumPiece (hwide _ hnode)).2
    sizes := fun node hnode =>
      (load64_congr ((hag _ (Depot.mem_stock_medium hnode)).mono
        (within_mediumPiece (hwide _ hnode)).1)).trans (h.sizes node hnode) }

/-- A spare piece is clear of the stock. -/
theorem clear_of_spare {r q : Region} (hinv : Inventory wordSize heap (r :: d.owned))
    (hq : q ∈ d.stock) : Clear r q :=
  (Apart.cons_iff.mp hinv.apart).1 q (List.mem_append_right _ hq)

/-- The pieces of the stock begin at words. -/
theorem base_lt_of_mem_stock {q : Region} (hinv : Inventory wordSize heap d.owned)
    (hq : q ∈ d.stock) : q.base < wordSize := by
  have hmem : q ∈ d.owned := List.mem_append_right _ hq
  have hb := hinv.bounds_owned hmem
  have hpos := hinv.pos q hmem
  omega

/-- **A word written into a spare piece disturbs no list.** -/
theorem Represents.store {r : Region} (v : Nat) (h : Represents p d)
    (hwide : d.Wide)
    (hinv : Inventory wordSize heap (r :: d.owned)) (hw : Within ⟨a, 8⟩ r) :
    Represents { p with mem := store64 p.mem a v } d :=
  h.frame hwide fun q hq =>
    agreeOn_store64 ((clear_of_spare hinv hq).mono hw (Within.refl q))

/-- A spare block is pushed in front of a list of blocks of its class. -/
theorem linked_push_small {head : Nat} (hi : i < numSizeClasses) (hlinked : Linked p.mem 0 head l)
    (hl : ∀ a ∈ l, a ∈ (d.shelves i).slots)
    (hinv : Inventory wordSize heap (smallPiece i ptr :: d.owned)) :
    Linked (store64 p.mem ptr head) 0 ptr (ptr :: l) := by
  have howned := hinv.sublist (List.sublist_cons_self ..)
  refine hlinked.push (a := ptr) (hlinked.head_lt fun a ha => ?_) ?_ fun a ha => ?_
  · exact base_lt_of_mem_stock howned (Depot.mem_stock_small hi (hl a ha))
  · exact (hinv.bounds_owned List.mem_cons_self).1
  · exact (clear_of_spare hinv (Depot.mem_stock_small hi (hl a ha))).mono
      (within_smallPiece hi ptr) (within_smallPiece hi a)

/-- One class of the pool and its shelf change together. -/
theorem Represents.setClass (h : Represents p d) (i : Nat) (sh : Shelf) (cache : LocalFreeList)
    {ring : SeqRing Nat} {head : Nat} (hcount : cache.count = sh.cached.length)
    (hring : ring.Holds ringCapacity sh.ring) (hfree : Linked p.mem 0 head sh.free)
    (hcached : Linked p.mem 0 cache.head sh.cached) :
    Represents { p with
      freeCache := update p.freeCache i cache
      returnRings := update p.returnRings i ring
      smallFreeLists := update p.smallFreeLists i head } (d.setShelf i sh) :=
  { h with
    count := forall_update₂ (P := fun j (c : LocalFreeList) (sh : Shelf) =>
      j < numSizeClasses → c.count = sh.cached.length) h.count fun _ => hcount
    rings := forall_update₂ (P := fun j (r : SeqRing Nat) (sh : Shelf) =>
      j < numSizeClasses → r.Holds ringCapacity sh.ring) h.rings fun _ => hring
    free := forall_update₂ (P := fun j head (sh : Shelf) =>
      j < numSizeClasses → Linked p.mem 0 head sh.free) h.free fun _ => hfree
    cached := forall_update₂ (P := fun j (c : LocalFreeList) (sh : Shelf) =>
      j < numSizeClasses → Linked p.mem 0 c.head sh.cached) h.cached fun _ => hcached }

/-- A spare block is pushed to the class list. -/
theorem Represents.pushSmall (h : Represents p d) (hi : i < numSizeClasses) (hwide : d.Wide)
    (hinv : Inventory wordSize heap (smallPiece i ptr :: d.owned)) :
    Represents (p.pushSmall i ptr)
      (d.setShelf i { d.shelves i with free := ptr :: (d.shelves i).free }) := by
  have hstore := h.store (p.smallFreeLists i) hwide hinv (within_smallPiece hi ptr)
  have hlist := linked_push_small hi (h.free i hi) (fun a ha => Shelf.mem_slots_free ha) hinv
  have hclass := hstore.setClass i { d.shelves i with free := ptr :: (d.shelves i).free }
    (p.freeCache i) (h.count i hi) (h.rings i hi) hlist (hstore.cached i hi)
  rwa [update_eq_self, update_eq_self] at hclass

/-- A spare block is pushed to the thread-local cache. -/
theorem Represents.cacheDeallocate (h : Represents p d) (hi : i < numSizeClasses) (hwide : d.Wide)
    (hcount : (d.shelves i).cached.length ≤ 65)
    (hinv : Inventory wordSize heap (smallPiece i ptr :: d.owned)) :
    Represents (p.cacheDeallocate ptr i)
      (d.setShelf i { d.shelves i with cached := ptr :: (d.shelves i).cached }) := by
  have hstore := h.store (p.freeCache i).head hwide hinv (within_smallPiece hi ptr)
  rw [Pool.cacheDeallocate, if_pos hi]
  have hlength : wadd (p.freeCache i).count 1 = (d.shelves i).cached.length + 1 := by
    rw [h.count i hi]
    exact wadd_eq (by simp only [wordSize]; omega)
  have hlist := linked_push_small hi (h.cached i hi) (fun a ha => Shelf.mem_slots_cached ha) hinv
  have hclass := hstore.setClass i { d.shelves i with cached := ptr :: (d.shelves i).cached }
    ⟨ptr, wadd (p.freeCache i).count 1⟩ hlength (h.rings i hi) (hstore.free i hi) hlist
  rwa [update_eq_self, update_eq_self] at hclass

/-- The ring of a class changes. -/
theorem Represents.setRing {ring : SeqRing Nat} (h : Represents p d) (hi : i < numSizeClasses)
    (hring : ring.Holds ringCapacity l) :
    Represents { p with returnRings := update p.returnRings i ring }
      (d.setShelf i { d.shelves i with ring := l }) := by
  have hclass := h.setClass i { d.shelves i with ring := l } (p.freeCache i) (h.count i hi) hring
    (h.free i hi) (h.cached i hi)
  rwa [update_eq_self, update_eq_self] at hclass

/-- The first block of a class list is taken. -/
theorem Represents.popSmall (h : Represents p d) (hi : i < numSizeClasses)
    (hfree : (d.shelves i).free = ptr :: l) : 0 < ptr ∧ ∃ p', p.popSmall i = (ptr, p') ∧
      Represents p' (d.setShelf i { d.shelves i with free := l }) := by
  have hlinked := h.free i hi
  rw [hfree] at hlinked
  obtain ⟨⟨hhead, hpos⟩, hrest⟩ := linked_cons.mp hlinked
  have hcall : p.popSmall i = (ptr, { p with
      smallFreeLists := update p.smallFreeLists i (load64 p.mem ptr) }) := by
    rw [Pool.popSmall, if_neg (by omega), hhead]
  have hclass := h.setClass i { d.shelves i with free := l } (p.freeCache i) (h.count i hi)
    (h.rings i hi) hrest (h.cached i hi)
  rw [update_eq_self, update_eq_self] at hclass
  exact ⟨hpos, _, hcall, hclass⟩

theorem Depot.setShelf_setShelf (d : Depot) (i : Nat) (sh sh' : Shelf) :
    (d.setShelf i sh).setShelf i sh' = d.setShelf i sh' := by
  rw [Depot.setShelf, Depot.setShelf, Depot.setShelf, update_idem]

/-- One block leaves the ring of class `i`. -/
theorem inventory_of_ring (hi : i < numSizeClasses) (hinv : Inventory wordSize heap d.owned)
    (hring : (d.shelves i).ring = ptr :: l) : Inventory wordSize heap
      (smallPiece i ptr :: (d.setShelf i { d.shelves i with ring := l }).owned) := by
  have hslots : (d.shelves i).slots ~ ptr :: Shelf.slots { d.shelves i with ring := l } := by
    rw [Shelf.slots, Shelf.slots, hring]
    exact List.perm_middle.append_right _
  exact hinv.perm (.refl _) (Depot.owned_take rfl
    ((d.small_setShelf_perm hi [] [ptr] hslots).append_right _))

/-- **The drain loop** moves blocks from the ring to the class list. -/
theorem Represents.drain (hi : i < numSizeClasses) (n : Nat) :
    ∀ {p : Pool} {d : Depot}, Represents p d →
    d.Wide → Inventory wordSize heap d.owned →
    ∃ p', Pool.drain i n p = some p' ∧ Represents p' (d.setShelf i ((d.shelves i).drain n)) := by
  induction n with
  | zero =>
    intro p d h _ _
    refine ⟨p, rfl, ?_⟩
    rw [Shelf.drain, Depot.setShelf_self]
    exact h
  | succ n ih =>
    intro p d h hwide hinv
    have hholds := h.rings i hi
    rw [Shelf.drain]
    cases hring : (d.shelves i).ring with
    | nil =>
      rw [hring] at hholds
      have hcall := SeqRing.tryDequeue_nil ringCapacity_eq (by omega) hholds
      refine ⟨p, ?_, ?_⟩
      · simp only [Pool.drain, hcall, update_eq_self]
      · rw [Depot.setShelf_self]
        exact h
    | cons ptr ring =>
      rw [hring] at hholds
      obtain ⟨ring', hcall, hholds'⟩ :=
        SeqRing.tryDequeue_cons ringCapacity_eq (by omega) hholds
      -- the block is nobody's between the ring and the list
      let sh : Shelf := { d.shelves i with ring := ring, free := ptr :: (d.shelves i).free }
      have hpush := (h.setRing hi hholds').pushSmall hi hwide (inventory_of_ring hi hinv hring)
      rw [Depot.shelves_setShelf_self, Depot.setShelf_setShelf] at hpush
      have hinv' : Inventory wordSize heap (d.setShelf i sh).owned := by
        have hslots : (d.shelves i).slots ~ sh.slots := by
          show (d.shelves i).cached ++ (d.shelves i).ring ++ (d.shelves i).free ~
            (d.shelves i).cached ++ ring ++ ptr :: (d.shelves i).free
          rw [hring, List.append_assoc, List.append_assoc]
          exact List.perm_middle.symm.append_left _
        exact hinv.perm (.refl _)
          (((d.small_setShelf_perm hi [] [] hslots).append_right _).append_left _)
      obtain ⟨p', hdrain, hrep⟩ := ih hpush hwide hinv'
      rw [Depot.shelves_setShelf_self, Depot.setShelf_setShelf] at hrep
      refine ⟨p', ?_, hrep⟩
      simp only [Pool.drain, hcall]
      exact hdrain

/-- A call of the pool gives what the depot says. -/
structure Matches (r : Result) (out : Depot.Handout) : Prop where
  ptr : r.ptr = out.ptr
  obtained : r.obtained = out.obtained
  carved : r.carved = out.carved
  pool : Represents r.pool out.depot

/-- What the small object path finds in the lists: nothing in the cache of `allocate`,
    then the first block of the class list after the drain, if there is one. -/
theorem Represents.drainPop (h : Represents p d) (hi : i < numSizeClasses)
    (hwide : d.Wide) (hinv : Inventory wordSize heap d.owned) :
    p.cacheAllocate i = (0, p) ∧ ∃ p', p.drain i 16 = some p' ∧
      (∀ ptr free, ((d.shelves i).drain 16).free = ptr :: free →
        ptr ≠ 0 ∧ ∃ p'', p'.popSmall i = (ptr, p'') ∧
          Represents p'' (d.setShelf i { (d.shelves i).drain 16 with free := free })) ∧
      (((d.shelves i).drain 16).free = [] →
        p'.popSmall i = (0, p') ∧ Represents p' (d.setShelf i ((d.shelves i).drain 16))) := by
  have hcache : p.cacheAllocate i = (0, p) := by
    simp only [Pool.cacheAllocate, hi, if_true, h.unused i hi]
  obtain ⟨p', hdrain, hrep⟩ := h.drain hi 16 hwide hinv
  refine ⟨hcache, p', hdrain, fun ptr free hfree => ?_, fun hfree => ⟨?_, hrep⟩⟩
  · obtain ⟨hpos, p'', hpop, hrep'⟩ := hrep.popSmall hi
      ((congrArg Shelf.free (d.shelves_setShelf_self i _)).trans hfree)
    rw [Depot.shelves_setShelf_self, Depot.setShelf_setShelf] at hrep'
    exact ⟨by omega, p'', hpop, hrep'⟩
  · have hlinked := hrep.free i hi
    rw [Depot.shelves_setShelf_self, hfree] at hlinked
    rw [Pool.popSmall, if_pos (linked_nil.mp hlinked)]

/-- **The small object path.** -/
theorem Represents.allocateSmall (h : Represents p d) (hi : i < numSizeClasses)
    (hwide : d.Wide) (hinv : Inventory wordSize heap d.owned)
    (alignment fresh : Nat) : ∃ r, p.allocateSmall i alignment fresh = some r ∧
      Matches r (d.allocateSmall i alignment fresh) := by
  obtain ⟨hcache, p', hdrain, hcons, hnil⟩ := h.drainPop hi hwide hinv
  simp only [Pool.allocateSmall, hcache, ne_eq, not_true_eq_false, if_false, hdrain]
  rw [Depot.allocateSmall]
  cases hfree : ((d.shelves i).drain 16).free with
  | cons ptr free =>
    obtain ⟨hne, p'', hpop, hrep⟩ := hcons ptr free hfree
    simp only [hpop, hne, not_false_eq_true, if_true]
    exact ⟨_, rfl, rfl, rfl, rfl, hrep⟩
  | nil =>
    obtain ⟨hpop, hrep⟩ := hnil hfree
    have hbump : p'.bump = d.bump := hrep.bump
    simp only [hpop, not_true_eq_false, if_false, hbump]
    exact ⟨_, rfl, rfl, rfl, rfl, { hrep with bump := rfl }⟩

/-- A spare medium block is pushed to the central list. -/
theorem Represents.centralPush (h : Represents p d)
    (hwide : d.Wide)
    (hsize : smallObjectMax < size ∧ size ≤ mediumObjectMax)
    (hinv : Inventory wordSize heap (⟨ptr, size⟩ :: d.owned)) :
    Represents (p.centralPush ptr size) { d with medium := (ptr, size) :: d.medium } := by
  have hwords := within_mediumPiece (show smallObjectMax < (ptr, size).2 from hsize.1)
  have howned := hinv.sublist (List.sublist_cons_self ..)
  have hfirst := h.store size hwide hinv hwords.1
  have hsecond := hfirst.store p.centralFreeList hwide hinv hwords.2
  refine { hsecond with central := ?_, sizes := ?_ }
  · refine hfirst.central.push (a := ptr) ?_ ?_ ?_
    · refine h.central.head_lt fun a ha => ?_
      obtain ⟨node, hnode, rfl⟩ := List.mem_map.mp ha
      exact base_lt_of_mem_stock howned (Depot.mem_stock_medium hnode)
    · exact (hinv.bounds_owned List.mem_cons_self).1
    · intro a ha
      obtain ⟨node, hnode, rfl⟩ := List.mem_map.mp ha
      exact (clear_of_spare hinv (Depot.mem_stock_medium hnode)).mono hwords.2
        (within_mediumPiece (hwide _ hnode)).2
  · refine List.forall_mem_cons.mpr ⟨?_, hsecond.sizes⟩
    have hclear : Clear ⟨ptr + 8, 8⟩ ⟨ptr, 8⟩ := .inr (Nat.le_refl _)
    show load64 (store64 (store64 p.mem ptr size) (ptr + 8) p.centralFreeList) ptr = size
    rw [load64_congr (agreeOn_store64 hclear)]
    refine load64_store64 _ _ ?_
    have hmax : mediumObjectMax < wordSize := by decide
    omega

/-! ## The loops of `CentralFreeList::pop` -/

/-- Nodes that are too small are passed by. -/
theorem scan_skip {rest : List Nat} (chain : Nat) :
    ∀ {before : List Nat} (prev : Nat) {curr : Nat}, Linked mem 8 curr (before ++ rest) →
    (∀ a ∈ before, load64 mem a < minSize) → ∃ next, Linked mem 8 next rest ∧ ∀ fuel,
    scan minSize (fuel + before.length) mem 0 prev curr chain =
    scan minSize fuel mem 0 (before.getLastD prev) next chain := by
  intro before
  induction before with
  | nil =>
    intro prev curr h _
    exact ⟨curr, h, fun fuel => rfl⟩
  | cons a before ih =>
    intro prev curr h hsmall
    obtain ⟨⟨hcurr, hpos⟩, hrest⟩ := linked_cons.mp h
    obtain ⟨next, hnext, hscan⟩ := ih a hrest
      fun b hb => hsmall b (List.mem_cons_of_mem _ hb)
    refine ⟨next, hnext, fun fuel => ?_⟩
    have ha := hsmall a List.mem_cons_self
    rw [List.length_cons, ← Nat.add_assoc, scan, if_neg (by omega), hcurr,
      if_neg (by omega), List.getLastD_cons]
    exact hscan fuel

/-- Once a node is found, the loop walks to the end and changes nothing. -/
theorem scan_found {found : Nat} (hfound : found ≠ 0) :
    ∀ {rest : List Nat} {prev curr fuel : Nat}, Linked mem 8 curr rest → rest.length < fuel →
    scan minSize fuel mem found prev curr chain = some (mem, found, chain) := by
  intro rest
  induction rest with
  | nil =>
    intro prev curr fuel h hfuel
    obtain ⟨fuel, rfl⟩ := Nat.exists_eq_add_one_of_ne_zero (Nat.ne_of_gt hfuel)
    rw [scan, if_pos (linked_nil.mp h)]
  | cons a rest ih =>
    intro prev curr fuel h hfuel
    obtain ⟨fuel, rfl⟩ := Nat.exists_eq_add_one_of_ne_zero (Nat.ne_of_gt (Nat.zero_lt_of_lt hfuel))
    obtain ⟨⟨hcurr, hpos⟩, hrest⟩ := linked_cons.mp h
    rw [List.length_cons] at hfuel
    rw [scan, if_neg (by omega), if_neg (by omega), hcurr]
    exact ih hrest (by omega)

/-- The second loop ends at a node without a successor. -/
theorem lastNode_spec : ∀ {rest : List Nat} {tail fuel : Nat},
    Linked mem 8 tail (tail :: rest) → rest.length < fuel →
    ∃ last, lastNode mem fuel tail = some last ∧ load64 mem (last + 8) = 0 := by
  intro rest
  induction rest with
  | nil =>
    intro tail fuel h hfuel
    obtain ⟨fuel, rfl⟩ := Nat.exists_eq_add_one_of_ne_zero (Nat.ne_of_gt hfuel)
    have hend := linked_nil.mp (linked_cons.mp h).2
    exact ⟨tail, by rw [lastNode, if_pos hend], hend⟩
  | cons a rest ih =>
    intro tail fuel h hfuel
    obtain ⟨fuel, rfl⟩ := Nat.exists_eq_add_one_of_ne_zero (Nat.ne_of_gt (Nat.zero_lt_of_lt hfuel))
    have hrest := (linked_cons.mp h).2
    obtain ⟨⟨hnext, hpos⟩, -⟩ := linked_cons.mp hrest
    rw [List.length_cons] at hfuel
    rw [lastNode, if_neg (by omega), hnext]
    rw [hnext] at hrest
    exact ih hrest (by omega)

/-- Putting the chain back writes the null pointer that is there. -/
theorem putBack_chain (h : Linked mem 8 chain l) (hne : chain ≠ 0) (hfuel : l.length ≤ fuel) :
    ∃ last, lastNode mem fuel chain = some last ∧ store64 mem (last + 8) 0 = mem := by
  cases l with
  | nil => exact absurd (linked_nil.mp h) hne
  | cons a rest =>
    obtain ⟨⟨rfl, -⟩, -⟩ := linked_cons.mp h
    obtain ⟨last, hlast, hend⟩ := lastNode_spec h hfuel
    refine ⟨last, hlast, ?_⟩
    rw [← hend]
    exact store64_load64 mem (last + 8)

/-- A medium node is clear of the small blocks and of the other medium nodes. -/
theorem clear_of_medium {before after : List (Nat × Nat)} {x : Nat × Nat}
    (hinv : Inventory wordSize heap d.owned) (hmedium : d.medium = before ++ x :: after) :
    (∀ r ∈ d.small, Clear (mediumPiece x) r) ∧
      ∀ y ∈ before ++ after, Clear (mediumPiece x) (mediumPiece y) := by
  have hstock : Apart d.stock := (Apart.append_iff.mp hinv.apart).2.1
  obtain ⟨-, hrest, hcross⟩ := Apart.append_iff.mp hstock
  have hall : Apart (d.medium.map mediumPiece) := (Apart.append_iff.mp hrest).1
  have hx : x ∈ d.medium := by
    rw [hmedium]
    exact List.mem_append_right _ List.mem_cons_self
  constructor
  · intro r hr
    exact (hcross r hr _ (List.mem_append_left _ (List.mem_map_of_mem hx))).symm
  · intro y hy
    have hperm : d.medium.map mediumPiece ~ (x :: (before ++ after)).map mediumPiece := by
      rw [hmedium]
      exact List.perm_middle.map _
    exact (Apart.cons_iff.mp (hall.perm hperm)).1 _ (List.mem_map_of_mem hy)

/-- The link word of a medium node is clear of the words of the others. -/
theorem clear_of_link {before after : List (Nat × Nat)} {x y : Nat × Nat} (hwide : d.Wide)
    (hinv : Inventory wordSize heap d.owned) (hmedium : d.medium = before ++ x :: after)
    (hy : y ∈ before ++ after) :
    Clear ⟨x.1 + 8, 8⟩ ⟨y.1 + 8, 8⟩ ∧ Clear ⟨x.1 + 8, 8⟩ ⟨y.1, 8⟩ := by
  have hwords : ∀ z ∈ x :: (before ++ after),
      Within ⟨z.1, 8⟩ (mediumPiece z) ∧ Within ⟨z.1 + 8, 8⟩ (mediumPiece z) := by
    intro z hz
    refine within_mediumPiece (hwide z ?_)
    rw [hmedium]
    exact List.perm_middle.mem_iff.mpr hz
  have hlink := (hwords x List.mem_cons_self).2
  have hclear := (clear_of_medium hinv hmedium).2 y hy
  obtain ⟨hsize, hnext⟩ := hwords y (List.mem_cons_of_mem _ hy)
  exact ⟨hclear.mono hlink hnext, hclear.mono hlink hsize⟩

/-- The link word of one medium node takes the link of the next. -/
theorem Represents.unlink {before after : List (Nat × Nat)} {x : Nat × Nat} (h : Represents p d)
    (hwide : d.Wide) (hinv : Inventory wordSize heap d.owned)
    (hmedium : d.medium = before ++ x :: node :: after) :
    Represents { p with mem := store64 p.mem (x.1 + 8) (load64 p.mem (node.1 + 8)) }
      { d with medium := before ++ x :: after } := by
  have hword := (within_mediumPiece (hwide x (by rw [hmedium]; simp))).2
  have hclearSmall : ∀ i a, i < numSizeClasses → a ∈ (d.shelves i).slots →
      Clear ⟨x.1 + 8, 8⟩ ⟨a + 0, 8⟩ := by
    intro i a hi ha
    refine ((clear_of_medium hinv hmedium).1 _ ?_).mono hword (within_smallPiece hi a)
    exact List.mem_flatMap.mpr ⟨i, List.mem_range.mpr hi, List.mem_map_of_mem ha⟩
  have hclear : ∀ y ∈ before ++ node :: after, _ := fun _ => clear_of_link hwide hinv hmedium
  refine { h with free := ?_, cached := ?_, central := ?_, sizes := ?_ }
  · exact fun i hi => (h.free i hi).frame fun a ha =>
      agreeOn_store64 (hclearSmall i a hi (Shelf.mem_slots_free ha))
  · exact fun i hi => (h.cached i hi).frame fun a ha =>
      agreeOn_store64 (hclearSmall i a hi (Shelf.mem_slots_cached ha))
  · have hcentral := h.central
    rw [hmedium, List.map_append, List.map_cons, List.map_cons] at hcentral
    rw [List.map_append, List.map_cons]
    refine hcentral.unlink ?_ ?_
    · intro a ha
      obtain ⟨y, hy, rfl⟩ := List.mem_map.mp ha
      exact (hclear y (List.mem_append_left _ hy)).1
    · intro a ha
      obtain ⟨y, hy, rfl⟩ := List.mem_map.mp ha
      exact (hclear y (List.mem_append_right _ (List.mem_cons_of_mem _ hy))).1
  · intro y hy
    have hold : load64 p.mem y.1 = y.2 := by
      refine h.sizes y ?_
      rw [hmedium]
      rcases List.mem_append.mp hy with hy | hy
      · exact List.mem_append_left _ hy
      · rcases List.mem_cons.mp hy with rfl | hy
        · exact List.mem_append_right _ List.mem_cons_self
        · exact List.mem_append_right _ (List.mem_cons_of_mem _ (List.mem_cons_of_mem _ hy))
    refine (load64_congr (agreeOn_store64 ?_)).trans hold
    rcases List.mem_append.mp hy with hy | hy
    · exact (hclear y (List.mem_append_left _ hy)).2
    · rcases List.mem_cons.mp hy with rfl | hy
      · exact .inr (Nat.le_refl _)
      · exact (hclear y (List.mem_append_right _ (List.mem_cons_of_mem _ hy))).2

/-- `pop` after its first loop: the chain is put back as it is. -/
theorem centralPop_of_scan {found : Nat} (hhead : p.centralFreeList ≠ 0)
    (hscan : scan minSize fuel p.mem 0 0 p.centralFreeList p.centralFreeList =
      some (mem, found, chain)) (hlinked : Linked mem 8 chain l) (hfuel : l.length ≤ fuel) :
    p.centralPop minSize fuel = some (found, { p with mem := mem, centralFreeList := chain }) := by
  simp only [Pool.centralPop, if_neg hhead, hscan]
  by_cases hne : chain = 0
  · simp only [hne, ne_eq, not_true_eq_false, if_false]
  · obtain ⟨last, hlast, hstore⟩ := putBack_chain hlinked hne hfuel
    simp only [ne_eq, hne, not_false_eq_true, if_true, hlast, hstore]

/-- Nodes below the size in the list are below it in memory. -/
theorem Represents.load_lt {before : List (Nat × Nat)} (h : Represents p d)
    (hsub : ∀ x ∈ before, x ∈ d.medium) (hsmall : ∀ x ∈ before, x.2 < size) :
    ∀ a ∈ before.map Prod.fst, load64 p.mem a < size := by
  refine List.forall_mem_map.mpr fun x hx => ?_
  rw [h.sizes x (hsub x hx)]
  exact hsmall x hx

/-- **`pop` finds nothing**: no node is large enough. -/
theorem Represents.centralPop_none (h : Represents p d) (hfind : d.medium.find? (size ≤ ·.2) = none)
    (hfuel : d.medium.length < fuel) : p.centralPop size fuel = some (0, p) := by
  by_cases hhead : p.centralFreeList = 0
  · rw [Pool.centralPop, if_pos hhead]
  have hsmall := h.load_lt (fun _ hx => hx)
    fun x hx => by simpa using List.find?_eq_none.mp hfind x hx
  have hcentral := h.central
  rw [← List.append_nil (d.medium.map Prod.fst)] at hcentral
  obtain ⟨next, hnext, hscan⟩ := scan_skip p.centralFreeList 0 hcentral hsmall
  obtain ⟨rest, rfl⟩ : ∃ rest, fuel = rest + 1 + (d.medium.map Prod.fst).length := by
    refine ⟨fuel - d.medium.length - 1, ?_⟩
    rw [List.length_map]
    omega
  have hdone : scan size (rest + 1 + (d.medium.map Prod.fst).length) p.mem 0 0
      p.centralFreeList p.centralFreeList = some (p.mem, 0, p.centralFreeList) := by
    rw [hscan (rest + 1), scan, if_pos (linked_nil.mp hnext)]
  exact centralPop_of_scan hhead hdone h.central (by omega)

/-- **`pop` takes the first node that is large enough.** -/
theorem Represents.centralPop_some (h : Represents p d)
    (hwide : d.Wide) (hinv : Inventory wordSize heap d.owned)
    (hfind : d.medium.find? (size ≤ ·.2) = some node) (hfuel : d.medium.length < fuel) :
    node.1 ≠ 0 ∧ ∃ p', p.centralPop size fuel = some (node.1, p') ∧
      Represents p' { d with medium := d.medium.eraseP (size ≤ ·.2) } := by
  obtain ⟨before, after, hmedium, herase, hbefore, hnode⟩ := firstFit_split hfind
  rw [herase]
  have hcentral := h.central
  rw [hmedium, List.map_append, List.map_cons] at hcentral
  have hsmall := h.load_lt (fun x hx => by rw [hmedium]; exact List.mem_append_left _ hx)
    hbefore
  obtain ⟨next, hnext, hscan⟩ := scan_skip p.centralFreeList 0 hcentral hsmall
  obtain ⟨⟨rfl, hpos⟩, hafter⟩ := linked_cons.mp hnext
  have hload : load64 p.mem node.1 = node.2 := h.sizes node (by rw [hmedium]; simp)
  have hlen : d.medium.length = before.length + (after.length + 1) := by
    rw [hmedium, List.length_append, List.length_cons]
  have hhead : p.centralFreeList ≠ 0 := by
    intro hzero
    have hnil := h.central
    rw [hzero] at hnil
    have hempty := chain_none hnil
    rw [hmedium] at hempty
    simp at hempty
  obtain ⟨rest, rfl⟩ : ∃ rest, fuel = rest + 1 + (before.map Prod.fst).length := by
    refine ⟨fuel - before.length - 1, ?_⟩
    rw [List.length_map]
    omega
  rw [List.length_map] at hfuel
  have hstart := hscan (rest + 1)
  rw [scan, if_neg (by omega), if_pos ⟨rfl, by omega⟩] at hstart
  refine ⟨by omega, ?_⟩
  rcases List.eq_nil_or_concat' before with rfl | ⟨pre, x, rfl⟩
  · -- the node is the first: the chain begins behind it
    rw [List.map_nil, List.getLastD_nil, if_neg (by simp),
      scan_found (by omega) hafter (by rw [List.length_map]; omega)] at hstart
    have hpop := centralPop_of_scan hhead hstart hafter (by rw [List.length_map]; omega)
    exact ⟨_, hpop, { h with
      central := hafter
      sizes := fun y hy => h.sizes y (by rw [hmedium]; exact List.mem_cons_of_mem _ hy) }⟩
  · -- the node before it takes its link
    have hsplit : d.medium = pre ++ x :: node :: after := by
      rw [hmedium, List.append_assoc]
      rfl
    have hposX : 0 < x.1 := by
      have hmem : mediumPiece x ∈ d.owned :=
        List.mem_append_right _ (Depot.mem_stock_medium (by rw [hsplit]; simp))
      exact (hinv.bounds_owned hmem).1
    have hclear : ∀ y ∈ node :: after, Clear ⟨x.1 + 8, 8⟩ ⟨y.1 + 8, 8⟩ := fun y hy =>
      (clear_of_link hwide hinv hsplit (List.mem_append_right _ hy)).1
    have hlast : ((pre ++ [x]).map Prod.fst).getLastD 0 = x.1 := by
      rw [List.map_append]
      exact List.getLastD_concat ..
    have hrep := h.unlink hwide hinv hsplit
    rw [hlast, if_pos (by omega)] at hstart
    dsimp only at hstart
    rw [load64_congr (agreeOn_store64 (hclear node List.mem_cons_self))] at hstart
    have hafter' : Linked (store64 p.mem (x.1 + 8) (load64 p.mem (node.1 + 8))) 8
        (load64 p.mem (node.1 + 8)) (after.map Prod.fst) := by
      refine hafter.frame fun a ha => ?_
      obtain ⟨y, hy, rfl⟩ := List.mem_map.mp ha
      exact agreeOn_store64 (hclear y (List.mem_cons_of_mem _ hy))
    rw [scan_found (by omega) hafter' (by
      rw [List.length_map]
      omega)] at hstart
    have hkept : (pre ++ x :: after).length ≤ d.medium.length := by
      rw [hsplit]
      simp
    have hpop := centralPop_of_scan hhead hstart hrep.central (by
      rw [List.length_map, List.length_map]
      exact Nat.le_of_lt (Nat.lt_of_le_of_lt hkept hfuel))
    rw [List.append_assoc]
    exact ⟨_, hpop, hrep⟩

/-- **The medium object path**, with fuel for the walk through the list. -/
theorem Represents.allocateMedium (h : Represents p d)
    (hwide : d.Wide) (hinv : Inventory wordSize heap d.owned)
    (hfuel : d.medium.length < fuel) (fresh : Nat) :
    ∃ r, p.allocateMedium size fresh fuel = some r ∧ Matches r (d.allocateMedium size fresh) := by
  rw [Depot.allocateMedium]
  cases hfind : d.medium.find? (size ≤ ·.2) with
  | none =>
    have hpop := h.centralPop_none hfind hfuel
    have hblocks := h.blocks
    simp only [Pool.allocateMedium, hpop, ne_eq, not_true_eq_false, if_false, hblocks]
    exact ⟨_, rfl, rfl, rfl, rfl, { h with blocks := rfl }⟩
  | some node =>
    obtain ⟨hne, p', hpop, hrep⟩ := h.centralPop_some hwide hinv hfind hfuel
    simp only [Pool.allocateMedium, hpop, ne_eq, hne, not_false_eq_true, if_true]
    exact ⟨_, rfl, rfl, rfl, rfl, hrep⟩

/-- **`allocate` does what the depot does**, with fuel for the walk. -/
theorem Represents.allocate (fuel : Nat) (h : Represents p d) (hinv : d.Holds)
    (hfuel : d.medium.length < fuel) (bytes alignment fresh : Nat) :
    ∃ r, p.allocate bytes alignment fresh fuel = some r ∧
      Matches r (d.allocate bytes alignment fresh) := by
  have hwide := hinv.wide
  simp only [Pool.allocate, Depot.allocate]
  split
  next hsmall =>
    exact h.allocateSmall (sizeClassIndex_spec hsmall).1 hwide hinv.inventory alignment fresh
  next =>
    split
    next => exact h.allocateMedium hwide hinv.inventory hfuel fresh
    next => exact ⟨_, rfl, rfl, rfl, rfl, h⟩

/-! ## More fuel changes nothing -/

theorem scan_mono {out : Memory × Nat × Nat} (k fuel : Nat) :
    ∀ {mem : Memory} {found prev curr chain : Nat},
    scan minSize fuel mem found prev curr chain = some out →
    scan minSize (fuel + k) mem found prev curr chain = some out := by
  induction fuel with
  | zero => intro mem found prev curr chain h; cases h
  | succ fuel ih =>
    intro mem found prev curr chain h
    rw [Nat.add_right_comm]
    simp only [scan] at h ⊢
    split_ifs at h ⊢
    · exact h
    · exact ih h
    · exact ih h
    · exact ih h

theorem lastNode_mono {out : Nat} (k fuel : Nat) : ∀ {tail : Nat},
    lastNode mem fuel tail = some out → lastNode mem (fuel + k) tail = some out := by
  induction fuel with
  | zero => intro tail h; cases h
  | succ fuel ih =>
    intro tail h
    rw [Nat.add_right_comm]
    simp only [lastNode] at h ⊢
    split_ifs at h ⊢
    · exact h
    · exact ih h

theorem centralPop_mono {out : Nat × Pool} (k : Nat) (h : p.centralPop minSize fuel = some out) :
    p.centralPop minSize (fuel + k) = some out := by
  simp only [Pool.centralPop] at h ⊢
  split_ifs at h ⊢
  · exact h
  · cases hscan : scan minSize fuel p.mem 0 0 p.centralFreeList p.centralFreeList with
    | none => simp only [hscan, reduceCtorEq] at h
    | some result =>
      simp only [hscan] at h
      simp only [scan_mono k fuel hscan]
      split_ifs at h ⊢
      · cases hlast : lastNode result.1 fuel result.2.2 with
        | none => simp only [hlast, reduceCtorEq] at h
        | some last =>
          simp only [hlast] at h
          simp only [lastNode_mono k fuel hlast]
          exact h
      · exact h

/-- **A call that returns returns the same with more fuel.** -/
theorem allocate_mono {bytes alignment fresh : Nat} {r : Result} (k : Nat)
    (h : p.allocate bytes alignment fresh fuel = some r) :
    p.allocate bytes alignment fresh (fuel + k) = some r := by
  simp only [Pool.allocate] at h ⊢
  split_ifs at h ⊢
  · exact h
  · simp only [Pool.allocateMedium] at h ⊢
    cases hpop : p.centralPop (allocSize bytes alignment) fuel with
    | none => simp only [hpop, reduceCtorEq] at h
    | some result =>
      simp only [hpop] at h
      simp only [centralPop_mono k hpop]
      exact h
  · exact h

/-- What `allocate` returns is what the depot says, whatever the fuel. -/
theorem Represents.matches_of_allocate {bytes alignment fresh : Nat} {r : Result}
    (h : Represents p d) (hinv : d.Holds) (hcall : p.allocate bytes alignment fresh fuel = some r) :
    Matches r (d.allocate bytes alignment fresh) := by
  obtain ⟨r', hcall', hmatch⟩ := h.allocate (fuel + (d.medium.length + 1)) hinv (by omega)
    bytes alignment fresh
  rw [allocate_mono _ hcall] at hcall'
  cases hcall'
  exact hmatch

/-- Draining adds to the class list. -/
theorem Shelf.suffix_free_drain (n : Nat) : ∀ sh : Shelf, sh.free <:+ (sh.drain n).free := by
  induction n with
  | zero => intro sh; exact List.suffix_rfl
  | succ n ih =>
    intro sh
    rw [Shelf.drain]
    split
    next => exact List.suffix_rfl
    next ptr ring hring =>
      exact (List.suffix_cons ptr sh.free).trans (ih ⟨sh.cached, ring, ptr :: sh.free⟩)

/-- A drained shelf has an empty class list if ring and list were empty. -/
theorem Shelf.free_drain_eq_nil {sh : Shelf} {n : Nat} :
    (sh.drain (n + 1)).free = [] ↔ sh.ring = [] ∧ sh.free = [] := by
  rw [Shelf.drain]
  split
  next hring => exact (and_iff_right hring).symm
  next ptr ring hring =>
    refine iff_of_false (fun hnil => ?_) fun h => ?_
    · have hsuffix := Shelf.suffix_free_drain n ⟨sh.cached, ring, ptr :: sh.free⟩
      rw [hnil] at hsuffix
      cases List.suffix_nil.mp hsuffix
    · cases hring.symm.trans h.1

/-- **A small request is cut exactly if ring and class list are empty.** -/
theorem Depot.carved_iff (d : Depot) {bytes alignment fresh : Nat} :
    (d.allocate bytes alignment fresh).carved = true ↔
      allocSize bytes alignment ≤ smallObjectMax ∧
      (d.shelves (sizeClassIndex (allocSize bytes alignment))).ring = [] ∧
      (d.shelves (sizeClassIndex (allocSize bytes alignment))).free = [] := by
  have hlends := d.lends_allocate bytes alignment fresh
  rw [← Shelf.free_drain_eq_nil (n := 15)]
  generalize d.allocate bytes alignment fresh = r at *
  cases hlends with
  | shelved _ hi hfree =>
    subst hi
    exact iff_of_false (by rintro ⟨⟩) (by rw [hfree]; rintro ⟨_, ⟨⟩⟩)
  | cut hsmall hi hfree _ =>
    subst hi
    exact iff_of_true rfl ⟨hsmall, hfree⟩
  | listed hsize _ | new hsize _ => exact iff_of_false (by rintro ⟨⟩) fun h => by omega
  | large hsize =>
    refine iff_of_false (by rintro ⟨⟩) fun h => absurd hsize (Nat.not_lt.mpr ?_)
    exact Nat.le_trans h.1 (by decide)

/-- Class `i` has no block to hand out: its ring and its list are empty. -/
def Pool.Bare (p : Pool) (i : Nat) : Prop :=
  (p.returnRings i).head = (p.returnRings i).tail ∧ p.smallFreeLists i = 0
deriving Decidable

theorem Represents.bare_iff (h : Represents p d) (hi : i < numSizeClasses) :
    p.Bare i ↔ (d.shelves i).ring = [] ∧ (d.shelves i).free = [] := by
  refine and_congr ((h.rings i hi).head_eq_tail_iff (by decide)) ?_
  constructor
  · intro hzero
    exact chain_unique (h.free i hi) (linked_nil.mpr hzero)
  · intro hnil
    have hlinked := h.free i hi
    rw [hnil] at hlinked
    exact linked_nil.mp hlinked

/-- **`allocate` cuts exactly if the class of the request has nothing to hand out.** -/
theorem Represents.carved_iff {bytes alignment fresh : Nat} {r : Result} (h : Represents p d)
    (hinv : d.Holds) (hcall : p.allocate bytes alignment fresh fuel = some r) :
    r.carved = true ↔ allocSize bytes alignment ≤ smallObjectMax ∧
      p.Bare (sizeClassIndex (allocSize bytes alignment)) := by
  rw [(h.matches_of_allocate hinv hcall).carved, d.carved_iff]
  exact and_congr_right fun hsmall => (h.bare_iff (sizeClassIndex_spec hsmall).1).symm

/-! ## Deallocation -/

/-- **`deallocate` does what the depot does**, and returns. -/
theorem Represents.deallocate {b : Block} (h : Represents p d) (hinv : d.Holds) (hb : b ∈ d.live) :
    ∃ p', p.deallocate b.ptr b.bytes b.alignment = some p' ∧
      Represents p' ((d.deallocate b).takeBack b) := by
  have hwide := hinv.wide
  have hrep : Represents p (d.takeBack b) := { h with }
  have hspare := hinv.inventory.perm (.refl _) (Depot.owned_takeBack hb)
  simp only [Pool.deallocate, Depot.deallocate]
  rw [show allocSize b.bytes b.alignment = b.size from rfl]
  split
  next hsmall =>
    obtain ⟨hi, -⟩ := sizeClassIndex_spec hsmall
    rw [Block.extent_small hsmall] at hspare
    generalize sizeClassIndex b.size = i at *
    have hcount : p.listCount i = (d.shelves i).cached.length := by
      rw [Pool.listCount, if_pos hi]
      exact h.count i hi
    rw [hcount, Shelf.putBack]
    split
    next =>
      have hholds := h.rings i hi
      by_cases hlt : (d.shelves i).ring.length < ringCapacity
      · rw [if_pos hlt]
        obtain ⟨ring, hcall, hring⟩ := SeqRing.tryEnqueue_of_lt ringCapacity_eq (by omega)
          hholds hlt b.ptr
        simp only [hcall]
        exact ⟨_, rfl, hrep.setRing hi hring⟩
      · have hfull : (d.shelves i).ring.length = ringCapacity := by
          obtain ⟨head, hat⟩ := hholds
          have hbound := hat.bound
          omega
        rw [if_neg hlt]
        simp only [SeqRing.tryEnqueue_of_full ringCapacity_eq (by omega) hholds hfull b.ptr,
          update_eq_self]
        rw [Depot.setShelf_self]
        exact ⟨p, rfl, hrep⟩
    next hle =>
      exact ⟨_, rfl, hrep.cacheDeallocate hi hwide (hinv.cached i) hspare⟩
  next hsmall =>
    split
    next hmedium =>
      rw [Block.extent_of_gt (by omega)] at hspare
      exact ⟨_, rfl, hrep.centralPush hwide ⟨by omega, hmedium⟩ hspare⟩
    next => exact ⟨p, rfl, hrep⟩

end Memory

/-! ## Runs -/

/-- The state of the machine is the state of the depot. -/
structure Refines (s : State) (d : Depot) : Prop where
  pool : Represents s.pool d
  live : s.live = d.live

section Runs

variable {s s' : State} {d : Depot}

theorem Refines.heap (h : Refines s d) : MemoryPool.heap s = d.heap := by
  rw [MemoryPool.heap, Depot.heap, h.pool.bump, h.pool.blocks, h.live]

/-- **A byte that the user or the rest of the process writes disturbs no list.** -/
theorem Refines.write {a : Nat} {v : UInt8} (h : Refines s d) (hinv : d.Holds) (hw : Writable s a) :
    Refines { s with pool := { s.pool with mem := update s.pool.mem a v } } d := by
  refine ⟨h.pool.frame hinv.wide ?_, h.live⟩
  intro r hr x hx
  refine update_of_ne ?_ ..
  rintro rfl
  obtain ⟨-, -, hcross⟩ := Apart.append_iff.mp hinv.inventory.apart
  rcases hw with ⟨b, hb, hin⟩ | hout
  · -- a live block is clear of the stock
    rw [h.live] at hb
    have hpart : Within ⟨b.ptr, b.bytes⟩ b.extent :=
      ⟨Nat.le_refl _, Nat.add_le_add_left (hinv.enough b hb) _⟩
    exact (hcross _ (List.mem_map_of_mem hb) r hr).not_has (hpart.has hin) hx
  · -- the stock is memory from the system
    obtain ⟨q, hq, hwithin⟩ := hinv.inventory.within r (List.mem_append_right _ hr)
    rw [h.heap] at hout
    exact hout q hq (hwithin.has hx)

variable {act : Act}

/-- **Each call of the pool is the same call on the depot.** -/
theorem Refines.step (h : Refines s d) (hinv : d.Holds) (hstep : step s act = some s') :
    ∃ d', d.step act = some d' ∧ Refines s' d' ∧ event s act = d.event act := by
  cases act with
  | allocate bytes alignment fresh fuel =>
    simp only [MemoryPool.step, Option.map_eq_some_iff] at hstep
    obtain ⟨r, hcall, rfl⟩ := hstep
    have hm := h.pool.matches_of_allocate hinv hcall
    refine ⟨_, rfl, ⟨{ hm.pool with }, ?_⟩, ?_⟩
    · rw [hm.ptr, h.live, (d.lends_allocate bytes alignment fresh).live]
    · simp only [event, Depot.event, hcall, Option.map_some, hm.obtained, hm.carved, hm.ptr]
  | deallocate b =>
    simp only [MemoryPool.step, Option.ite_none_right_eq_some, Option.map_eq_some_iff] at hstep
    obtain ⟨hb, p', hcall, rfl⟩ := hstep
    rw [h.live] at hb
    obtain ⟨p'', hcall', hrep⟩ := h.pool.deallocate hinv hb
    rw [hcall] at hcall'
    cases hcall'
    refine ⟨(d.deallocate b).takeBack b, ?_, ⟨hrep, ?_⟩, rfl⟩
    · rw [Depot.step, if_pos hb]
      rfl
    · show s.live.erase b = (d.deallocate b).live.erase b
      rw [h.live, (d.kept_deallocate b).1]
  | warmup totalBytes blocks =>
    obtain ⟨hlen, rfl⟩ := Option.ite_some_none_eq_some.mp hstep
    refine ⟨_, if_pos hlen, ⟨{ h.pool with bump := ?_ }, h.live⟩, rfl⟩
    show ({ s.pool.bump with blocks := s.pool.bump.blocks ++ blocks } : Bump) = _
    rw [h.pool.bump]
  | write a v =>
    obtain ⟨hw, rfl⟩ := Option.ite_some_none_eq_some.mp hstep
    exact ⟨d, rfl, h.write hinv hw, rfl⟩

/-- The start. -/
theorem refines_new (mem : Memory) (blocks : List Nat) :
    Refines (init mem blocks) (Depot.new blocks) where
  pool := ⟨rfl, rfl, fun _ _ => rfl, fun _ _ => rfl,
    fun _ _ => SeqRing.holds_new (by decide), fun _ _ => linked_nil.mpr rfl,
    fun _ _ => linked_nil.mpr rfl, linked_nil.mpr rfl, nofun⟩
  live := rfl

/-- **The invariant rule through the depot**: what holds of the depot at the start and
    is kept by its steps holds after every run of the pool. -/
theorem refines_invariant {C : List Event → State → Act → Prop} {J : List Event → Depot → Prop}
    {mem : Memory} {blocks : List Nat} {t : List Event} (hlen : blocks.length = initialBlocks)
    (hfresh : Fresh wordSize [] (blocks.map blockRegion))
    (hC : ∀ t s act, C t s act → Sound t s act) (hstart : J [] (Depot.new blocks))
    (hJ : ∀ t s d act d', Refines s d → d.Inv → J t d → C t s act → d.step act = some d' →
      event s act = d.event act → J (note t (d.event act)) d')
    (h : Exec machine C (init mem blocks) t s) : ∃ d, Refines s d ∧ d.Inv ∧ J t d := by
  refine h.invariant (fun t s => ∃ d, Refines s d ∧ d.Inv ∧ J t d)
    ⟨_, refines_new mem blocks, Depot.inv_new hlen hfresh, hstart⟩ ?_
  rintro t s act s' ⟨d, href, hinv, hj⟩ hc hstep
  obtain ⟨d', hstep', href', hevent⟩ := href.step hinv.holds hstep
  have hsound : Depot.Sound t d act := by
    have hcall := hC t s act hc
    rw [Sound, href.heap, href.pool.bump, hevent] at hcall
    exact hcall
  refine ⟨d', href', hinv.step hsound hstep', ?_⟩
  show J (note t (event s act)) d'
  rw [hevent]
  exact hJ t s d act d' href hinv hj hc hstep' hevent

/-- **Every call of the pool returns**: the step of the depot is a step of the pool, if
    there is fuel for the walk through the central list. -/
theorem Refines.exists_step {d' : Depot} (h : Refines s d) (hinv : d.Holds)
    (hfuel : ∀ bytes alignment fresh fuel, act = .allocate bytes alignment fresh fuel →
      d.medium.length < fuel) (hwrite : ∀ a v, act = .write a v → Writable s a)
    (hstep : d.step act = some d') : ∃ s', MemoryPool.step s act = some s' ∧ Refines s' d' := by
  have hsome : (MemoryPool.step s act).isSome := by
    cases act with
    | allocate bytes alignment fresh fuel =>
      obtain ⟨r, hcall, -⟩ := h.pool.allocate fuel hinv (hfuel _ _ _ _ rfl) bytes alignment fresh
      simp only [MemoryPool.step, hcall, Option.map_some, Option.isSome_some]
    | deallocate b =>
      simp only [Depot.step, Option.ite_none_right_eq_some] at hstep
      obtain ⟨p', hcall, -⟩ := h.pool.deallocate hinv hstep.1
      have hb : b ∈ s.live := by
        rw [h.live]
        exact hstep.1
      simp only [MemoryPool.step, hb, if_true, hcall, Option.map_some, Option.isSome_some]
    | warmup totalBytes blocks =>
      simp only [Depot.step, Option.ite_none_right_eq_some] at hstep
      simp only [MemoryPool.step, hstep.1, if_true, Option.isSome_some]
    | write a v => simp only [MemoryPool.step, hwrite a v rfl, if_true, Option.isSome_some]
  obtain ⟨s', hs'⟩ := Option.isSome_iff_exists.mp hsome
  obtain ⟨d'', hd'', href, -⟩ := h.step hinv hs'
  rw [hstep] at hd''
  cases hd''
  exact ⟨s', hs', href⟩

/-- A run of the pool goes on with every sound call on the depot. -/
theorem Refines.extend {s₀ : State} {t : List Event} {d' : Depot}
    (hexec : Exec machine Sound s₀ t s) (h : Refines s d) (hinv : d.Inv)
    (hfuel : ∀ bytes alignment fresh fuel, act = .allocate bytes alignment fresh fuel →
      d.medium.length < fuel) (hwrite : ∀ a v, act = .write a v → Writable s a)
    (hsound : Depot.Sound t d act) (hstep : d.step act = some d') :
    ∃ s', Exec machine Sound s₀ (note t (d.event act)) s' ∧ Refines s' d' ∧ d'.Inv := by
  obtain ⟨s', hs', href⟩ := h.exists_step hinv.holds hfuel hwrite hstep
  obtain ⟨-, -, -, hevent⟩ := h.step hinv.holds hs'
  have hsound' : Sound t s act := by
    rw [Sound, h.heap, h.pool.bump, hevent]
    exact hsound
  have hexec' := Exec.step act hexec hsound' hs'
  rw [Machine.record_eq_note, show machine.event s act = event s act from rfl, hevent] at hexec'
  exact ⟨s', hexec', href, hinv.step hsound hstep⟩

end Runs

end MemoryPool
