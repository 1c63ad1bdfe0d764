import StorageRuntime.PoolOwnershipProofs

/-!
# What becomes of freed memory

`allocate` looks for a freed block before it takes new memory, but it does not look
everywhere.  The thread-local cache that `deallocate` fills is not the one that
`allocate` reads, and a medium block is found again under the size of the request that
freed it, which may be smaller than the block.

* **`freed_memory_reused`**: while an `allocate` that cuts a block finds the cache of
  `deallocate` empty, no full return ring drops a block, and medium blocks are freed
  with the size they were obtained with, no new memory is taken while a freed block
  would do; what is held of each kind is then at most what was in use at one time.
* **`small_held_le_peak`**: while no full ring drops a block, a class never holds more
  than 65 blocks over what was in use at one time, whatever the cache does.
* **`freed_memory_ignored`**: a freed block of each kind that `allocate` passes over.
-/

namespace MemoryPool

open WordArithmetic Regions ByteMemory ReturnRing Interleaving IntrusiveChain
open scoped List

/-! ## Freed blocks -/

/-- A block of class `i` was cut and is not in use. -/
def FreedSmall (t : List Event) (s : State) (i : Nat) : Prop :=
  ∃ ptr ∈ carved i t, ptr ∉ liveOf i s.live

/-- A medium block of `size` bytes or more is not in use.  Its true size is the one that
    `operator new` was called with. -/
def FreedMedium (s : State) (size : Nat) : Prop :=
  ∃ r ∈ s.pool.allocatedBlocks, size ≤ r.size ∧ ∀ b ∈ s.live, b.ptr ≠ r.base

/-- The call takes no new memory while a freed block would do. -/
def Reuses (t : List Event) (s : State) : Act → Prop
  | .allocate bytes alignment fresh fuel =>
    ∀ r, s.pool.allocate bytes alignment fresh fuel = some r →
      (r.carved = true → ¬ FreedSmall t s (sizeClassIndex (allocSize bytes alignment))) ∧
      (smallObjectMax < allocSize bytes alignment →
        allocSize bytes alignment ≤ mediumObjectMax → r.obtained ≠ [] →
        ¬ FreedMedium s (allocSize bytes alignment))
  | _ => True

/-- What is freed stays within the reach of `allocate`: when the class of a small request has
    nothing to hand out, there is nothing in the cache of `deallocate` either, the ring takes
    what the cache does not, and a medium block comes back under its true size. -/
def InReach (s : State) (act : Act) : Prop :=
  match act with
  | .allocate bytes alignment _ _ =>
    allocSize bytes alignment ≤ smallObjectMax →
      s.pool.Bare (sizeClassIndex (allocSize bytes alignment)) →
      s.pool.listCount (sizeClassIndex (allocSize bytes alignment)) = 0
  | .deallocate b => RingTakes s act ∧ (smallObjectMax < b.size → b.size ≤ mediumObjectMax →
        ⟨b.ptr, b.size⟩ ∈ s.pool.allocatedBlocks)
  | _ => True

instance (s : State) (act : Act) : Decidable (InReach s act) :=
  match act with
  | .allocate .. => inferInstanceAs (Decidable (_ ≤ _ → s.pool.Bare _ → _ = 0))
  | .deallocate .. => inferInstanceAs (Decidable (RingTakes s _ ∧ (_ → _ → _ ∈ _)))
  | .warmup .. | .write .. => isTrue trivial

theorem InReach.ringTakes {s : State} {act : Act} (h : InReach s act) : RingTakes s act := by
  cases act with
  | deallocate b => exact h.1
  | _ => trivial

/-- The kinds of blocks: the small ones of a class, and the medium ones of a true size. -/
inductive Tier where
  | small (i : Nat)
  | medium (size : Nat)

/-- How many blocks of the kind the pool has ever taken. -/
def held (t : List Event) (s : State) : Tier → Nat
  | .small i => (carved i t).length
  | .medium size => (s.pool.allocatedBlocks.filter fun r => r.size = size).length

/-- How many blocks of the kind are in use. -/
def liveCount (tier : Tier) (s : State) : Nat :=
  match tier with
  | .small i => (liveOf i s.live).length
  | .medium size =>
    (s.pool.allocatedBlocks.filter fun r => r.size = size ∧ ∃ b ∈ s.live, b.ptr = r.base).length

/-! ## What a cut passes over -/

section Shelves

variable {d d' : Depot} {s s' : State} {t : List Event}

/-- The blocks of the class at a cut are in use or in the cache. -/
theorem Refines.carved_perm (href : Refines s d)
    (hplaces : ∀ i, i < numSizeClasses → carved i t ~ d.places i) {bytes alignment fresh : Nat}
    (h : (d.allocate bytes alignment fresh).carved = true) :
    carved (sizeClassIndex (allocSize bytes alignment)) t ~
      liveOf (sizeClassIndex (allocSize bytes alignment)) s.live ++
        (d.shelves (sizeClassIndex (allocSize bytes alignment))).cached := by
  obtain ⟨hsmall, hring, hfree⟩ := d.carved_iff.mp h
  have hperm := hplaces _ (sizeClassIndex_spec hsmall).1
  rw [Depot.places, Shelf.slots, hring, hfree, List.append_nil, List.append_nil] at hperm
  rw [href.live]
  exact hperm

/-! ## Medium blocks under their true sizes -/

/-- A medium block is in use. -/
def Depot.Lent (d : Depot) (ptr : Nat) : Prop :=
  ∃ b ∈ d.live, smallObjectMax < b.size ∧ b.size ≤ mediumObjectMax ∧ b.ptr = ptr

/-- Every medium block is in use or in the central list, there under its true size. -/
structure Depot.Recorded (d : Depot) : Prop where
  wide : ∀ r ∈ d.allocatedBlocks, smallObjectMax < r.size
  placed : ∀ r ∈ d.allocatedBlocks, d.Lent r.base ∨ (r.base, r.size) ∈ d.medium

theorem Depot.Lent.mono {ptr : Nat} (h : d.Lent ptr) (hlive : d.live ⊆ d'.live) : d'.Lent ptr := by
  obtain ⟨b, hb, hsize⟩ := h
  exact ⟨b, hlive hb, hsize⟩

/-- **`allocate` keeps the record.** -/
theorem Depot.Lends.recorded {b : Block} {fresh : Nat} {r : Depot.Handout}
    (hlends : d.Lends b.size b.alignment fresh r) (hptr : b.ptr = r.ptr) (h : d.Recorded) :
    (r.depot.lend b).Recorded := by
  have hmono : ∀ {ptr}, d.Lent ptr → (r.depot.lend b).Lent ptr := by
    intro ptr hlent
    refine hlent.mono ?_
    rw [← hlends.live]
    exact List.subset_cons_self ..
  cases hlends with
  | shelved | cut | large => exact ⟨h.wide, fun x hx => (h.placed x hx).imp_left hmono⟩
  | @listed node hsize hfind =>
    refine ⟨h.wide, fun x hx => ?_⟩
    rcases h.placed x hx with hlent | hnode
    · exact .inl (hmono hlent)
    · -- the first match is taken and the rest stays
      obtain ⟨before, after, hmedium, herase, -⟩ := firstFit_split hfind
      rw [hmedium, List.perm_middle.mem_iff, List.mem_cons] at hnode
      rcases hnode with heq | hrest
      · have hfirst := hptr.trans (congrArg Prod.fst heq).symm
        exact .inl ⟨b, List.mem_cons_self, hsize.1, hsize.2, hfirst⟩
      · exact .inr (herase ▸ hrest)
  | new hsize _ =>
    constructor
    · intro x hx
      rcases List.mem_append.mp hx with hx | hx
      · exact h.wide x hx
      · rw [List.mem_singleton.mp hx]
        exact hsize.1
    · intro x hx
      rcases List.mem_append.mp hx with hx | hx
      · exact (h.placed x hx).imp_left hmono
      · rw [List.mem_singleton.mp hx]
        exact .inl ⟨b, List.mem_cons_self, hsize.1, hsize.2, hptr⟩

/-- **`deallocate` keeps the record**, if a medium block comes back under its true size. -/
theorem Depot.Recorded.deallocate {b : Block} (h : d.Recorded) (hinv : d.Inv)
    (htrue : smallObjectMax < b.size → b.size ≤ mediumObjectMax →
      ⟨b.ptr, b.size⟩ ∈ d.allocatedBlocks) : ((d.deallocate b).takeBack b).Recorded := by
  have hblocks : ((d.deallocate b).takeBack b).allocatedBlocks = d.allocatedBlocks :=
    (d.kept_deallocate b).2.2
  refine ⟨fun x hx => h.wide x (hblocks ▸ hx), fun x hx => ?_⟩
  rw [hblocks] at hx
  have hlisted : (x.base, x.size) ∈ d.medium →
      (x.base, x.size) ∈ ((d.deallocate b).takeBack b).medium := by
    intro hnode
    rw [Depot.deallocate]
    split
    · exact hnode
    · split
      · exact List.mem_cons_of_mem _ hnode
      · exact hnode
  rcases h.placed x hx with ⟨b', hb', hgt, hle, hptr⟩ | hnode
  · rcases eq_or_ne b' b with rfl | hne
    · -- the block itself: its entry has the size of its region
      have hsame : x = ⟨b'.ptr, b'.size⟩ := by
        refine Apart.eq_of_base (l := d.heap) hinv.inventory.heapApart ?_ ?_
          (Nat.zero_lt_of_lt (h.wide x hx)) (Nat.zero_lt_of_lt hgt) hptr.symm
        · exact List.mem_append_left _ (List.mem_append_right _ hx)
        · exact List.mem_append_left _ (List.mem_append_right _ (htrue hgt hle))
      refine .inr ?_
      rw [hsame, Depot.deallocate, if_neg (by omega), if_pos hle]
      exact List.mem_cons_self
    · refine .inl ⟨b', ?_, hgt, hle, hptr⟩
      show b' ∈ (d.deallocate b).live.erase b
      rw [(d.kept_deallocate b).1]
      exact (List.mem_erase_of_ne hne).mpr hb'
  · exact .inr (hlisted hnode)

theorem Depot.Recorded.step {act : Act} (h : d.Recorded) (hinv : d.Inv) (href : Refines s d)
    (hreach : InReach s act) (hstep : d.step act = some d') : d'.Recorded := by
  cases act with
  | allocate bytes alignment fresh fuel =>
    cases hstep
    exact (d.lends_allocate bytes alignment fresh).recorded (b := ⟨_, bytes, alignment⟩) rfl h
  | deallocate b =>
    obtain ⟨-, rfl⟩ := Option.ite_some_none_eq_some.mp hstep
    refine h.deallocate hinv fun hgt hle => ?_
    rw [← href.pool.blocks]
    exact hreach.2 hgt hle
  | warmup totalBytes blocks =>
    obtain ⟨-, rfl⟩ := Option.ite_some_none_eq_some.mp hstep
    exact ⟨h.wide, h.placed⟩
  | write a v =>
    cases hstep
    exact h

/-! ## Every call reuses -/

/-- **A call takes new memory only if no freed block would do.** -/
theorem Refines.reuses {act : Act} (href : Refines s d) (hinv : d.Inv)
    (hplaces : ∀ i, i < numSizeClasses → carved i t ~ d.places i) (hrec : d.Recorded)
    (hreach : InReach s act) : Reuses t s act := by
  cases act with
  | allocate bytes alignment fresh fuel =>
    intro r hcall
    have hm := href.pool.matches_of_allocate hinv.holds hcall
    constructor
    · rintro hcarved ⟨ptr, hptr, hnot⟩
      obtain ⟨hsmall, hbare⟩ := (href.pool.carved_iff hinv.holds hcall).mp hcarved
      have hperm := href.carved_perm hplaces (hm.carved.symm.trans hcarved)
      have hcount := hreach hsmall hbare
      obtain ⟨hi, -⟩ := sizeClassIndex_spec hsmall
      rw [Pool.listCount, if_pos hi, href.pool.count _ hi] at hcount
      rw [List.length_eq_zero_iff.mp hcount, List.append_nil] at hperm
      exact hnot (hperm.mem_iff.mp hptr)
    · rintro hgt hle hnew ⟨x, hx, hsize, hfree⟩
      have hlends := d.lends_allocate bytes alignment fresh
      rw [href.pool.blocks] at hx
      rw [hm.obtained] at hnew
      generalize d.allocate bytes alignment fresh = out at *
      cases hlends with
      | shelved | cut | large => omega
      | listed _ _ => exact hnew rfl
      | new _ hnone =>
        rcases hrec.placed x hx with ⟨b, hb, -, -, hbase⟩ | hnode
        · rw [← href.live] at hb
          exact hfree b hb hbase
        · have hlt := List.find?_eq_none.mp hnone _ hnode
          exact hlt (decide_eq_true hsize)
  | _ => trivial

end Shelves

/-- The block that was cut for a call is in use. -/
theorem liveOf_cut {bytes alignment ptr : Nat} {live : List Block}
    (hsmall : allocSize bytes alignment ≤ smallObjectMax) :
    liveOf (sizeClassIndex (allocSize bytes alignment)) (⟨ptr, bytes, alignment⟩ :: live) =
      ptr :: liveOf (sizeClassIndex (allocSize bytes alignment)) live :=
  liveOf_cons_of (b := ⟨ptr, bytes, alignment⟩) ⟨hsmall, rfl⟩

section Runs

variable {mem : Memory} {blocks : List Nat} {t : List Event} {s s' : State}

/-- The depot along a run whose freed blocks stay within reach. -/
theorem exists_recorded (hlen : blocks.length = initialBlocks)
    (hfresh : Fresh wordSize [] (blocks.map blockRegion))
    (h : Exec machine (fun t s act => Sound t s act ∧ InReach s act) (init mem blocks) t s) :
    ∃ d, Refines s d ∧ d.Inv ∧ (∀ i, i < numSizeClasses → carved i t ~ d.places i) ∧ d.Recorded :=
  refines_invariant
    (J := fun t d => (∀ i, i < numSizeClasses → carved i t ~ d.places i) ∧ d.Recorded)
    hlen hfresh (fun _ _ _ hc => hc.1) ⟨fun _ _ => List.Perm.refl _, nofun, nofun⟩
    (fun _ _ _ _ _ href hinv hj hc hstep _ =>
      ⟨fun i hi => Depot.places_step href hc.2.ringTakes (hj.1 i hi) hstep,
        hj.2.step hinv href hc.2 hstep⟩) h

/-- A call that changes what was cut of class `i` cut one block and lent it. -/
theorem carved_step {act : Act} (i : Nat) (hstep : step s act = some s') :
    carved i (note t (event s act)) = carved i t ∨
      ∃ bytes alignment fresh fuel r, act = .allocate bytes alignment fresh fuel ∧
        s.pool.allocate bytes alignment fresh fuel = some r ∧ r.carved = true ∧
        sizeClassIndex (allocSize bytes alignment) = i ∧
        carved i (note t (event s act)) = r.ptr :: carved i t ∧
        s' = ⟨r.pool, ⟨r.ptr, bytes, alignment⟩ :: s.live⟩ := by
  cases act with
  | allocate bytes alignment fresh fuel =>
    simp only [step, Option.map_eq_some_iff] at hstep
    obtain ⟨r, hcall, rfl⟩ := hstep
    simp only [event, hcall, Option.map_some, note, carved, List.flatMap_cons, Event.cut]
    by_cases hcarved : r.carved = true
    · rw [if_pos hcarved]
      by_cases hi : sizeClassIndex (allocSize bytes alignment) = i
      · refine .inr ⟨bytes, alignment, fresh, fuel, r, rfl, hcall, hcarved, hi, ?_, rfl⟩
        simp [hi]
      · exact .inl (by simp [hi])
    · exact .inl (by simp [hcarved])
  | warmup totalBytes blocks | deallocate b | write a v => exact .inl rfl

/-- A call that changes the medium blocks takes one from the system and lends it. -/
theorem blocks_step {d : Depot} {act : Act} (href : Refines s d) (hinv : d.Inv)
    (hstep : step s act = some s') : s'.pool.allocatedBlocks = s.pool.allocatedBlocks ∨
      ∃ bytes alignment fresh fuel r, act = .allocate bytes alignment fresh fuel ∧
        s.pool.allocate bytes alignment fresh fuel = some r ∧ r.obtained ≠ [] ∧
        smallObjectMax < allocSize bytes alignment ∧
        allocSize bytes alignment ≤ mediumObjectMax ∧
        s'.pool.allocatedBlocks =
          s.pool.allocatedBlocks ++ [⟨r.ptr, allocSize bytes alignment⟩] ∧
        s'.live = ⟨r.ptr, bytes, alignment⟩ :: s.live := by
  obtain ⟨d', hstep', href', -⟩ := href.step hinv.holds hstep
  rw [href.pool.blocks, href'.pool.blocks]
  cases act with
  | allocate bytes alignment fresh fuel =>
    simp only [step, Option.map_eq_some_iff] at hstep
    obtain ⟨r, hcall, rfl⟩ := hstep
    cases hstep'
    have hm := href.pool.matches_of_allocate hinv.holds hcall
    have hlends := d.lends_allocate bytes alignment fresh
    generalize d.allocate bytes alignment fresh = out at *
    cases hlends with
    | new hsize _ =>
      refine .inr ⟨bytes, alignment, fresh, fuel, r, rfl, hcall, ?_, hsize.1, hsize.2, ?_, rfl⟩
      · rw [hm.obtained]
        exact List.cons_ne_nil _ _
      · rw [hm.ptr]
    | _ => exact .inl rfl
  | deallocate b =>
    obtain ⟨-, rfl⟩ := Option.ite_some_none_eq_some.mp hstep'
    exact .inl (d.kept_deallocate b).2.2
  | warmup totalBytes blocks =>
    obtain ⟨-, rfl⟩ := Option.ite_some_none_eq_some.mp hstep'
    exact .inl rfl
  | write a v =>
    cases hstep'
    exact .inl rfl

/-- **A class holds at most 65 blocks more than were in use at one time.** -/
theorem small_held_le_peak {peak : Tier → Nat} {i : Nat} (hlen : blocks.length = initialBlocks)
    (hfresh : Fresh wordSize [] (blocks.map blockRegion))
    (h : Exec (machine.watch (raisePeak liveCount))
      (fun t x act => Sound t x.1 act ∧ RingTakes x.1 act) (init mem blocks, fun _ => 0) t
      (s, peak)) : held t s (.small i) ≤ peak (.small i) + 65 := by
  refine Exec.le_peak (C := fun t s act => Sound t s act ∧ RingTakes s act)
    (fun t s => held t s (.small i)) (.small i) 65 (Nat.zero_le _) ?_ h
  intro t s act s' hrun _ hstep
  rcases carved_step i hstep with hsame | ⟨bytes, alignment, fresh, fuel, r, rfl, hcall, hcarved,
    rfl, hcut, rfl⟩
  · exact .inl (Nat.le_of_eq (congrArg List.length hsame))
  · obtain ⟨d, href, hinv, hplaces⟩ := exists_places hlen hfresh hrun
    have hm := href.pool.matches_of_allocate hinv.holds hcall
    rw [hm.carved] at hcarved
    obtain ⟨hsmall, -⟩ := d.carved_iff.mp hcarved
    have hperm := (href.carved_perm hplaces hcarved).length_eq
    have hcached := hinv.cached (sizeClassIndex (allocSize bytes alignment))
    refine .inr ?_
    rw [held, liveCount, liveOf_cut hsmall]
    refine Nat.le_trans (Nat.le_of_eq (congrArg List.length hcut)) ?_
    rw [List.length_cons, List.length_cons, hperm, List.length_append]
    omega

/-- A block is cut and freed, and the next one is cut past it. -/
theorem cut_past_cache_held_le_peak : ∃ t s peak, Exec (machine.watch (raisePeak liveCount))
      (fun t x act => Sound t x.1 act ∧ RingTakes x.1 act)
      (init (fun _ => 0) fourBlocks, fun _ => 0) t (s, peak) ∧
    s.pool.listCount 0 = 1 ∧ held t s (.small 0) = 2 ∧ peak (.small 0) = 1 ∧
    held t s (.small 0) ≤ peak (.small 0) + 65 := by
  have hexec : Exec (machine.watch (raisePeak liveCount))
      (fun t x act => Sound t x.1 act ∧ RingTakes x.1 act)
      (init (fun _ => 0) fourBlocks, fun _ => 0) _ _ :=
    exec_run [.allocate 8 8 0 0, .deallocate ⟨0x100000, 8, 8⟩, .allocate 8 8 0 0]
  exact ⟨_, _, _, hexec, by decide +kernel, by decide +kernel, by decide +kernel,
    small_held_le_peak (by decide) (by decide +kernel) hexec⟩

/-- A class that only cuts when all its blocks are in use holds no more than are in use, or
    as many as before. -/
theorem small_held_step {d : Depot} {act : Act} (i : Nat) (href : Refines s d) (hinv : d.Inv)
    (hstep : step s act = some s') (hreuse : Reuses t s act)
    (hnodup : i < numSizeClasses → (carved i (note t (event s act))).Nodup) :
    held (note t (event s act)) s' (.small i) ≤ held t s (.small i) ∨
      held (note t (event s act)) s' (.small i) ≤ liveCount (.small i) s' := by
  rcases carved_step (t := t) i hstep with hsame | ⟨bytes, alignment, fresh, fuel, r, rfl, hcall,
    hcarved, rfl, hcut, rfl⟩
  · exact .inl (Nat.le_of_eq (congrArg List.length hsame))
  · have hm := href.pool.matches_of_allocate hinv.holds hcall
    obtain ⟨hsmall, -⟩ := d.carved_iff.mp (hm.carved.symm.trans hcarved)
    have hdistinct := hnodup (sizeClassIndex_spec hsmall).1
    refine .inr (List.subperm_of_subset hdistinct ?_).length_le
    rw [hcut, liveOf_cut hsmall]
    refine List.cons_subset_cons _ fun ptr hptr => ?_
    by_contra hnot
    exact (hreuse r hcall).1 hcarved ⟨ptr, hptr, hnot⟩

/-- The same for the medium blocks of one size. -/
theorem medium_held_step {d : Depot} {act : Act} (size : Nat) (href : Refines s d) (hinv : d.Inv)
    (hstep : step s act = some s') (hreuse : Reuses t s act) :
    held (note t (event s act)) s' (.medium size) ≤ held t s (.medium size) ∨
      held (note t (event s act)) s' (.medium size) ≤ liveCount (.medium size) s' := by
  rcases blocks_step href hinv hstep with hsame | ⟨bytes, alignment, fresh, fuel, r, rfl,
    hcall, hnew, hgt, hle, hblocks, hlive⟩
  · refine .inl ?_
    rw [held, held, hsame]
  · by_cases hsize : allocSize bytes alignment = size
    · refine .inr (Nat.le_of_eq (congrArg List.length (List.filter_congr ?_)))
      intro x hx
      refine decide_eq_decide.mpr ⟨fun hx' => ⟨hx', ?_⟩, fun hx' => hx'.1⟩
      rw [hlive]
      rw [hblocks] at hx
      rcases List.mem_append.mp hx with hx | hx
      · by_contra hnot
        refine (hreuse r hcall).2 hgt hle hnew ⟨x, hx, by omega, fun b hb hbase => ?_⟩
        exact hnot ⟨b, List.mem_cons_of_mem _ hb, hbase⟩
      · rw [List.mem_singleton.mp hx]
        exact ⟨_, List.mem_cons_self, rfl⟩
    · refine .inl (Nat.le_of_eq ?_)
      rw [held, held, hblocks, List.filter_append, List.filter_cons_of_neg (by simpa using hsize),
        List.filter_nil, List.append_nil]

/-- **Freed memory is used again, and what is held is bounded by what was in use.** -/
theorem freed_memory_reused {peak : Tier → Nat} (hlen : blocks.length = initialBlocks)
    (hfresh : Fresh wordSize [] (blocks.map blockRegion))
    (h : Exec (machine.watch (raisePeak liveCount))
      (fun t x act => Sound t x.1 act ∧ InReach x.1 act) (init mem blocks, fun _ => 0) t
      (s, peak)) :
    (∀ act, InReach s act → Reuses t s act) ∧ ∀ tier, held t s tier ≤ peak tier := by
  have hreuses : ∀ {t s act}, Exec machine (fun t s act => Sound t s act ∧ InReach s act)
      (init mem blocks) t s → InReach s act → Reuses t s act := by
    intro t s act hrun hreach
    obtain ⟨d, href, hinv, hplaces, hrec⟩ := exists_recorded hlen hfresh hrun
    exact href.reuses hinv hplaces hrec hreach
  have hrun : Exec machine (fun t s act => Sound t s act ∧ InReach s act) (init mem blocks) t s :=
    Exec.unwatch (C := fun t s act => Sound t s act ∧ InReach s act) h
  refine ⟨fun act hreach => hreuses hrun hreach, fun tier => ?_⟩
  refine Exec.le_peak (C := fun t s act => Sound t s act ∧ InReach s act)
    (fun t s => held t s tier) tier 0 (by cases tier <;> exact Nat.le_refl 0) ?_ h
  intro t s act s' hrun hc hstep
  have hreuse := hreuses hrun hc.2
  obtain ⟨d, href, hinv, -, -⟩ := exists_recorded hlen hfresh hrun
  have hrun' := Exec.step act hrun hc hstep
  cases tier with
  | small i =>
    obtain ⟨d', -, hinv', hplaces', -⟩ := exists_recorded hlen hfresh hrun'
    exact small_held_step i href hinv hstep hreuse fun hi =>
      (hplaces' i hi).nodup_iff.mpr (hinv'.nodup_places hi)
  | medium size => exact medium_held_step size href hinv hstep hreuse

/-- A medium block is freed and used again, and small blocks are cut. -/
theorem medium_block_reused : ∃ t s peak, Exec (machine.watch (raisePeak liveCount))
      (fun t x act => Sound t x.1 act ∧ InReach x.1 act)
      (init (fun _ => 0) fourBlocks, fun _ => 0) t (s, peak) ∧
    s.live = [⟨0x900000, 300, 16⟩, ⟨0x100000, 24, 64⟩] ∧
    (∀ act, InReach s act → Reuses t s act) ∧ ∀ tier, held t s tier ≤ peak tier := by
  have hexec : Exec machine (fun t s act => Sound t s act ∧ InReach s act)
      (init (fun _ => 0) fourBlocks) _ _ :=
    exec_run [.allocate 24 64 0 0, .allocate 300 16 0x900000 1, .deallocate ⟨0x900000, 300, 16⟩,
      .allocate 300 16 0 2]
  obtain ⟨peak, hwatch⟩ := hexec.watch (raisePeak liveCount) fun _ => 0
  exact ⟨_, _, peak, hwatch, by decide +kernel,
    freed_memory_reused (by decide) (by decide +kernel) hwatch⟩

/-- **Freed blocks that `allocate` passes over**: a small one in the cache of `deallocate`, and
    a medium one that came back from a smaller request. -/
theorem freed_memory_ignored : ∃ t s, Exec machine Sound (init (fun _ => 0) fourBlocks) t s ∧
    s.live = [] ∧ ¬ Reuses t s (.allocate 8 8 0 0) ∧
    ¬ Reuses t s (.allocate 4000 16 0xa00000 2) := by
  have hexec : Exec machine Sound (init (fun _ => 0) fourBlocks) _ _ :=
    exec_run [.allocate 8 8 0 0, .deallocate ⟨0x100000, 8, 8⟩, .allocate 4000 16 0x900000 1,
      .deallocate ⟨0x900000, 4000, 16⟩, .allocate 300 16 0 2, .deallocate ⟨0x900000, 300, 16⟩]
  refine ⟨_, _, hexec, by decide +kernel, fun hsmall => ?_, fun hmedium => ?_⟩
  -- what the call gives is left to the kernel to compute
  · exact (hsmall _ (Option.some_get (by decide +kernel)).symm).1 (by decide +kernel)
      ⟨0x100000, by decide +kernel⟩
  · exact (hmedium _ (Option.some_get (by decide +kernel)).symm).2 (by decide) (by decide)
      (by decide +kernel) ⟨⟨0x900000, 4000⟩, by decide +kernel⟩

end Runs

end MemoryPool
