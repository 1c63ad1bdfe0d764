import StorageRuntime.PoolRequestProofs

/-!
# The statistics of the pool

The counters of `MemoryPool::stats` beside the runs of `requests`.  Only
`allocate_from_block` adds to `total_allocated`, and it adds the class size rounded up
to the alignment; a block that is reused, a medium and a large block add nothing.
`deallocate` adds the size that was asked for, rounded up like in `allocate`, to
`total_freed`.  `peak_usage` is read but never written.

**`stats_balance`**: while each `allocate` asks for a whole rounded size class and finds
nothing of its class to use again, it is charged what its `deallocate` will add to
`total_freed`, and the two totals balance.  The peak is right, together with the totals,
only as long as no `allocate` has returned.
-/

namespace MemoryPool

open WordArithmetic Regions ByteMemory ReturnRing Interleaving

/-- The counters in `stats_`. -/
structure Stats where
  allocCount : Nat
  freeCount : Nat
  cacheHitCount : Nat
  cacheMissCount : Nat
  totalAllocated : Nat
  totalFreed : Nat
  peakUsage : Nat
deriving DecidableEq, Repr

def Stats.zero : Stats := ⟨0, 0, 0, 0, 0, 0, 0⟩

/-- `current_in_use` of the snapshot. -/
def Stats.currentInUse (st : Stats) : Nat := wsub st.totalAllocated st.totalFreed

/-- What the call adds to `total_allocated`. -/
def charge (bytes alignment : Nat) (r : Result) : Nat :=
  if r.carved then
    alignUp (classSize (sizeClassIndex (allocSize bytes alignment))) (max alignment 16)
  else 0

/-- The block came from a cache or a free list. -/
def Result.hit (r : Result) : Bool := !r.carved && r.obtained.isEmpty

def Stats.allocated (st : Stats) (bytes alignment : Nat) (r : Result) : Stats := { st with
  allocCount := wadd st.allocCount 1
  cacheHitCount := if r.hit then wadd st.cacheHitCount 1 else st.cacheHitCount
  cacheMissCount := if r.hit then st.cacheMissCount else wadd st.cacheMissCount 1
  totalAllocated := wadd st.totalAllocated (charge bytes alignment r) }

/-- The miss is counted before `operator new` throws. -/
def Stats.threw (st : Stats) : Stats := { st with
  allocCount := wadd st.allocCount 1
  cacheMissCount := wadd st.cacheMissCount 1 }

def Stats.freed (st : Stats) (b : Block) : Stats := { st with
  freeCount := wadd st.freeCount 1
  totalFreed := wadd st.totalFreed b.size }

/-- The counters after the call on the pool `s`. -/
def Stats.after (st : Stats) (s : State) : Call → Stats
  | .returned (.allocate bytes alignment fresh fuel) =>
    match s.pool.allocate bytes alignment fresh fuel with
    | none => st
    | some r => st.allocated bytes alignment r
  | .returned (.deallocate b) => st.freed b
  | .thrown _ _ _ => st.threw
  | _ => st

/-- The pool with its counters. -/
structure Account where
  state : State
  stats : Stats

def Account.step (x : Account) (call : Call) : Option Account :=
  (call.step x.state).map fun s => ⟨s, x.stats.after x.state call⟩

/-- The event of an `allocate` or a `deallocate` is `current_in_use` after the call. -/
def Account.event (x : Account) : Call → Option Nat
  | .returned (.write _ _) => none
  | .returned (.warmup _ _) => none
  | call => some (x.stats.after x.state call).currentInUse

def accounts : Machine Account Call Nat := ⟨Account.step, Account.event⟩

def Account.init (mem : Memory) (blocks : List Nat) : Account :=
  ⟨MemoryPool.init mem blocks, Stats.zero⟩

/-- An `allocate` asks for a small size that is its class rounded up to the alignment, of a
    class that has nothing to hand out, and the total stays a word. -/
def Exact (x : Account) : Call → Prop
  | .returned (.allocate bytes alignment _ _) =>
    allocSize bytes alignment ≤ smallObjectMax ∧
    alignUp (classSize (sizeClassIndex (allocSize bytes alignment))) (max alignment 16) =
      allocSize bytes alignment ∧
    x.state.pool.Bare (sizeClassIndex (allocSize bytes alignment)) ∧
    x.stats.totalAllocated + allocSize bytes alignment < wordSize
  | _ => True

instance (x : Account) (call : Call) : Decidable (Exact x call) :=
  match call with
  | .returned (.allocate ..) => inferInstanceAs (Decidable (_ ∧ _))
  | .returned (.deallocate ..) | .returned (.warmup ..) | .returned (.write ..) | .thrown .. =>
    isTrue trivial

/-- What the user asks for is not empty. -/
def Call.Asks : Call → Prop
  | .returned (.allocate bytes alignment _ _) => 0 < allocSize bytes alignment
  | _ => True

/-- No block is handed out. -/
def Call.HandsOutNothing : Call → Prop
  | .returned (.allocate ..) => False
  | _ => True

instance (call : Call) : Decidable call.HandsOutNothing :=
  match call with
  | .returned (.allocate ..) => isFalse id
  | .returned (.deallocate ..) | .returned (.warmup ..) | .returned (.write ..) | .thrown .. =>
    isTrue trivial

/-! ## What a call does to the live blocks and the totals -/

/-- The size of the live blocks, as `deallocate` will count it. -/
def liveSize (live : List Block) : Nat := (live.map Block.size).sum

theorem liveSize_erase {live : List Block} {b : Block} (hb : b ∈ live) :
    liveSize live = b.size + liveSize (live.erase b) :=
  ((List.perm_cons_erase hb).map Block.size).sum_nat

/-- **What a call can do**: hand out a block, take one back, or neither. -/
inductive CallMove (s : State) (st : Stats) : Call → State → Stats → Prop
  | allocate {bytes alignment fresh fuel : Nat} {r : Result} :
      s.pool.allocate bytes alignment fresh fuel = some r →
      CallMove s st (.returned (.allocate bytes alignment fresh fuel))
        ⟨r.pool, ⟨r.ptr, bytes, alignment⟩ :: s.live⟩ (st.allocated bytes alignment r)
  | deallocate {b : Block} {p : Pool} : b ∈ s.live →
      CallMove s st (.returned (.deallocate b)) ⟨p, s.live.erase b⟩ (st.freed b)
  | throw {bytes alignment fuel : Nat} {p : Pool} :
      CallMove s st (.thrown bytes alignment fuel) ⟨p, s.live⟩ st.threw
  | other {act : Act} {p : Pool} : CallMove s st (.returned act) ⟨p, s.live⟩ st

theorem callMove_of_step {s s' : State} {st : Stats} {call : Call}
    (h : call.step s = some s') : CallMove s st call s' (st.after s call) := by
  cases call with
  | returned act =>
    cases act with
    | allocate bytes alignment fresh fuel =>
      simp only [Call.step, MemoryPool.step, Option.map_eq_some_iff] at h
      obtain ⟨r, hcall, rfl⟩ := h
      simp only [Stats.after, hcall]
      exact .allocate hcall
    | deallocate b =>
      simp only [Call.step, MemoryPool.step, Option.ite_none_right_eq_some,
        Option.map_eq_some_iff] at h
      obtain ⟨hb, p, -, rfl⟩ := h
      exact .deallocate hb
    | warmup totalBytes blocks | write a v =>
      simp only [Call.step, MemoryPool.step, Option.ite_none_right_eq_some, Option.some.injEq] at h
      obtain ⟨-, rfl⟩ := h
      exact .other
  | thrown bytes alignment fuel =>
    obtain ⟨p, -, rfl⟩ := Option.map_eq_some_iff.mp h
    exact .throw

/-! ## The balance -/

/-- The books are balanced. -/
structure Account.Balanced (x : Account) : Prop where
  total : x.stats.totalAllocated = x.stats.totalFreed + liveSize x.state.live
  word : x.stats.totalAllocated < wordSize

/-- **An `allocate` of a whole class that has nothing to hand out cuts a block and is charged its
    size.** -/
theorem charge_of_exact {x : Account} {d : Depot} {bytes alignment fresh fuel : Nat} {r : Result}
    (hup : Upheld x.state d) (hexact : Exact x (.returned (.allocate bytes alignment fresh fuel)))
    (hcall : x.state.pool.allocate bytes alignment fresh fuel = some r) :
    charge bytes alignment r = allocSize bytes alignment := by
  obtain ⟨hsmall, hclass, hbare, -⟩ := hexact
  have hcarved := (hup.refines.pool.carved_iff hup.holds hcall).mpr ⟨hsmall, hbare⟩
  rw [charge, if_pos hcarved, hclass]

/-- **A call keeps the balance.** -/
theorem Account.Balanced.step {x x' : Account} {d : Depot} {call : Call} (h : x.Balanced)
    (hup : Upheld x.state d) (hexact : Exact x call) (hstep : x.step call = some x') :
    x'.Balanced := by
  obtain ⟨htotal, hword⟩ := h
  obtain ⟨s', hcall, rfl⟩ := Option.map_eq_some_iff.mp hstep
  have hmove : CallMove x.state x.stats call s' (x.stats.after x.state call) :=
    callMove_of_step hcall
  generalize x.stats.after x.state call = st' at *
  cases hmove with
  | @allocate bytes alignment fresh fuel r hr =>
    have hnew : wadd x.stats.totalAllocated (charge bytes alignment r) =
        x.stats.totalAllocated + allocSize bytes alignment := by
      rw [charge_of_exact hup hexact hr, wadd_eq hexact.2.2.2]
    have hlt := hexact.2.2.2
    constructor
    · show wadd x.stats.totalAllocated (charge bytes alignment r) =
        x.stats.totalFreed + (allocSize bytes alignment + liveSize x.state.live)
      omega
    · show wadd x.stats.totalAllocated (charge bytes alignment r) < wordSize
      omega
  | @deallocate b p hb =>
    have hlive := liveSize_erase hb
    have hnew : wadd x.stats.totalFreed b.size = x.stats.totalFreed + b.size :=
      wadd_eq (by omega)
    refine ⟨?_, hword⟩
    show x.stats.totalAllocated = wadd x.stats.totalFreed b.size + liveSize (x.state.live.erase b)
    omega
  | throw | other => exact ⟨htotal, hword⟩

theorem balanced_exec {mem : Memory} {blocks : List Nat} {t : List Nat} {x : Account}
    (hlen : blocks.length = initialBlocks) (hfresh : Fresh wordSize [] (blocks.map blockRegion))
    (hrun : Exec accounts (fun _ x call => Fitting [] x.state call ∧ Exact x call)
      (Account.init mem blocks) t x) : x.Balanced ∧ ∃ d, Upheld x.state d := by
  refine hrun.invariant (fun _ x => x.Balanced ∧ ∃ d, Upheld x.state d)
    ⟨⟨rfl, Nat.two_pow_pos 64⟩, upheld_new mem hlen hfresh⟩ ?_
  rintro t x call x' ⟨h, d, hup⟩ ⟨hfitting, hexact⟩ hstep
  refine ⟨h.step hup hexact hstep, ?_⟩
  obtain ⟨s', hcall, rfl⟩ := Option.map_eq_some_iff.mp hstep
  exact hup.step hfitting hcall

/-! ## All three numbers -/

/-- The three numbers are right after the calls with the values `t` of `current_in_use`. -/
structure Account.Right (t : List Nat) (x : Account) : Prop where
  freed : x.stats.totalFreed ≤ x.stats.totalAllocated
  inUse : x.stats.currentInUse = liveSize x.state.live
  peak : x.stats.peakUsage = t.foldr max 0

/-- The largest entry is 0 exactly when all are. -/
theorem foldr_max_eq_zero {l : List Nat} : 0 = l.foldr max 0 ↔ ∀ n ∈ l, n = 0 := by
  induction l with
  | nil => simp
  | cons n l ih =>
    rw [List.foldr_cons, List.forall_mem_cons, ← ih]
    omega

/-- Nothing was handed out yet. -/
structure Account.Unused (t : List Nat) (x : Account) : Prop where
  live : x.state.live = []
  allocated : x.stats.totalAllocated = 0
  freed : x.stats.totalFreed = 0
  peak : x.stats.peakUsage = 0
  inUse : ∀ n ∈ t, n = 0

theorem Account.Unused.right {t : List Nat} {x : Account} (h : x.Unused t) : x.Right t where
  freed := by rw [h.freed]; exact Nat.zero_le _
  inUse := by rw [Stats.currentInUse, h.allocated, h.freed, h.live]; rfl
  peak := h.peak.trans (foldr_max_eq_zero.mpr h.inUse)

section Unused

variable {t : List Nat} {x x' : Account} {call : Call}

/-- While nothing is handed out, nothing changes. -/
theorem Account.Unused.step (h : x.Unused t) (hnothing : call.HandsOutNothing)
    (hstep : x.step call = some x') : x'.Unused (accounts.record x call t) := by
  obtain ⟨s', hcall, rfl⟩ := Option.map_eq_some_iff.mp hstep
  have hmove : CallMove x.state x.stats call s' (x.stats.after x.state call) :=
    callMove_of_step hcall
  have hevent : ∀ e ∈ x.event call, e = (x.stats.after x.state call).currentInUse := by
    intro e he
    cases call with
    | thrown => exact (Option.some.inj he).symm
    | returned act =>
      cases act with
      | allocate | deallocate => exact (Option.some.inj he).symm
      | warmup | write => cases he
  rw [Machine.record_eq_note]
  change Account.Unused (note t (x.event call)) _
  generalize x.event call = o, x.stats.after x.state call = st' at *
  have hstill : st'.totalAllocated = 0 ∧ st'.totalFreed = 0 ∧ st'.peakUsage = 0 ∧ s'.live = [] := by
    cases hmove with
    | allocate _ => cases hnothing
    | deallocate hb => rw [h.live] at hb; cases hb
    | throw | other => exact ⟨h.allocated, h.freed, h.peak, h.live⟩
  obtain ⟨hallocated, hfreed, hpeak, hlive⟩ := hstill
  refine ⟨hlive, hallocated, hfreed, hpeak, ?_⟩
  cases o with
  | none => exact h.inUse
  | some e =>
    refine List.forall_mem_cons.mpr ⟨?_, h.inUse⟩
    rw [hevent e rfl, Stats.currentInUse, hallocated, hfreed]
    rfl

/-- **The first block that is handed out makes one of the numbers wrong**: if it is charged, the
    peak, and otherwise `current_in_use`. -/
theorem Account.Unused.not_right (h : x.Unused t) {bytes alignment fresh fuel : Nat}
    (hasks : 0 < allocSize bytes alignment)
    (hstep : x.step (.returned (.allocate bytes alignment fresh fuel)) = some x') :
    ¬ x'.Right (accounts.record x (.returned (.allocate bytes alignment fresh fuel)) t) := by
  intro hright
  obtain ⟨s', hcall, rfl⟩ := Option.map_eq_some_iff.mp hstep
  obtain ⟨r, hr, rfl⟩ := Option.map_eq_some_iff.mp hcall
  have hpeak : 0 = List.foldr max 0
      ((x.stats.after x.state (.returned (.allocate bytes alignment fresh fuel))).currentInUse ::
        t) := by
    refine Eq.trans ?_ hright.peak
    simp only [Stats.after, hr]
    exact h.peak.symm
  have hzero := foldr_max_eq_zero.mp hpeak _ List.mem_cons_self
  have hlive := hzero.symm.trans hright.inUse
  change 0 = allocSize bytes alignment + liveSize x.state.live at hlive
  omega

end Unused

/-- **The statistics balance** as long as each `allocate` asks for a whole rounded size class
    that has nothing to hand out: nothing more is freed than was allocated, and
    `current_in_use` is the size of the live blocks.

    All three numbers are right after every call exactly if no block is handed out: nobody
    writes `peak_usage`. -/
theorem stats_balance {mem : Memory} {blocks : List Nat} (hlen : blocks.length = initialBlocks)
    (hfresh : Fresh wordSize [] (blocks.map blockRegion)) {t : List Nat} {x : Account} :
    (Exec accounts (fun _ x call => Fitting [] x.state call ∧ Exact x call)
        (Account.init mem blocks) t x →
      x.stats.totalFreed ≤ x.stats.totalAllocated ∧
        x.stats.currentInUse = liveSize x.state.live) ∧
    (Exec accounts (fun t x call => call.Asks ∧ x.Right t) (Account.init mem blocks) t x ∧
        x.Right t ↔
      Exec accounts (fun _ _ call => call.HandsOutNothing) (Account.init mem blocks) t x) := by
  have hnew : (Account.init mem blocks).Unused [] :=
    ⟨rfl, rfl, rfl, rfl, fun _ h => absurd h List.not_mem_nil⟩
  refine ⟨fun hrun => ?_, fun ⟨hrun, hright⟩ => ?_, fun hrun => ?_⟩
  · obtain ⟨⟨htotal, hword⟩, -⟩ := balanced_exec hlen hfresh hrun
    have hle : x.stats.totalFreed ≤ x.stats.totalAllocated := by omega
    refine ⟨hle, ?_⟩
    rw [Stats.currentInUse, wsub_eq hle hword]
    omega
  · refine (hrun.invariant (fun t x => x.Right t → x.Unused t ∧ Exec accounts
      (fun _ _ call => call.HandsOutNothing) (Account.init mem blocks) t x)
      (fun _ => ⟨hnew, .start⟩) ?_ hright).2
    rintro t x call x' ih ⟨hasks, hright⟩ hstep hright'
    obtain ⟨hunused, hrun⟩ := ih hright
    have hnothing : call.HandsOutNothing := by
      cases call with
      | thrown => trivial
      | returned act =>
        cases act with
        | allocate => exact hunused.not_right hasks hstep hright'
        | _ => trivial
    exact ⟨hunused.step hnothing hstep, .step call hrun hnothing hstep⟩
  · have hall := hrun.invariant (fun t x => x.Unused t ∧ Exec accounts
      (fun t x call => call.Asks ∧ x.Right t) (Account.init mem blocks) t x) ⟨hnew, .start⟩ ?_
    · exact ⟨hall.2, hall.1.right⟩
    · rintro t x call x' ⟨hunused, hrun⟩ hnothing hstep
      have hasks : call.Asks := by
        cases call with
        | thrown => trivial
        | returned act =>
          cases act with
          | allocate => cases hnothing
          | _ => trivial
      exact ⟨hunused.step hnothing hstep, .step call hrun ⟨hasks, hunused.right⟩ hstep⟩

/-- Two blocks whose sizes are their classes, and one of them freed; and a call that throws. -/
theorem two_blocks_balance :
    (∃ t x, Exec accounts (fun _ x call => Fitting [] x.state call ∧ Exact x call)
        (Account.init (fun _ => 0) fourBlocks) t x ∧
      x.state.live = [⟨0x100020, 64, 32⟩] ∧ x.stats.currentInUse = 64 ∧
      x.stats.totalFreed ≤ x.stats.totalAllocated ∧
      x.stats.currentInUse = liveSize x.state.live) ∧
    ∃ t x, Exec accounts (fun _ _ call => call.HandsOutNothing)
        (Account.init (fun _ => 0) fourBlocks) t x ∧ t = [0] ∧ x.Right t := by
  have hlen : fourBlocks.length = initialBlocks := by decide
  have hfresh : Fresh wordSize [] (fourBlocks.map blockRegion) := by decide +kernel
  constructor
  · have hexec : Exec accounts (fun _ x call => Fitting [] x.state call ∧ Exact x call)
        (Account.init (fun _ => 0) fourBlocks) _ _ :=
      exec_run [.returned (.allocate 16 8 0 0), .returned (.allocate 64 32 0 0),
        .returned (.deallocate ⟨0x100000, 16, 8⟩)]
    exact ⟨_, _, hexec, by decide +kernel, by decide +kernel, (stats_balance hlen hfresh).1 hexec⟩
  · have hexec : Exec accounts (fun _ _ call => call.HandsOutNothing)
        (Account.init (fun _ => 0) fourBlocks) _ _ :=
      exec_run [.thrown 5000 16 0]
    exact ⟨_, _, hexec, by decide +kernel, ((stats_balance hlen hfresh).2.mpr hexec).2⟩

/-- **Totals that do not balance.**  A block of 8 bytes is charged 16 and gives back 8, a
    block of 1000 bytes is charged nothing and gives back 1000: more is freed than was
    allocated, nothing is live and `current_in_use` is close to 2^64.  `peak_usage` is 0,
    although 16 bytes were in use. -/
theorem stats_unbalanced : ∃ t x,
    Exec accounts (fun _ x => Fitting [] x.state) (Account.init (fun _ => 0) fourBlocks) t x ∧
    x.state.live = [] ∧ x.stats.totalAllocated = 16 ∧ x.stats.totalFreed = 1008 ∧
    x.stats.currentInUse = 2 ^ 64 - 992 ∧ t = [2 ^ 64 - 992, 8, 8, 16] ∧
    x.stats.peakUsage = 0 := by
  have hexec : Exec accounts (fun _ x => Fitting [] x.state)
      (Account.init (fun _ => 0) fourBlocks) _ _ :=
    exec_run [.returned (.allocate 8 8 0 0), .returned (.deallocate ⟨0x100000, 8, 8⟩),
      .returned (.allocate 1000 8 0x900000 1), .returned (.deallocate ⟨0x900000, 1000, 8⟩)]
  exact ⟨_, _, hexec, by decide +kernel⟩

end MemoryPool
