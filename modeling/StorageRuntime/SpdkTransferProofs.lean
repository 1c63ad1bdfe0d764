import StorageRuntime.SpdkProofs

/-!
# SPDKBackend — which bytes a request transfers

`submit` rounds the offset down and the length up to blocks, keeps 32 bits of the count and
makes a count of zero one; `on_io_complete` reports the length that was asked for.

* **`exact_iff_expressible`**: the command is for exactly the bytes of the request, and what
  is reported is their number, if and only if offset and length are multiples of the block
  size, the length is not zero and fits into the result, and the count fits into 32 bits.
* **`transfers_exactly`**: so every command that is issued for such a request is for its
  bytes, and when the device has completed it without an error the callback gets their
  number.
* **`transfers_other_bytes`**: other requests are not refused.
-/

namespace Spdk

open Interleaving Table Answering Polling
open IoUring (Op IORequest IOCompletion Call)

/-! ## One request -/

/-- The command is for byte `b` of the device. -/
def Cmd.Touches (unit : Nat) (cmd : Cmd) (b : Nat) : Prop :=
  cmd.lba * unit ≤ b ∧ b < (cmd.lba + cmd.lbaCount) * unit
deriving Decidable

/-- The bytes of the command are those of the request. -/
def Cmd.Covers (unit : Nat) (cmd : Cmd) (req : IORequest) : Prop :=
  ∀ b, cmd.Touches unit b ↔ req.offset ≤ b ∧ b < req.offset + req.len

/-- The number of bytes that the command transfers. -/
def Cmd.bytes (unit : Nat) (cmd : Cmd) : Nat := cmd.lbaCount * unit

/-- What a success of the request is reported with. -/
def reportedLen (req : IORequest) : Int := (req.len : Int).bmod (2 ^ 64)

/-- A request that blocks of `unit` bytes can express. -/
structure Expressible (unit : Nat) (req : IORequest) : Prop where
  offset : unit ∣ req.offset
  len : unit ∣ req.len
  pos : 0 < req.len
  count : req.len / unit < 2 ^ 32
  result : req.len < 2 ^ 63

section Request

variable {unit idx : Nat} {req : IORequest} {cmd : Cmd}

theorem lbaCount_pos (unit len : Nat) : 0 < lbaCount unit len := by
  rw [lbaCount]
  split
  · decide
  · omega

theorem lbaCount_lt (unit len : Nat) : lbaCount unit len < 2 ^ 32 := by
  rw [lbaCount]
  split
  · decide
  · exact Nat.mod_lt _ (by decide)

/-- The count of a length that is a multiple of the block size. -/
theorem lbaCount_mul (hunit : 0 < unit) {q : Nat} (hq : 0 < q) (hcount : q < 2 ^ 32)
    (hlen : q * unit < 2 ^ 63) : lbaCount unit (q * unit) = q := by
  have hle : unit ≤ q * unit := Nat.le_mul_of_pos_left unit hq
  have hsum : (q * unit + unit - 1) % 2 ^ 64 = (unit - 1) + q * unit := by
    omega
  have hdiv : ((unit - 1) + q * unit) / unit = q := by
    rw [Nat.add_mul_div_right _ _ hunit, Nat.div_eq_of_lt (by omega), Nat.zero_add]
  rw [lbaCount, hsum, hdiv, Nat.mod_eq_of_lt hcount]
  exact if_neg (by omega)

/-- A length that fits is reported as it is. -/
theorem reportedLen_eq (h : req.len < 2 ^ 63) : reportedLen req = req.len := by
  refine Int.bmod_eq_of_le ?_ ?_
  · omega
  · omega

/-- What `submit` makes of a request. -/
theorem prep_range (h : prep unit req idx = some cmd) :
    cmd.lba = req.offset / unit ∧ cmd.lbaCount = lbaCount unit req.len := by
  rw [prep] at h
  cases hop : req.op with
  | kRead | kWrite =>
    rw [hop] at h
    cases h
    exact ⟨rfl, rfl⟩
  | kFlush | kTrim =>
    rw [hop] at h
    cases h

/-- Two ranges, the first of which is not empty. -/
theorem range_eq_iff {a n b m : Nat} (hn : 0 < n) :
    (∀ i, (a ≤ i ∧ i < a + n) ↔ (b ≤ i ∧ i < b + m)) ↔ a = b ∧ n = m := by
  constructor
  · intro h
    have hfirst := (h a).mp (by omega)
    have hlast := (h (a + n - 1)).mp (by omega)
    have hfirst' := (h b).mpr (by omega)
    have hlast' := (h (b + m - 1)).mpr (by omega)
    omega
  · rintro ⟨rfl, rfl⟩ i
    rfl

theorem covers_iff (hunit : 0 < unit) (hpos : 0 < cmd.lbaCount) :
    cmd.Covers unit req ↔ cmd.lba * unit = req.offset ∧ cmd.bytes unit = req.len := by
  rw [Cmd.bytes, ← range_eq_iff (Nat.mul_pos hpos hunit)]
  simp only [Cmd.Covers, Cmd.Touches, Nat.add_mul]

/-- **Which requests are transferred exactly.** -/
theorem exact_iff_expressible (hunit : 1 ≤ unit) (h : prep unit req idx = some cmd) :
    (cmd.Covers unit req ∧ reportedLen req = cmd.bytes unit) ↔ Expressible unit req := by
  obtain ⟨hlba, hcount⟩ := prep_range h
  have hpos : 0 < cmd.lbaCount := hcount ▸ lbaCount_pos unit req.len
  rw [covers_iff hunit hpos]
  constructor
  · rintro ⟨⟨hoffset, hlen⟩, hresult⟩
    have hquot : req.len / unit = cmd.lbaCount := by
      rw [← hlen, Cmd.bytes, Nat.mul_div_cancel _ hunit]
    refine
      { offset := ⟨cmd.lba, by rw [← hoffset, Nat.mul_comm]⟩
        len := ⟨cmd.lbaCount, by rw [← hlen, Cmd.bytes, Nat.mul_comm]⟩
        pos := hlen ▸ Nat.mul_pos hpos hunit
        count := ?_
        result := ?_ }
    · rw [hquot, hcount]
      exact lbaCount_lt unit req.len
    · -- a result of 64 bits is below `2 ^ 63`
      have hlt : reportedLen req < (((2 ^ 64 : Nat) : Int) + 1) / 2 := Int.bmod_lt (by decide)
      omega
  · intro hexp
    obtain ⟨q, hq⟩ := hexp.len
    rw [Nat.mul_comm] at hq
    have hquot : req.len / unit = q := by rw [hq, Nat.mul_div_cancel _ hunit]
    have hqpos : 0 < q := Nat.pos_of_mul_pos_right (hq ▸ hexp.pos)
    have hbytes : cmd.bytes unit = req.len := by
      rw [Cmd.bytes, hcount, hq, lbaCount_mul hunit hqpos (hquot ▸ hexp.count) (hq ▸ hexp.result)]
    refine ⟨⟨?_, hbytes⟩, ?_⟩
    · rw [hlba]
      exact Nat.div_mul_cancel hexp.offset
    · rw [hbytes]
      exact reportedLen_eq hexp.result

end Request

/-! ## Runs -/

/-- Commands are those that `submit` makes of the requests, and callbacks get what the device
    says about a command, unless there has been none. -/
structure Traced (unit : Nat) (t : List Event) (s : State) : Prop where
  size : s.ioUnitSize = unit
  flying : ∀ cmd ∈ s.inFlight, prep unit (s.request cmd.arg) cmd.arg = some cmd
  done : ∀ cmd isError, .completed cmd isError ∈ t →
    prep unit (s.request cmd.arg) cmd.arg = some cmd
  calls : ∀ c ∈ calls t,
    (∃ isError, ⟨c.serial, isError⟩ ∈ cpls t ∧ c.comp = s.result ⟨c.serial, isError⟩) ∨
      (c.serial ∉ s.inFlight.map Cmd.arg ∧ c.serial ∉ (cpls t).map Cpl.arg)

section Steps

variable {unit : Nat} {t : List Event} {s s' : State} {req : IORequest} {n : Nat}

/-- The index of a new request has not been used for a command. -/
theorem Inv.fresh (h : Inv t s) :
    s.submitCount ∉ s.inFlight.map Cmd.arg ∧ s.submitCount ∉ (cpls t).map Cpl.arg := by
  have hlt := h.tickets.lt
  constructor
  · exact fun hmem => Nat.lt_irrefl _ (hlt _ (List.mem_append_left _ hmem))
  · exact fun hmem => Nat.lt_irrefl _ (hlt _ (List.mem_append_right _ hmem))

/-- A new request, whose callback is called at once (`o`) or not at all. -/
theorem Traced.enter (h : Traced unit t s) (hinv : Inv t s) {o : Option Call}
    (ho : ∀ c, o = some c → c.serial = s.submitCount) :
    Traced unit (note t (o.map .called)) (s.enter req) := by
  refine ⟨h.size, ?_, ?_, ?_⟩
  · intro cmd hcmd
    rw [request_enter_of_lt (hinv.issued cmd hcmd).1]
    exact h.flying cmd hcmd
  · intro cmd isError hmem
    have hold : .completed cmd isError ∈ t := by
      cases o with
      | none => exact hmem
      | some c =>
        rcases List.mem_cons.mp hmem with heq | hmem
        · cases heq
        · exact hmem
    have hcpl : (⟨cmd.arg, isError⟩ : Cpl) ∈ cpls t := List.mem_filterMap.mpr ⟨_, hold, rfl⟩
    rw [request_enter_of_lt (hinv.done _ hcpl).1]
    exact h.done cmd isError hold
  · intro c hc
    have hsplit : c ∈ o.toList ∨ c ∈ Polling.calls t := by
      cases o with
      | none => exact .inr hc
      | some c' => exact List.mem_append.mp hc
    rw [cpls_called]
    rcases hsplit with hnew | hold
    · right
      rw [ho c (Option.mem_toList.mp hnew)]
      exact hinv.fresh
    · refine (h.calls c hold).imp_left ?_
      rintro ⟨isError, hcpl, hcomp⟩
      refine ⟨isError, hcpl, hcomp.trans ?_⟩
      exact (result_enter (hinv.known c hold)).symm

/-- SPDK processes completions. -/
theorem Traced.reap (h : Traced unit t s) (hinv : Inv t s) {e : Event}
    (hcpls : cpls (e :: t) = cpls t) (hdone : ∀ cmd isError, e ≠ .completed cmd isError)
    (hcalls : e.calls = (s.reap n).1) : Traced unit (e :: t) (s.reap n).2 := by
  obtain ⟨staged, hframe⟩ := frame_reap s n
  rw [hframe]
  refine ⟨h.size, h.flying, ?_, ?_⟩
  · intro cmd isError hmem
    rcases List.mem_cons.mp hmem with heq | hmem
    · exact absurd heq.symm (hdone cmd isError)
    · exact h.done cmd isError hmem
  · intro c hc
    rw [hcpls]
    rcases List.mem_append.mp hc with hnew | hold
    · rw [hcalls] at hnew
      obtain ⟨⟨arg, isError⟩, hmem, hserial, hcomp⟩ := of_mem_process _ _ c hnew
      left
      rw [hserial]
      exact ⟨isError, hinv.ready _ (List.mem_of_mem_take hmem), hcomp⟩
    · exact h.calls c hold

theorem Traced.step (h : Traced unit t s) (hinv : Inv t s) {a : Act}
    (hs : Spdk.step s a = some s') : Traced unit (note t (event s a)) s' := by
  have hmove := step_moves hs
  generalize event s a = o at hmove ⊢
  cases hmove with
  | refuses _ | fails _ _ => exact h.enter hinv fun _ => serial_callback
  | @issues req rc cmd hprep =>
    obtain ⟨-, harg⟩ := prep_eq_some hprep
    have hentered : Traced unit t (s.enter req) := h.enter (o := none) hinv fun _ hc => nomatch hc
    refine { hentered with flying := ?_, calls := ?_ }
    · intro cmd' hcmd'
      rcases List.mem_append.mp hcmd' with hold | hnew
      · exact hentered.flying cmd' hold
      · obtain rfl := List.mem_singleton.mp hnew
        show prep unit ((s.enter req).request cmd'.arg) cmd'.arg = some cmd'
        rw [harg, request_enter, if_pos rfl, ← h.size]
        exact hprep
    · intro c hc
      refine (hentered.calls c hc).imp_right ?_
      rintro ⟨hflying, hdone⟩
      refine ⟨?_, hdone⟩
      rw [List.map_append, List.map_singleton, harg, List.mem_append, List.mem_singleton]
      rintro (hmem | heq)
      · exact hflying hmem
      · exact Nat.ne_of_lt (hinv.known c hc) heq
  | @completes i isError cmd hget =>
    have hcmd := List.mem_of_getElem? hget
    refine ⟨h.size, fun cmd hcmd => h.flying cmd (List.mem_of_mem_eraseIdx hcmd), ?_, ?_⟩
    · intro cmd' isError' hmem
      rcases List.mem_cons.mp hmem with heq | hmem
      · obtain ⟨rfl, -⟩ := Polling.Event.completed.inj heq
        exact h.flying cmd' hcmd
      · exact h.done cmd' isError' hmem
    · intro c hc
      rcases h.calls c hc with ⟨isError', hcpl, hcomp⟩ | ⟨hflying, hdone⟩
      · exact .inl ⟨isError', List.mem_cons_of_mem _ hcpl, hcomp⟩
      · refine .inr ⟨?_, ?_⟩
        · intro hmem
          obtain ⟨cmd', hcmd', heq⟩ := List.mem_map.mp hmem
          exact hflying (List.mem_map.mpr ⟨cmd', List.mem_of_mem_eraseIdx hcmd', heq⟩)
        · show c.serial ∉ cmd.arg :: (cpls t).map Cpl.arg
          rw [List.mem_cons]
          rintro (heq | hmem)
          · exact hflying (List.mem_map.mpr ⟨cmd, hcmd, heq.symm⟩)
          · exact hdone hmem
  | polls _ | pollFails _ => exact h.reap hinv rfl nofun rfl

theorem traced_of_exec {cfg : Config} {C : List Event → State → Act → Prop}
    (h : Exec machine C (init cfg) t s) : Traced cfg.sectorSize t s := by
  have hinit : Traced cfg.sectorSize [] (init cfg) :=
    ⟨rfl, fun _ hcmd => absurd hcmd List.not_mem_nil, fun _ _ hmem => absurd hmem List.not_mem_nil,
      fun _ hc => absurd hc List.not_mem_nil⟩
  have hboth : Inv t s ∧ Traced cfg.sectorSize t s := by
    refine h.invariant (fun t s => Inv t s ∧ Traced cfg.sectorSize t s) ⟨inv_init cfg, hinit⟩ ?_
    rintro t s a s' ⟨hinv, htraced⟩ - hs
    exact ⟨hinv.step hs, htraced.step hinv hs⟩
  exact hboth.2

theorem result_success (s : State) (idx : Nat) :
    (s.result ⟨idx, false⟩).result = reportedLen (s.request idx) := by
  unfold State.result reportedLen
  dsimp only
  exact if_neg Bool.false_ne_true

/-- The device completes a command once. -/
theorem Inv.cpls_unique (h : Inv t s) {cpl cpl' : Cpl} (hcpl : cpl ∈ cpls t)
    (hcpl' : cpl' ∈ cpls t) (harg : cpl.arg = cpl'.arg) : cpl = cpl' :=
  List.inj_on_of_nodup_map h.tickets.nodup_back hcpl hcpl' harg

end Steps

/-- **SPDK transfers exactly the bytes of an expressible request.**  Every command for it,
    whether the device still has it or has completed it, is for its bytes; and if the device
    has completed it without an error, what the callback gets is their number. -/
theorem transfers_exactly {cfg : Config} (hsize : 1 ≤ cfg.sectorSize) {t : List Event} {s : State}
    (h : Exec machine Always (init cfg) t s) {k : Nat}
    (hk : Expressible cfg.sectorSize (s.request k)) :
    ∀ cmd, (cmd ∈ s.inFlight ∨ ∃ isError, .completed cmd isError ∈ t) → cmd.arg = k →
      cmd.Covers cfg.sectorSize (s.request k) ∧
        (.completed cmd false ∈ t → ∀ c ∈ calls t, c.serial = k →
          c.comp.result = cmd.bytes cfg.sectorSize) := by
  rintro cmd hcmd rfl
  have htraced := traced_of_exec h
  have hprep : prep cfg.sectorSize (s.request cmd.arg) cmd.arg = some cmd := by
    rcases hcmd with hflying | ⟨isError, hdone⟩
    · exact htraced.flying cmd hflying
    · exact htraced.done cmd isError hdone
  obtain ⟨hcovers, hreported⟩ := (exact_iff_expressible hsize hprep).mpr hk
  refine ⟨hcovers, ?_⟩
  rintro hdone c hc hserial
  have hcpl : (⟨cmd.arg, false⟩ : Cpl) ∈ cpls t := List.mem_filterMap.mpr ⟨_, hdone, rfl⟩
  rcases htraced.calls c hc with ⟨isError, hcpl', hcomp⟩ | ⟨-, hnone⟩
  · obtain ⟨-, rfl⟩ := Cpl.mk.inj ((inv_of_exec h).cpls_unique hcpl' hcpl hserial)
    rw [hcomp, hserial, result_success]
    exact hreported
  · rw [hserial] at hnone
    exact absurd (List.mem_map.mpr ⟨_, hcpl, rfl⟩) hnone

def readRequest (offset len : Nat) : IORequest :=
  { offset := offset, buf := 4096, len := len, callbackFn := some 1 }

/-- Submit a read, let the device complete it and poll. -/
def readOnce (offset len : Nat) : List Act :=
  [.submit (readRequest offset len) 0, .complete 0 false, .poll 8 1]

/-- Two blocks of 512 bytes are read, from the third on. -/
theorem transfers_exactly_blocks : ∃ (t : List Event) (s : State) (cmd : Cmd),
    Exec machine Always (init ⟨4, 512⟩) t s ∧ Expressible 512 (s.request 0) ∧
    cmd.arg = 0 ∧ cmd.Covers 512 (s.request 0) ∧
    ∀ c ∈ calls t, c.serial = 0 → c.comp.result = cmd.bytes 512 := by
  have hexec : Exec machine Always (init ⟨4, 512⟩) _ _ :=
    exec_run (readOnce 1024 1024)
  have hexp : Expressible 512 (((init ⟨4, 512⟩).enter (readRequest 1024 1024)).request 0) :=
    ⟨by decide, by decide, by decide, by decide, by decide⟩
  obtain ⟨hcovers, hresult⟩ := transfers_exactly (by decide) hexec hexp ⟨.read, 4096, 2, 2, 0⟩
    (.inr ⟨false, by decide +kernel⟩) rfl
  exact ⟨_, _, ⟨.read, 4096, 2, 2, 0⟩, hexec, hexp, rfl, hcovers, hresult (by decide +kernel)⟩

/-- The command that reads the first block. -/
def firstBlock : Cmd := ⟨.read, 4096, 0, 1, 0⟩

/-- A read of which the device has read the first block instead; the callback gets `len`. -/
def ReadsFirstBlock (offset len : Nat) : Prop :=
  ∃ t s, Exec machine Always (init ⟨4, 512⟩) t s ∧
    t = [.polled 8 [⟨0, 1, 0, ⟨0, len⟩⟩] [⟨0, len⟩], .completed firstBlock false] ∧
    s.request 0 = readRequest offset len ∧ ¬ firstBlock.Covers 512 (readRequest offset len)

/-- **Other requests transfer other bytes.**  512 bytes are asked for from byte 100 on, or 100
    bytes from byte 0 on; both times the device reads bytes 0 to 511, and the callback gets the
    length that was asked for. -/
theorem transfers_other_bytes : ReadsFirstBlock 100 512 ∧ ReadsFirstBlock 0 100 := by
  have hshifted : ¬ firstBlock.Covers 512 (readRequest 100 512) := by
    intro hcovers
    have hbyte := (hcovers 0).mp (by decide)
    exact absurd hbyte.1 (by decide)
  have hshort : ¬ firstBlock.Covers 512 (readRequest 0 100) := by
    intro hcovers
    have hbyte := (hcovers 511).mp (by decide)
    exact absurd hbyte.2 (by decide)
  constructor
  · exact ⟨_, _, exec_run (readOnce 100 512), by decide +kernel,
      by decide +kernel, hshifted⟩
  · exact ⟨_, _, exec_run (readOnce 0 100), by decide +kernel,
      by decide +kernel, hshort⟩

end Spdk
