import StorageRuntime.OnceEachProofs
import StorageRuntime.PollingProofs

/-!
# SPDKBackend — submitting commands and harvesting their completions

The model of `io/spdk_backend.cc` as it is built with SPDK.  `submit` gives a command to
the queue pair; what that call returns is part of the label.  The device completes
commands in any order; `poll` lets SPDK process the completions that are there, which
calls `on_io_complete` for each: it calls the request's callback and puts the completion
into a staging array of 1024 entries, from which `poll` copies to `out`.

A request is known by its index in `pending_`.

* **`unsupported_refused`**: the callback of a request that is neither a read nor a write
  is called once, with -EINVAL, and the device is given no command for it.
* **`spdk_reports`**: if SPDK processes at each poll at most as many completions as there
  is room for in the staging array and in `out`, and none when it fails, then what `poll`
  has written to `out`, apart from errors of polling, and what the device still has ready
  are together exactly what the device has completed.
-/

namespace Spdk

open Interleaving Answering Polling
open IoUring (Op IORequest IOCompletion Call)
open scoped List

/-! ## The backend -/

inductive Opcode where
  | read
  | write
deriving DecidableEq, Repr

/-- A command; `arg` is the index of the request. -/
structure Cmd where
  opcode : Opcode
  buf : Nat
  lba : Nat
  lbaCount : Nat
  arg : Nat
deriving DecidableEq, Repr

structure Cpl where
  arg : Nat
  isError : Bool
deriving DecidableEq, Repr

/-- `completed` are the first `completed_count_` entries of the staging array. -/
structure State extends Requests where
  ioUnitSize : Nat
  completed : List IOCompletion
  inFlight : List Cmd
  cq : List Cpl
deriving DecidableEq

/-- The sector size is what the device tells. -/
structure Config where
  queueDepth : Nat
  sectorSize : Nat

def init (cfg : Config) : State where
  ioUnitSize := cfg.sectorSize
  pending := List.replicate (cfg.queueDepth * 2) {}
  submitCount := 0
  completed := []
  inFlight := []
  cq := []

def eio : Int := 5

def einval : Int := 22

/-- `kCompletionBatch`. -/
def completionBatch : Nat := 1024

/-- The number of blocks of a request; the sum has 64 bits and the count 32. -/
def lbaCount (ioUnitSize len : Nat) : Nat :=
  let count := (len + ioUnitSize - 1) % 2 ^ 64 / ioUnitSize % 2 ^ 32
  if count = 0 then 1 else count

/-- The switch of `submit`; `none` is the default branch. -/
def prep (ioUnitSize : Nat) (req : IORequest) (idx : Nat) : Option Cmd :=
  let lba := req.offset / ioUnitSize
  let count := lbaCount ioUnitSize req.len
  match req.op with
  | .kRead => some ⟨.read, req.buf, lba, count, idx⟩
  | .kWrite => some ⟨.write, req.buf, lba, count, idx⟩
  | .kFlush => none
  | .kTrim => none

/-- `submit` up to the switch. -/
def State.enter (s : State) (req : IORequest) : State :=
  let size := max (s.pending.length * 2) (s.submitCount + 1)
  { s with toRequests := s.toRequests.enter size req }

/-- The completion that `on_io_complete` makes of what the device says. -/
def State.result (s : State) (cpl : Cpl) : IOCompletion where
  userData := cpl.arg
  result := if cpl.isError then -eio else ((s.request cpl.arg).len : Int).bmod (2 ^ 64)

/-- `on_io_complete`, with the callback it calls. -/
def State.onIoComplete (s : State) (cpl : Cpl) : List Call × State :=
  if s.submitCount ≤ cpl.arg then ([], s)
  else
    let comp := s.result cpl
    let call := if cpl.arg < s.pending.length then s.callback cpl.arg comp else none
    (call.toList,
      if s.completed.length < completionBatch then { s with completed := s.completed ++ [comp] }
      else s)

/-- SPDK calls `on_io_complete` for one completion after the other. -/
def State.process : List Cpl → State → List Call × State
  | [], s => ([], s)
  | cpl :: cpls, s =>
    let first := s.onIoComplete cpl
    let rest := process cpls first.2
    (first.1 ++ rest.1, rest.2)

/-- `spdk_nvme_qpair_process_completions` at the beginning of `poll`, for the first `n`. -/
def State.reap (s : State) (n : Nat) : List Call × State :=
  { s with completed := [], cq := s.cq.drop n }.process (s.cq.take n)

inductive Act where
  /-- `submit`; `rc` is what the command call returns if it is made. -/
  | submit (req : IORequest) (rc : Int)
  /-- The device completes one of the commands. -/
  | complete (i : Nat) (isError : Bool)
  /-- `poll`; SPDK processes the first `n` completions and returns their number. -/
  | poll (max n : Nat)
  /-- `poll`; SPDK processes the first `n` completions and returns the error `ret`. -/
  | pollFails (max n : Nat) (ret : Int)
deriving DecidableEq, Repr

abbrev Event : Type := Polling.Event Cmd Bool

def step (s : State) : Act → Option State
  | .submit req rc =>
    match prep s.ioUnitSize req s.submitCount with
    | none => some (s.enter req)
    | some cmd =>
      if rc ≠ 0 then some (s.enter req)
      else some { s.enter req with inFlight := s.inFlight ++ [cmd] }
  | .complete i isError =>
    s.inFlight[i]?.map fun cmd =>
      { s with
        inFlight := s.inFlight.eraseIdx i
        cq := s.cq ++ [⟨cmd.arg, isError⟩] }
  | .poll _ n => if n ≤ s.cq.length then some (s.reap n).2 else none
  | .pollFails _ n ret => if n ≤ s.cq.length ∧ ret < 0 then some (s.reap n).2 else none

/-- What `poll` copies to `out` when SPDK has returned `n`. -/
def State.copied (s : State) (max n : Nat) : List IOCompletion :=
  if n = 0 then [] else s.completed.take (min s.completed.length max)

def event (s : State) : Act → Option Event
  | .submit req rc =>
    match prep s.ioUnitSize req s.submitCount with
    | none => ((s.enter req).callback s.submitCount ⟨s.submitCount, -einval⟩).map .called
    | some _ =>
      if rc ≠ 0 then ((s.enter req).callback s.submitCount ⟨s.submitCount, -rc⟩).map .called
      else none
  | .complete i isError => s.inFlight[i]?.map fun cmd => .completed cmd isError
  | .poll max n => some (.polled max (s.reap n).1 ((s.reap n).2.copied max n))
  | .pollFails max n ret => some (.pollFailed max (s.reap n).1 [⟨0, ret⟩])

def machine : Machine State Act Event := ⟨step, event⟩

/-! ## What a step can do -/

/-- The steps. -/
inductive Move (s : State) : Act → Option Event → State → Prop where
  | refuses {req : IORequest} {rc : Int} : ¬ req.op.Supported →
      Move s (.submit req rc)
        (((s.enter req).callback s.submitCount ⟨s.submitCount, -einval⟩).map .called) (s.enter req)
  | fails {req : IORequest} {rc : Int} : req.op.Supported → rc ≠ 0 →
      Move s (.submit req rc)
        (((s.enter req).callback s.submitCount ⟨s.submitCount, -rc⟩).map .called) (s.enter req)
  | issues {req : IORequest} {rc : Int} {cmd : Cmd} :
      prep s.ioUnitSize req s.submitCount = some cmd →
      Move s (.submit req rc) none { s.enter req with inFlight := s.inFlight ++ [cmd] }
  | completes {i : Nat} {isError : Bool} {cmd : Cmd} : s.inFlight[i]? = some cmd →
      Move s (.complete i isError) (some (.completed cmd isError)) { s with
          inFlight := s.inFlight.eraseIdx i
          cq := s.cq ++ [⟨cmd.arg, isError⟩] }
  | polls {max n : Nat} : n ≤ s.cq.length →
      Move s (.poll max n) (some (.polled max (s.reap n).1 ((s.reap n).2.copied max n)))
        (s.reap n).2
  | pollFails {max n : Nat} {ret : Int} : n ≤ s.cq.length →
      Move s (.pollFails max n ret) (some (.pollFailed max (s.reap n).1 [⟨0, ret⟩])) (s.reap n).2

theorem prep_eq_none {unit idx : Nat} {req : IORequest} (h : prep unit req idx = none) :
    ¬ req.op.Supported := by
  rw [prep] at h
  rintro (hop | hop)
  · rw [hop] at h
    cases h
  · rw [hop] at h
    cases h

theorem prep_eq_some {unit idx : Nat} {req : IORequest} {cmd : Cmd}
    (h : prep unit req idx = some cmd) : req.op.Supported ∧ cmd.arg = idx := by
  rw [prep] at h
  generalize hop : req.op = p at h ⊢
  cases p with
  | kRead =>
    cases h
    exact ⟨.inl rfl, rfl⟩
  | kWrite =>
    cases h
    exact ⟨.inr rfl, rfl⟩
  | kFlush | kTrim =>
    cases h

theorem step_moves {s s' : State} {a : Act} (hs : step s a = some s') :
    Move s a (event s a) s' := by
  cases a with
  | submit req rc =>
    rw [step] at hs
    rw [event]
    split at hs
    next hprep =>
      cases hs
      exact .refuses (prep_eq_none hprep)
    next cmd hprep =>
      split at hs
      next hrc =>
        cases hs
        rw [if_pos hrc]
        exact .fails (prep_eq_some hprep).1 hrc
      next hrc =>
        cases hs
        rw [if_neg hrc]
        exact .issues hprep
  | complete i isError =>
    obtain ⟨cmd, hcmd, rfl⟩ := Option.map_eq_some_iff.mp hs
    rw [event, hcmd]
    exact .completes hcmd
  | poll max n =>
    obtain ⟨hn, rfl⟩ := Option.ite_some_none_eq_some.mp hs
    exact .polls hn
  | pollFails max n ret =>
    obtain ⟨⟨hn, -⟩, rfl⟩ := Option.ite_some_none_eq_some.mp hs
    exact .pollFails hn

/-! ## Entering a request and processing completions -/

section Spec

variable {s : State} {req : IORequest} {cpl : Cpl} {idx : Nat}

theorem request_enter :
    (s.enter req).request idx = if idx = s.submitCount then req else s.request idx :=
  s.toRequests.request_enter (by omega)

/-- Indices that have been given out stand for the same requests. -/
theorem request_enter_of_lt (h : idx < s.submitCount) :
    (s.enter req).request idx = s.request idx := by
  rw [request_enter, if_neg (Nat.ne_of_lt h)]

theorem result_enter (h : cpl.arg < s.submitCount) : (s.enter req).result cpl = s.result cpl := by
  rw [State.result, request_enter_of_lt h, State.result]

theorem callback_enter (h : idx < s.submitCount) (comp : IOCompletion) :
    (s.enter req).callback idx comp = s.callback idx comp := by
  rw [Requests.callback, request_enter_of_lt h, Requests.callback]

theorem serial_callback {comp : IOCompletion} {c : Call} (h : s.callback idx comp = some c) :
    c.serial = idx := by
  obtain ⟨fn, -, rfl⟩ := Option.map_eq_some_iff.mp h
  rfl

/-- `on_io_complete` changes nothing but the staging array. -/
theorem onIoComplete_snd (s : State) (cpl : Cpl) :
    ∃ staged, (s.onIoComplete cpl).2 = { s with completed := staged } := by
  rw [State.onIoComplete]
  split
  · exact ⟨s.completed, rfl⟩
  · dsimp only
    split
    · exact ⟨_, rfl⟩
    · exact ⟨s.completed, rfl⟩

theorem process_snd : ∀ (cpls : List Cpl) (s : State),
    ∃ staged, (s.process cpls).2 = { s with completed := staged } := by
  intro cpls
  induction cpls with
  | nil => exact fun s => ⟨s.completed, rfl⟩
  | cons cpl cpls ih =>
    intro s
    obtain ⟨first, hfirst⟩ := onIoComplete_snd s cpl
    obtain ⟨staged, hrest⟩ := ih (s.onIoComplete cpl).2
    refine ⟨staged, hrest.trans ?_⟩
    rw [hfirst]

theorem result_onIoComplete (s : State) (cpl cpl' : Cpl) :
    (s.onIoComplete cpl).2.result cpl' = s.result cpl' := by
  obtain ⟨staged, hframe⟩ := onIoComplete_snd s cpl
  rw [hframe]
  rfl

theorem comp_callback {comp : IOCompletion} {c : Call} (h : s.callback idx comp = some c) :
    c.comp = comp := by
  obtain ⟨fn, -, rfl⟩ := Option.map_eq_some_iff.mp h
  rfl

/-- The callbacks called are those of requests that were completed, with what the device
    says. -/
theorem of_mem_process : ∀ (cpls : List Cpl) (s : State),
    ∀ c ∈ (s.process cpls).1, ∃ cpl ∈ cpls, c.serial = cpl.arg ∧ c.comp = s.result cpl := by
  intro cpls
  induction cpls with
  | nil =>
    intro s c hc
    cases hc
  | cons cpl cpls ih =>
    intro s c hc
    rcases List.mem_append.mp hc with hfirst | hrest
    · refine ⟨cpl, List.mem_cons_self, ?_⟩
      rw [State.onIoComplete] at hfirst
      split at hfirst
      · cases hfirst
      · rw [Option.mem_toList] at hfirst
        split at hfirst
        · exact ⟨serial_callback hfirst, comp_callback hfirst⟩
        · cases hfirst
    · obtain ⟨cpl', hmem, hserial, hcomp⟩ := ih _ c hrest
      rw [result_onIoComplete] at hcomp
      exact ⟨cpl', List.mem_cons_of_mem _ hmem, hserial, hcomp⟩

/-- Completions are staged as long as there is room. -/
theorem completed_process : ∀ (cpls : List Cpl) (s : State),
    (∀ cpl ∈ cpls, cpl.arg < s.submitCount) → s.completed.length + cpls.length ≤ completionBatch →
    (s.process cpls).2.completed = s.completed ++ cpls.map s.result := by
  intro cpls
  induction cpls with
  | nil =>
    intro s _ _
    exact (List.append_nil _).symm
  | cons cpl cpls ih =>
    intro s hlt hroom
    obtain ⟨hfirst, hrest⟩ := List.forall_mem_cons.mp hlt
    rw [List.length_cons] at hroom
    have hstage : (s.onIoComplete cpl).2 =
        { s with completed := s.completed ++ [s.result cpl] } := by
      rw [State.onIoComplete, if_neg (Nat.not_le.mpr hfirst)]
      exact if_pos (by omega)
    have htail := ih { s with completed := s.completed ++ [s.result cpl] } hrest
      (by rw [List.length_append, List.length_singleton]; omega)
    show ((s.onIoComplete cpl).2.process cpls).2.completed = _
    rw [hstage, htail]
    exact List.append_assoc _ _ _

theorem frame_reap (s : State) (n : Nat) :
    ∃ staged, (s.reap n).2 = { s with cq := s.cq.drop n, completed := staged } :=
  process_snd _ _

end Spec

/-! ## What holds of every run -/

/-- What the device has completed, newest first. -/
def cpls (t : List Event) : List Cpl :=
  t.filterMap fun
    | .completed cmd isError => some ⟨cmd.arg, isError⟩
    | _ => none

/-- An index that stands for a read or a write. -/
def State.Serves (s : State) (idx : Nat) : Prop :=
  idx < s.submitCount ∧ (s.request idx).op.Supported

structure Inv (t : List Event) (s : State) : Prop where
  /-- Indices are given out once. -/
  tickets : Tickets s.submitCount (s.inFlight.map Cmd.arg) ((cpls t).map Cpl.arg)
  issued : ∀ cmd ∈ s.inFlight, s.Serves cmd.arg
  ready : ∀ cpl ∈ s.cq, cpl ∈ cpls t
  done : ∀ cpl ∈ cpls t, s.Serves cpl.arg
  known : ∀ c ∈ calls t, c.serial < s.submitCount
  refused : ∀ k < s.submitCount, ¬ (s.request k).op.Supported →
    (calls t).filter (·.serial = k) = (s.callback k ⟨k, -einval⟩).toList

section Steps

variable {t : List Event} {s s' : State} {req : IORequest} {idx n : Nat}

theorem Inv.waits (h : Inv t s) : ∀ cpl ∈ s.cq, s.Serves cpl.arg :=
  fun cpl hcpl => h.done cpl (h.ready cpl hcpl)

theorem cpls_called (o : Option Call) : cpls (note t (o.map .called)) = cpls t := by
  cases o with
  | none | some c => rfl

theorem State.Serves.enter (h : s.Serves idx) : (s.enter req).Serves idx := by
  obtain ⟨hlt, hop⟩ := h
  refine ⟨Nat.lt_succ_of_lt hlt, ?_⟩
  rw [request_enter_of_lt hlt]
  exact hop

/-- A new request, whose callback is called at once (`o`) or not at all. -/
theorem Inv.enter (h : Inv t s) {o : Option Call} (ho : ∀ c, o = some c → c.serial = s.submitCount)
    (hrefused : ¬ req.op.Supported →
      o = (s.enter req).callback s.submitCount ⟨s.submitCount, -einval⟩) :
    Inv (note t (o.map .called)) (s.enter req) := by
  have hcalls : calls (note t (o.map .called)) = o.toList ++ calls t := by
    cases o with
    | none | some c => rfl
  have hcpls := cpls_called (t := t) o
  refine
    { tickets := hcpls ▸ h.tickets.skip
      issued := fun cmd hcmd => (h.issued cmd hcmd).enter
      ready := hcpls ▸ h.ready
      done := fun cpl hcpl => (h.done cpl (hcpls ▸ hcpl)).enter
      known := ?_
      refused := ?_ }
  · intro c hc
    rw [hcalls] at hc
    rcases List.mem_append.mp hc with hc | hc
    · rw [ho c (Option.mem_toList.mp hc)]
      exact Nat.lt_succ_self _
    · exact Nat.lt_succ_of_lt (h.known c hc)
  · intro k hk hop
    rw [hcalls, List.filter_append]
    rw [request_enter] at hop
    rcases Nat.lt_or_eq_of_le (Nat.le_of_lt_succ hk) with hlt | rfl
    · -- an older request: the callback called now is not its own
      rw [if_neg (Nat.ne_of_lt hlt)] at hop
      have hnone : o.toList.filter (·.serial = k) = [] := by
        refine List.filter_eq_nil_iff.mpr fun c hc hserial => ?_
        have heq : c.serial = k := of_decide_eq_true hserial
        rw [ho c (Option.mem_toList.mp hc)] at heq
        exact Nat.ne_of_gt hlt heq
      rw [hnone, List.nil_append, h.refused k hlt hop, callback_enter hlt]
    · -- the new request: none of the callbacks called before is its own
      rw [if_pos rfl] at hop
      have hnone : (calls t).filter (·.serial = s.submitCount) = [] := by
        refine List.filter_eq_nil_iff.mpr fun c hc hserial => ?_
        exact Nat.ne_of_lt (h.known c hc) (of_decide_eq_true hserial)
      have hall : o.toList.filter (·.serial = s.submitCount) = o.toList :=
        List.filter_eq_self.mpr fun c hc => decide_eq_true (ho c (Option.mem_toList.mp hc))
      rw [hnone, List.append_nil, hall, hrefused hop]

/-- SPDK processes completions. -/
theorem Inv.reap (h : Inv t s) {e : Event} (hcpls : cpls (e :: t) = cpls t)
    (hcalls : e.calls = (s.reap n).1) : Inv (e :: t) (s.reap n).2 := by
  have hserves : ∀ c ∈ e.calls, s.Serves c.serial := by
    intro c hc
    rw [hcalls] at hc
    obtain ⟨cpl, hmem, hserial, -⟩ := of_mem_process _ _ c hc
    rw [hserial]
    exact h.waits cpl (List.mem_of_mem_take hmem)
  obtain ⟨staged, hframe⟩ := frame_reap s n
  rw [hframe]
  refine
    { tickets := hcpls ▸ h.tickets
      issued := h.issued
      ready := fun cpl hcpl => hcpls ▸ h.ready cpl (List.mem_of_mem_drop hcpl)
      done := hcpls ▸ h.done
      known := ?_
      refused := ?_ }
  · intro c hc
    rcases List.mem_append.mp hc with hc | hc
    · exact (hserves c hc).1
    · exact h.known c hc
  · intro k hk hop
    show (e.calls ++ calls t).filter _ = _
    rw [List.filter_append, List.filter_eq_nil_iff.mpr, List.nil_append]
    · exact h.refused k hk hop
    · intro c hc hserial
      have heq : c.serial = k := of_decide_eq_true hserial
      exact hop (heq ▸ (hserves c hc).2)

theorem Inv.step (h : Inv t s) {a : Act} (hs : Spdk.step s a = some s') :
    Inv (note t (event s a)) s' := by
  have hmove := step_moves hs
  generalize event s a = o at hmove ⊢
  cases hmove with
  | refuses hop => exact h.enter (fun _ => serial_callback) fun _ => rfl
  | fails hop _ => exact h.enter (fun _ => serial_callback) fun hnot => absurd hop hnot
  | @issues req rc cmd hprep =>
    obtain ⟨hop, harg⟩ := prep_eq_some hprep
    have hentered : Inv t (s.enter req) :=
      h.enter (o := none) (fun _ hc => nomatch hc) fun hnot => absurd hop hnot
    refine { hentered with tickets := h.tickets.give.move ?_, issued := ?_ }
    · rw [List.map_append, List.map_singleton, harg]
      exact List.perm_append_singleton _ _
    · intro cmd' hcmd
      rcases List.mem_append.mp hcmd with hcmd | hcmd
      · exact hentered.issued cmd' hcmd
      · rw [List.mem_singleton.mp hcmd, harg]
        refine ⟨Nat.lt_succ_self _, ?_⟩
        show ((s.enter req).request s.submitCount).op.Supported
        rw [request_enter, if_pos rfl]
        exact hop
  | @completes i isError cmd hget =>
    have hserves : s.Serves cmd.arg := h.issued cmd (List.mem_of_getElem? hget)
    obtain ⟨hlt, rfl⟩ := List.getElem?_eq_some_iff.mp hget
    have hp : s.inFlight[i] :: s.inFlight.eraseIdx i ~ s.inFlight :=
      List.getElem_cons_eraseIdx_perm hlt
    refine
      { tickets := (h.tickets.move (hp.map Cmd.arg)).comeBack
        issued := fun cmd hcmd => h.issued cmd (List.mem_of_mem_eraseIdx hcmd)
        ready := ?_
        done := List.forall_mem_cons.mpr ⟨hserves, h.done⟩
        known := h.known
        refused := h.refused }
    intro cpl hcpl
    rcases List.mem_append.mp hcpl with hcpl | hcpl
    · exact List.mem_cons_of_mem _ (h.ready cpl hcpl)
    · rw [List.mem_singleton.mp hcpl]
      exact List.mem_cons_self
  | polls _ | pollFails _ => exact h.reap rfl rfl

theorem inv_init (cfg : Config) : Inv [] (init cfg) where
  tickets := Tickets.nil 0
  issued := fun _ hcmd => absurd hcmd List.not_mem_nil
  ready := fun _ hcpl => absurd hcpl List.not_mem_nil
  done := fun _ hcpl => absurd hcpl List.not_mem_nil
  known := fun _ hc => absurd hc List.not_mem_nil
  refused := fun _ hk => absurd hk (Nat.not_lt_zero _)

theorem inv_of_exec {cfg : Config} {C : List Event → State → Act → Prop}
    (h : Exec machine C (init cfg) t s) : Inv t s := by
  refine h.invariant Inv (inv_init cfg) ?_
  intro t s a s' hinv _ hs
  exact hinv.step hs

end Steps

/-- **Unsupported operations are refused.**  For every request that is neither a read nor a
    write, exactly one callback has been called, with -EINVAL (none if it has no callback),
    and the device has completed no command for it. -/
theorem unsupported_refused {cfg : Config} {C : List Event → State → Act → Prop}
    {t : List Event} {s : State} (h : Exec machine C (init cfg) t s) {k : Nat}
    (hk : k < s.submitCount) (hop : ¬ (s.request k).op.Supported) :
    (calls t).filter (·.serial = k) = (s.callback k ⟨k, -einval⟩).toList ∧
      ∀ cmd isError, .completed cmd isError ∈ t → cmd.arg ≠ k := by
  have hinv := inv_of_exec h
  refine ⟨hinv.refused k hk hop, ?_⟩
  rintro cmd isError hmem rfl
  exact hop (hinv.done ⟨cmd.arg, isError⟩ (List.mem_filterMap.mpr ⟨_, hmem, rfl⟩)).2

/-! ## What poll reports -/

/-- What the device has completed, as the backend presents it. -/
def completions (t : List Event) (s : State) : List IOCompletion := (cpls t).map s.result

/-- What the device has ready. -/
def State.waiting (s : State) : List IOCompletion := s.cq.map s.result

/-- SPDK processes no more completions than fit into the staging array and into `out`, and
    none when it returns an error. -/
def Fits (_ : List Event) (_ : State) : Act → Prop
  | .poll max n => n ≤ min max completionBatch
  | .pollFails _ n _ => n = 0
  | .submit _ _ => True
  | .complete _ _ => True

instance (t : List Event) (s : State) (a : Act) : Decidable (Fits t s a) :=
  match a with
  | .poll .. => inferInstanceAs (Decidable (_ ≤ _))
  | .pollFails .. => inferInstanceAs (Decidable (_ = _))
  | .submit .. | .complete .. => isTrue trivial

section Reports

variable {t : List Event} {s s' : State} {req : IORequest} {n max : Nat}

/-- What has not been reported waits. -/
def Accounted (t : List Event) (s : State) : Prop :=
  reported t ++ s.waiting ~ completions t s

/-- A new request does not change what older ones were completed with. -/
theorem Accounted.enter (h : Accounted t s) (hinv : Inv t s) : Accounted t (s.enter req) := by
  have hwaiting : (s.enter req).waiting = s.waiting :=
    List.map_congr_left fun cpl hcpl => result_enter (hinv.waits cpl hcpl).1
  have hdone : completions t (s.enter req) = completions t s :=
    List.map_congr_left fun cpl hcpl => result_enter (hinv.done cpl hcpl).1
  rw [Accounted, hwaiting, hdone]
  exact h

theorem Accounted.called (h : Accounted t s) (o : Option Call) :
    Accounted (note t (o.map .called)) s := by
  rw [Accounted, reported_called, completions, cpls_called]
  exact h

/-- What `poll` copies when everything fits. -/
theorem copied_reap (hinv : Inv t s) (hfits : n ≤ min max completionBatch) :
    (s.reap n).2.copied max n = (s.cq.take n).map s.result := by
  have hlen : (s.cq.take n).length ≤ n := List.length_take_le _ _
  have hstaged : (s.reap n).2.completed = (s.cq.take n).map s.result := by
    refine (completed_process _ _ ?_ ?_).trans (List.nil_append _)
    · intro cpl hcpl
      exact (hinv.waits cpl (List.mem_of_mem_take hcpl)).1
    · show 0 + _ ≤ _
      omega
  rw [State.copied, hstaged]
  split
  next hzero =>
    rw [hzero]
    rfl
  next =>
    refine List.take_of_length_le (Nat.le_min.mpr ⟨Nat.le_refl _, ?_⟩)
    rw [List.length_map]
    omega

theorem Accounted.step (h : Accounted t s) (hinv : Inv t s) {a : Act} (hc : Fits t s a)
    (hs : Spdk.step s a = some s') : Accounted (note t (event s a)) s' := by
  have hmove := step_moves hs
  generalize event s a = o at hmove ⊢
  cases hmove with
  | refuses _ | fails _ _ => exact (h.enter hinv).called _
  | issues _ => exact h.enter hinv
  | @completes i isError cmd _ =>
    show reported (_ :: t) ++ (s.cq ++ [Cpl.mk cmd.arg isError]).map s.result ~
      s.result ⟨cmd.arg, isError⟩ :: completions t s
    rw [reported_of_out_nil rfl, List.map_append, ← List.append_assoc]
    exact (List.perm_append_singleton _ _).trans (h.cons _)
  | @polls max n _ =>
    have hcopied := copied_reap hinv hc
    obtain ⟨staged, hframe⟩ := frame_reap s n
    show reported (_ :: t) ++ (s.reap n).2.waiting ~ completions t (s.reap n).2
    rw [reported_cons]
    rw [hcopied, hframe, List.append_assoc]
    show reported t ++ ((s.cq.take n).map s.result ++ (s.cq.drop n).map s.result) ~ _
    rw [← List.map_append, List.take_append_drop]
    exact h
  | @pollFails max n ret _ =>
    obtain rfl : n = 0 := hc
    obtain ⟨staged, hframe⟩ := frame_reap s 0
    show reported (_ :: t) ++ (s.reap 0).2.waiting ~ completions t (s.reap 0).2
    rw [reported_of_out_nil rfl, hframe]
    exact h

end Reports

/-- **Polling reports every completion once**, if all that SPDK processes fits: each that the
    device does not still have ready stands once in what was written to `out`, and nothing
    else does. -/
theorem spdk_reports {cfg : Config} {t : List Event} {s : State}
    (h : Exec machine Fits (init cfg) t s) :
    ReportsOnce IOCompletion.userData (completions t s) s.waiting (reported t) := by
  have haccount : Inv t s ∧ Accounted t s := by
    refine h.invariant (fun t s => Inv t s ∧ Accounted t s) ⟨inv_init cfg, List.Perm.refl _⟩ ?_
    rintro t s a s' ⟨hinv, haccount⟩ hc hs
    exact ⟨hinv.step hs, haccount.step hinv hc hs⟩
  obtain ⟨hinv, haccount⟩ := haccount
  have hnodup : ((completions t s).map IOCompletion.userData).Nodup := by
    rw [completions, List.map_map]
    exact hinv.tickets.nodup_back
  exact reportsOnce_of_perm haccount hnodup

/-- **A call returns at most `max` entries.** -/
theorem poll_bounded {s s' : State} {a : Act} (hs : step s a = some s') : Bounded (event s a) := by
  have hmove := step_moves hs
  generalize event s a = o at hmove ⊢
  cases hmove with
  | refuses _ | fails _ _ => exact bounded_called _
  | issues _ | completes _ => trivial
  | @polls max n _ =>
    show ((s.reap n).2.copied max n).length ≤ max
    rw [State.copied]
    split
    · exact Nat.zero_le _
    · exact Nat.le_trans (List.length_take_le _ _) (Nat.min_le_right _ _)
  | pollFails _ => rfl

end Spdk
