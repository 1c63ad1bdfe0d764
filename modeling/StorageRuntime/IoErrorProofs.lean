import StorageRuntime.IoCompletionProofs
import StorageRuntime.LibaioProofs
import StorageRuntime.SpdkProofs

/-!
# IO errors are negative

A request fails if the device does not complete it without an error: no entry of the ring
is found for it, the call that submits it fails, or the device reports an error.  What its
callback is then called with should have a negative result.

`co_read` and `co_write` of `io/io_backend.cc` hand a request to a backend with a callback
that stores the completion in the coroutine frame and posts a baton; the coroutine waits
for the baton and returns what is stored.  If `submit` throws it returns -EIO.  They are
modelled here over any backend.  A coroutine is known by the address of its frame; what a
call of `submit` that throws has done to the backend by then is left out.

* **`errors_negative`**: for the three backends, on every way a request can fail except
  one, the callback and the coroutine that waits for it get a negative result.
* **`spdk_error_positive`**: that one is the failure of SPDK's command call, which returns
  a negative code; `submit` passes it on with its sign turned.
-/

namespace IoError

open Interleaving
open IoUring (Op IORequest IOCompletion Call)

/-- Some event of the run has completed request `k` without an error. -/
def Succeeded {ε : Type} (succeeded : ε → Option Nat) (t : List ε) (k : Nat) : Prop :=
  ∃ e ∈ t, succeeded e = some k
deriving Decidable

section Succeeded

variable {ε : Type} {succeeded : ε → Option Nat} {t : List ε} {k : Nat}

theorem Succeeded.note (h : Succeeded succeeded t k) (o : Option ε) :
    Succeeded succeeded (note t o) k := by
  obtain ⟨e, he, hk⟩ := h
  exact ⟨e, mem_note he, hk⟩

/-- A callback of a request in `J` that was called with a result that is not negative was
    called for a success. -/
def Sourced (calls : ε → List Call) (succeeded : ε → Option Nat) (J : Nat → Prop) (t : List ε) :
    Prop :=
  ∀ c ∈ t.flatMap calls, J c.serial → c.comp.result < 0 ∨ Succeeded succeeded t c.serial

/-- It is enough to look at the callbacks that are called now. -/
theorem Sourced.note {calls : ε → List Call} {J : Nat → Prop} (h : Sourced calls succeeded J t)
    {o : Option ε} (hnew : ∀ e, o = some e → ∀ c ∈ calls e, J c.serial →
      c.comp.result < 0 ∨ Succeeded succeeded t c.serial) :
    Sourced calls succeeded J (note t o) := by
  cases o with
  | none => exact h
  | some e =>
    intro c hc hJ
    have hold : c.comp.result < 0 ∨ Succeeded succeeded t c.serial := by
      rcases List.mem_append.mp hc with hc | hc
      · exact hnew e rfl c hc hJ
      · exact h c hc hJ
    exact hold.imp_right fun hs => hs.note (some e)

end Succeeded

end IoError

/-! ## io_uring -/

namespace IoUring

open Interleaving IoError

def Event.calls : Event → List Call
  | .called c => [c]
  | _ => []

/-- The request whose entry the kernel completes without an error. -/
def Event.succeeded : Event → Option Nat
  | .completed sqe res => if 0 ≤ res then some sqe.owner else none
  | _ => none

/-- -ENOBUFS is negative, and otherwise the callback gets what the kernel has returned. -/
theorem sourced {cfg : Config} {C : List Event → State → Act → Prop} {t : List Event} {s : State}
    (h : Exec machine C (init cfg) t s) (J : Nat → Prop) :
    Sourced Event.calls Event.succeeded J t := by
  intro c hc _
  obtain ⟨e, he, hc⟩ := List.mem_flatMap.mp hc
  cases e with
  | completed _ _ | polled _ => cases hc
  | called c' =>
    obtain rfl := List.mem_singleton.mp hc
    obtain ⟨r, -, -, -, hresult⟩ := (inv_of_exec h).account.calls c he
    rcases hresult with hfull | ⟨sqe, hmem, howner, -⟩
    · left
      rw [hfull]
      decide
    · rcases Int.lt_or_le c.comp.result 0 with hneg | hpos
      · exact .inl hneg
      · refine .inr ⟨_, hmem, ?_⟩
        rw [Event.succeeded, if_pos hpos, howner]

end IoUring

/-! ## libaio -/

namespace Libaio

open Interleaving IoError
open IoUring (Op IORequest IOCompletion Call)

/-- The request that the kernel completes without an error. -/
def Event.succeeded : Event → Option Nat
  | .completed cb res => if 0 ≤ res then some cb.data else none
  | _ => none

section Steps

variable {J : Nat → Prop} {t : List Event} {s s' : State}

/-- What is not negative comes from a success. -/
theorem Inv.sourced (h : Inv t s) {comp : IOCompletion} (hcomp : comp ∈ s.events) :
    comp.result < 0 ∨ Succeeded Event.succeeded t comp.userData := by
  rcases Int.lt_or_le comp.result 0 with hneg | hpos
  · exact .inl hneg
  · obtain ⟨e, he, heq⟩ :=
      List.mem_filterMap.mp (h.account.subset (List.mem_append_right _ hcomp))
    cases e with
    | completed cb res =>
      obtain rfl := Option.some.inj heq
      exact .inr ⟨_, he, if_pos hpos⟩
    | _ => cases heq

theorem sourced_step (h : Sourced Polling.Event.calls Event.succeeded J t) (hinv : Inv t s)
    {a : Act} (hs : Libaio.step s a = some s') :
    Sourced Polling.Event.calls Event.succeeded J (note t (event s a)) := by
  have hmove := step_moves hs
  generalize event s a = o at hmove ⊢
  cases hmove with
  | ignores _ | submits _ _ => exact h
  | fails _ hret =>
    refine h.note fun e he c hc _ => .inl ?_
    obtain ⟨c', hcall, rfl⟩ := Option.map_eq_some_iff.mp he
    obtain rfl := List.mem_singleton.mp hc
    obtain ⟨fn, -, rfl⟩ := Option.map_eq_some_iff.mp hcall
    exact hret
  | completes _ | pollFails _ =>
    refine h.note fun e he c hc => ?_
    cases he
    cases hc
  | polls _ _ =>
    refine h.note fun e he c hc _ => ?_
    cases he
    obtain ⟨comp, hcomp, hcall⟩ := List.mem_filterMap.mp hc
    obtain ⟨-, hcall⟩ := Option.ite_none_right_eq_some.mp hcall
    obtain ⟨fn, -, rfl⟩ := Option.map_eq_some_iff.mp hcall
    exact hinv.sourced (List.mem_of_mem_take hcomp)

/-- A failed call of `io_submit` and an error of the device are passed on as they are. -/
theorem sourced {queueDepth : Nat} {C : List Event → State → Act → Prop}
    (h : Exec machine C (init queueDepth) t s) (J : Nat → Prop) :
    Sourced Polling.Event.calls Event.succeeded J t := by
  refine (h.invariant (fun t s => Inv t s ∧ Sourced Polling.Event.calls Event.succeeded J t)
    ⟨inv_init queueDepth, fun _ hc => absurd hc List.not_mem_nil⟩ ?_).2
  rintro t s a s' ⟨hinv, hcalls⟩ - hs
  exact ⟨hinv.step hs, sourced_step hcalls hinv hs⟩

end Steps

end Libaio

/-! ## SPDK -/

namespace Spdk

open Interleaving IoError
open IoUring (Op IORequest IOCompletion Call)

/-- The request that the device completes without an error. -/
def Event.succeeded : Event → Option Nat
  | .completed cmd isError => if isError then none else some cmd.arg
  | _ => none

/-- The request whose command call fails. -/
def rejected (s : State) : Act → Option Nat
  | .submit req rc => if req.op.Supported ∧ rc < 0 then some s.submitCount else none
  | _ => none

section Steps

variable {J : Nat → Prop} {t : List Event} {s s' : State} {n : Nat}

/-- The callbacks called for completions of the device. -/
theorem Inv.sourced (h : Inv t s) : ∀ c ∈ (s.reap n).1,
    c.comp.result < 0 ∨ Succeeded Event.succeeded t c.serial := by
  intro c hc
  obtain ⟨cpl, hmem, hserial, hcomp⟩ := of_mem_process _ _ c hc
  rw [hserial, hcomp]
  obtain ⟨e, he, heq⟩ := List.mem_filterMap.mp (h.ready cpl (List.mem_of_mem_take hmem))
  cases e with
  | completed cmd isError =>
    obtain rfl := Option.some.inj heq
    cases isError with
    | true => exact .inl (show -eio < 0 by decide)
    | false => exact .inr ⟨_, he, rfl⟩
  | _ => cases heq

theorem sourced_step (h : Sourced Polling.Event.calls Event.succeeded J t) (hinv : Inv t s)
    {a : Act} (hc : ∀ k ∈ rejected s a, ¬ J k) (hs : Spdk.step s a = some s') :
    Sourced Polling.Event.calls Event.succeeded J (note t (event s a)) := by
  have hmove := step_moves hs
  generalize event s a = o at hmove ⊢
  cases hmove with
  | refuses _ =>
    refine h.note fun e he c hc _ => .inl ?_
    obtain ⟨c', hcall, rfl⟩ := Option.map_eq_some_iff.mp he
    obtain rfl := List.mem_singleton.mp hc
    rw [comp_callback hcall]
    show -einval < 0
    decide
  | @fails req rc hop hrc =>
    refine h.note fun e he c hcall hJ => .inl ?_
    obtain ⟨c', hcallback, rfl⟩ := Option.map_eq_some_iff.mp he
    obtain rfl := List.mem_singleton.mp hcall
    rw [serial_callback hcallback] at hJ
    rw [comp_callback hcallback]
    -- the command call has not returned a negative code
    have hpos : ¬ rc < 0 := fun hneg => hc s.submitCount (if_pos ⟨hop, hneg⟩) hJ
    show -rc < 0
    omega
  | issues _ => exact h
  | completes _ =>
    refine h.note fun e he c hc => ?_
    cases he
    cases hc
  | polls _ | pollFails _ =>
    refine h.note fun e he c hc _ => ?_
    cases he
    exact hinv.sourced c hc

/-- Errors of the device and unsupported operations get a negative code, and so does a failed
    command call unless it returned one. -/
theorem sourced {cfg : Config}
    (h : Exec machine (fun _ s a => ∀ k ∈ rejected s a, ¬ J k) (init cfg) t s) :
    Sourced Polling.Event.calls Event.succeeded J t := by
  refine (h.invariant (fun t s => Inv t s ∧ Sourced Polling.Event.calls Event.succeeded J t)
    ⟨inv_init cfg, fun _ hc => absurd hc List.not_mem_nil⟩ ?_).2
  rintro t s a s' ⟨hinv, hcalls⟩ hc hs
  exact ⟨hinv.step hs, sourced_step hcalls hinv hc hs⟩

end Steps

end Spdk

/-! ## co_read and co_write -/

namespace IoError

open Interleaving
open IoUring (Op IORequest IOCompletion Call)

/-- A backend, as far as it matters here. -/
structure Backend where
  State : Type
  Act : Type
  Event : Type
  machine : Machine State Act Event
  init : State
  /-- The request that a call of `submit` is made with. -/
  submits : Act → Option IORequest
  /-- No call is running. -/
  idle : State → Bool
  /-- The callbacks that an event has called. -/
  calls : Event → List Call
  /-- The request that the device completes without an error. -/
  succeeded : Event → Option Nat
  /-- The request whose callback gets the code of a failed call with its sign turned. -/
  turned : State → Act → Option Nat

def ioUring (cfg : IoUring.Config) : Backend where
  State := IoUring.State
  Act := IoUring.Act
  Event := IoUring.Event
  machine := IoUring.machine
  init := IoUring.init cfg
  submits := fun
    | .submit req => some req
    | _ => none
  idle := fun s => decide (s.pc = .idle)
  calls := IoUring.Event.calls
  succeeded := IoUring.Event.succeeded
  turned := fun _ _ => none

def libaio (queueDepth : Nat) : Backend where
  State := Libaio.State
  Act := Libaio.Act
  Event := Libaio.Event
  machine := Libaio.machine
  init := Libaio.init queueDepth
  submits := fun
    | .submit req _ => some req
    | _ => none
  idle := fun _ => true
  calls := Polling.Event.calls
  succeeded := Libaio.Event.succeeded
  turned := fun _ _ => none

def spdk (cfg : Spdk.Config) : Backend where
  State := Spdk.State
  Act := Spdk.Act
  Event := Spdk.Event
  machine := Spdk.machine
  init := Spdk.init cfg
  submits := fun
    | .submit req _ => some req
    | _ => none
  idle := fun _ => true
  calls := Polling.Event.calls
  succeeded := Spdk.Event.succeeded
  turned := Spdk.rejected

/-- The backends of `io/`. -/
inductive Provided : Backend → Prop where
  | ioUring (cfg : IoUring.Config) : Provided (ioUring cfg)
  | libaio (queueDepth : Nat) : Provided (libaio queueDepth)
  | spdk (cfg : Spdk.Config) : Provided (spdk cfg)

/-- No failure of a request in `J` is passed on with its sign turned. -/
def Backend.Straight (B : Backend) (J : Nat → Prop) (_ : List B.Event) (s : B.State)
    (a : B.Act) : Prop := ∀ k ∈ B.turned s a, ¬ J k

/-- **What the callbacks get**: a negative result, or the request has succeeded. -/
theorem Provided.sourced {B : Backend} (hB : Provided B) {J : Nat → Prop} {t : List B.Event}
    {s : B.State} (h : Exec B.machine (B.Straight J) B.init t s) :
    Sourced B.calls B.succeeded J t := by
  cases hB with
  | ioUring cfg => exact IoUring.sourced h J
  | libaio queueDepth => exact Libaio.sourced h J
  | spdk cfg => exact Spdk.sourced h

/-- Where a coroutine is. -/
inductive Phase where
  | unborn
  /-- About to call `submit`. -/
  | calling (req : IORequest)
  /-- In `submit`. -/
  | submitting
  /-- In `co_await state.baton`. -/
  | awaiting
  | finished
deriving DecidableEq

/-- A coroutine frame with its `IOState`. -/
structure Frame where
  phase : Phase := .unborn
  posted : Bool := false
  result : IOCompletion := {}
deriving DecidableEq

structure CoState (B : Backend) where
  backend : B.State
  frame : Nat → Frame

inductive CoAct (B : Backend) where
  | coRead (k : Nat) (fd : Int) (offset buf len : Nat)
  | coWrite (k : Nat) (fd : Int) (offset buf len : Nat)
  /-- Coroutine `k` calls `submit`. -/
  | submit (k : Nat) (a : B.Act)
  /-- Its call of `submit` throws. -/
  | throws (k : Nat)
  /-- Its call of `submit` returns. -/
  | returns (k : Nat)
  /-- It goes on after `co_await`. -/
  | resume (k : Nat)
  /-- Whatever else happens in the backend. -/
  | backend (a : B.Act)

inductive CoEvent (ε : Type) where
  | backend (e : ε)
  /-- The coroutine returns `comp` because `submit` has thrown. -/
  | threw (k : Nat) (comp : IOCompletion)
  /-- The coroutine returns `comp` after it has waited. -/
  | returned (k : Nat) (comp : IOCompletion)
deriving DecidableEq

section Machine

variable (B : Backend) (rwComplete : Nat)

/-- The request of `co_read` and `co_write`; `rwComplete` is the address of `io_rw_complete`. -/
def coRequest (op : Op) (k : Nat) (fd : Int) (offset buf len : Nat) : IORequest :=
  ⟨op, fd, offset, buf, len, some rwComplete, k⟩

/-- `io_rw_complete`, if this is the callback that is called. -/
def ioRwComplete (frame : Nat → Frame) (c : Call) : Nat → Frame :=
  if c.fn = rwComplete then
    Function.update frame c.ctx { frame c.ctx with result := c.comp, posted := true }
  else frame

variable {B} in
def CoState.setPhase (s : CoState B) (k : Nat) (p : Phase) : CoState B :=
  { s with frame := Function.update s.frame k { s.frame k with phase := p } }

variable {B} in
/-- A step of the backend, with the callbacks it calls. -/
def CoState.step (s : CoState B) (a : B.Act) : Option (CoState B) :=
  (B.machine.step s.backend a).map fun b =>
    let calls := ((B.machine.event s.backend a).map B.calls).getD []
    ⟨b, calls.foldl (ioRwComplete rwComplete) s.frame⟩

def coStep (s : CoState B) : CoAct B → Option (CoState B)
  | .coRead k fd offset buf len =>
    if (s.frame k).phase = .unborn then
      some (s.setPhase k (.calling (coRequest rwComplete .kRead k fd offset buf len)))
    else none
  | .coWrite k fd offset buf len =>
    if (s.frame k).phase = .unborn then
      some (s.setPhase k (.calling (coRequest rwComplete .kWrite k fd offset buf len)))
    else none
  | .submit k a =>
    match (s.frame k).phase with
    | .calling req =>
      if B.submits a = some req then (s.setPhase k .submitting).step rwComplete a else none
    | _ => none
  | .throws k =>
    match (s.frame k).phase with
    | .calling _ => some { s with frame := Function.update s.frame k { s.frame k with
        phase := .finished
        result := { (s.frame k).result with result := -Spdk.eio } } }
    | _ => none
  | .returns k =>
    if (s.frame k).phase = .submitting ∧ B.idle s.backend then some (s.setPhase k .awaiting)
    else none
  | .resume k =>
    if (s.frame k).phase = .awaiting ∧ (s.frame k).posted then some (s.setPhase k .finished)
    else none
  | .backend a => s.step rwComplete a

def coEvent (s : CoState B) : CoAct B → Option (CoEvent B.Event)
  | .submit _ a => (B.machine.event s.backend a).map .backend
  | .throws k => some (.threw k { (s.frame k).result with result := -Spdk.eio })
  | .resume k => some (.returned k (s.frame k).result)
  | .backend a => (B.machine.event s.backend a).map .backend
  | _ => none

def coMachine : Machine (CoState B) (CoAct B) (CoEvent B.Event) :=
  ⟨coStep B rwComplete, coEvent B⟩

def coInit : CoState B := ⟨B.init, fun _ => {}⟩

end Machine

/-! ## What a coroutine returns -/

/-- What has happened in the backend. -/
def backendTrace {ε : Type} (t : List (CoEvent ε)) : List ε :=
  t.filterMap fun
    | .backend e => some e
    | _ => none

/-- The callbacks that have been called. -/
def Backend.called (B : Backend) (t : List (CoEvent B.Event)) : List Call :=
  (backendTrace t).flatMap B.calls

/-- Nothing has completed request `k` without an error. -/
def Backend.Failed (B : Backend) (t : List (CoEvent B.Event)) (k : Nat) : Prop :=
  ¬ Succeeded B.succeeded (backendTrace t) k

/-- No failure of a request in `J` is passed on with its sign turned. -/
def CoStraight (B : Backend) (J : Nat → Prop) (_ : List (CoEvent B.Event)) (s : CoState B) :
    CoAct B → Prop
  | .submit _ a => ∀ k ∈ B.turned s.backend a, ¬ J k
  | .backend a => ∀ k ∈ B.turned s.backend a, ¬ J k
  | _ => True

section Invariant

variable {B : Backend} {rwComplete : Nat} {J : Nat → Prop} {t : List (CoEvent B.Event)}
  {s s' : CoState B} {k : Nat} {comp : IOCompletion}

/-- `io_rw_complete` was called with `comp` for the frame `k`. -/
def Delivered (rwComplete : Nat) (t : List (CoEvent B.Event)) (k : Nat) (comp : IOCompletion) :
    Prop := ∃ c ∈ B.called t, c.fn = rwComplete ∧ c.ctx = k ∧ c.comp = comp

/-- A frame that is in use and has been posted holds what was delivered. -/
def Frame.Holds (rwComplete : Nat) (t : List (CoEvent B.Event)) (k : Nat) (f : Frame) : Prop :=
  f.phase ≠ .finished → f.posted = true → Delivered rwComplete t k f.result

structure CoInv (rwComplete : Nat) (J : Nat → Prop) (t : List (CoEvent B.Event))
    (s : CoState B) : Prop where
  run : Exec B.machine (B.Straight J) B.init (backendTrace t) s.backend
  frames : ∀ k, (s.frame k).Holds rwComplete t k
  threw : ∀ k comp, .threw k comp ∈ t → comp.result < 0
  returned : ∀ k comp, .returned k comp ∈ t → Delivered rwComplete t k comp

theorem Delivered.note (h : Delivered rwComplete t k comp) (o : Option (CoEvent B.Event)) :
    Delivered rwComplete (note t o) k comp := by
  obtain ⟨c, hc, hcall⟩ := h
  refine ⟨c, ?_, hcall⟩
  obtain ⟨e, he, hc⟩ := List.mem_flatMap.mp hc
  obtain ⟨e', he', hback⟩ := List.mem_filterMap.mp he
  exact List.mem_flatMap.mpr ⟨e, List.mem_filterMap.mpr ⟨e', mem_note he', hback⟩, hc⟩

theorem CoInv.setPhase (h : CoInv rwComplete J t s) {p : Phase}
    (hk : (s.frame k).phase ≠ .finished) : CoInv rwComplete J t (s.setPhase k p) where
  run := h.run
  frames := forall_update (P := Frame.Holds rwComplete t) h.frames fun _ => h.frames k hk
  threw := h.threw
  returned := h.returned

/-- A property of the frames that each callback keeps. -/
theorem forall_foldl {P : Nat → Frame → Prop} (calls : List Call)
    (hcall : ∀ c ∈ calls, c.fn = rwComplete → ∀ f,
      P c.ctx f → P c.ctx { f with result := c.comp, posted := true }) :
    ∀ frame : Nat → Frame, (∀ k, P k (frame k)) →
      ∀ k, P k (calls.foldl (ioRwComplete rwComplete) frame k) := by
  induction calls with
  | nil => exact fun _ hframe => hframe
  | cons c calls ih =>
    intro frame hframe
    obtain ⟨hfirst, hrest⟩ := List.forall_mem_cons.mp hcall
    refine ih hrest _ ?_
    rw [ioRwComplete]
    split
    next hfn => exact forall_update (P := P) hframe (hfirst hfn _ (hframe c.ctx))
    next => exact hframe

theorem backendTrace_note (o : Option B.Event) :
    backendTrace (note t (o.map .backend)) = note (backendTrace t) o := by
  cases o with
  | none => rfl
  | some e => rfl

theorem mem_note_backend {e : CoEvent B.Event} {o : Option B.Event}
    (h : e ∈ note t (o.map .backend)) (he : ∀ e', e ≠ .backend e') : e ∈ t := by
  rcases mem_note_iff.mp h with hnew | hold
  · obtain ⟨e', -, heq⟩ := Option.map_eq_some_iff.mp hnew
    exact absurd heq.symm (he e')
  · exact hold

/-- **A step of the backend**: what the frames get is what the callbacks were called with. -/
theorem CoInv.acts (h : CoInv rwComplete J t s) {a : B.Act}
    (hc : ∀ k ∈ B.turned s.backend a, ¬ J k) (hs : s.step rwComplete a = some s') :
    CoInv rwComplete J (note t ((B.machine.event s.backend a).map .backend)) s' := by
  obtain ⟨b, hb, rfl⟩ := Option.map_eq_some_iff.mp hs
  refine ⟨?_, ?_, ?_, ?_⟩
  · rw [backendTrace_note, ← Machine.record_eq_note]
    exact Exec.step a h.run hc hb
  · refine forall_foldl (P := Frame.Holds rwComplete _) _ ?_ _ ?_
    · intro c hmem hfn f _ _ _
      refine ⟨c, ?_, hfn, rfl, rfl⟩
      cases he : B.machine.event s.backend a with
      | none =>
        rw [he] at hmem
        cases hmem
      | some e =>
        rw [he] at hmem
        exact List.mem_append_left _ hmem
    · exact fun k hphase hposted => (h.frames k hphase hposted).note _
  · exact fun k comp hmem => h.threw k comp (mem_note_backend hmem nofun)
  · exact fun k comp hmem => (h.returned k comp (mem_note_backend hmem nofun)).note _

/-- A coroutine returns. -/
theorem CoInv.finish (h : CoInv rwComplete J t s) {e : CoEvent B.Event} {f : Frame}
    (hback : backendTrace (e :: t) = backendTrace t) (hf : f.phase = .finished)
    (hthrew : ∀ i comp, e = .threw i comp → comp.result < 0)
    (hreturned : ∀ i comp, e = .returned i comp → Delivered rwComplete t i comp) :
    CoInv rwComplete J (e :: t) { s with frame := Function.update s.frame k f } := by
  refine ⟨?_, ?_, ?_, ?_⟩
  · rw [hback]
    exact h.run
  · refine forall_update (P := Frame.Holds rwComplete (e :: t)) ?_ (fun hphase => absurd hf hphase)
    exact fun i hphase hposted => (h.frames i hphase hposted).note (some e)
  · intro i comp hmem
    rcases List.mem_cons.mp hmem with heq | hmem
    · exact hthrew i comp heq.symm
    · exact h.threw i comp hmem
  · intro i comp hmem
    rcases List.mem_cons.mp hmem with heq | hmem
    · exact (hreturned i comp heq.symm).note (some e)
    · exact (h.returned i comp hmem).note (some e)

theorem CoInv.step (h : CoInv rwComplete J t s) {a : CoAct B} (hc : CoStraight B J t s a)
    (hs : coStep B rwComplete s a = some s') : CoInv rwComplete J (note t (coEvent B s a)) s' := by
  cases a with
  | coRead k fd offset buf len | coWrite k fd offset buf len =>
    obtain ⟨hphase, rfl⟩ := Option.ite_some_none_eq_some.mp hs
    exact h.setPhase (by rw [hphase]; exact nofun)
  | submit k a =>
    rw [coStep] at hs
    split at hs
    next req hphase =>
      obtain ⟨-, hs⟩ := Option.ite_none_right_eq_some.mp hs
      exact (h.setPhase (by rw [hphase]; exact nofun)).acts hc hs
    next => cases hs
  | throws k =>
    rw [coStep] at hs
    split at hs
    next req hphase =>
      cases hs
      refine h.finish rfl rfl ?_ ?_
      · rintro i comp heq
        obtain ⟨-, rfl⟩ := CoEvent.threw.inj heq
        show -Spdk.eio < 0
        decide
      · rintro i comp ⟨⟩
    next => cases hs
  | returns k =>
    obtain ⟨⟨hphase, -⟩, rfl⟩ := Option.ite_some_none_eq_some.mp hs
    exact h.setPhase (by rw [hphase]; exact nofun)
  | resume k =>
    obtain ⟨⟨hphase, hposted⟩, rfl⟩ := Option.ite_some_none_eq_some.mp hs
    refine h.finish rfl rfl ?_ ?_
    · rintro i comp ⟨⟩
    · rintro i comp heq
      obtain ⟨rfl, rfl⟩ := CoEvent.returned.inj heq
      exact h.frames _ (by rw [hphase]; exact nofun) hposted
  | backend a => exact h.acts hc hs

theorem coInv_init : CoInv rwComplete J [] (coInit B) where
  run := Exec.start
  frames := fun _ _ hposted => nomatch hposted
  threw := fun _ _ hmem => absurd hmem List.not_mem_nil
  returned := fun _ _ hmem => absurd hmem List.not_mem_nil

theorem coInv_of_exec (h : Exec (coMachine B rwComplete) (CoStraight B J) (coInit B) t s) :
    CoInv rwComplete J t s := by
  refine h.invariant (CoInv rwComplete J) coInv_init fun t s a s' hinv hc hstep => ?_
  exact hinv.step hc hstep

end Invariant

/-- **IO errors are negative**, for the requests in `J`, none of which SPDK's command call has
    rejected.  The callback of a request that has not succeeded gets a negative result; so does
    a coroutine whose call of `submit` threw, and one that was posted for such requests. -/
theorem errors_negative {B : Backend} (hB : Provided B) (rwComplete : Nat) (J : Nat → Prop)
    {t : List (CoEvent B.Event)} {s : CoState B}
    (h : Exec (coMachine B rwComplete) (CoStraight B J) (coInit B) t s) :
    (∀ c ∈ B.called t, J c.serial → B.Failed t c.serial → c.comp.result < 0) ∧
      (∀ k comp, .threw k comp ∈ t → comp.result < 0) ∧
      ∀ k comp, .returned k comp ∈ t →
        (∀ c ∈ B.called t, c.fn = rwComplete → c.ctx = k → J c.serial ∧ B.Failed t c.serial) →
        comp.result < 0 := by
  have hinv := coInv_of_exec h
  have hcalls : ∀ c ∈ B.called t, J c.serial → B.Failed t c.serial → c.comp.result < 0 := by
    intro c hc hJ hfailed
    exact (hB.sourced hinv.run c hc hJ).resolve_right hfailed
  refine ⟨hcalls, hinv.threw, ?_⟩
  intro k comp hmem hall
  obtain ⟨c, hc, hfn, hctx, rfl⟩ := hinv.returned k comp hmem
  obtain ⟨hJ, hfailed⟩ := hall c hc hfn hctx
  exact hcalls c hc hJ hfailed

instance (B : Backend) (J : Nat → Prop) [DecidablePred J] (t : List (CoEvent B.Event))
    (s : CoState B) (a : CoAct B) : Decidable (CoStraight B J t s a) :=
  match a with
  | .submit _ a | .backend a => inferInstanceAs (Decidable (∀ k ∈ B.turned s.backend a, ¬ J k))
  | .coRead .. | .coWrite .. | .throws .. | .returns .. | .resume .. => isTrue trivial

/-! ## Runs -/

/-- Coroutine 7 reads a block, the command call returns `rc`, and `rest` happens. -/
def readBlock (rc : Int) (rest : List (CoAct (spdk ⟨4, 512⟩))) : List (CoAct (spdk ⟨4, 512⟩)) :=
  .coRead 7 (-1) 0 4096 512 ::
    .submit 7 (Spdk.Act.submit (coRequest 1 .kRead 7 (-1) 0 4096 512) rc) :: .returns 7 :: rest

/-- The device fails to read the block, and another call throws. -/
def deviceFails : List (CoAct (spdk ⟨4, 512⟩)) :=
  readBlock 0 [.backend (Spdk.Act.complete 0 true), .backend (Spdk.Act.poll 8 1), .resume 7,
    .coWrite 8 (-1) 512 4096 512, .throws 8]

def deviceFailsTrace : List (CoEvent Spdk.Event) :=
  [.threw 8 ⟨0, -5⟩, .returned 7 ⟨0, -5⟩, .backend (.polled 8 [⟨0, 1, 7, ⟨0, -5⟩⟩] [⟨0, -5⟩]),
    .backend (.completed ⟨.read, 4096, 0, 1, 0⟩ true)]

theorem errors_negative_device :
    (∃ s, Exec (coMachine (spdk ⟨4, 512⟩) 1) (CoStraight _ fun _ => True) (coInit _)
      deviceFailsTrace s) ∧
    (∀ comp, .threw 8 comp ∈ deviceFailsTrace → comp.result < 0) ∧
    ∀ comp, .returned 7 comp ∈ deviceFailsTrace → comp.result < 0 := by
  have hexec : Exec (coMachine (spdk ⟨4, 512⟩) 1) (CoStraight _ fun _ => True) (coInit _) _ _ :=
    exec_run deviceFails
  obtain ⟨-, hthrew, hreturned⟩ := errors_negative (.spdk ⟨4, 512⟩) 1 (fun _ => True) hexec
  refine ⟨⟨_, hexec⟩, hthrew 8, fun comp hmem => hreturned 7 comp hmem ?_⟩
  have hfailed : ∀ c ∈ (spdk ⟨4, 512⟩).called deviceFailsTrace,
      ¬ Succeeded Spdk.Event.succeeded (backendTrace deviceFailsTrace) c.serial := by decide
  exact fun c hc _ _ => ⟨trivial, hfailed c hc⟩

/-- **A rejected command is not reported as an error.**  The command call returns -ENOMEM; the
    callback gets 12 and so does the coroutine, as if 12 bytes had been read. -/
theorem spdk_error_positive :
    ∃ (t : List (CoEvent Spdk.Event)) (s : CoState (spdk ⟨4, 512⟩)) (c : Call),
      Exec (coMachine (spdk ⟨4, 512⟩) 1) Always (coInit _) t s ∧
      c ∈ (spdk ⟨4, 512⟩).called t ∧ (spdk ⟨4, 512⟩).Failed t c.serial ∧
      .returned 7 c.comp ∈ t ∧ c.comp.result = 12 := by
  have hexec : Exec (coMachine (spdk ⟨4, 512⟩) 1) Always (coInit _) _ _ :=
    exec_run (readBlock (-12) [.resume 7])
  have hfailed : ¬ Succeeded Spdk.Event.succeeded
      (backendTrace [.returned 7 ⟨0, 12⟩, .backend (.called ⟨0, 1, 7, ⟨0, 12⟩⟩)]) 0 := by decide
  exact ⟨[.returned 7 ⟨0, 12⟩, .backend (.called ⟨0, 1, 7, ⟨0, 12⟩⟩)], _, _, hexec,
    List.mem_singleton_self _, hfailed, List.mem_cons_self, rfl⟩

end IoError
