import StorageRuntime.OnceEachProofs
import StorageRuntime.PollingProofs

/-!
# LibaioBackend — submitting requests and polling for their completions

The model of `io/libaio_backend.cc`.  A request is submitted by a call of its own
(`io_submit`), whose return value is part of the label; the kernel completes what it has
accepted in any order and with any result, and `poll` takes at most 64 completions from
it.  A request is known by its index in `pending_`.

* **`libaio_reports`**: what `poll` has written to `out`, apart from errors of polling,
  and what the kernel still has ready are together exactly what the kernel has completed.
* **`poll_bounded`**: a call returns at most `max` entries.
-/

namespace Libaio

open Interleaving Answering Polling
open IoUring (Op IORequest IOCompletion Call)
open scoped List

/-! ## The backend -/

inductive Opcode where
  | pread
  | pwrite
deriving DecidableEq, Repr

/-- A control block; `data` is the index of the request. -/
structure Iocb where
  opcode : Opcode
  fd : Int
  buf : Nat
  nbytes : Nat
  offset : Nat
  data : Nat
deriving DecidableEq, Repr

/-- `events` are the completions that the kernel has ready for `io_getevents`. -/
structure State extends Requests where
  inFlight : List Iocb
  events : List IOCompletion
deriving DecidableEq

def init (queueDepth : Nat) : State := ⟨⟨List.replicate (queueDepth * 2) {}, 0⟩, [], []⟩

/-- The switch of `submit`; `none` is the default branch, which returns. -/
def prep (req : IORequest) (idx : Nat) : Option Iocb :=
  match req.op with
  | .kRead => some ⟨.pread, req.fd, req.buf, req.len, req.offset, idx⟩
  | .kWrite => some ⟨.pwrite, req.fd, req.buf, req.len, req.offset, idx⟩
  | .kFlush => none
  | .kTrim => none

/-- `submit` up to the switch. -/
def State.enter (s : State) (req : IORequest) : State :=
  { s with toRequests := s.toRequests.enter (s.submitCount + 1) req }

/-- `sizeof(events) / sizeof(events[0])`. -/
def eventBatch : Nat := 64

inductive Act where
  /-- `submit`; `ret` is what `io_submit` returns if it is called. -/
  | submit (req : IORequest) (ret : Int)
  /-- The kernel completes one of the control blocks it has accepted. -/
  | complete (i : Nat) (res : Int)
  /-- `poll`; `io_getevents` gives the first `got` completions. -/
  | poll (max got : Nat)
  /-- `poll`; `io_getevents` returns the error `ret`. -/
  | pollFails (max : Nat) (ret : Int)
deriving DecidableEq, Repr

abbrev Event : Type := Polling.Event Iocb Int

def step (s : State) : Act → Option State
  | .submit req ret =>
    match prep req s.submitCount with
    | none => some (s.enter req)
    | some cb =>
      if ret < 0 then some (s.enter req)
      else some { s.enter req with inFlight := s.inFlight ++ [cb] }
  | .complete i res =>
    s.inFlight[i]?.map fun cb =>
      { s with
        inFlight := s.inFlight.eraseIdx i
        events := s.events ++ [⟨cb.data, res⟩] }
  | .poll max got =>
    if got ≤ min max eventBatch ∧ got ≤ s.events.length then
      some { s with events := s.events.drop got }
    else none
  | .pollFails _ ret => if ret < 0 then some s else none

/-- The callbacks that `poll` calls for the completions it has got. -/
def State.callbacks (s : State) (got : List IOCompletion) : List Call :=
  got.filterMap fun comp =>
    if comp.userData < s.pending.length then s.callback comp.userData comp else none

def event (s : State) : Act → Option Event
  | .submit req ret =>
    match prep req s.submitCount with
    | none => none
    | some _ =>
      if ret < 0 then
        ((s.enter req).callback s.submitCount ⟨s.submitCount, ret⟩).map .called
      else none
  | .complete i res => s.inFlight[i]?.map fun cb => .completed cb res
  | .poll max got => some (.polled max (s.callbacks (s.events.take got)) (s.events.take got))
  | .pollFails max ret => some (.pollFailed max [] [⟨0, ret⟩])

def machine : Machine State Act Event := ⟨step, event⟩

/-! ## What a step can do -/

/-- The steps. -/
inductive Move (s : State) : Option Event → State → Prop where
  | ignores {req : IORequest} : ¬ req.op.Supported → Move s none (s.enter req)
  | fails {req : IORequest} {ret : Int} : req.op.Supported → ret < 0 →
      Move s (((s.enter req).callback s.submitCount ⟨s.submitCount, ret⟩).map .called) (s.enter req)
  | submits {req : IORequest} {cb : Iocb} : req.op.Supported → cb.data = s.submitCount →
      Move s none { s.enter req with inFlight := s.inFlight ++ [cb] }
  | completes {i : Nat} {res : Int} {cb : Iocb} : s.inFlight[i]? = some cb →
      Move s (some (.completed cb res)) { s with
          inFlight := s.inFlight.eraseIdx i
          events := s.events ++ [⟨cb.data, res⟩] }
  | polls {max got : Nat} : got ≤ min max eventBatch → got ≤ s.events.length →
      Move s (some (.polled max (s.callbacks (s.events.take got)) (s.events.take got)))
        { s with events := s.events.drop got }
  | pollFails {max : Nat} {ret : Int} : ret < 0 → Move s (some (.pollFailed max [] [⟨0, ret⟩])) s

theorem prep_eq_none {idx : Nat} {req : IORequest} (h : prep req idx = none) :
    ¬ req.op.Supported := by
  rw [prep] at h
  rintro (hop | hop)
  · rw [hop] at h
    cases h
  · rw [hop] at h
    cases h

theorem prep_eq_some {idx : Nat} {req : IORequest} {cb : Iocb} (h : prep req idx = some cb) :
    req.op.Supported ∧ cb.data = idx := by
  rw [prep] at h
  generalize hop : req.op = p at h ⊢
  cases p with
  | kRead =>
    cases h
    exact ⟨.inl rfl, rfl⟩
  | kWrite =>
    cases h
    exact ⟨.inr rfl, rfl⟩
  | kFlush | kTrim =>
    cases h

theorem step_moves {s s' : State} {a : Act} (hs : step s a = some s') : Move s (event s a) s' := by
  cases a with
  | submit req ret =>
    rw [step] at hs
    rw [event]
    split at hs
    next hprep =>
      cases hs
      exact .ignores (prep_eq_none hprep)
    next cb hprep =>
      obtain ⟨hop, hdata⟩ := prep_eq_some hprep
      split at hs
      next hret =>
        cases hs
        rw [if_pos hret]
        exact .fails hop hret
      next hret =>
        cases hs
        rw [if_neg hret]
        exact .submits hop hdata
  | complete i res =>
    obtain ⟨cb, hcb, rfl⟩ := Option.map_eq_some_iff.mp hs
    rw [event, hcb]
    exact .completes hcb
  | poll max got =>
    obtain ⟨⟨hmax, hlen⟩, rfl⟩ := Option.ite_some_none_eq_some.mp hs
    exact .polls hmax hlen
  | pollFails max ret =>
    obtain ⟨hret, rfl⟩ := Option.ite_some_none_eq_some.mp hs
    exact .pollFails hret

/-! ## What poll reports -/

/-- What the kernel has completed, newest first. -/
def completed (t : List Event) : List IOCompletion :=
  t.filterMap fun
    | .completed cb res => some ⟨cb.data, res⟩
    | _ => none

structure Inv (t : List Event) (s : State) : Prop where
  /-- Indices are given out once. -/
  tickets : Tickets s.submitCount (s.inFlight.map Iocb.data)
    ((completed t).map IOCompletion.userData)
  account : reported t ++ s.events ~ completed t

section Steps

variable {t : List Event} {s s' : State}

theorem completed_called (c : Option Call) : completed (note t (c.map .called)) = completed t := by
  cases c with
  | none => rfl
  | some c => rfl

theorem Inv.step (h : Inv t s) {a : Act} (hs : Libaio.step s a = some s') :
    Inv (note t (event s a)) s' := by
  have hmove := step_moves hs
  generalize event s a = o at hmove ⊢
  cases hmove with
  | ignores _ => exact ⟨h.tickets.skip, h.account⟩
  | fails _ _ =>
    refine ⟨?_, ?_⟩
    · rw [completed_called]
      exact h.tickets.skip
    · rw [completed_called, reported_called]
      exact h.account
  | @submits req cb _ hdata =>
    refine ⟨h.tickets.give.move ?_, h.account⟩
    rw [List.map_append, List.map_singleton, hdata]
    exact List.perm_append_singleton _ _
  | @completes i res cb hget =>
    obtain ⟨hlt, rfl⟩ := List.getElem?_eq_some_iff.mp hget
    have hp : s.inFlight[i] :: s.inFlight.eraseIdx i ~ s.inFlight :=
      List.getElem_cons_eraseIdx_perm hlt
    refine ⟨(h.tickets.move (hp.map Iocb.data)).comeBack, ?_⟩
    show reported (_ :: t) ++ (s.events ++ [_]) ~ _ :: completed t
    rw [reported_of_out_nil rfl, ← List.append_assoc]
    exact (List.perm_append_singleton _ _).trans (h.account.cons _)
  | @polls max got hmax hlen =>
    refine ⟨h.tickets, ?_⟩
    show reported (_ :: t) ++ s.events.drop got ~ completed t
    rw [reported_cons, List.append_assoc]
    show reported t ++ (s.events.take got ++ s.events.drop got) ~ _
    rw [List.take_append_drop]
    exact h.account
  | pollFails _ =>
    refine ⟨h.tickets, ?_⟩
    show reported (_ :: t) ++ s.events ~ completed t
    rw [reported_of_out_nil rfl]
    exact h.account

theorem inv_init (queueDepth : Nat) : Inv [] (init queueDepth) :=
  ⟨Tickets.nil 0, List.Perm.refl _⟩

theorem inv_of_exec {queueDepth : Nat} (h : Exec machine Always (init queueDepth) t s) :
    Inv t s := by
  refine h.invariant Inv (inv_init queueDepth) ?_
  intro t s a s' hinv _ hs
  exact hinv.step hs

end Steps

/-- **Polling reports every completion once**: each that the kernel does not still have ready
    stands once in what was written to `out`, and nothing else does. -/
theorem libaio_reports {queueDepth : Nat} {t : List Event} {s : State}
    (h : Exec machine Always (init queueDepth) t s) :
    ReportsOnce IOCompletion.userData (completed t) s.events (reported t) := by
  have hinv := inv_of_exec h
  exact reportsOnce_of_perm hinv.account hinv.tickets.nodup_back

/-- **A call returns at most `max` entries.** -/
theorem poll_bounded {s s' : State} {a : Act} (hs : step s a = some s') : Bounded (event s a) := by
  have hmove := step_moves hs
  generalize event s a = o at hmove ⊢
  cases hmove with
  | ignores _ | submits _ _ | completes _ => trivial
  | fails _ _ => exact bounded_called _
  | polls hgot _ =>
    refine Nat.le_trans (List.length_take_le _ _) ?_
    exact Nat.le_trans hgot (Nat.min_le_left _ _)
  | pollFails _ => rfl

end Libaio
