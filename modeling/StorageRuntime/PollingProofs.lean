import StorageRuntime.IoUringProofs

/-!
# What LibaioBackend and SPDKBackend have in common

Both keep the requests in `pending_` at indices that are given out one after the other, and
what they tell is of the same kinds: a callback called by `submit`, a completion by the
kernel or the device, a `poll` that returns.
-/

namespace Polling

open Interleaving Table
open IoUring (IORequest IOCompletion Call)

/-! ## The requests -/

/-- `pending_` and `submit_count_`. -/
structure Requests where
  pending : List IORequest
  submitCount : Nat
deriving DecidableEq

section Requests

variable (s : Requests) {req : IORequest} {size idx : Nat}

/-- `pending_[idx]`. -/
def Requests.request (idx : Nat) : IORequest := s.pending.getD idx {}

/-- The callback of request `idx`, if it has one. -/
def Requests.callback (idx : Nat) (comp : IOCompletion) : Option Call :=
  (s.request idx).callbackFn.map fun fn => ⟨idx, fn, (s.request idx).callbackCtx, comp⟩

/-- `submit` up to the switch.  A table that is full grows to `size` entries. -/
def Requests.enter (size : Nat) (req : IORequest) : Requests where
  pending := (if s.submitCount < s.pending.length then s.pending
    else resize s.pending size {}).set s.submitCount req
  submitCount := s.submitCount + 1

theorem Requests.request_enter (h : s.submitCount < size) :
    (s.enter size req).request idx = if idx = s.submitCount then req else s.request idx :=
  getD_set_grown h

end Requests

/-! ## The events -/

/-- `C` are the commands and `R` the results that they are completed with. -/
inductive Event (C R : Type) where
  /-- `submit` has called a callback. -/
  | called (c : Call)
  | completed (cmd : C) (res : R)
  /-- `poll` returns, with the callbacks that were called and what it has written to `out`. -/
  | polled (max : Nat) (calls : List Call) (out : List IOCompletion)
  | pollFailed (max : Nat) (calls : List Call) (out : List IOCompletion)
deriving DecidableEq, Repr

section Event

variable {C R : Type}

/-- The callbacks that an event has called. -/
def Event.calls : Event C R → List Call
  | .called c => [c]
  | .completed _ _ => []
  | .polled _ calls _ => calls
  | .pollFailed _ calls _ => calls

/-- The callbacks that have been called. -/
def calls (t : List (Event C R)) : List Call := t.flatMap Event.calls

/-- What one event writes to `out`, apart from errors of polling. -/
def Event.out : Event C R → List IOCompletion
  | .polled _ _ out => out
  | _ => []

/-- All that has been written to `out`, apart from errors of polling. -/
def reported (t : List (Event C R)) : List IOCompletion := t.reverse.flatMap Event.out

theorem reported_cons (e : Event C R) (t : List (Event C R)) :
    reported (e :: t) = reported t ++ e.out := by
  rw [reported, List.reverse_cons, List.flatMap_append, List.flatMap_singleton]
  rfl

theorem reported_of_out_nil {e : Event C R} (h : e.out = []) (t : List (Event C R)) :
    reported (e :: t) = reported t := by
  rw [reported_cons, h, List.append_nil]

theorem reported_called (t : List (Event C R)) (c : Option Call) :
    reported (note t (c.map .called)) = reported t := by
  cases c with
  | none => rfl
  | some c => exact reported_of_out_nil rfl t

/-- What a call of `poll` was given and what it returns, errors included. -/
def Event.returned : Event C R → Option (Nat × List IOCompletion)
  | .polled max _ out => some (max, out)
  | .pollFailed max _ out => some (max, out)
  | _ => none

/-- A call of `poll` returns no more than it was asked for; one that fails returns the error. -/
def Bounded : Option (Event C R) → Prop
  | some (.polled max _ out) => out.length ≤ max
  | some (.pollFailed _ _ out) => out.length = 1
  | _ => True

theorem bounded_called (c : Option Call) : Bounded (c.map (.called : Call → Event C R)) := by
  cases c with
  | none | some c => trivial

theorem Bounded.le_max {e : Event C R} (h : Bounded (some e)) {max : Nat} {out : List IOCompletion}
    (hreturned : e.returned = some (max, out)) (hmax : 1 ≤ max) : out.length ≤ max := by
  cases e with
  | called | completed => cases hreturned
  | polled =>
    cases hreturned
    exact h
  | pollFailed =>
    cases hreturned
    exact Nat.le_trans (Nat.le_of_eq h) hmax

end Event

end Polling
