import Mathlib.Logic.Function.Basic
import Mathlib.Data.List.Basic

/-!
# Interleaved machines — runs, conditions on runs, and the invariant rule

A concurrent component is a `Machine`: a state, a set of action labels, and
a partial step function.  One action is one atomic step of one agent; the
label carries whatever the agent cannot decide alone (which call it makes
next, whether a weak compare-exchange fails spuriously).  `step s a = none`
says that `a` is not enabled in `s`.  `event` is what an observer records of
a step.

* `Exec M C s₀ t s`: a run from `s₀` to `s` all of whose steps satisfy the
  condition `C`; `t` is the list of observed events, NEWEST FIRST.  A plain
  run is `Exec M Always`.
* `Exec.invariant`: what holds at the start and is kept by every step holds
  after every run.
* `TraceSpec`: an abstract machine that says which events may follow which;
  `Exec.simulates` shows by a step-wise relation that it accepts the trace
  of every run.
* `run`: the same thing executably, from a list of actions, so that a
  concrete schedule can be evaluated (`exec_run`).
* `Machine.watch`: the machine with a register that follows its states;
  `Exec.le_peak` bounds a quantity by the peak of a measure.
-/

namespace Interleaving

open Function

variable {σ α ε : Type}

/-- A machine over states `σ`, actions `α` and observable events `ε`. -/
structure Machine (σ α ε : Type) where
  step : σ → α → Option σ
  event : σ → α → Option ε

/-- The condition that every step meets. -/
def Always : List ε → σ → α → Prop := fun _ _ _ => True
deriving Decidable

/-- The trace after action `a` is taken in state `s`. -/
def Machine.record (M : Machine σ α ε) (s : σ) (a : α) (t : List ε) : List ε :=
  match M.event s a with
  | none => t
  | some e => e :: t

variable {s s₀ : σ} {M : Machine σ α ε} {C : List ε → σ → α → Prop}

theorem Machine.record_none {a : α} (t : List ε) (h : M.event s a = none) : M.record s a t = t := by
  simp only [Machine.record, h]

theorem Machine.record_some {a : α} {e : ε} (t : List ε) (h : M.event s a = some e) :
    M.record s a t = e :: t := by
  simp only [Machine.record, h]

/-- The trace after a step that shows `o`. -/
def note (t : List ε) : Option ε → List ε
  | none => t
  | some e => e :: t

theorem Machine.record_eq_note (M : Machine σ α ε) (s : σ) (a : α) (t : List ε) :
    M.record s a t = note t (M.event s a) := by
  rw [Machine.record]
  cases M.event s a with
  | none => rfl
  | some e => rfl

theorem mem_note_iff {e : ε} {t : List ε} {o : Option ε} : e ∈ note t o ↔ o = some e ∨ e ∈ t := by
  cases o with
  | none => exact (or_iff_right nofun).symm
  | some e' => rw [note, List.mem_cons, Option.some_inj, eq_comm]

theorem mem_note {e : ε} {t : List ε} {o : Option ε} (he : e ∈ t) : e ∈ note t o :=
  mem_note_iff.mpr (.inr he)

/-- A trace only grows. -/
theorem Machine.suffix_record (M : Machine σ α ε) (s : σ) (a : α) (t : List ε) :
    t <:+ M.record s a t := by
  rw [Machine.record]
  split
  · exact List.suffix_rfl
  · exact List.suffix_cons _ _

/-- Runs from `s₀` whose steps all satisfy `C` (a condition on the trace so
    far, the state before the step and the action). -/
inductive Exec (M : Machine σ α ε) (C : List ε → σ → α → Prop) (s₀ : σ) :
    List ε → σ → Prop where
  | start : Exec M C s₀ [] s₀
  | step {t : List ε} {s : σ} (a : α) {s' : σ} : Exec M C s₀ t s → C t s a →
      M.step s a = some s' → Exec M C s₀ (M.record s a t) s'

/-- **The invariant rule.** -/
theorem Exec.invariant {M : Machine σ α ε} {C : List ε → σ → α → Prop} {s₀ : σ}
    (I : List ε → σ → Prop) (hstart : I [] s₀)
    (hstep : ∀ t s a s', I t s → C t s a → M.step s a = some s' → I (M.record s a t) s')
    {t : List ε} {s : σ} (h : Exec M C s₀ t s) : I t s := by
  induction h with
  | start => exact hstart
  | step a _ hc hs ih => exact hstep _ _ a _ ih hc hs

/-! ## Specifications of traces -/

/-- An abstract machine over events: where it starts, and which event may happen
    in which state. -/
structure TraceSpec (β ε : Type) where
  start : β
  step : β → ε → β → Prop

/-- The specification allows the trace `t` (newest first) and is then in state `b`. -/
inductive TraceSpec.Accepts {β : Type} (S : TraceSpec β ε) : List ε → β → Prop where
  | nil : S.Accepts [] S.start
  | cons {t : List ε} {b b' : β} {e : ε} : S.Accepts t b → S.step b e b' →
      S.Accepts (e :: t) b'

/-- A step to `s'` that shows `e` (or nothing) is matched from the abstract state
    `b`: the specification allows `e` and the states are related again. -/
def TraceSpec.Matches {β : Type} (S : TraceSpec β ε) (R : β → σ → Prop) (b : β)
    (s' : σ) : Option ε → Prop
  | none => R b s'
  | some e => ∃ b', S.step b e b' ∧ R b' s'

/-- After a matched step the states are related again, whatever was shown. -/
theorem TraceSpec.Matches.related {β : Type} {S : TraceSpec β ε} {R : β → σ → Prop} {b : β}
    {s' : σ} {o : Option ε} (h : S.Matches R b s' o) : ∃ b', R b' s' := by
  cases o with
  | none => exact ⟨b, h⟩
  | some e =>
    obtain ⟨b', -, hR⟩ := h
    exact ⟨b', hR⟩

/-- **The simulation rule.**  If the start states are related and every step is
    matched, the specification accepts the trace of every run. -/
theorem Exec.simulates {β : Type} {M : Machine σ α ε} {C : List ε → σ → α → Prop}
    {s₀ : σ} (S : TraceSpec β ε) (R : β → σ → Prop) (hstart : R S.start s₀)
    (hstep : ∀ b s a s', R b s → M.step s a = some s' → S.Matches R b s' (M.event s a))
    {t : List ε} {s : σ} (h : Exec M C s₀ t s) : ∃ b, S.Accepts t b ∧ R b s := by
  refine h.invariant (fun t s => ∃ b, S.Accepts t b ∧ R b s)
    ⟨S.start, TraceSpec.Accepts.nil, hstart⟩ ?_
  rintro t s a s' ⟨b, hacc, hR⟩ - hs
  have hm := hstep b s a s' hR hs
  cases he : M.event s a with
  | none =>
    rw [he] at hm
    rw [Machine.record_none t he]
    exact ⟨b, hacc, hm⟩
  | some e =>
    rw [he] at hm
    obtain ⟨b', hb', hR'⟩ := hm
    rw [Machine.record_some t he]
    exact ⟨b', TraceSpec.Accepts.cons hacc hb', hR'⟩

/-! ## Executing schedules -/

/-- Execute a schedule, checking the condition at every step. -/
def run (M : Machine σ α ε) (C : List ε → σ → α → Prop)
    [∀ t s a, Decidable (C t s a)] : List α → List ε → σ → Option (List ε × σ)
  | [], t, s => some (t, s)
  | a :: as, t, s =>
    if C t s a then
      match M.step s a with
      | none => none
      | some s' => run M C as (M.record s a t) s'
    else none

/-- An executed schedule extends a run. -/
theorem Exec.extend [∀ t s a, Decidable (C t s a)] :
    ∀ (as : List α) {t : List ε} {s : σ} {r : List ε × σ},
      Exec M C s₀ t s → run M C as t s = some r → Exec M C s₀ r.1 r.2 := by
  intro as
  induction as with
  | nil =>
    intro t s r h hr
    obtain rfl : (t, s) = r := Option.some.inj hr
    exact h
  | cons a as ih =>
    intro t s r h hr
    rw [run] at hr
    by_cases hc : C t s a
    · rw [if_pos hc] at hr
      cases hs : M.step s a with
      | none => rw [hs] at hr; cases hr
      | some s' =>
        rw [hs] at hr
        exact ih (Exec.step a h hc hs) hr
    · rw [if_neg hc] at hr
      cases hr

/-- A schedule that executes is a run; its end state and trace are read off the
    execution. -/
theorem exec_run [∀ t s a, Decidable (C t s a)] (as : List α)
    (h : (run M C as [] s₀).isSome = true := by decide +kernel) :
    Exec M C s₀ ((run M C as [] s₀).get h).1 ((run M C as [] s₀).get h).2 :=
  Exec.extend as Exec.start (Option.some_get h).symm

/-- **The invariant rule for a schedule**, with the actions taken so far. -/
theorem run_invariant [∀ t s a, Decidable (C t s a)] (J : List α → σ → Prop)
    (hstep : ∀ done t s a s', J done s → C t s a → M.step s a = some s' → J (done ++ [a]) s') :
    ∀ (as done : List α) {t : List ε} {s : σ} {r : List ε × σ},
      J done s → run M C as t s = some r → J (done ++ as) r.2 := by
  intro as
  induction as with
  | nil =>
    intro done t s r h hr
    obtain rfl : (t, s) = r := Option.some.inj hr
    rwa [List.append_nil]
  | cons a as ih =>
    intro done t s r h hr
    rw [run] at hr
    split at hr
    next hc =>
      split at hr
      next => cases hr
      next s' hs =>
        have htail := ih (done ++ [a]) (hstep done t s a s' h hc hs) hr
        rwa [List.append_assoc] at htail
    next => cases hr

/-! ## Watching a run -/

/-- The machine with a register that follows the states it goes through. -/
def Machine.watch {β : Type} (M : Machine σ α ε) (observe : β → σ → β) : Machine (σ × β) α ε where
  step x a := (M.step x.1 a).map fun s => (s, observe x.2 s)
  event x a := M.event x.1 a

/-- A register for the largest value of each measure. -/
def raisePeak {ι : Type} (f : ι → σ → Nat) (peak : ι → Nat) (s : σ) : ι → Nat :=
  fun i => max (peak i) (f i s)

section Watch

variable {β ι : Type} {M : Machine σ α ε} {C : List ε → σ → α → Prop} {s₀ : σ} {t : List ε}

/-- Every run can be watched. -/
theorem Exec.watch {s : σ} (observe : β → σ → β) (b₀ : β) (h : Exec M C s₀ t s) :
    ∃ b, Exec (M.watch observe) (fun t x a => C t x.1 a) (s₀, b₀) t (s, b) := by
  induction h with
  | start => exact ⟨b₀, Exec.start⟩
  | @step t s a s' _ hc hs ih =>
    obtain ⟨b, hrun⟩ := ih
    have hstep : (M.watch observe).step (s, b) a = some (s', observe b s') :=
      congrArg (Option.map fun s => (s, observe b s)) hs
    exact ⟨observe b s', Exec.step a hrun hc hstep⟩

/-- A watched run is a run. -/
theorem Exec.unwatch {observe : β → σ → β} {b₀ : β} {x : σ × β}
    (h : Exec (M.watch observe) (fun t x a => C t x.1 a) (s₀, b₀) t x) : Exec M C s₀ t x.1 := by
  induction h with
  | start => exact Exec.start
  | @step t x a x' _ hc hs ih =>
    obtain ⟨s', hs', rfl⟩ := Option.map_eq_some_iff.mp hs
    exact Exec.step a ih hc hs'

/-- **The peak rule.**  A quantity that each step leaves alone, lowers, or brings to at most
    `k` over the measure, never exceeds the peak of the measure by more than `k`. -/
theorem Exec.le_peak {f : ι → σ → Nat} (g : List ε → σ → Nat) (i : ι) (k : Nat)
    (hstart : g [] s₀ ≤ k) (hstep : ∀ t s a s', Exec M C s₀ t s → C t s a → M.step s a = some s' →
      g (M.record s a t) s' ≤ g t s ∨ g (M.record s a t) s' ≤ f i s' + k) {x : σ × (ι → Nat)}
    (h : Exec (M.watch (raisePeak f)) (fun t x a => C t x.1 a) (s₀, fun _ => 0) t x) :
    g t x.1 ≤ x.2 i + k := by
  induction h with
  | start => exact Nat.le_trans hstart (Nat.le_add_left ..)
  | @step t x a x' hrun hc hs ih =>
    obtain ⟨s', hs', rfl⟩ := Option.map_eq_some_iff.mp hs
    have hpeak : raisePeak f x.2 s' i = max (x.2 i) (f i s') := rfl
    have hnext := hstep t x.1 a s' hrun.unwatch hc hs'
    show g (M.record x.1 a t) s' ≤ raisePeak f x.2 s' i + k
    omega

end Watch

section Update

variable {ι β γ : Type} {f : ι → β} {i j : ι} {b c : β}

/-- Agents in different local states are different. -/
theorem ne_of_states (hi : f i = b) (hj : f j = c) (h : b ≠ c) : i ≠ j := by
  rintro rfl
  exact h (hi.symm.trans hj)

variable [DecidableEq ι]

/-- A fact about every agent holds after a change of one agent's local state, if it held of
    the others and holds of the new one. -/
theorem forall_update_of_ne {P : ι → β → Prop} (h : ∀ j, j ≠ i → P j (f j)) (hb : P i b) :
    ∀ j, P j (update f i b j) := (forall_update_iff f P).mpr ⟨hb, h⟩

theorem forall_update {P : ι → β → Prop} (h : ∀ j, P j (f j)) (hb : P i b) :
    ∀ j, P j (update f i b j) :=
  forall_update_of_ne (fun j _ => h j) hb

/-- The same for two agents that change one after the other. -/
theorem forall_update_update {P : ι → β → Prop} {k : ι} (h : ∀ j, j ≠ i → P j (f j)) (hb : P i b)
    (hc : P k c) : ∀ j, P j (update (update f i b) k c j) :=
  forall_update (forall_update_of_ne h hb) hc

/-- The same for two states that change together. -/
theorem forall_update₂ {P : ι → β → γ → Prop} {g : ι → γ} {c : γ} (h : ∀ j, P j (f j) (g j))
    (hb : P i b c) : ∀ j, P j (update f i b j) (update g i c j) := by
  intro j
  by_cases hj : j = i
  · subst hj
    rw [update_self, update_self]
    exact hb
  · rw [update_of_ne hj, update_of_ne hj]
    exact h j

/-- Reading a local state after one of them was changed. -/
theorem update_cases (f : β → γ) {g : ι → β} {x : γ} (h : f (update g i b j) = x) :
    (j = i ∧ f b = x) ∨ (j ≠ i ∧ f (g j) = x) := by
  by_cases hj : j = i
  · subst hj
    rw [update_self] at h
    exact .inl ⟨rfl, h⟩
  · rw [update_of_ne hj] at h
    exact .inr ⟨hj, h⟩

/-- Who is in another state than the one that was set is where it was before. -/
theorem of_update (h : update f i b j = c) (hne : b ≠ c) : j ≠ i ∧ f j = c :=
  (update_cases id h).resolve_left fun heq => hne heq.2

/-- The change of an agent in another state is nothing to who is at `c`. -/
theorem update_keep {d : β} (h : f j = c) (hi : f i = d) (hne : d ≠ c) : update f i b j = c :=
  (update_of_ne (ne_of_states h hi hne.symm) ..).trans h

/-- Who is at `c` after a change, if the agent that changed was not there before. -/
theorem update_eq_iff (hi : f i ≠ c) : update f i b j = c ↔ (j = i ∧ b = c) ∨ f j = c := by
  by_cases hj : j = i
  · subst hj
    simp [hi]
  · simp [hj]

theorem update_eq_self_iff : update f i b j = b ↔ j = i ∨ f j = b := by
  by_cases hj : j = i
  · rw [hj, update_self]
    simp
  · simp [hj]

theorem update_eq_iff_of_ne (hb : b ≠ c) : update f i b j = c ↔ j ≠ i ∧ f j = c :=
  ⟨fun h => of_update h hb, fun h => (update_of_ne h.1 ..).trans h.2⟩

/-- An agent that was not at `c` and does not get there changes nothing about who is. -/
theorem update_same_iff (hi : f i ≠ c) (hb : b ≠ c) : update f i b j = c ↔ f j = c :=
  (update_eq_iff hi).trans (or_iff_right fun h => hb h.2)

end Update

end Interleaving
