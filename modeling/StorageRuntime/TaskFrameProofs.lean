import StorageRuntime.InterleavingProofs
import StorageRuntime.LifetimeProofs

/-!
# Task — who destroys the frame

The model of `Task<R>` and its promise (`runtime/coro_task.h`).  A task is awaited, released
to a queue, run to its end by `blockingRun()`, or dropped; its coroutine suspends and is
resumed on any thread, and whoever runs it to its end goes through `final_suspend`.  Each
access to the promise is a step.

* **`frame_destroyed_once`**: the frame is destroyed exactly once and the promise is not
  accessed afterwards, if in `blockingRun()` the call of `destroy()` comes after the last
  access of `final_suspend`.
* **`frame_used_after_destroy`**: otherwise `final_suspend` reads `released_` of a destroyed
  frame.
-/

namespace TaskFrame

open Interleaving Lifetime

/-! ## The machine -/

/-- The ways of using a task. -/
inductive Use where
  | coAwait
  | release
  | blockingRun
  | drop
deriving DecidableEq

/-- The thread that runs the coroutine: the owner's, inside `resume()`, or another. -/
inductive Runner where
  | owner
  | other
deriving DecidableEq

/-- Where `final_suspend` is. -/
inductive FinalPc where
  | complete
  | readReleased
  | readContinuation
  | clearContinuation
deriving DecidableEq

inductive Coro where
  | ready
  | running (r : Runner)
  | suspended
  | final (p : FinalPc) (r : Runner)
  | finished
deriving DecidableEq

/-- Where the owner is.  `await_resume` and the end of `blockingRun()` are the same steps; `run`
    tells them apart. -/
inductive OwnerPc where
  | setContinuation
  | awaiting
  | setReleased (run : Bool)
  | released
  | clearReleased
  | resume
  | inResume
  | spin
  | readException (run : Bool)
  | readResult (run : Bool)
  | destroy (run : Bool)
  | drop
  | done
deriving DecidableEq

structure State (E V : Type) where
  completed : Bool
  released : Bool
  continuation : Bool
  outcome : Option (Except E V)
  memory : Ledger
  coro : Coro
  owner : OwnerPc

variable {E V : Type}

def Use.start : Use → OwnerPc
  | .coAwait => .setContinuation
  | .release => .setReleased false
  | .blockingRun => .setReleased true
  | .drop => .drop

def init (use : Use) : State E V := ⟨false, false, false, none, .alive, .ready, use.start⟩

inductive Act (E V : Type) where
  | owner
  /-- The coroutine suspends. -/
  | suspend
  /-- Another thread resumes the coroutine, or takes it from the queue. -/
  | resume
  /-- The coroutine ends: `return_value` or `unhandled_exception`. -/
  | finish (r : Except E V)
  | final

def Coro.runner : Coro → Option Runner
  | .running r | .final _ r => some r
  | _ => none

/-- `exception_` is set. -/
def threw : Option (Except E V) → Bool
  | some (.error _) => true
  | _ => false

def State.goOwner (s : State E V) : Option (State E V) :=
  match s.owner with
  | .setContinuation =>
    -- control is transferred to the coroutine
    some { s with
      continuation := true, memory := s.memory.access, coro := .running .owner
      owner := .awaiting }
  | .setReleased run =>
    some { s with
      released := true, memory := s.memory.access
      owner := if run = true then .clearReleased else .released }
  | .clearReleased => some { s with released := false, memory := s.memory.access, owner := .resume }
  | .resume => some { s with coro := .running .owner, owner := .inResume }
  | .inResume => if s.coro.runner = some .owner then none else some { s with owner := .spin }
  | .spin =>
    some { s with
      memory := s.memory.access
      owner := if s.completed = true then .readException true else .spin }
  | .readException run =>
    some { s with
      memory := s.memory.access
      owner := if threw s.outcome = true then .destroy run else .readResult run }
  | .readResult run => some { s with memory := s.memory.access, owner := .destroy run }
  | .destroy _ | .drop => some { s with memory := s.memory.free, owner := .done }
  | .awaiting | .released | .done => none

def State.goFinal (s : State E V) : Option (State E V) :=
  match s.coro with
  | .final .complete r =>
    some { s with completed := true, memory := s.memory.access, coro := .final .readReleased r }
  | .final .readReleased r =>
    if s.released = true then some { s with memory := s.memory.access.free, coro := .finished }
    else some { s with memory := s.memory.access, coro := .final .readContinuation r }
  | .final .readContinuation r =>
    some { s with
      memory := s.memory.access
      coro := if s.continuation = true then .final .clearContinuation r else .finished }
  | .final .clearContinuation _ =>
    -- control is transferred to the awaiting coroutine
    some { s with
      continuation := false, memory := s.memory.access, coro := .finished
      owner := .readException false }
  | _ => none

def step (s : State E V) : Act E V → Option (State E V)
  | .owner => s.goOwner
  | .suspend =>
    match s.coro with
    | .running _ => some { s with coro := .suspended }
    | _ => none
  | .resume =>
    match s.coro with
    | .suspended => some { s with coro := .running .other }
    | .ready => if s.owner = .released then some { s with coro := .running .other } else none
    | _ => none
  | .finish r =>
    match s.coro with
    | .running who =>
      some { s with
        outcome := some r, memory := s.memory.access, coro := .final .complete who }
    | _ => none
  | .final => s.goFinal

def machine : Machine (State E V) (Act E V) Empty := ⟨step, fun _ _ => none⟩

/-- `blockingRun()` destroys the frame when `final_suspend` is through with it. -/
def OwnerLast (_ : List Empty) (s : State E V) : Act E V → Prop
  | .owner => s.owner = .destroy true → s.coro = .finished
  | _ => True

instance (t : List Empty) (s : State E V) (a : Act E V) : Decidable (OwnerLast t s a) :=
  match a with
  | .owner => inferInstanceAs (Decidable (s.owner = .destroy true → s.coro = .finished))
  | .suspend | .resume | .finish .. | .final => isTrue trivial

/-! ## The invariant -/

/-- The coroutine has been started and has not finished. -/
def Coro.active : Coro → Bool
  | .ready | .finished => false
  | _ => true

/-- What is true of the frame, by where the owner is. -/
def OwnerOk (s : State E V) : OwnerPc → Prop
  | .setContinuation | .setReleased _ | .resume => s.coro = .ready ∧ s.released = false ∧
      s.continuation = false ∧ s.memory = .alive
  | .drop => s.coro = .ready ∧ s.memory = .alive
  | .clearReleased => s.coro = .ready ∧ s.continuation = false ∧ s.memory = .alive
  | .awaiting => s.coro.active = true ∧ s.released = false ∧ s.continuation = true ∧
      s.memory = .alive
  | .released => s.released = true ∧ s.memory = if s.coro = .finished then .freed else .alive
  | .inResume | .spin | .readException true | .readResult true | .destroy true =>
    s.coro ≠ .ready ∧ s.released = false ∧ s.continuation = false ∧ s.memory = .alive
  | .readException false | .readResult false | .destroy false =>
    s.coro = .finished ∧ s.memory = .alive
  | .done => s.coro.active = false ∧ s.memory = .freed

structure Inv (s : State E V) : Prop where
  owner : OwnerOk s s.owner
  late : ∀ p r, s.coro = .final p r → p = .readContinuation ∨ p = .clearContinuation →
    s.released = false
  clearing : ∀ r, s.coro = .final .clearContinuation r → s.continuation = true

theorem inv_init (use : Use) : Inv (init use : State E V) where
  owner := by cases use <;> exact ⟨rfl, by first | rfl | exact ⟨rfl, rfl, rfl⟩⟩
  late := nofun
  clearing := nofun

section Steps

variable {s s' : State E V} {t : List Empty}

theorem Coro.active_ne {c : Coro} (h : c.active = true) : c ≠ .ready ∧ c ≠ .finished := by
  cases c with
  | ready | finished => cases h
  | _ => exact ⟨nofun, nofun⟩

/-- While the coroutine is active the frame is there. -/
theorem OwnerOk.alive {o : OwnerPc} (h : OwnerOk s o) (hactive : s.coro.active = true) :
    s.memory = .alive := by
  obtain ⟨hready, hfinished⟩ := Coro.active_ne hactive
  cases o with
  | setContinuation | setReleased run | resume | drop | clearReleased => exact absurd h.1 hready
  | awaiting | inResume | spin => exact h.2.2.2
  | released =>
    have hmemory := h.2
    rwa [if_neg hfinished] at hmemory
  | readException run | readResult run | destroy run =>
    cases run with
    | true => exact h.2.2.2
    | false => exact absurd h.1 hfinished
  | done => exact nomatch hactive.symm.trans h.1

/-- The coroutine goes on. -/
theorem OwnerOk.goes {o : OwnerPc} (h : OwnerOk s o) (hactive : s.coro.active = true) {c : Coro}
    (hc : c.active = true) (completed : Bool) (outcome : Option (Except E V)) : OwnerOk { s with
      completed := completed, outcome := outcome, memory := s.memory.access, coro := c } o := by
  obtain ⟨hready, hfinished⟩ := Coro.active_ne hactive
  obtain ⟨hready', hfinished'⟩ := Coro.active_ne hc
  have haccess : s.memory.access = .alive := by rw [h.alive hactive]; rfl
  cases o with
  | setContinuation | setReleased run | resume | drop | clearReleased => exact absurd h.1 hready
  | awaiting => exact ⟨hc, h.2.1, h.2.2.1, haccess⟩
  | inResume | spin => exact ⟨hready', h.2.1, h.2.2.1, haccess⟩
  | released => exact ⟨h.1, haccess.trans (if_neg hfinished').symm⟩
  | readException run | readResult run | destroy run =>
    cases run with
    | true => exact ⟨hready', h.2.1, h.2.2.1, haccess⟩
    | false => exact absurd h.1 hfinished
  | done => exact nomatch hactive.symm.trans h.1

/-- The places where the result is taken out. -/
def OwnerPc.taking : OwnerPc → Option Bool
  | .readException run | .readResult run | .destroy run => some run
  | _ => none

/-- The owner takes the result out. -/
theorem OwnerOk.takes {o o' : OwnerPc} {run : Bool} (h : OwnerOk s o) (ho : o.taking = some run)
    (ho' : o'.taking = some run) :
    OwnerOk { s with memory := s.memory.access, owner := o' } o' := by
  have hok : OwnerOk s (.destroy run) := by
    cases o with
    | readException r | readResult r | destroy r =>
      obtain rfl := Option.some.inj ho
      cases r <;> exact h
    | _ => cases ho
  have htaken : OwnerOk { s with memory := s.memory.access, owner := o' } (.destroy run) := by
    cases run with
    | true =>
      obtain ⟨hready, hreleased, hcont, hmemory⟩ := hok
      exact ⟨hready, hreleased, hcont, by rw [hmemory]; rfl⟩
    | false =>
      obtain ⟨hfinished, hmemory⟩ := hok
      exact ⟨hfinished, by rw [hmemory]; rfl⟩
  cases o' with
  | readException r | readResult r | destroy r =>
    obtain rfl := Option.some.inj ho'
    cases r <;> exact htaken
  | _ => cases ho'

/-- Before the coroutine starts there is nothing more to say. -/
theorem inv_of_ready (hok : OwnerOk s s.owner) (hready : s.coro = .ready) : Inv s where
  owner := hok
  late := by
    intro p r hp
    exact nomatch hready.symm.trans hp
  clearing := by
    intro r hp
    exact nomatch hready.symm.trans hp

theorem Inv.goOwner (h : Inv s) (hc : OwnerLast t s .owner) (hs : s.goOwner = some s') :
    Inv s' := by
  have hok := h.owner
  simp only [State.goOwner] at hs
  generalize ho : s.owner = p at hs hok ⊢
  cases p with
  | setContinuation =>
    cases hs
    obtain ⟨-, hreleased, -, hmemory⟩ := hok
    exact ⟨⟨rfl, hreleased, rfl, by rw [hmemory]; rfl⟩, nofun, nofun⟩
  | setReleased run =>
    cases hs
    obtain ⟨hready, -, hcont, hmemory⟩ := hok
    have haccess : s.memory.access = .alive := by rw [hmemory]; rfl
    refine inv_of_ready ?_ hready
    cases run with
    | true => exact ⟨hready, hcont, haccess⟩
    | false => exact ⟨rfl, haccess.trans (if_neg (by rw [hready]; nofun)).symm⟩
  | clearReleased =>
    cases hs
    obtain ⟨hready, hcont, hmemory⟩ := hok
    exact inv_of_ready ⟨hready, rfl, hcont, by rw [hmemory]; rfl⟩ hready
  | resume =>
    cases hs
    obtain ⟨-, hreleased, hcont, hmemory⟩ := hok
    exact ⟨⟨nofun, hreleased, hcont, hmemory⟩, nofun, nofun⟩
  | inResume =>
    dsimp only at hs
    split at hs
    · cases hs
    · cases hs
      exact ⟨hok, h.late, h.clearing⟩
  | spin =>
    cases hs
    obtain ⟨hready, hreleased, hcont, hmemory⟩ := hok
    have haccess : s.memory.access = .alive := by rw [hmemory]; rfl
    refine ⟨?_, h.late, h.clearing⟩
    cases hcompleted : s.completed <;> exact ⟨hready, hreleased, hcont, haccess⟩
  | readException run =>
    cases hs
    refine ⟨hok.takes rfl ?_, h.late, h.clearing⟩
    split <;> rfl
  | readResult run =>
    cases hs
    exact ⟨hok.takes rfl rfl, h.late, h.clearing⟩
  | destroy run =>
    cases hs
    -- `blockingRun()` comes last by the condition, the awaiting coroutine by the transfer
    have hlast : s.coro = .finished ∧ s.memory = .alive := by
      cases run with
      | true => exact ⟨hc ho, hok.2.2.2⟩
      | false => exact hok
    exact ⟨⟨by rw [hlast.1]; rfl, by rw [hlast.2]; rfl⟩, h.late, h.clearing⟩
  | drop =>
    cases hs
    obtain ⟨hready, hmemory⟩ := hok
    exact inv_of_ready ⟨by rw [hready]; rfl, by rw [hmemory]; rfl⟩ hready
  | awaiting | released | done => cases hs

/-- The coroutine runs, suspends, and is resumed. -/
theorem Inv.coroGoes (h : Inv s) (hactive : s.coro.active = true) {c : Coro}
    (hc : c.active = true) (hfinal : ∀ p r, c = .final p r → p = .complete ∨ p = .readReleased)
    (completed : Bool) (outcome : Option (Except E V)) : Inv { s with
      completed := completed, outcome := outcome, memory := s.memory.access, coro := c } := by
  refine ⟨h.owner.goes hactive hc completed outcome, fun p r hp hlate => ?_, fun r hp => ?_⟩
  · rcases hfinal p r hp with rfl | rfl <;> (rcases hlate with hlate | hlate <;> cases hlate)
  · rcases hfinal _ r hp with heq | heq <;> cases heq

/-- A coroutine that is active is in a queue or on its way from it, is awaited, or is run by
    `blockingRun()`; its promise tells which. -/
theorem OwnerOk.of_active {o : OwnerPc} (h : OwnerOk s o) (hactive : s.coro.active = true) :
    (o = .released ∧ s.released = true) ∨
    (o = .awaiting ∧ s.released = false ∧ s.continuation = true) ∨
    (s.released = false ∧ s.continuation = false ∧ ∀ s₁ : State E V, s₁.coro ≠ .ready →
      s₁.released = false → s₁.continuation = false → s₁.memory = .alive → OwnerOk s₁ o) := by
  obtain ⟨hready, hfinished⟩ := Coro.active_ne hactive
  cases o with
  | setContinuation | setReleased run | resume | drop | clearReleased => exact absurd h.1 hready
  | released => exact .inl ⟨rfl, h.1⟩
  | awaiting => exact .inr (.inl ⟨rfl, h.2.1, h.2.2.1⟩)
  | inResume | spin => exact .inr (.inr ⟨h.2.1, h.2.2.1, fun _ h₁ h₂ h₃ h₄ => ⟨h₁, h₂, h₃, h₄⟩⟩)
  | readException run | readResult run | destroy run =>
    cases run with
    | true => exact .inr (.inr ⟨h.2.1, h.2.2.1, fun _ h₁ h₂ h₃ h₄ => ⟨h₁, h₂, h₃, h₄⟩⟩)
    | false => exact absurd h.1 hfinished
  | done => exact nomatch hactive.symm.trans h.1

theorem Inv.goFinal (h : Inv s) (hs : s.goFinal = some s') : Inv s' := by
  have hok := h.owner
  simp only [State.goFinal] at hs
  cases hcoro : s.coro with
  | ready | running r | suspended | finished => rw [hcoro] at hs; cases hs
  | final p r =>
    have hactive : s.coro.active = true := by rw [hcoro]; rfl
    have haccess : s.memory.access = .alive := by rw [hok.alive hactive]; rfl
    rw [hcoro] at hs
    cases p with
    | complete =>
      cases hs
      refine h.coroGoes hactive rfl ?_ true s.outcome
      rintro p r ⟨⟩
      exact .inr rfl
    | readReleased =>
      dsimp only at hs
      by_cases hreleased : s.released = true
      · rw [if_pos hreleased] at hs
        cases hs
        refine ⟨?_, nofun, nofun⟩
        rcases hok.of_active hactive with ⟨ho, -⟩ | ⟨-, hnot, -⟩ | ⟨hnot, -⟩
        · rw [ho]
          refine ⟨hreleased, ?_⟩
          rw [if_pos rfl, haccess]
          rfl
        · exact nomatch hreleased.symm.trans hnot
        · exact nomatch hreleased.symm.trans hnot
      · rw [if_neg hreleased] at hs
        cases hs
        refine ⟨hok.goes hactive rfl s.completed s.outcome, fun _ _ _ _ => ?_, nofun⟩
        exact Bool.eq_false_iff.mpr hreleased
    | readContinuation =>
      cases hs
      have hreleased := h.late _ r hcoro (.inl rfl)
      by_cases hcont : s.continuation = true
      · simp only [if_pos hcont]
        exact ⟨hok.goes hactive rfl s.completed s.outcome, fun _ _ _ _ => hreleased,
          fun _ _ => hcont⟩
      · simp only [if_neg hcont]
        refine ⟨?_, nofun, nofun⟩
        rcases hok.of_active hactive with ⟨-, hnot⟩ | ⟨-, -, hset⟩ | ⟨-, hunset, hrun⟩
        · exact nomatch hreleased.symm.trans hnot
        · exact absurd hset hcont
        · exact hrun _ nofun hreleased hunset haccess
    | clearContinuation =>
      cases hs
      exact ⟨⟨rfl, haccess⟩, nofun, nofun⟩

/-- **One step** keeps the invariant if `blockingRun()` comes last. -/
theorem Inv.step (h : Inv s) {a : Act E V} (hc : OwnerLast t s a) (hs : step s a = some s') :
    Inv s' := by
  cases a with
  | owner => exact h.goOwner hc hs
  | final => exact h.goFinal hs
  | suspend =>
    simp only [TaskFrame.step] at hs
    cases hcoro : s.coro with
    | running r =>
      rw [hcoro] at hs
      cases hs
      have hactive : s.coro.active = true := by rw [hcoro]; rfl
      have hgoes := h.coroGoes (c := .suspended) hactive rfl nofun s.completed s.outcome
      rwa [h.owner.alive hactive, access_alive, ← h.owner.alive hactive] at hgoes
    | _ => rw [hcoro] at hs; cases hs
  | resume =>
    simp only [TaskFrame.step] at hs
    generalize hcoro : s.coro = q at hs ⊢
    cases q with
    | suspended =>
      cases hs
      have hactive : s.coro.active = true := by rw [hcoro]; rfl
      have hgoes := h.coroGoes (c := .running .other) hactive rfl nofun s.completed s.outcome
      rwa [h.owner.alive hactive, access_alive, ← h.owner.alive hactive] at hgoes
    | ready =>
      dsimp only at hs
      split at hs
      · rename_i ho
        cases hs
        have hok := h.owner
        rw [ho] at hok
        refine ⟨?_, nofun, nofun⟩
        rw [ho]
        refine ⟨hok.1, ?_⟩
        have hmemory := hok.2
        rwa [if_neg (by rw [hcoro]; nofun)] at hmemory
      · cases hs
    | _ => cases hs
  | finish r =>
    simp only [TaskFrame.step] at hs
    cases hcoro : s.coro with
    | running who =>
      rw [hcoro] at hs
      cases hs
      refine h.coroGoes (by rw [hcoro]; rfl) rfl ?_ s.completed (some r)
      rintro p r ⟨⟩
      exact .inl rfl
    | _ => rw [hcoro] at hs; cases hs

theorem inv_exec {use : Use} (h : Exec machine OwnerLast (init use) t s) : Inv s :=
  h.invariant (fun _ s => Inv s) (inv_init use) fun _ _ _ _ hinv hc hs => hinv.step hc hs

/-! ## Progress -/

/-- An active coroutine can go on. -/
theorem active_progress (hactive : s.coro.active = true) :
    ∃ a, OwnerLast t s a ∧ (step s a).isSome = true := by
  cases hcoro : s.coro with
  | ready | finished => rw [hcoro] at hactive; cases hactive
  | running r => exact ⟨.suspend, trivial, by simp [step, hcoro]⟩
  | suspended => exact ⟨.resume, trivial, by simp [step, hcoro]⟩
  | final p r =>
    refine ⟨.final, trivial, ?_⟩
    simp only [step, State.goFinal, hcoro]
    cases p with
    | readReleased => dsimp only; split <;> rfl
    | complete | readContinuation | clearContinuation => rfl

/-- As long as the frame is there, something can happen. -/
theorem Inv.progress (h : Inv s) (hmemory : s.memory ≠ .freed) :
    ∃ a, OwnerLast t s a ∧ (TaskFrame.step s a).isSome = true := by
  by_cases hactive : s.coro.active = true
  · exact active_progress hactive
  · have hok := h.owner
    have hrunner : s.coro.runner ≠ some .owner := by
      cases hcoro : s.coro with
      | ready | suspended | finished => nofun
      | running r | final p r => rw [hcoro] at hactive; exact absurd rfl hactive
    cases ho : s.owner with
    | awaiting => rw [ho] at hok; exact absurd hok.1 hactive
    | released =>
      rw [ho] at hok
      refine ⟨.resume, trivial, ?_⟩
      cases hcoro : s.coro with
      | ready => simp [TaskFrame.step, hcoro, ho]
      | finished =>
        have := hok.2
        rw [if_pos hcoro] at this
        exact absurd this hmemory
      | _ => rw [hcoro] at hactive; exact absurd rfl hactive
    | done => rw [ho] at hok; exact absurd hok.2 hmemory
    | destroy run =>
      refine ⟨.owner, fun heq => ?_, by simp [TaskFrame.step, State.goOwner, ho]⟩
      rw [heq] at hok
      cases hcoro : s.coro with
      | finished => rfl
      | ready => exact absurd hcoro hok.1
      | _ => rw [hcoro] at hactive; exact absurd rfl hactive
    | inResume =>
      refine ⟨.owner, fun heq => (nomatch ho.symm.trans heq), ?_⟩
      simp [TaskFrame.step, State.goOwner, ho, hrunner]
    | _ =>
      refine ⟨.owner, fun heq => (nomatch ho.symm.trans heq), ?_⟩
      simp [TaskFrame.step, State.goOwner, ho]

/-- A ledger of the invariant is one of the two good ones. -/
theorem Inv.memory_eq (h : Inv s) : s.memory = .alive ∨ s.memory = .freed := by
  have hok := h.owner
  generalize ho : s.owner = p at hok ⊢
  cases p with
  | setContinuation | setReleased run | resume | awaiting | inResume | spin =>
    exact .inl hok.2.2.2
  | drop => exact .inl hok.2
  | clearReleased => exact .inl hok.2.2
  | released =>
    have := hok.2
    split at this
    · exact .inr this
    · exact .inl this
  | readException run | readResult run | destroy run =>
    cases run with
    | true => exact .inl hok.2.2.2
    | false => exact .inl hok.2
  | done => exact .inr hok.2

/-- **The frame is destroyed once.**  For each way of using a task, and every interleaving of the
    owner with the threads that run the coroutine in which `blockingRun()` comes last, the
    promise is not accessed after the frame is destroyed, the frame is not destroyed twice, and
    when nothing can happen any more it has been destroyed. -/
theorem frame_destroyed_once (use : Use) (h : Exec machine OwnerLast (init use) t s) :
    s.memory.Sound ∧ ((∀ a, OwnerLast t s a → step s a = none) → s.memory = .freed) := by
  have hinv := inv_exec h
  refine ⟨sound_of_alive_or_freed hinv.memory_eq, fun hstuck => ?_⟩
  by_contra hmemory
  obtain ⟨a, hc, ha⟩ := hinv.progress hmemory
  rw [hstuck a hc] at ha
  cases ha

end Steps

/-! ## In and out of order -/

/-- A coroutine that suspends in `blockingRun()` and is finished by another thread. -/
def finishedElsewhere : List (Act Nat Nat) :=
  [.owner, .owner, .owner, .suspend, .owner, .resume, .finish (.ok 7), .final]

/-- The owner comes last. -/
theorem blocking_run_destroys : ∃ t, ∃ s : State Nat Nat,
    Exec machine OwnerLast (init .blockingRun) t s ∧ s.memory.frees = 1 ∧
    s.memory.Sound ∧ ((∀ a, OwnerLast t s a → step s a = none) → s.memory = .freed) := by
  have hexec : Exec machine OwnerLast (init .blockingRun : State Nat Nat) _ _ :=
    exec_run (finishedElsewhere ++ [.final, .final] ++ List.replicate 4 .owner)
  exact ⟨_, _, hexec, by decide +kernel, frame_destroyed_once .blockingRun hexec⟩

/-- **`final_suspend` reads a destroyed frame**: the owner sees `completed_`, takes the result and
    destroys the frame before the other thread reads `released_`. -/
theorem frame_used_after_destroy : ∃ t, ∃ s : State Nat Nat,
    Exec machine Always (init .blockingRun) t s ∧ s.memory.frees = 1 ∧
    s.memory.misused = true := by
  have hexec : Exec machine Always (init .blockingRun : State Nat Nat) _ _ :=
    exec_run (finishedElsewhere ++ List.replicate 4 .owner ++ [.final])
  exact ⟨_, _, hexec, by decide +kernel⟩

end TaskFrame
