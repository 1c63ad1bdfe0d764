import StorageRuntime.IdleWakeupProofs

/-!
# AdaptiveIdle — the level at which `enter_idle()` returns

The runs are those of `IdleWakeup`; here the observer sees what the idling thread does:
that it calls `enter_idle()`, which phase the call goes to, at which level it consumes a
notification, and the level with which it returns.

* **`ladder_accepts`**: the level on return depends on the phase alone.  `enter_idle()`
  stores `kYield` after `idle_spin()` and `kPark` after `idle_yield()`, over the `kActive`
  that these have stored for a notification; only `idle_park()` has the last word.
* **`parked_ends_idling`**: so a call that consumes a notification in `idle_park()` returns
  with `kActive`, and the next one spins.
* **`consumed_goes_deeper`**: one that consumes it earlier does not.
-/

namespace IdleLevel

open Interleaving AdaptiveIdle IdleWakeup

variable {N : Type}

inductive Event where
  /-- `enter_idle()` is called. -/
  | entered
  /-- The call has switched on the level `l`. -/
  | phase (l : Level)
  /-- The call has found a notification at the level `l`. -/
  | consumed (l : Level)
  /-- `enter_idle()` returns and `level_` is `l`. -/
  | returned (l : Level)
deriving DecidableEq

/-- What a step from `p` to `p'` shows, if it leaves the level at `l`. -/
def shows (l : Level) : IdlePc → IdlePc → Option Event
  | _, .returned => some (.returned l)
  | .enterSwitch, _ => some (.phase l)
  | _, .spinFound => some (.consumed .spin)
  | _, .yieldFound => some (.consumed .yield)
  | _, .parkFound => some (.consumed .park)
  | _, _ => none

def event (cfg : Config) (s : State N) : Act N → Option Event
  | .enterIdle => some .entered
  | .goIdle => do
      let p ← s.idler
      let (g, p') ← s.signals.idle cfg .idler p
      shows g.level p p'
  | _ => none

def machine [DecidableEq N] (cfg : Config) : Machine (State N) (Act N) Event :=
  ⟨IdleWakeup.step cfg, event cfg⟩

/-! ## The ladder -/

/-- The phase of a call that finds the level at `l`. -/
def phaseOf : Level → Level
  | .active => .spin
  | l => l

/-- The level after a call in phase `l`. -/
def below : Level → Level
  | .spin => .yield
  | .yield => .park
  | _ => .active

/-- Where the thread is on the ladder. -/
inductive Rung where
  /-- Outside, having left the level at `l`. -/
  | resting (l : Level)
  /-- In a call that found the level at `l`. -/
  | entering (l : Level)
  | within (phase : Level)
deriving DecidableEq

/-- What may happen on the ladder.  A notification makes no difference. -/
inductive Climbs : Rung → Event → Rung → Prop where
  | enters (l : Level) : Climbs (.resting l) .entered (.entering l)
  | turns (l : Level) : Climbs (.entering l) (.phase (phaseOf l)) (.within (phaseOf l))
  | consumes (l : Level) : Climbs (.within l) (.consumed l) (.within l)
  | returns (l : Level) : Climbs (.within l) (.returned (below l)) (.resting (below l))

def ladder : TraceSpec Rung Event := ⟨.resting .active, Climbs⟩

/-- The rung of a thread at `p` in its call, with the level at `l`. -/
def OnRung (b : Rung) (l : Level) : IdlePc → Prop
  | .enterTest => b = .entering l
  | .enterSpin => b = .entering .active
  | .enterSwitch => ∃ k, b = .entering k ∧ phaseOf k = l
  | .spinRead _ | .spinFound | .spinDone => b = .within .spin
  | .yieldRead _ | .yieldFound | .yieldDone => b = .within .yield
  | .parkUnlock => b = .within .park ∧ l = .active
  | .returned => b = .resting l
  | _ => b = .within .park

def Agrees (b : Rung) (s : State N) : Prop :=
  match s.idler with
  | none => b = .resting s.signals.level
  | some p => OnRung b s.signals.level p

section Steps

variable {b : Rung} {s s' : State N}

theorem agrees_none (h : s.idler = none) : Agrees b s ↔ b = .resting s.signals.level := by
  rw [Agrees, h]

theorem agrees_some {p : IdlePc} (h : s.idler = some p) :
    Agrees b s ↔ OnRung b s.signals.level p := by
  rw [Agrees, h]

theorem Agrees.of_level (hb : Agrees b s) (hl : s'.signals.level = s.signals.level)
    (hi : s'.idler = s.idler) : Agrees b s' := by
  rw [Agrees, hi, hl]
  exact hb

/-- Being woken changes no rung. -/
theorem onRung_wake {l : Level} (p : IdlePc) : OnRung b l p.wake ↔ OnRung b l p := by
  cases p <;> rfl

theorem agrees_wake : Agrees b { s with idler := s.idler.map IdlePc.wake } ↔ Agrees b s := by
  rw [Agrees, Agrees]
  cases s.idler with
  | none => rfl
  | some p => exact onRung_wake p

/-- `notify()` leaves the level alone. -/
theorem notify_level {g g' : Signals (Thread N)} {me : Thread N} {p : NotifyPc}
    {o : Option NotifyPc} (h : g.notify me p = some (g', o)) : g'.level = g.level := by
  cases p with
  | lock =>
    obtain ⟨g₁, hlock, heq⟩ := Option.map_eq_some_iff.mp h
    obtain ⟨-, rfl⟩ := lock_eq_some hlock
    obtain ⟨rfl, -⟩ := Prod.mk.inj heq
    rfl
  | pending | generation | unlock | write | notifyOne =>
    obtain ⟨rfl, -⟩ := Prod.mk.inj (Option.some.inj h)
    rfl

/-- **A step of the idling thread climbs the ladder** or stays on its rung. -/
theorem idle_climbs {cfg : Config} {g g' : Signals (Thread N)} {me : Thread N} {p p' : IdlePc}
    (h : g.idle cfg me p = some (g', p')) (hb : OnRung b g.level p) :
    ladder.Matches (fun b => OnRung b g'.level) b p' (shows g'.level p p') := by
  cases p with
  | enterTest =>
    cases h
    obtain rfl : b = .entering g.level := hb
    cases hl : g.level with
    | active => exact rfl
    | spin | yield | park => exact ⟨_, rfl, rfl⟩
  | enterSpin =>
    cases h
    exact ⟨.active, hb, rfl⟩
  | enterSwitch =>
    cases h
    obtain ⟨k, rfl, hk⟩ := hb
    rw [← hk]
    -- the level is that of a phase, so no call goes to the default branch
    cases k <;> exact ⟨_, Climbs.turns _, rfl⟩
  | spinRead i | yieldRead i =>
    obtain rfl := hb
    simp only [Signals.idle] at h
    split at h
    next =>
      split at h
      next =>
        cases h
        exact ⟨_, Climbs.consumes _, rfl⟩
      next =>
        cases h
        exact rfl
    next =>
      cases h
      exact rfl
  | spinFound | yieldFound | parkGen =>
    cases h
    exact hb
  | spinDone | yieldDone =>
    cases h
    obtain rfl := hb
    exact ⟨_, Climbs.returns _, rfl⟩
  | parkLock | parkRelock i =>
    obtain ⟨g₁, hlock, heq⟩ := Option.map_eq_some_iff.mp h
    cases heq
    exact hb
  | parkExchange =>
    cases h
    obtain rfl := hb
    cases g.pending with
    | true => exact ⟨_, Climbs.consumes .park, rfl⟩
    | false => exact rfl
  | parkRead | parkTest i =>
    obtain rfl := hb
    simp only [Signals.idle] at h
    split at h
    next =>
      cases h
      exact ⟨_, Climbs.consumes .park, rfl⟩
    next =>
      cases h
      exact rfl
  | parkFound =>
    cases h
    exact ⟨hb, rfl⟩
  | parkUnlock =>
    cases h
    obtain ⟨rfl, hl⟩ := hb
    refine ⟨_, ?_, rfl⟩
    rw [hl]
    exact Climbs.returns .park
  | parkBlocked _ | returned => cases h

variable [DecidableEq N]

/-- **Every step climbs the ladder** or stays on its rung. -/
theorem step_climbs {cfg : Config} {act : Act N} (h : IdleWakeup.step cfg s act = some s')
    (hb : Agrees b s) : ladder.Matches Agrees b s' (event cfg s act) := by
  cases act with
  | goIdle =>
    simp only [IdleWakeup.step] at h
    split at h
    next => cases h
    next p hp =>
      obtain ⟨⟨g, p'⟩, hidle, rfl⟩ := Option.map_eq_some_iff.mp h
      have hm := idle_climbs hidle ((agrees_some hp).mp hb)
      have he : event cfg s .goIdle = shows g.level p p' := by
        simp only [event, hp, hidle, Option.bind_eq_bind, Option.bind_some]
      -- a thread that has returned rests on the level it has left
      have hend : ∀ b', OnRung b' g.level p' → Agrees b' { s with
          signals := g, idler := if p' = .returned then none else some p' } := by
        intro b' hb'
        by_cases hp' : p' = .returned
        · subst hp'
          exact hb'
        · exact (agrees_some (if_neg hp')).mpr hb'
      rw [he]
      cases hs : shows g.level p p' with
      | none =>
        rw [hs] at hm
        exact hend b hm
      | some e =>
        rw [hs] at hm
        obtain ⟨b', hclimbs, hb'⟩ := hm
        exact ⟨b', hclimbs, hend b' hb'⟩
  | enterIdle =>
    cases step_moves h with
    | enters hnone =>
      obtain rfl := (agrees_none hnone).mp hb
      exact ⟨_, Climbs.enters _, rfl⟩
  | wake =>
    cases step_moves h with
    | wakes => exact agrees_wake.mpr hb
  | notify a =>
    cases step_moves h with
    | calls _ => exact hb
  | goNotify a =>
    have hm := step_moves h
    generalize IdleWakeup.event cfg s (.goNotify a) = o at hm
    cases hm with
    | locks _ hn | stages _ _ hn => exact hb.of_level (notify_level hn) rfl
    | finishes _ => exact agrees_wake.mpr hb

/-- **The trace of every run is one of the ladder.** -/
theorem ladder_accepts {cfg : Config} {t : List Event}
    (h : Exec (machine cfg) Always (init N) t s) : ∃ b, ladder.Accepts t b ∧ Agrees b s := by
  have hstart : Agrees ladder.start (init N) := rfl
  exact h.simulates ladder Agrees hstart fun _ _ _ _ hb hstep => step_climbs hstep hb

end Steps

/-! ## Calls that consume a notification -/

/-- The present call has consumed a notification at the level `l`. -/
def ConsumedAt (l : Level) : List Event → Prop
  | [] => False
  | .entered :: _ => False
  | .consumed k :: t => k = l ∨ ConsumedAt l t
  | _ :: t => ConsumedAt l t

instance decidableConsumedAt (l : Level) : ∀ t : List Event, Decidable (ConsumedAt l t)
  | [] => isFalse id
  | .entered :: _ => isFalse id
  | .consumed k :: t => @instDecidableOr (k = l) (ConsumedAt l t) _ (decidableConsumedAt l t)
  | .phase _ :: t => decidableConsumedAt l t
  | .returned _ :: t => decidableConsumedAt l t

/-- The phase of the first call that goes to one. -/
def nextPhase : List Event → Option Level
  | [] => none
  | .phase l :: later => (nextPhase later).or (some l)
  | _ :: later => nextPhase later

section Ladder

variable {t later earlier : List Event} {b : Rung} {e : Event}

/-- Each event of an accepted trace was a step of the ladder. -/
theorem accepts_suffix (h : ladder.Accepts (later ++ e :: earlier) b) :
    ∃ b₁ b₂, ladder.Accepts earlier b₁ ∧ Climbs b₁ e b₂ := by
  induction later generalizing b with
  | nil =>
    cases h with
    | cons hacc hclimbs => exact ⟨_, _, hacc, hclimbs⟩
  | cons e' later ih =>
    cases h with
    | cons hacc _ => exact ih hacc

/-- Before its phase a call has consumed nothing. -/
theorem not_consumedAt_entering {l k : Level} (h : ladder.Accepts t (.entering l)) :
    ¬ ConsumedAt k t := by
  cases h with
  | cons _ hclimbs =>
    cases hclimbs with
    | enters _ => exact id

/-- A notification is consumed at the level of the phase. -/
theorem consumedAt_within {l k : Level} (h : ladder.Accepts t b) (hb : b = .within l)
    (hc : ConsumedAt k t) : k = l := by
  induction h with
  | nil => cases hb
  | cons hacc hclimbs ih =>
    cases hclimbs with
    | enters _ | returns _ => cases hb
    | turns _ => exact (not_consumedAt_entering hacc hc).elim
    | consumes l' =>
      obtain rfl := Rung.within.inj hb
      rcases hc with rfl | hc
      · rfl
      · exact ih rfl hc

/-- **The level on return**: it follows from the level of consumption alone. -/
theorem returned_below {l k : Level} (h : ladder.Accepts (later ++ .returned l :: earlier) b)
    (hc : ConsumedAt k earlier) : l = below k := by
  obtain ⟨b₁, b₂, hacc, hclimbs⟩ := accepts_suffix h
  cases hclimbs with
  | returns k' => rw [consumedAt_within hacc rfl hc]

theorem Climbs.rests {b b' : Rung} {l : Level} (h : Climbs b (.returned l) b') :
    b' = .resting l := by
  cases h with
  | returns _ => rfl

/-- After a return with `kActive` the level stays there until the thread spins. -/
theorem nextPhase_active (h : ladder.Accepts (later ++ .returned .active :: earlier) b) :
    nextPhase later = none ∧ (b = .resting .active ∨ b = .entering .active) ∨
      nextPhase later = some .spin := by
  induction later generalizing b with
  | nil =>
    cases h with
    | cons _ hclimbs => exact .inl ⟨rfl, .inl (Climbs.rests hclimbs)⟩
  | cons e later ih =>
    cases h with
    | cons hacc hclimbs =>
      rcases ih hacc with ⟨hnone, rfl | rfl⟩ | hspin
      · cases hclimbs with
        | enters _ => exact .inl ⟨hnone, .inr rfl⟩
      · cases hclimbs with
        | turns _ =>
          right
          rw [nextPhase, hnone]
          rfl
      · right
        cases e with
        | phase l =>
          rw [nextPhase, hspin]
          rfl
        | entered | consumed _ | returned _ => exact hspin

end Ladder

/-- **A notification consumed in `idle_park()` ends idling**: the call returns with `kActive`,
    and the next call that gets to a phase spins. -/
theorem parked_ends_idling [DecidableEq N] {cfg : Config} {t later earlier : List Event}
    {s : State N} {l : Level} (h : Exec (machine cfg) Always (init N) t s)
    (ht : t = later ++ .returned l :: earlier) (hc : ConsumedAt .park earlier) :
    l = .active ∧ ∀ k ∈ nextPhase later, k = .spin := by
  obtain ⟨b, hacc, -⟩ := ladder_accepts h
  subst ht
  obtain rfl : l = .active := returned_below hacc hc
  refine ⟨rfl, fun k hk => ?_⟩
  rcases nextPhase_active hacc with ⟨hnone, -⟩ | hspin
  · cases hnone.symm.trans hk
  · exact (Option.some.inj (hspin.symm.trans hk)).symm

/-! ## Runs -/

/-- The thread parks, is woken and idles again. -/
def parkAndWake : List (Act Unit) :=
  List.flatten [fallAsleep, notification, List.replicate 4 .goIdle,
    .enterIdle :: List.replicate 3 .goIdle]

theorem parked_ends_idling_sleeper : ∃ (later earlier : List Event) (s : State Unit) (l : Level),
    Exec (machine hasty) Always (init Unit) (later ++ .returned l :: earlier) s ∧
    ConsumedAt .park earlier ∧ nextPhase later ≠ none ∧
    l = .active ∧ ∀ k ∈ nextPhase later, k = .spin := by
  have hexec : Exec (machine hasty) Always (init Unit) _ _ :=
    exec_run parkAndWake
  exact ⟨[.phase .spin, .entered], _, _, _, hexec, by decide +kernel, by decide,
    parked_ends_idling hexec rfl (by decide +kernel)⟩

/-- A notification before the first call, and another one before the second. -/
def notifiedTwice : List (Act Unit) :=
  List.flatten [notification, .enterIdle :: List.replicate 6 .goIdle,
    notification, .enterIdle :: List.replicate 5 .goIdle]

/-- **A notification consumed earlier does not end idling.**  A call finds one while it spins
    and leaves the level at `kYield`; the next call yields, finds another and leaves the level
    at `kPark`. -/
theorem consumed_goes_deeper : ∃ (later earlier : List Event) (s : State Unit),
    Exec (machine .default) Always (init Unit) (later ++ .returned .yield :: earlier) s ∧
    ConsumedAt .spin earlier ∧ nextPhase later = some .yield ∧
    later = [.returned .park, .consumed .yield, .phase .yield, .entered] := by
  have hexec : Exec (machine .default) Always (init Unit) _ _ :=
    exec_run notifiedTwice
  exact ⟨[.returned .park, .consumed .yield, .phase .yield, .entered],
    [.consumed .spin, .phase .spin, .entered], _, hexec, by decide, by decide, rfl⟩

end IdleLevel
