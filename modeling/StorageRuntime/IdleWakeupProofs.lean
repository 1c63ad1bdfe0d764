import StorageRuntime.AdaptiveIdleProofs

/-!
# AdaptiveIdle — no wake-up is lost

One thread calls `enter_idle()` again and again, any number of threads call `notify()`.
The observer sees when the thread returns, and when a notifier takes the mutex and when
it is done.

* **`no_lost_wakeup`**: once a `notify()` that took the mutex after the last return has
  finished, the thread is not blocked, and what it waits for has happened.  The
  condition is that no increment brings the 64-bit generation back to the value that
  the thread waits to change.
* **`waits_after_full_round`**: `2 ^ 64` notifications do that.

The flag covers a thread that has not yet taken the mutex, the generation one that has;
in between the mutex keeps the notifiers out (`AdaptiveIdle.Heeds`).
-/

namespace IdleWakeup

open Function Interleaving AdaptiveIdle WordArithmetic

variable {N : Type}

inductive Thread (N : Type) where
  | idler
  | notifier (a : N)
deriving DecidableEq

@[ext]
structure State (N : Type) where
  signals : Signals (Thread N)
  /-- Where the thread is in `enter_idle()`, if it is in there. -/
  idler : Option IdlePc
  /-- Where each of the others is in `notify()`. -/
  notifier : N → Option NotifyPc

inductive Act (N : Type) where
  | enterIdle
  | goIdle
  /-- A spurious wake-up. -/
  | wake
  | notify (a : N)
  | goNotify (a : N)

inductive Event (N : Type) where
  /-- `enter_idle()` returns. -/
  | returned
  /-- The notifier took the park mutex. -/
  | locked (a : N)
  /-- `notify()` returns. -/
  | finished (a : N)
deriving DecidableEq

def init (N : Type) : State N := ⟨Signals.init, none, fun _ => none⟩

section Machine

variable [DecidableEq N]

def step (cfg : Config) (s : State N) : Act N → Option (State N)
  | .enterIdle =>
    match s.idler with
    | none => some { s with idler := some .enterTest }
    | some _ => none
  | .goIdle =>
    match s.idler with
    | none => none
    | some p => (s.signals.idle cfg .idler p).map fun x =>
      { s with signals := x.1, idler := if x.2 = .returned then none else some x.2 }
  | .wake => some { s with idler := s.idler.map IdlePc.wake }
  | .notify a =>
    match s.notifier a with
    | none => some { s with notifier := update s.notifier a (some .lock) }
    | some _ => none
  | .goNotify a =>
    match s.notifier a with
    | none => none
    | some p => (s.signals.notify (.notifier a) p).map fun x =>
      match x.2 with
      | some p' => { s with
          signals := x.1
          notifier := update s.notifier a (some p') }
      -- the last stage is `notify_one()`
      | none => { s with
          signals := x.1
          idler := s.idler.map IdlePc.wake
          notifier := update s.notifier a none }

def event (cfg : Config) (s : State N) : Act N → Option (Event N)
  | .goIdle =>
    match s.idler with
    | none => none
    | some p =>
      match s.signals.idle cfg .idler p with
      | some (_, .returned) => some .returned
      | _ => none
  | .goNotify a =>
    match s.notifier a with
    | some .lock => some (.locked a)
    | some .notifyOne => some (.finished a)
    | _ => none
  | _ => none

def machine (cfg : Config) : Machine (State N) (Act N) (Event N) := ⟨step cfg, event cfg⟩

end Machine

/-- Where the thread is, or will be when it calls `enter_idle()` next. -/
def State.pc (s : State N) : IdlePc := s.idler.getD .enterTest

/-- No increment brings the generation back to the value that the thread waits to change. -/
def Unwrapped (_ : List (Event N)) (s : State N) : Act N → Prop
  | .goNotify a => s.notifier a = some .generation →
      s.pc.captured ≠ some (wadd s.signals.generation 1)
  | _ => True

instance (t : List (Event N)) (s : State N) (act : Act N) : Decidable (Unwrapped t s act) :=
  match act with
  | .goNotify a => inferInstanceAs (Decidable (s.notifier a = some .generation → _ ≠ _))
  | .enterIdle | .goIdle | .wake | .notify .. => isTrue trivial

/-- Notifier `a` took the mutex after the last return. -/
def LockedSince (a : N) : List (Event N) → Prop
  | [] => False
  | .returned :: _ => False
  | .locked b :: t => b = a ∨ LockedSince a t
  | .finished _ :: t => LockedSince a t

/-- A `notify()` that took the mutex after the last return has finished. -/
def Notified : List (Event N) → Prop
  | [] => False
  | .returned :: _ => False
  | .locked _ :: t => Notified t
  | .finished a :: t => LockedSince a t ∨ Notified t

instance decidableLockedSince [DecidableEq N] (a : N) :
    ∀ t : List (Event N), Decidable (LockedSince a t)
  | [] => isFalse id
  | .returned :: _ => isFalse id
  | .locked b :: t => @instDecidableOr (b = a) (LockedSince a t) _ (decidableLockedSince a t)
  | .finished _ :: t => decidableLockedSince a t

instance decidableNotified [DecidableEq N] : ∀ t : List (Event N), Decidable (Notified t)
  | [] => isFalse id
  | .returned :: _ => isFalse id
  | .locked _ :: t => decidableNotified t
  | .finished a :: t => @instDecidableOr (LockedSince a t) (Notified t) _ (decidableNotified t)

/-- The thread is blocked in the condition variable. -/
def State.Waiting (s : State N) : Prop := ∃ g, s.idler = some (.parkBlocked g)

/-! ## What a step does -/

/-- The steps, with what the observer sees of them. -/
inductive StepMove [DecidableEq N] (s : State N) : Act N → Option (Event N) → State N → Prop
  | enters : s.idler = none → StepMove s .enterIdle none { s with idler := some .enterTest }
  | idles {p p' : IdlePc} {g : Signals (Thread N)} : s.idler = some p →
      Moves s.signals .idler p g p' →
      StepMove s .goIdle none { s with signals := g, idler := some p' }
  | returns {p : IdlePc} {g : Signals (Thread N)} : s.idler = some p →
      Moves s.signals .idler p g .returned →
      StepMove s .goIdle (some .returned) { s with signals := g, idler := none }
  | wakes : StepMove s .wake none { s with idler := s.idler.map IdlePc.wake }
  | calls {a : N} : s.notifier a = none →
      StepMove s (.notify a) none { s with notifier := update s.notifier a (some .lock) }
  | locks {a : N} {g : Signals (Thread N)} {p' : NotifyPc} : s.notifier a = some .lock →
      s.signals.notify (.notifier a) .lock = some (g, some p') →
      StepMove s (.goNotify a) (some (.locked a))
        { s with signals := g, notifier := update s.notifier a (some p') }
  | stages {a : N} {p p' : NotifyPc} {g : Signals (Thread N)} : s.notifier a = some p →
      p ≠ .lock → s.signals.notify (.notifier a) p = some (g, some p') →
      StepMove s (.goNotify a) none
        { s with signals := g, notifier := update s.notifier a (some p') }
  | finishes {a : N} : s.notifier a = some .notifyOne →
      StepMove s (.goNotify a) (some (.finished a))
        { s with idler := s.idler.map IdlePc.wake, notifier := update s.notifier a none }

theorem step_moves [DecidableEq N] {cfg : Config} {s s' : State N} {act : Act N}
    (h : step cfg s act = some s') : StepMove s act (event cfg s act) s' := by
  cases act with
  | enterIdle =>
    simp only [step] at h
    split at h
    next hidler =>
      cases h
      exact .enters hidler
    next => cases h
  | goIdle =>
    simp only [step] at h
    split at h
    next => cases h
    next p hidler =>
      obtain ⟨⟨g, p'⟩, hidle, rfl⟩ := Option.map_eq_some_iff.mp h
      have hm := idle_moves hidle
      simp only [event, hidler, hidle]
      by_cases hp' : p' = .returned
      · subst hp'
        exact .returns hidler hm
      · rw [if_neg hp']
        split
        next heq => exact absurd (Prod.mk.inj (Option.some.inj heq)).2 hp'
        next => exact .idles hidler hm
  | wake =>
    cases h
    exact .wakes
  | notify a =>
    simp only [step] at h
    split at h
    next hnone =>
      cases h
      exact .calls hnone
    next => cases h
  | goNotify a =>
    simp only [step] at h
    split at h
    next => cases h
    next p hp =>
      obtain ⟨⟨g, p'⟩, hnotify, rfl⟩ := Option.map_eq_some_iff.mp h
      simp only [event, hp]
      cases p' with
      | none =>
        obtain ⟨rfl, rfl⟩ := notify_returns hnotify
        exact .finishes hp
      | some p' =>
        cases p with
        | lock => exact .locks hp hnotify
        | notifyOne => cases hnotify
        | pending | generation | unlock | write => exact .stages hp nofun hnotify

/-! ## The invariant -/

/-- A notifier has incremented the generation and has still to wake the thread. -/
def State.Leaving (s : State N) : Prop := ∃ a p, s.notifier a = some p ∧ p.raises = false

/-- A notifier that took the mutex after the last return has incremented the generation and is
    still in its call. -/
def Raised (t : List (Event N)) (s : State N) : Prop :=
  ∃ a p, LockedSince a t ∧ s.notifier a = some p ∧ p.raises = false

/-- Who holds the mutex is where it should be, and the thread heeds the notifiers: while one
    of them is still in its call, that one may have to wake it; after that it needs nobody. -/
structure Inv (t : List (Event N)) (s : State N) : Prop where
  own : s.pc.holds = true → s.signals.mutex = some .idler
  calls : ∀ a p, s.notifier a = some p → NotifyOk s.signals (.notifier a) p
  raised : Raised t s → Heeds s.signals s.Leaving s.pc
  heard : Notified t → Heeds s.signals False s.pc

theorem inv_init : Inv [] (init N) := ⟨nofun, nofun, fun ⟨_, _, h, _⟩ => h.elim, fun h => h.elim⟩

section Steps

variable {t : List (Event N)} {s s' : State N} {g : Signals (Thread N)}

theorem pc_wake (s : State N) : (s.idler.map IdlePc.wake).getD .enterTest = s.pc.wake := by
  rw [State.pc]
  cases s.idler <;> rfl

theorem holds_wake {p : IdlePc} (h : p.wake.holds = true) : p.holds = true := by
  cases p with
  | parkBlocked g => cases h
  | _ => exact h

theorem pc_of_some {p : IdlePc} (h : s.idler = some p) : s.pc = p := by
  rw [State.pc, h]
  rfl

/-- What the others rely on survives a step of the thread. -/
theorem Inv.calls_idle (h : Inv t s) {p p' : IdlePc} (hp : s.idler = some p)
    (hm : Moves s.signals .idler p g p') (a : N) (q : NotifyPc) (hq : s.notifier a = some q) :
    NotifyOk g (.notifier a) q := by
  obtain ⟨hmutex, hpend⟩ := h.calls a q hq
  have hown : p.holds = true → s.signals.mutex = some .idler := pc_of_some hp ▸ h.own
  refine ⟨fun hholds => hm.mutex_other hown nofun (hmutex hholds), ?_⟩
  rintro rfl
  exact hm.pending (b := .notifier a) hown nofun (hmutex rfl) (hpend rfl)

theorem Inv.enters (h : Inv t s) (hidler : s.idler = none) :
    Inv t { s with idler := some .enterTest } := by
  have hpc : s.pc = .enterTest := by
    rw [State.pc, hidler]
    rfl
  have hraised := h.raised
  have hheard := h.heard
  rw [hpc] at hraised hheard
  exact ⟨nofun, h.calls, hraised, hheard⟩

theorem Inv.idles (h : Inv t s) {p p' : IdlePc} (hp : s.idler = some p)
    (hm : Moves s.signals .idler p g p') : Inv t { s with signals := g, idler := some p' } := by
  have hpc := pc_of_some hp
  refine ⟨hm.mutex_self (hpc ▸ h.own), h.calls_idle hp hm, fun hr => ?_, fun hn => ?_⟩
  · exact hm.heeds (hpc ▸ h.raised hr)
  · exact hm.heeds (hpc ▸ h.heard hn)

/-- After a return nothing is owed any more. -/
theorem Inv.returns (h : Inv t s) {p : IdlePc} (hp : s.idler = some p)
    (hm : Moves s.signals .idler p g .returned) :
    Inv (.returned :: t) { s with signals := g, idler := none } :=
  ⟨nofun, h.calls_idle hp hm, fun ⟨_, _, hlocked, _⟩ => hlocked.elim, fun hn => hn.elim⟩

theorem Inv.wakes (h : Inv t s) : Inv t { s with idler := s.idler.map IdlePc.wake } := by
  have hpc : (State.pc { s with idler := s.idler.map IdlePc.wake }) = s.pc.wake := pc_wake s
  refine ⟨fun hholds => ?_, h.calls, fun hr => ?_, fun hn => ?_⟩
  · rw [hpc] at hholds
    exact h.own (holds_wake hholds)
  · rw [hpc]
    exact heeds_wake (h.raised hr)
  · rw [hpc]
    exact heeds_wake (h.heard hn)

variable [DecidableEq N]

theorem Inv.calls_lock (h : Inv t s) {a : N} (ha : s.notifier a = none) :
    Inv t { s with notifier := update s.notifier a (some .lock) } := by
  refine ⟨h.own, fun b q hq => ?_, ?_, h.heard⟩
  · rcases update_cases id hq with ⟨rfl, hnew⟩ | ⟨-, hq⟩
    · cases hnew
      exact ⟨nofun, nofun⟩
    · exact h.calls b q hq
  · rintro ⟨b, q, hlocked, hq, hraises⟩
    rcases update_cases id hq with ⟨rfl, hnew⟩ | ⟨hb, hq⟩
    · cases hnew
      cases hraises
    · refine heeds_frame (h.raised ⟨b, q, hlocked, hq, hraises⟩) (fun hp => hp) rfl ?_
      rintro ⟨c, r, hr, hraises⟩
      refine ⟨c, r, ?_, hraises⟩
      rw [← hr]
      refine update_of_ne ?_ ..
      rintro rfl
      exact nomatch ha.symm.trans hr

/-- A stage of `notify()` keeps what the thread and the other notifiers rely on. -/
theorem Inv.stage_calls (h : Inv t s) {a : N} {p p' : NotifyPc}
    (hst : Stage s.signals (.notifier a) p g p') : (s.pc.holds = true → g.mutex = some .idler) ∧
      ∀ b q, update s.notifier a (some p') b = some q → NotifyOk g (.notifier b) q := by
  refine ⟨fun hholds => hst.mutex _ nofun (h.own hholds), fun b q hq => ?_⟩
  rcases update_cases id hq with ⟨rfl, hnew⟩ | ⟨hb, hq⟩
  · cases hnew
    exact hst.self
  · obtain ⟨hmutex, hpend⟩ := h.calls b q hq
    refine ⟨fun hholds => hst.mutex _ (fun heq => hb (Thread.notifier.inj heq)) (hmutex hholds),
      fun heq => hst.pending (hpend heq)⟩

/-- **The increment**: the thread heeds it wherever it is. -/
theorem Inv.raises (h : Inv t s) {a : N} (ha : s.notifier a = some .generation)
    (hnew : s.pc.captured ≠ some (wadd s.signals.generation 1)) :
    Inv t { s with
      signals := { s.signals with generation := wadd s.signals.generation 1 }
      notifier := update s.notifier a (some .unlock) } := by
  obtain ⟨hmutex, hpend⟩ := h.calls a _ ha
  have hst : Stage s.signals (.notifier a) .generation
      { s.signals with generation := wadd s.signals.generation 1 } .unlock :=
    notify_stage rfl ⟨hmutex, hpend⟩
  obtain ⟨hown, hcalls⟩ := h.stage_calls hst
  -- the notifier has the mutex, so the thread does not
  have hfree : s.pc.holds = false := by
    cases hholds : s.pc.holds with
    | false => rfl
    | true => exact nomatch (h.own hholds).symm.trans (hmutex rfl)
  refine ⟨hown, hcalls, fun _ => ?_, fun hn => heeds_raised_again (h.heard hn) hnew⟩
  refine heeds_raised (hpend rfl) hfree hnew ⟨a, .unlock, ?_, rfl⟩
  exact update_self ..

/-- The stages of `notify()` other than the increment. -/
theorem Inv.stages (h : Inv t s) {a : N} {p p' : NotifyPc} {t' : List (Event N)}
    (ha : s.notifier a = some p) (hst : Stage s.signals (.notifier a) p g p')
    (hraises : p'.raises = p.raises) (hgen : g.generation = s.signals.generation)
    (hlocked : ∀ b, (b = a → p'.raises = false) → LockedSince b t' → LockedSince b t)
    (hnotified : Notified t' → Notified t) :
    Inv t' { s with signals := g, notifier := update s.notifier a (some p') } := by
  obtain ⟨hown, hcalls⟩ := h.stage_calls hst
  refine ⟨hown, hcalls, ?_, fun hn => heeds_frame (h.heard (hnotified hn)) hst.pending hgen id⟩
  rintro ⟨b, q, hsince, hq, hq'⟩
  have hold : Raised t s := by
    rcases update_cases id hq with ⟨rfl, hnew⟩ | ⟨hb, hq⟩
    · cases hnew
      exact ⟨b, p, hlocked b (fun _ => hq') hsince, ha, hraises ▸ hq'⟩
    · exact ⟨b, q, hlocked b (fun heq => absurd heq hb) hsince, hq, hq'⟩
  refine heeds_frame (h.raised hold) hst.pending hgen ?_
  rintro ⟨c, r, hr, hr'⟩
  rcases eq_or_ne c a with rfl | hc
  · refine ⟨c, p', update_self .., ?_⟩
    obtain rfl := Option.some.inj (ha.symm.trans hr)
    rw [hraises]
    exact hr'
  · refine ⟨c, r, ?_, hr'⟩
    rw [← hr]
    exact update_of_ne hc ..

/-- **The end of a call**: whoever was blocked is woken, and needs nobody any more. -/
theorem Inv.finishes (h : Inv t s) {a : N} (ha : s.notifier a = some .notifyOne) :
    Inv (.finished a :: t) { s with
      idler := s.idler.map IdlePc.wake
      notifier := update s.notifier a none } := by
  have hpc : (s.idler.map IdlePc.wake).getD .enterTest = s.pc.wake := pc_wake s
  refine ⟨fun hholds => ?_, fun b q hq => ?_, ?_, fun hn => ?_⟩
  · exact h.own (holds_wake (hpc ▸ hholds))
  · rcases update_cases id hq with ⟨-, hnew⟩ | ⟨-, hq⟩
    · cases hnew
    · exact h.calls b q hq
  · rintro ⟨b, q, hlocked, hq, hraises⟩
    rcases update_cases id hq with ⟨-, hnew⟩ | ⟨-, hq⟩
    · cases hnew
    · rw [State.pc, hpc]
      exact heeds_wake (h.raised ⟨b, q, hlocked, hq, hraises⟩)
  · rw [State.pc, hpc]
    rcases hn with hlocked | hn
    · exact heeds_wake (h.raised ⟨a, _, hlocked, ha, rfl⟩)
    · exact heeds_wake (h.heard hn)

theorem Inv.step {act : Act N} {o : Option (Event N)} (h : Inv t s) (hun : Unwrapped t s act)
    (hm : StepMove s act o s') : Inv (note t o) s' := by
  cases hm with
  | enters hidler => exact h.enters hidler
  | idles hp hmove => exact h.idles hp hmove
  | returns hp hmove => exact h.returns hp hmove
  | wakes => exact h.wakes
  | calls ha => exact h.calls_lock ha
  | @locks a g p' ha hn =>
    have hst := notify_stage hn (h.calls a _ ha)
    rcases hst.raised with ⟨hgen, -, -⟩ | ⟨hraises, hgen⟩
    · cases hgen
    · refine h.stages ha hst hraises hgen (fun b hb hsince => ?_) fun hn => hn
      rcases hsince with rfl | hsince
      · exact nomatch hraises.symm.trans (hb rfl)
      · exact hsince
  | @stages a p p' g ha hlock hn =>
    have hst := notify_stage hn (h.calls a _ ha)
    rcases hst.raised with ⟨rfl, rfl, rfl⟩ | ⟨hraises, hgen⟩
    · exact h.raises ha (hun ha)
    · exact h.stages ha hst hraises hgen (fun _ _ hsince => hsince) fun hn => hn
  | finishes ha => exact h.finishes ha

/-- **No wake-up is lost.**  Once a `notify()` that took the mutex after the thread's last
    return has finished, the thread is not blocked, and if it still waits for a generation to
    change, that has happened. -/
theorem no_lost_wakeup {cfg : Config} (h : Exec (machine cfg) Unwrapped (init N) t s)
    (hn : Notified t) :
    ¬ s.Waiting ∧ ∀ p g, s.idler = some p → p.captured = some g → s.signals.generation ≠ g := by
  have hinv : Inv t s := by
    refine h.invariant Inv inv_init fun t s act s' hinv hc hstep => ?_
    exact hinv.step hc (step_moves hstep)
  have hheeds := hinv.heard hn
  constructor
  · rintro ⟨g, hg⟩
    rw [pc_of_some hg] at hheeds
    exact hheeds.2
  · rintro p g hp hg rfl
    rw [pc_of_some hp] at hheeds
    cases p with
    | parkTest g | parkRelock g => exact hheeds (Option.some.inj hg).symm
    | parkBlocked g => exact hheeds.2
    | _ => cases hg

end Steps

/-! ## Runs -/

/-- Neither spins nor yields. -/
def hasty : Config := ⟨0, 0⟩

/-- The thread goes down the ladder and falls asleep. -/
def fallAsleep : List (Act Unit) :=
  .enterIdle :: List.replicate 5 .goIdle ++ (.enterIdle :: List.replicate 4 .goIdle) ++
    (.enterIdle :: List.replicate 7 .goIdle)

/-- A whole `notify()`. -/
def notification : List (Act Unit) := .notify () :: List.replicate 6 (.goNotify ())

/-- A blocked thread is woken. -/
theorem sleeper_woken : ∃ t s, Exec (machine hasty) Unwrapped (init Unit) t s ∧
    Notified t ∧ s.idler = some (.parkRelock 0) ∧
    ¬ s.Waiting ∧ ∀ p g, s.idler = some p → p.captured = some g → s.signals.generation ≠ g := by
  have hexec : Exec (machine hasty) Unwrapped (init Unit) _ _ :=
    exec_run (fallAsleep ++ notification)
  exact ⟨_, _, hexec, by decide +kernel, by decide +kernel,
    no_lost_wakeup hexec (by decide +kernel)⟩

/-- A thread that was woken from its wait for generation 0 to change, and has not run since; no
    call of `notify()` is in progress. -/
def dozing (generation eventFd : Nat) : State Unit :=
  ⟨⟨.park, true, generation, eventFd, none⟩, some (.parkRelock 0), fun _ => none⟩

theorem eq_dozing {s : State Unit} {generation eventFd : Nat}
    (hsignals : s.signals = ⟨.park, true, generation, eventFd, none⟩)
    (hidler : s.idler = some (.parkRelock 0)) (hnotifier : s.notifier () = none) :
    s = dozing generation eventFd :=
  State.ext hsignals hidler (funext fun _ => hnotifier)

/-- A notification increments the generation; the thread stays where it is. -/
theorem run_notification (t : List (Event Unit)) (generation eventFd : Nat) :
    ∃ s fd, run (machine hasty) Always notification t (dozing generation eventFd) =
        some (.finished () :: .locked () :: t, s) ∧ s = dozing (wadd generation 1) fd :=
  ⟨_, _, rfl, eq_dozing rfl rfl rfl⟩

theorem run_first :
    (run (machine hasty) Always (fallAsleep ++ notification) [] (init Unit)).isSome := by
  decide +kernel

/-- Any number of notifications later. -/
theorem exec_notifications (m : Nat) : ∃ t eventFd, Notified t ∧
    Exec (machine hasty) Always (init Unit) t (dozing ((1 + m) % wordSize) eventFd) := by
  induction m with
  | zero =>
    have hend : (Option.get _ run_first).2 = dozing 1 1 :=
      eq_dozing (by decide +kernel) (by decide +kernel) (by decide +kernel)
    exact ⟨_, 1, by decide +kernel, hend ▸ exec_run _ run_first⟩
  | succ m ih =>
    obtain ⟨t, fd, hn, hrun⟩ := ih
    obtain ⟨s, fd', hnext, rfl⟩ := run_notification t ((1 + m) % wordSize) fd
    have hrun' := Exec.extend notification hrun hnext
    rw [wadd, Nat.mod_add_mod] at hrun'
    exact ⟨.finished () :: .locked () :: t, fd', .inr hn, hrun'⟩

/-- **A full round is not noticed.**  After `2 ^ 64` notifications the woken thread gets to run:
    the generation is the one it waits to change, and it blocks again, with every call of
    `notify()` finished. -/
theorem waits_after_full_round : ∃ t s, Exec (machine hasty) Always (init Unit) t s ∧
    Notified t ∧ s.notifier () = none ∧ s.Waiting := by
  obtain ⟨t, fd, hn, hrun⟩ := exec_notifications (wordSize - 1)
  have hblocks := Exec.extend [.goIdle, .goIdle] hrun rfl
  exact ⟨_, _, hblocks, hn, rfl, 0, rfl⟩

end IdleWakeup
