import StorageRuntime.InterleavingProofs
import StorageRuntime.WordArithmeticProofs

/-!
# AdaptiveIdle — the idle ladder of `runtime/adaptive_idle.cc`

One thread idles through `enter_idle()` (spin, then yield, then park on a
condition variable); any number of threads call `notify()`.  The two
functions are given here as steps on the object's shared state `Signals`:
`Signals.idle` for the idling thread and `Signals.notify` for a notifier.
The mutex, the condition variable and the eventfd have their standard
meaning: a wait releases the mutex and blocks in one step, `notify_one`
lets the one blocked thread go on to take the mutex again, and a read of the
eventfd returns its count and clears it.

A blocked thread is at `parkBlocked g`, where `g` is the generation it read
before it waited.
-/

namespace AdaptiveIdle

open WordArithmetic

/-- `IdleLevel`. -/
inductive Level where
  | active
  | spin
  | yield
  | park
deriving DecidableEq

/-- `AdaptiveIdle::Config`. -/
structure Config where
  spinIterations : Nat
  yieldRounds : Nat

/-- The defaults of `Config`. -/
def Config.default : Config := ⟨100, 5⟩

/-- The state that the idling thread and the notifiers share.  The generation is a 64-bit
    counter that wraps around. -/
structure Signals (Agent : Type) where
  level : Level
  pending : Bool
  generation : Nat
  eventFd : Nat
  mutex : Option Agent
deriving DecidableEq

/-- Where the idling thread is in `enter_idle()`. -/
inductive IdlePc where
  /-- About to test whether the level is `kActive`. -/
  | enterTest
  /-- About to store `kSpin`. -/
  | enterSpin
  /-- About to switch on the level. -/
  | enterSwitch
  /-- `idle_spin`, about to read the eventfd in iteration `i`. -/
  | spinRead (i : Nat)
  /-- About to store `kActive`. -/
  | spinFound
  /-- `idle_spin` has returned; about to store `kYield`. -/
  | spinDone
  /-- `idle_yield`, about to read the eventfd in round `i`. -/
  | yieldRead (i : Nat)
  | yieldFound
  /-- `idle_yield` has returned; about to store `kPark`. -/
  | yieldDone
  /-- `idle_park`, about to lock the mutex. -/
  | parkLock
  /-- About to exchange `pending_notify_`. -/
  | parkExchange
  /-- About to read the eventfd. -/
  | parkRead
  /-- About to load `park_generation_`. -/
  | parkGen
  /-- `wait`: about to test its predicate against the generation `g`. -/
  | parkTest (g : Nat)
  /-- Blocked in the condition variable. -/
  | parkBlocked (g : Nat)
  /-- Woken; about to lock the mutex again. -/
  | parkRelock (g : Nat)
  /-- About to store `kActive`, holding the mutex. -/
  | parkFound
  /-- About to leave the scope of the lock. -/
  | parkUnlock
  | returned
deriving DecidableEq

/-- Where a notifier is in `notify()`. -/
inductive NotifyPc where
  | lock
  /-- About to store `pending_notify_`. -/
  | pending
  /-- About to increment `park_generation_`. -/
  | generation
  | unlock
  /-- About to write the eventfd. -/
  | write
  | notifyOne
deriving DecidableEq

/-- The largest count of an eventfd; a further write fails, and its result is ignored. -/
def eventMax : Nat := 2 ^ 64 - 2

section Steps

variable {Agent : Type}

/-- A new object. -/
def Signals.init : Signals Agent where
  level := .active
  pending := false
  generation := 0
  eventFd := 0
  mutex := none

/-- Lock the mutex; not enabled while it is held. -/
def Signals.lock (s : Signals Agent) (me : Agent) : Option (Signals Agent) :=
  match s.mutex with
  | none => some { s with mutex := some me }
  | some _ => none

/-- The next step of the idling thread `me`; not enabled while it is blocked. -/
def Signals.idle (cfg : Config) (s : Signals Agent) (me : Agent) :
    IdlePc → Option (Signals Agent × IdlePc)
  | .enterTest => some (s, if s.level = .active then .enterSpin else .enterSwitch)
  | .enterSpin => some ({ s with level := .spin }, .enterSwitch)
  | .enterSwitch =>
    some (s, match s.level with
      | .spin => .spinRead 0
      | .yield => .yieldRead 0
      | .park => .parkLock
      | .active => .returned)
  | .spinRead i =>
    if i < cfg.spinIterations then
      if 0 < s.eventFd then some ({ s with eventFd := 0 }, .spinFound)
      else some (s, .spinRead (i + 1))
    else some (s, .spinDone)
  | .spinFound => some ({ s with level := .active }, .spinDone)
  | .spinDone => some ({ s with level := .yield }, .returned)
  | .yieldRead i =>
    if i < cfg.yieldRounds then
      if 0 < s.eventFd then some ({ s with eventFd := 0 }, .yieldFound)
      else some (s, .yieldRead (i + 1))
    else some (s, .yieldDone)
  | .yieldFound => some ({ s with level := .active }, .yieldDone)
  | .yieldDone => some ({ s with level := .park }, .returned)
  | .parkLock => (s.lock me).map (fun s => (s, .parkExchange))
  | .parkExchange => some ({ s with pending := false }, if s.pending then .parkFound else .parkRead)
  | .parkRead =>
    if 0 < s.eventFd then some ({ s with eventFd := 0 }, .parkFound)
    else some (s, .parkGen)
  | .parkGen => some (s, .parkTest s.generation)
  | .parkTest g =>
    if s.generation ≠ g then some (s, .parkFound)
    else some ({ s with mutex := none }, .parkBlocked g)
  | .parkBlocked _ => none
  | .parkRelock g => (s.lock me).map (fun s => (s, .parkTest g))
  | .parkFound => some ({ s with level := .active }, .parkUnlock)
  | .parkUnlock => some ({ s with mutex := none }, .returned)
  | .returned => none

/-- The next step of a notifier `me`, with where it is then (`none` when it returns). -/
def Signals.notify (s : Signals Agent) (me : Agent) :
    NotifyPc → Option (Signals Agent × Option NotifyPc)
  | .lock => (s.lock me).map (fun s => (s, some .pending))
  | .pending => some ({ s with pending := true }, some .generation)
  | .generation => some ({ s with generation := wadd s.generation 1 }, some .unlock)
  | .unlock => some ({ s with mutex := none }, some .write)
  | .write =>
    some ({ s with eventFd := if s.eventFd < eventMax then s.eventFd + 1 else s.eventFd },
      some .notifyOne)
  | .notifyOne => some (s, none)

/-- What being woken does to the idling thread; it changes nothing unless it is blocked.
    The wake-up may be spurious. -/
def IdlePc.wake : IdlePc → IdlePc
  | .parkBlocked g => .parkRelock g
  | p => p

/-- The idling thread holds the mutex. -/
def IdlePc.holds : IdlePc → Bool
  | .parkExchange | .parkRead | .parkGen | .parkTest _ | .parkFound | .parkUnlock => true
  | _ => false

/-- The notifier holds the mutex. -/
def NotifyPc.holds : NotifyPc → Bool
  | .pending | .generation | .unlock => true
  | _ => false

/-- The notifier has not incremented the generation yet. -/
def NotifyPc.raises : NotifyPc → Bool
  | .lock | .pending | .generation => true
  | _ => false

/-- The generation that the idling thread waits to change. -/
def IdlePc.captured : IdlePc → Option Nat
  | .parkTest g | .parkBlocked g | .parkRelock g => some g
  | _ => none

/-- The idling thread is on its way to the exchange of the pending flag. -/
def IdlePc.heading : IdlePc → Bool
  | .enterTest | .enterSpin | .enterSwitch | .spinRead _ | .spinFound | .spinDone
  | .yieldRead _ | .yieldFound | .yieldDone | .parkLock => true
  | _ => false

/-! ## What a step of the idling thread does -/

/-- The steps of the idling thread, as far as the notifiers are concerned. -/
inductive Moves (s : Signals Agent) (me : Agent) : IdlePc → Signals Agent → IdlePc → Prop where
  /-- Spinning and yielding touch the level and the eventfd only. -/
  | ladder {p p' : IdlePc} (l : Level) (fd : Nat) : p.heading = true →
      (p'.heading = true ∨ p' = .returned) →
      Moves s me p { s with level := l, eventFd := fd } p'
  | lock : s.mutex = none → Moves s me .parkLock { s with mutex := some me } .parkExchange
  | taken : s.pending = true → Moves s me .parkExchange { s with pending := false } .parkFound
  | passed : s.pending = false →
      Moves s me .parkExchange { s with pending := false } .parkRead
  | drained : Moves s me .parkRead { s with eventFd := 0 } .parkFound
  | silent : Moves s me .parkRead s .parkGen
  | capture : Moves s me .parkGen s (.parkTest s.generation)
  | changed {g : Nat} : s.generation ≠ g → Moves s me (.parkTest g) s .parkFound
  | block {g : Nat} : s.generation = g →
      Moves s me (.parkTest g) { s with mutex := none } (.parkBlocked g)
  | relock {g : Nat} : s.mutex = none →
      Moves s me (.parkRelock g) { s with mutex := some me } (.parkTest g)
  | found : Moves s me .parkFound { s with level := .active } .parkUnlock
  | unlock : Moves s me .parkUnlock { s with mutex := none } .returned

theorem lock_eq_some {s s' : Signals Agent} {me : Agent} (h : s.lock me = some s') :
    s.mutex = none ∧ s' = { s with mutex := some me } := by
  rw [Signals.lock] at h
  split at h
  next hnone => exact ⟨hnone, (Option.some.inj h).symm⟩
  next => cases h

/-- Every step of the idling thread is one of those. -/
theorem idle_moves {cfg : Config} {s s' : Signals Agent} {me : Agent} {p p' : IdlePc}
    (h : s.idle cfg me p = some (s', p')) : Moves s me p s' p' := by
  have ladder : ∀ (l : Level) (fd : Nat) {q : IdlePc}, p.heading = true →
      (q.heading = true ∨ q = .returned) →
      some ({ s with level := l, eventFd := fd }, q) = some (s', p') → Moves s me p s' p' := by
    rintro l fd q hp hq heq
    cases heq
    exact Moves.ladder l fd hp hq
  cases p with
  | enterTest =>
    refine ladder s.level s.eventFd rfl (.inl ?_) h
    split <;> rfl
  | enterSpin => exact ladder .spin s.eventFd rfl (.inl rfl) h
  | enterSwitch =>
    refine ladder s.level s.eventFd rfl ?_ h
    cases s.level <;> simp [IdlePc.heading]
  | spinRead i | yieldRead i =>
    simp only [Signals.idle] at h
    split at h
    next =>
      split at h
      next => exact ladder s.level 0 rfl (.inl rfl) h
      next => exact ladder s.level s.eventFd rfl (.inl rfl) h
    next => exact ladder s.level s.eventFd rfl (.inl rfl) h
  | spinFound | yieldFound => exact ladder .active s.eventFd rfl (.inl rfl) h
  | spinDone => exact ladder .yield s.eventFd rfl (.inr rfl) h
  | yieldDone => exact ladder .park s.eventFd rfl (.inr rfl) h
  | parkLock =>
    obtain ⟨g', hlock, heq⟩ := Option.map_eq_some_iff.mp h
    obtain ⟨hnone, rfl⟩ := lock_eq_some hlock
    cases heq
    exact Moves.lock hnone
  | parkRelock g =>
    obtain ⟨g', hlock, heq⟩ := Option.map_eq_some_iff.mp h
    obtain ⟨hnone, rfl⟩ := lock_eq_some hlock
    cases heq
    exact Moves.relock hnone
  | parkExchange =>
    cases h
    cases hp : s.pending with
    | true => exact Moves.taken hp
    | false => exact Moves.passed hp
  | parkRead =>
    simp only [Signals.idle] at h
    split at h
    next =>
      cases h
      exact Moves.drained
    next =>
      cases h
      exact Moves.silent
  | parkGen =>
    cases h
    exact Moves.capture
  | parkTest g =>
    simp only [Signals.idle] at h
    split at h
    next hne =>
      cases h
      exact Moves.changed hne
    next heq =>
      cases h
      exact Moves.block (not_not.mp heq)
  | parkFound =>
    cases h
    exact Moves.found
  | parkUnlock =>
    cases h
    exact Moves.unlock
  | parkBlocked g | returned => cases h

/-- `notify()` returns after its last stage, which leaves the object alone. -/
theorem notify_returns {s s' : Signals Agent} {me : Agent} {p : NotifyPc}
    (h : s.notify me p = some (s', none)) : p = .notifyOne ∧ s' = s := by
  cases p with
  | notifyOne =>
    obtain ⟨rfl, -⟩ := Prod.mk.inj (Option.some.inj h)
    exact ⟨rfl, rfl⟩
  | lock =>
    obtain ⟨g, -, heq⟩ := Option.map_eq_some_iff.mp h
    cases heq
  | _ => cases h

/-- What a notifier can rely on where it is: it holds the mutex there, and it has set the flag
    before it raises the generation. -/
def NotifyOk (s : Signals Agent) (me : Agent) (p : NotifyPc) : Prop :=
  (p.holds = true → s.mutex = some me) ∧ (p = .generation → s.pending = true)

/-- A stage of `notify()` of `me`: nobody else loses the mutex, the flag is not cleared, and
    the generation is raised or stays. -/
structure Stage (s : Signals Agent) (me : Agent) (p : NotifyPc) (s' : Signals Agent)
    (p' : NotifyPc) : Prop where
  self : NotifyOk s' me p'
  mutex : ∀ b, b ≠ me → s.mutex = some b → s'.mutex = some b
  pending : s.pending = true → s'.pending = true
  raised : (p = .generation ∧ p' = .unlock ∧ s' = { s with generation := wadd s.generation 1 }) ∨
    (p'.raises = p.raises ∧ s'.generation = s.generation)

/-- Every stage of `notify()` is such. -/
theorem notify_stage {s s' : Signals Agent} {me : Agent} {p p' : NotifyPc}
    (h : s.notify me p = some (s', some p')) (hok : NotifyOk s me p) : Stage s me p s' p' := by
  cases p with
  | lock =>
    obtain ⟨g, hlock, heq⟩ := Option.map_eq_some_iff.mp h
    obtain ⟨hnone, rfl⟩ := lock_eq_some hlock
    obtain ⟨rfl, hp⟩ := Prod.mk.inj heq
    cases hp
    refine ⟨⟨fun _ => rfl, nofun⟩, ?_, fun hp => hp, .inr ⟨rfl, rfl⟩⟩
    exact fun _ _ hb => nomatch hnone.symm.trans hb
  | pending =>
    obtain ⟨rfl, hp⟩ := Prod.mk.inj (Option.some.inj h)
    cases hp
    exact ⟨⟨fun _ => hok.1 rfl, fun _ => rfl⟩, fun _ _ hb => hb, fun _ => rfl, .inr ⟨rfl, rfl⟩⟩
  | generation =>
    obtain ⟨rfl, hp⟩ := Prod.mk.inj (Option.some.inj h)
    cases hp
    exact ⟨⟨fun _ => hok.1 rfl, nofun⟩, fun _ _ hb => hb, fun hp => hp, .inl ⟨rfl, rfl, rfl⟩⟩
  | unlock =>
    obtain ⟨rfl, hp⟩ := Prod.mk.inj (Option.some.inj h)
    cases hp
    exact ⟨⟨nofun, nofun⟩,
      fun b hb hm => absurd (Option.some.inj (hm.symm.trans (hok.1 rfl))) hb, fun hp => hp,
      .inr ⟨rfl, rfl⟩⟩
  | write =>
    obtain ⟨rfl, hp⟩ := Prod.mk.inj (Option.some.inj h)
    cases hp
    exact ⟨⟨nofun, nofun⟩, fun _ _ hb => hb, fun hp => hp, .inr ⟨rfl, rfl⟩⟩
  | notifyOne => cases h

/-! ## What a wake-up needs -/

/-- The idling thread will return from `enter_idle()` before it blocks for good.  On its way
    to the exchange it needs the pending flag; between the exchange and the load of the
    generation only the mutex protects it; once it waits for a generation to change, that
    has happened, and if it is blocked somebody is still going to wake it (`leaving`). -/
def Heeds (s : Signals Agent) (leaving : Prop) : IdlePc → Prop
  | .parkRead | .parkGen => False
  | .parkTest g | .parkRelock g => s.generation ≠ g
  | .parkBlocked g => s.generation ≠ g ∧ leaving
  | .parkFound | .parkUnlock | .returned => True
  | _ => s.pending = true

variable {s s' : Signals Agent} {me : Agent} {p p' : IdlePc} {leaving leaving' : Prop}

theorem heeds_heading (hp : p.heading = true) : Heeds s leaving p ↔ s.pending = true := by
  cases p <;> simp_all [IdlePc.heading, Heeds]

/-- On its way to the mutex the thread does not hold it. -/
theorem holds_heading (hp : p.heading = true) : p.holds = false := by
  cases p <;> simp_all [IdlePc.heading, IdlePc.holds]

/-- A thread that will return keeps that through its own steps. -/
theorem Moves.heeds (h : Moves s me p s' p') (hh : Heeds s leaving p) : Heeds s' leaving p' := by
  cases h with
  | ladder l fd hp hp' =>
    rcases hp' with hp' | rfl
    · exact (heeds_heading hp').mpr ((heeds_heading hp).mp hh)
    · trivial
  | lock _ | relock _ => exact hh
  | passed hpend => exact absurd ((hpend.symm.trans hh : false = true)) (by decide)
  | silent | capture => exact hh.elim
  | block heq => exact absurd heq hh
  | taken _ | drained | changed _ | found | unlock => trivial

/-- The thread holds the mutex where its place in the code says so. -/
theorem Moves.mutex_self (h : Moves s me p s' p') (hown : p.holds = true → s.mutex = some me) :
    p'.holds = true → s'.mutex = some me := by
  intro hp
  cases h with
  | ladder l fd hh hh' =>
    rcases hh' with hh' | rfl
    · exact nomatch (holds_heading hh').symm.trans hp
    · cases hp
  | lock _ | relock _ => rfl
  | taken _ | passed _ | drained | silent | capture | changed _ | found => exact hown rfl
  | block _ | unlock => cases hp

/-- The thread never takes the mutex away from another. -/
theorem Moves.mutex_other (h : Moves s me p s' p') (hown : p.holds = true → s.mutex = some me)
    {b : Agent} (hb : b ≠ me) (hm : s.mutex = some b) : s'.mutex = some b := by
  cases h with
  | lock hnone | relock hnone => exact nomatch hnone.symm.trans hm
  | block _ | unlock => exact absurd (Option.some.inj (hm.symm.trans (hown rfl))) hb
  | _ => exact hm

/-- Only the holder of the mutex clears the pending flag. -/
theorem Moves.pending (h : Moves s me p s' p') (hown : p.holds = true → s.mutex = some me)
    {b : Agent} (hb : b ≠ me) (hm : s.mutex = some b) (hpend : s.pending = true) :
    s'.pending = true := by
  cases h with
  | taken _ | passed _ => exact absurd (Option.some.inj (hm.symm.trans (hown rfl))) hb
  | _ => exact hpend

/-- Waking a thread that will return is harmless. -/
theorem heeds_wake (hh : Heeds s leaving p) : Heeds s leaving' p.wake := by
  cases p with
  | parkBlocked g => exact hh.1
  | _ => exact hh

/-- What `Heeds` reads: the pending flag may be set, the generation stays, and who was going
    to wake the thread still is. -/
theorem heeds_frame (hh : Heeds s leaving p) (hpend : s.pending = true → s'.pending = true)
    (hgen : s'.generation = s.generation) (hleave : leaving → leaving') : Heeds s' leaving' p := by
  cases p with
  | parkBlocked g => exact ⟨by rw [hgen]; exact hh.1, hleave hh.2⟩
  | parkTest g | parkRelock g =>
    show s'.generation ≠ g
    rw [hgen]
    exact hh
  | parkRead | parkGen => exact hh
  | parkFound | parkUnlock | returned => trivial
  | _ => exact hpend hh

/-- **The increment of the generation is heeded**, whatever the idling thread does: it does
    not hold the mutex, the flag is set, the new generation is not the one that it waits to
    change, and the notifier has still to wake it. -/
theorem heeds_raised (hpend : s.pending = true) (hfree : p.holds = false)
    (hnew : p.captured ≠ some (wadd s.generation 1)) (hleave : leaving) :
    Heeds { s with generation := wadd s.generation 1 } leaving p := by
  have hne : ∀ g, p.captured = some g → wadd s.generation 1 ≠ g := by
    rintro g hg rfl
    exact hnew hg
  cases p with
  | parkRelock g => exact hne g rfl
  | parkBlocked g => exact ⟨hne g rfl, hleave⟩
  | parkExchange | parkRead | parkGen | parkTest g => cases hfree
  | parkFound | parkUnlock | returned => trivial
  | _ => exact hpend

/-- Raising the generation once more is harmless, unless that brings it back to the one that
    the thread waits to change. -/
theorem heeds_raised_again (hh : Heeds s leaving p)
    (hnew : p.captured ≠ some (wadd s.generation 1)) :
    Heeds { s with generation := wadd s.generation 1 } leaving p := by
  cases p with
  | parkBlocked g =>
    refine ⟨?_, hh.2⟩
    rintro rfl
    exact hnew rfl
  | parkTest g | parkRelock g =>
    rintro rfl
    exact hnew rfl
  | _ => exact hh

end Steps

end AdaptiveIdle
