import StorageRuntime.StrictPriorityProofs

/-!
# Scheduler — when a request to stop is heard

`request_stop()` sets `stop_requested_`, clears `running_` and notifies the idle
object; the worker's thread sets `running_` and then tests `stop_requested_`.

* **`request_stop_heard`**: if the thread performs that store and that load in
  order, and the generation of the idle object does not come round while the
  thread waits for it to change, then from the return of a `request_stop()` to the
  next `start()` no iteration of the loop begins and the thread is not blocked.
* `stop_missed`: if it performs the load first, `request_stop()` may fall in
  between.  Both flags then say "go on" to the thread, for good.
-/

namespace Scheduler

open Function Interleaving AdaptiveIdle WordArithmetic

variable {Item P E Agent : Type}

/-! ## What a trace says -/

/-- Agent `a` has called `request_stop()` since the last `start()`. -/
def follows [DecidableEq Agent] : List (Event Item Agent) → Agent → Bool
  | [], _ => false
  | .started :: _, _ => false
  | .stopCalled b :: t, a => if a = b then true else follows t a
  | _ :: t, a => follows t a

/-- A `request_stop()` that was called since the last `start()` has returned. -/
def stopped [DecidableEq Agent] : List (Event Item Agent) → Bool
  | [] => false
  | .started :: _ => false
  | .stopReturned a :: t => stopped t || follows t a
  | _ :: t => stopped t

/-- The event is nothing to those. -/
def Event.plain : Event Item Agent → Bool
  | .created | .iteration | .executed _ _ => true
  | _ => false

theorem follows_note [DecidableEq Agent] {t : List (Event Item Agent)}
    {o : Option (Event Item Agent)} (ho : ∀ e, o = some e → e.plain = true) (a : Agent) :
    follows (note t o) a = follows t a := by
  cases o with
  | none => rfl
  | some e =>
    have he := ho e rfl
    cases e with
    | started | stopCalled b | stopReturned b => cases he
    | created | iteration | executed f x => rfl

theorem stopped_note [DecidableEq Agent] {t : List (Event Item Agent)}
    {o : Option (Event Item Agent)} (ho : ∀ e, o = some e → e.plain = true) :
    stopped (note t o) = stopped t := by
  cases o with
  | none => rfl
  | some e =>
    have he := ho e rfl
    cases e with
    | started | stopCalled b | stopReturned b => cases he
    | created | iteration | executed f x => rfl

/-! ## The invariant -/

/-- The worker's thread holds the mutex of the idle object where its place says so. -/
def ThreadOk (g : Signals (Option Agent)) : WorkerPc Item → Prop
  | .idle p => p.holds = true → g.mutex = some none
  | .notify p => NotifyOk g none p
  | _ => True

structure Owned (s : State Item P Agent) : Prop where
  calls : ∀ a p k, s.call a = .notify p k → NotifyOk s.signals (some a) p
  worker : ThreadOk s.signals s.worker

/-- The loop will not be entered: `running_` is false, or the thread is about to find out. -/
def Sealed (s : State Item P Agent) : Prop :=
  s.running = false ∨ s.worker = .testStop ∨ s.worker = .clearRunning

/-- The thread will not block for good in the iteration that it is in. -/
def Alert (g : Signals (Option Agent)) (leaving : Prop) : WorkerPc Item → Prop
  | .body _ => g.pending = true
  | .idle p => Heeds g leaving p
  | _ => True

/-- What a `request_stop()` has achieved where it is. -/
def Progress (s : State Item P Agent) : Call Item → Prop
  | .stopRunning => s.stopRequested = true
  | .notify p true => s.stopRequested = true ∧ Sealed s ∧
      (p.raises = false → Alert s.signals True s.worker)
  | _ => True

/-- What it has achieved when it has returned. -/
structure Heard (s : State Item P Agent) : Prop where
  flag : s.stopRequested = true
  closed : Sealed s
  alert : Alert s.signals False s.worker

structure StopInv [DecidableEq Agent] (t : List (Event Item Agent)) (s : State Item P Agent) :
    Prop where
  owned : Owned s
  inOrder : ∀ stop, s.worker ≠ .setLate stop
  calls : ∀ a, follows t a = true → Progress s (s.call a)
  done : stopped t = true → Heard s

/-- A step that takes nothing back of what a `request_stop()` has achieved. -/
structure Keeps (s s' : State Item P Agent) : Prop where
  flag : s.stopRequested = true → s'.stopRequested = true
  closed : s.stopRequested = true → Sealed s → Sealed s'
  alert : ∀ l : Prop, Sealed s → Alert s.signals l s.worker → Alert s'.signals l s'.worker

/-! ## The conditions -/

/-- The generation that the thread waits to change. -/
def WorkerPc.captured : WorkerPc Item → Option Nat
  | .idle p => p.captured
  | _ => none

/-- The action increments the generation while the thread may be waiting. -/
def State.raises (s : State Item P Agent) : Act Item E Agent → Bool
  | .goCall a _ =>
    match s.call a with
    | .notify .generation _ => true
    | _ => false
  | _ => false

/-- The load is not performed before the store. -/
def Act.inOrder : Act Item E Agent → Bool
  | .goEarly => false
  | _ => true

/-- Loads and stores in order, and the generation does not come round. -/
def InOrder (_ : List (Event Item Agent)) (s : State Item P Agent) (act : Act Item E Agent) :
    Prop :=
  act.inOrder = true ∧
    (s.raises act = true → s.worker.captured ≠ some (wadd s.signals.generation 1))
deriving Decidable

/-! ## Keeping what was achieved -/

section Keeping

variable {s s' : State Item P Agent} {g g' : Signals (Option Agent)} {p : WorkerPc Item}

theorem Progress.keep {c : Call Item} (h : Progress s c) (hk : Keeps s s') : Progress s' c := by
  cases c with
  | stopRunning => exact hk.flag h
  | notify p k =>
    cases k with
    | true =>
      obtain ⟨hflag, hclosed, halert⟩ := h
      exact ⟨hk.flag hflag, hk.closed hflag hclosed,
        fun hp => hk.alert True hclosed (halert hp)⟩
    | false => trivial
  | _ => trivial

theorem Heard.keep (h : Heard s) (hk : Keeps s s') : Heard s' :=
  ⟨hk.flag h.flag, hk.closed h.flag h.closed, hk.alert False h.closed h.alert⟩

/-- A step that changes neither the flags nor the idle object nor where the thread is. -/
theorem keeps_rfl (hflag : s'.stopRequested = s.stopRequested) (hrun : s'.running = s.running)
    (hsig : s'.signals = s.signals) (hworker : s'.worker = s.worker) : Keeps s s' := by
  refine ⟨fun h => hflag.trans h, fun _ h => ?_, fun l _ h => ?_⟩
  · rwa [Sealed, hrun, hworker]
  · rwa [hsig, hworker]

/-- Waking the thread is harmless. -/
theorem alert_wake {l l' : Prop} (h : Alert g l p) : Alert g l' p.wake := by
  cases p with
  | idle p => exact heeds_wake h
  | _ => exact h

theorem sealed_wake (h : Sealed s) : Sealed { s with worker := s.worker.wake } := by
  rcases h with h | h | h
  · exact .inl h
  · exact .inr (.inl ((wake_eq (by nofun)).mpr h))
  · exact .inr (.inr ((wake_eq (by nofun)).mpr h))

theorem keeps_wake : Keeps s { s with worker := s.worker.wake } :=
  ⟨fun h => h, fun _ => sealed_wake, fun _ _ => alert_wake⟩

variable {p₀ q₀ : NotifyPc}

/-- A stage of somebody's `notify()` is harmless, unless the generation comes round. -/
theorem alert_stage {me : Option Agent} (hs : Stage g me p₀ g' q₀)
    (hnew : p₀ = .generation → p.captured ≠ some (wadd g.generation 1)) {l : Prop}
    (h : Alert g l p) : Alert g' l p := by
  cases p with
  | body p => exact hs.pending h
  | idle p =>
    rcases hs.raised with ⟨rfl, -, rfl⟩ | ⟨-, hgen⟩
    · exact heeds_raised_again h (hnew rfl)
    · exact heeds_frame h hs.pending hgen (fun hl => hl)
  | _ => trivial

/-- **Raising the generation is heeded**, wherever the thread is. -/
theorem alert_raised {a : Agent} (hmutex : g.mutex = some (some a)) (hpend : g.pending = true)
    (hok : ThreadOk g p) (hnew : p.captured ≠ some (wadd g.generation 1)) :
    Alert { g with generation := wadd g.generation 1 } True p := by
  cases p with
  | body p => exact hpend
  | idle p =>
    have hfree : p.holds = false := by
      by_contra hp
      exact nomatch (hok (by simpa using hp)).symm.trans hmutex
    exact heeds_raised hpend hfree hnew trivial
  | _ => trivial

/-- The idle object is left to others by a step of somebody else. -/
theorem notifyOk_stage {me you : Option Agent} {r : NotifyPc} (hs : Stage g you p₀ g' q₀)
    (hne : me ≠ you) (h : NotifyOk g me r) : NotifyOk g' me r :=
  ⟨fun hr => hs.mutex me hne (h.1 hr), fun hr => hs.pending (h.2 hr)⟩

theorem ThreadOk.stage {a : Agent} (hs : Stage g (some a) p₀ g' q₀) (h : ThreadOk g p) :
    ThreadOk g' p := by
  cases p with
  | idle p => exact fun hp => hs.mutex none (by nofun) (h hp)
  | notify p => exact notifyOk_stage hs (by nofun) h
  | _ => trivial

theorem ThreadOk.wake (h : ThreadOk g p) : ThreadOk g p.wake := by
  cases p with
  | idle p => cases p <;> exact h
  | _ => exact h

end Keeping

/-! ## Steps of the worker's thread -/

section Worker

variable {s s' : State Item P Agent} {w : Work Item P} {p q : WorkerPc Item}

/-- The places that a step inside an iteration or inside `on_worker_start` leads to. -/
def WorkerPc.settled : WorkerPc Item → Bool
  | .boot _ | .booting _ _ | .setRunning | .loopTest | .body _ | .idle .enterTest => true
  | _ => false

variable {b : BodyAct Item E} {cfg : Config Item P E}

theorem WorkMove.settled [DecidableEq Item] (hm : WorkMove cfg s p b w q) : q.settled = true := by
  cases hm with
  | iterates hb => next n => cases n <;> rfl
  | _ => rfl

theorem threadOk_settled {g : Signals (Option Agent)} (hq : q.settled = true) : ThreadOk g q := by
  cases q with
  | idle p =>
    cases p with
    | enterTest => nofun
    | _ => cases hq
  | notify p => cases hq
  | _ => trivial

/-- Only between the store and the test may `running_` be true. -/
theorem Sealed.running (h : Sealed s) (hp : s.worker = p) (htest : p ≠ .testStop)
    (hclear : p ≠ .clearRunning) : s.running = false := by
  rcases h with h | h | h
  · exact h
  · exact absurd (hp.symm.trans h) htest
  · exact absurd (hp.symm.trans h) hclear

/-- A step of the thread that leaves the flags and the idle object alone. -/
theorem keeps_thread {w : Work Item P} (hp : s.worker = p) (htest : p ≠ .testStop)
    (hclear : p ≠ .clearRunning)
    (halert : ∀ l : Prop, s.running = false → Alert s.signals l p → Alert s.signals l q) :
    Keeps s { s with work := w, worker := q } := by
  refine ⟨fun h => h, fun _ hc => .inl (hc.running hp htest hclear), fun l hc ha => ?_⟩
  rw [hp] at ha
  exact halert l (hc.running hp htest hclear) ha

theorem WorkMove.keeps [DecidableEq Item] (hm : WorkMove cfg s p b w q) (hp : s.worker = p) :
    Keeps s { s with work := w, worker := q } := by
  cases hm with
  | iterates hb =>
    next n =>
    refine keeps_thread hp (by nofun) (by nofun) fun l _ ha => ?_
    cases n with
    | body p | idle => exact ha
    | test => trivial
  | booted k _ | resumes _ | emits k x room i _ | leaves k room _ =>
    exact keeps_thread hp (by nofun) (by nofun) fun _ _ _ => trivial

theorem WorkMove.owned [DecidableEq Item] (hm : WorkMove cfg s p b w q) (h : Owned s) :
    Owned { s with work := w, worker := q } :=
  ⟨h.calls, threadOk_settled hm.settled⟩

/-- The steps of the thread outside the iterations, if it has not performed the load first. -/
theorem ThreadMove.keeps (hm : ThreadMove cfg s p s') (hp : s.worker = p)
    (horder : ∀ stop, p ≠ .setLate stop) : Keeps s s' := by
  cases hm with
  | sets => exact ⟨fun h => h, fun _ _ => .inr (.inl rfl), fun _ _ _ => trivial⟩
  | setsLate stop => exact absurd rfl (horder stop)
  | refuses _ => exact ⟨fun h => h, fun _ _ => .inr (.inr rfl), fun _ _ _ => trivial⟩
  | begins hstop => exact ⟨fun h => h, fun h => (nomatch hstop.symm.trans h), fun _ _ _ => trivial⟩
  | clears =>
    refine ⟨fun h => h, fun _ _ => .inl rfl, fun _ _ _ => ?_⟩
    split <;> trivial
  | notifies _ =>
    exact ⟨fun h => h, fun _ hc => .inl (hc.running hp (by nofun) (by nofun)),
      fun _ _ _ => trivial⟩
  | notified | exits _ => exact keeps_thread hp (by nofun) (by nofun) fun _ _ _ => trivial
  | enters hrun =>
    exact keeps_thread hp (by nofun) (by nofun) fun _ hr => nomatch hr.symm.trans hrun
  | idles hidle =>
    refine ⟨fun h => h, fun _ hc => .inl (hc.running hp (by nofun) (by nofun)), ?_⟩
    intro l _ ha
    rw [hp] at ha
    have hh := hidle.heeds ha
    split
    next => trivial
    next => exact hh

theorem ThreadMove.inOrder (hm : ThreadMove cfg s p s') (stop : Bool) :
    s'.worker ≠ .setLate stop := by
  cases hm with
  | setsLate _ | clears | idles _ =>
    split <;> nofun
  | _ => nofun

theorem ThreadMove.owned (hm : ThreadMove cfg s p s') (hp : s.worker = p) (h : Owned s) :
    Owned s' := by
  have hw := h.worker
  rw [hp] at hw
  cases hm with
  | sets | refuses _ | begins _ | notified | enters _ | exits _ => exact ⟨h.calls, trivial⟩
  | setsLate stop =>
    refine ⟨h.calls, ?_⟩
    split <;> trivial
  | clears =>
    refine ⟨h.calls, ?_⟩
    split
    next => trivial
    next => exact ⟨nofun, nofun⟩
  | notifies hn =>
    have hs := notify_stage hn hw
    exact ⟨fun a r k ha => notifyOk_stage hs (by nofun) (h.calls a r k ha), hs.self⟩
  | idles hidle =>
    refine ⟨fun a r k ha => ?_, ?_⟩
    · -- the notifier has the mutex where it relies on the flag
      obtain ⟨hmutex, hpend⟩ := h.calls a r k ha
      refine ⟨fun hr => hidle.mutex_other hw (by nofun) (hmutex hr), ?_⟩
      rintro rfl
      exact hidle.pending hw (by nofun) (hmutex rfl) (hpend rfl)
    · split
      next => trivial
      next => exact hidle.mutex_self hw

end Worker

/-! ## Steps of the agents -/

section Calls

variable [DecidableEq Agent] {t : List (Event Item Agent)} {s s' : State Item P Agent}
  {a : Agent} {c : Call Item}

/-- A step of the worker's thread, or another one that leaves the calls alone. -/
theorem StopInv.keep (h : StopInv t s) {o : Option (Event Item Agent)}
    (ho : ∀ e, o = some e → e.plain = true) (howned : Owned s')
    (horder : ∀ stop, s'.worker ≠ .setLate stop) (hcall : s'.call = s.call)
    (hk : Keeps s s') : StopInv (note t o) s' := by
  refine ⟨howned, horder, fun b hb => ?_, fun hs => ?_⟩
  · rw [follows_note ho] at hb
    rw [hcall]
    exact (h.calls b hb).keep hk
  · rw [stopped_note ho] at hs
    exact (h.done hs).keep hk

/-- A step of a call of agent `a`. -/
theorem StopInv.moves (h : StopInv t s) {o : Option (Event Item Agent)}
    (ho : ∀ e, o = some e → e.plain = true) (howned : Owned s')
    (horder : ∀ stop, s'.worker ≠ .setLate stop)
    (hcall : s'.call = update s.call a c) (hk : Keeps s s')
    (hself : follows t a = true → Progress s' c) : StopInv (note t o) s' := by
  refine ⟨howned, horder, fun b hb => ?_, fun hs => ?_⟩
  · rw [follows_note ho] at hb
    rw [hcall]
    rcases eq_or_ne b a with rfl | hba
    · rw [update_self]
      exact hself hb
    · rw [update_of_ne hba]
      exact (h.calls b hb).keep hk
  · rw [stopped_note ho] at hs
    exact (h.done hs).keep hk

/-- A call that moves on outside `notify()`, or to its beginning. -/
theorem Owned.moves (h : Owned s) (hcall : s'.call = update s.call a c)
    (hsig : s'.signals = s.signals) (hworker : ThreadOk s.signals s'.worker)
    (hc : ∀ p k, c = .notify p k → p = .lock) : Owned s' := by
  refine ⟨fun b p k hb => ?_, by rw [hsig]; exact hworker⟩
  rw [hcall] at hb
  rw [hsig]
  rcases update_cases id hb with ⟨rfl, hnew⟩ | ⟨-, hold⟩
  · obtain rfl := hc p k hnew
    exact ⟨nofun, nofun⟩
  · exact h.calls b p k hold

/-- A stage of `notify()`. -/
theorem Owned.stage (h : Owned s) {p q : NotifyPc} {k : Bool} {g : Signals (Option Agent)}
    (hs : Stage s.signals (some a) p g q) :
    Owned ({ s with signals := g }.setCall a (.notify q k)) := by
  refine ⟨fun b r j hb => ?_, h.worker.stage hs⟩
  rcases update_cases id hb with ⟨rfl, hnew⟩ | ⟨hba, hold⟩
  · obtain ⟨rfl, rfl⟩ := Call.notify.inj hnew
    exact hs.self
  · exact notifyOk_stage hs (fun heq => hba (Option.some.inj heq)) (h.calls b r j hold)

/-- A `request_stop()` begins. -/
theorem StopInv.stopCalled (h : StopInv t s) (a : Agent) :
    StopInv (.stopCalled a :: t) (s.setCall a .stopFlag) := by
  have hk : Keeps s (s.setCall a .stopFlag) := keeps_rfl rfl rfl rfl rfl
  refine ⟨h.owned.moves rfl rfl h.owned.worker (by nofun), h.inOrder, ?_,
    fun hs => (h.done hs).keep hk⟩
  intro b hb
  show Progress _ (update s.call a .stopFlag b)
  rcases eq_or_ne b a with rfl | hba
  · rw [update_self]
    trivial
  · rw [update_of_ne hba]
    rw [follows, if_neg hba] at hb
    exact (h.calls b hb).keep hk

/-- A `start()` resets the flag: what was requested before is void. -/
theorem StopInv.started (h : StopInv t s) (a : Agent) :
    StopInv (.started :: t) ({ s with stopRequested := false }.setCall a .startThread) :=
  ⟨h.owned.moves rfl rfl h.owned.worker (by nofun), h.inOrder, nofun, nofun⟩

/-- A `request_stop()` returns: it has just woken the thread. -/
theorem StopInv.stopReturned (h : StopInv t s) (ha : s.call a = .notify .notifyOne true) :
    StopInv (.stopReturned a :: t) ({ s with worker := s.worker.wake }.setCall a .none) := by
  have hk : Keeps s ({ s with worker := s.worker.wake }.setCall a .none) :=
    ⟨keeps_wake.flag, keeps_wake.closed, keeps_wake.alert⟩
  refine ⟨h.owned.moves rfl rfl h.owned.worker.wake (by nofun), ?_, ?_, ?_⟩
  · intro stop hw
    exact h.inOrder stop ((wake_eq (by nofun)).mp hw)
  · intro b hb
    show Progress _ (update s.call a .none b)
    rcases eq_or_ne b a with rfl | hba
    · rw [update_self]
      trivial
    · rw [update_of_ne hba]
      exact (h.calls b hb).keep hk
  · intro hs
    rcases Bool.or_eq_true_iff.mp hs with hs | hf
    · exact (h.done hs).keep hk
    · have hprog := h.calls a hf
      rw [ha] at hprog
      obtain ⟨hflag, hclosed, halert⟩ := hprog
      exact ⟨hflag, sealed_wake hclosed, alert_wake (halert rfl)⟩

/-! ## Every step keeps the invariant -/

theorem StopInv.goCall (h : StopInv t s) {s₁ : State Item P Agent} {c₀ : Call Item} {room : Bool}
    (ha : s.call a = c₀) (hm : CallMove s a room c₀ s₁ c)
    (hnew : s.raises (E := E) (.goCall a room) = true →
      s.worker.captured ≠ some (wadd s.signals.generation 1)) :
    StopInv (note t (c₀.shows a)) (s₁.setCall a c) := by
  -- what `a` itself has achieved so far
  have hmine : follows t a = true → Progress s c₀ := fun hf => ha ▸ h.calls a hf
  cases hm with
  | resets =>
    exact h.started a
  | creates hw =>
    have hk : Keeps s ({ s with work := { s.work with tls := none }, worker := .boot 0 }.setCall a
        .none) :=
      ⟨fun hf => hf, fun _ hc => .inl (hc.running hw (by nofun) (by nofun)),
        fun _ _ _ => trivial⟩
    refine h.moves (o := some .created) ?_ (h.owned.moves rfl rfl trivial (by nofun))
      (by nofun) rfl hk (fun _ => trivial)
    rintro e ⟨rfl⟩
    rfl
  | requests =>
    have hk : Keeps s ({ s with stopRequested := true }.setCall a .stopRunning) :=
      ⟨fun _ => rfl, fun _ hc => hc, fun _ _ hal => hal⟩
    exact h.moves (o := none) nofun (h.owned.moves rfl rfl h.owned.worker (by nofun))
      h.inOrder rfl hk (fun _ => rfl)
  | clears =>
    have hk : Keeps s ({ s with running := false }.setCall a (.notify .lock true)) :=
      ⟨fun hf => hf, fun _ _ => .inl rfl, fun _ _ hal => hal⟩
    refine h.moves (o := none) nofun (h.owned.moves rfl rfl h.owned.worker ?_)
      h.inOrder rfl hk (fun hf => ⟨hmine hf, .inl rfl, nofun⟩)
    rintro p k ⟨rfl, rfl⟩
    rfl
  | stage hn =>
    next p q k g =>
    have hok := h.owned.calls a p k ha
    have hs := notify_stage hn hok
    have hnew' : p = .generation → s.worker.captured ≠ some (wadd s.signals.generation 1) := by
      rintro rfl
      exact hnew (by simp only [State.raises, ha])
    have hk : Keeps s ({ s with signals := g }.setCall a (.notify q k)) :=
      ⟨fun hf => hf, fun _ hc => hc, fun _ _ hal => alert_stage hs hnew' hal⟩
    have hquiet : Call.shows a (.notify p k : Call Item) = none := by
      cases p with
      | notifyOne => cases hn
      | _ => rfl
    rw [hquiet]
    refine h.moves (o := none) nofun (h.owned.stage hs) h.inOrder rfl hk fun hf => ?_
    cases k with
    | false => trivial
    | true =>
      obtain ⟨hflag, hclosed, halert⟩ := hmine hf
      refine ⟨hflag, hclosed, fun hq => ?_⟩
      rcases hs.raised with ⟨rfl, -, rfl⟩ | ⟨hsame, -⟩
      · exact alert_raised (hok.1 rfl) (hok.2 rfl) h.owned.worker (hnew' rfl)
      · exact alert_stage hs hnew' (halert (hsame.symm.trans hq))
  | woken k =>
    cases k with
    | true =>
      exact h.stopReturned ha
    | false =>
      have hk : Keeps s ({ s with worker := s.worker.wake }.setCall a .none) :=
        ⟨keeps_wake.flag, keeps_wake.closed, keeps_wake.alert⟩
      refine h.moves (o := none) nofun (h.owned.moves rfl rfl h.owned.worker.wake (by nofun))
        (fun stop hw => ?_) rfl hk (fun _ => trivial)
      exact h.inOrder stop ((wake_eq (by nofun)).mp hw)
  | submits i item | returns i =>
    exact h.moves (o := none) nofun (h.owned.moves rfl rfl h.owned.worker (by nofun))
      h.inOrder rfl (keeps_rfl rfl rfl rfl rfl) (fun _ => trivial)

omit [DecidableEq Agent] in
/-- An iteration begins where `running_` is found true. -/
theorem begins_eq_some {p : WorkerPc Item} {running : Bool} {e : Event Item Agent}
    (h : p.begins running = some e) : e = .iteration ∧ p = .loopTest ∧ running = true := by
  simp only [WorkerPc.begins] at h
  split at h
  next =>
    split at h <;> cases h
    exact ⟨rfl, rfl, ‹_›⟩
  next => cases h

omit [DecidableEq Agent] in
theorem shows_eq_some {p : WorkerPc Item} {b : BodyAct Item E} {e : Event Item Agent}
    (h : p.shows b = some e) : ∃ f x, e = .executed f x := by
  simp only [WorkerPc.shows] at h
  split at h <;> cases h
  exact ⟨_, _, rfl⟩

theorem StopInv.step [DecidableEq Item] {cfg : Config Item P E} {act : Act Item E Agent}
    (h : StopInv t s) (hm : StepMove cfg s act s') (hc : InOrder t s act) :
    StopInv (note t (event s act)) s' := by
  cases hm with
  | works hw =>
    refine h.keep (fun e he => ?_) (hw.owned h.owned) ?_ rfl (hw.keeps rfl)
    · obtain ⟨f, x, rfl⟩ := shows_eq_some he
      rfl
    · rintro stop rfl
      exact nomatch hw.settled
  | threads ht =>
    refine h.keep (fun e he => ?_) (ht.owned rfl h.owned) ht.inOrder ht.frame.1
      (ht.keeps rfl h.inOrder)
    rw [(begins_eq_some he).1]
    rfl
  | early hw => exact nomatch hc.1
  | wakes =>
    refine h.keep (o := none) nofun ⟨h.owned.calls, h.owned.worker.wake⟩ ?_ rfl keeps_wake
    exact fun stop hw => h.inOrder stop ((wake_eq (by nofun)).mp hw)
  | joins hw =>
    exact h.keep (o := none) nofun ⟨h.owned.calls, trivial⟩ (by nofun) rfl
      (keeps_thread hw (by nofun) (by nofun) fun _ _ _ => trivial)
  | begins hb hnone =>
    cases hb with
    | stop => exact h.stopCalled _
    | start | submit i _ =>
      exact h.moves (o := none) nofun (h.owned.moves rfl rfl h.owned.worker (by nofun))
        h.inOrder rfl (keeps_rfl rfl rfl rfl rfl) (fun _ => trivial)
    | notify =>
      refine h.moves (o := none) nofun (h.owned.moves rfl rfl h.owned.worker ?_)
        h.inOrder rfl (keeps_rfl rfl rfl rfl rfl) (fun _ => trivial)
      rintro p k ⟨rfl, rfl⟩
      rfl
  | calls hm => exact h.goCall rfl hm hc.2

end Calls

/-! ## Whole runs -/

theorem event_iteration {s : State Item P Agent} {act : Act Item E Agent}
    (h : event s act = some .iteration) : s.worker = .loopTest ∧ s.running = true := by
  cases act with
  | go => exact (begins_eq_some h).2
  | work b => obtain ⟨_, _, ⟨⟩⟩ := shows_eq_some h
  | goCall a room =>
    simp only [event, Call.shows] at h
    split at h <;> cases h
  | _ => cases h

variable [DecidableEq Agent]

theorem stopInv_init (cfg : Config Item P E) (queues : List (WorkQueue.Queue Item)) :
    StopInv [] (init cfg Agent queues).toState where
  owned := ⟨nofun, trivial⟩
  inOrder := nofun
  calls := nofun
  done := nofun

variable [DecidableEq Item]

/-- **A request to stop is heard.**  For `run()` and `run_busy()`, every policy, all queues and
    tasks: from the return of a `request_stop()` that was called after `start()` to the next
    `start()` no iteration of the loop begins, and the thread is not blocked. -/
theorem request_stop_heard (cfg : Config Item P E) (queues : List (WorkQueue.Queue Item))
    {t : List (Event Item Agent)} {s : System Item P Agent}
    (hrun : Exec (machine cfg) (OnState InOrder) (init cfg Agent queues) t s)
    (hstopped : stopped t = true) :
    (∀ act s', (machine cfg).step s act = some s' → (machine cfg).event s act ≠ some .iteration) ∧
    ∀ g, s.worker ≠ .idle (.parkBlocked g) := by
  have h : StopInv t s.toState := by
    refine state_invariant hrun StopInv (stopInv_init cfg queues) ?_ ?_
    · intro t S act s' ih hc hm
      exact ih.step hm hc
    · intro t s i q q' ih _
      exact ih.keep (o := none) nofun ⟨ih.owned.calls, ih.owned.worker⟩ ih.inOrder rfl
        (keeps_rfl rfl rfl rfl rfl)
  have hheard := h.done hstopped
  refine ⟨fun act s' hstep hev => ?_, fun g hblocked => ?_⟩
  · obtain ⟨hworker, hrunning⟩ := event_iteration hev
    exact nomatch (hheard.closed.running hworker (by nofun) (by nofun)).symm.trans hrunning
  · have halert := hheard.alert
    rw [hblocked] at halert
    exact halert.2

/-! ## Runs of a worker without queues -/

/-- A worker without queues. -/
def bareConfig (busyPoll : Bool) : Config Unit StrictPriority Unit where
  priority := fun _ => .low
  affineIdx := 0
  diskIoIdx := 0
  defaultQueueIdx := 0
  busyPoll := busyPoll
  ioBackend := false
  idle := AdaptiveIdle.Config.default
  policy := strictPriority 64
  persistent := []
  may := fun _ _ => true

/-- Steps of the one agent. -/
def steps (k : Nat) : List (Act Unit Unit Unit) := List.replicate k (.goCall () true)

/-- A whole `request_stop()`. -/
def requestStop : List (Act Unit Unit Unit) := .stop () :: steps 8

/-- An iteration of `run()` that finds no work, and `k` steps of `enter_idle()`. -/
def idleRound (k : Nat) : List (Act Unit Unit Unit) :=
  [.go, .work .go, .work (.decide ())] ++ List.replicate k .go

/-- The worker is started, finds no work, and goes up the ladder until it is blocked. -/
def fallAsleep : List (Act Unit Unit Unit) :=
  .start () :: steps 2 ++ [.work .go, .go, .go] ++ idleRound 105 ++ idleRound 9 ++ idleRound 7

/-- A blocked worker is woken and will leave. -/
theorem blocked_worker_hears : ∃ (t : List (Event Unit Unit)) (s : System Unit StrictPriority Unit),
      Exec (machine (bareConfig false)) (OnState InOrder) (init (bareConfig false) Unit []) t s ∧
      stopped t = true ∧ s.worker = .idle (.parkRelock 0) ∧
      ∀ g, s.worker ≠ .idle (.parkBlocked g) := by
  have hrun : Exec (machine (bareConfig false)) (OnState InOrder)
      (init (bareConfig false) Unit []) _ _ := exec_run (fallAsleep ++ requestStop)
  exact ⟨_, _, hrun, by decide +kernel, by decide +kernel,
    (request_stop_heard _ _ hrun (by decide +kernel)).2⟩

/-- The thread has performed the load and not yet the store when `request_stop()` comes. -/
def missed : List (Act Unit Unit Unit) :=
  .start () :: steps 2 ++ [.work .go, .goEarly] ++ requestStop ++ [.go]

/-- An iteration of a worker without queues. -/
def iteration : Bool → List (Act Unit Unit Unit)
  | true => .go :: List.replicate 5 (.work .go)
  | false => idleRound 6

/-- `request_stop()` has returned, there was no further `start()`, and the thread has begun two
    iterations since. -/
def StopMissed (busyPoll : Bool) : Prop :=
  ∃ (after before : List (Event Unit Unit)) (s : System Unit StrictPriority Unit),
    Exec (machine (bareConfig busyPoll)) Always (init (bareConfig busyPoll) Unit [])
      (after ++ .stopReturned () :: before) s ∧
    stopped (after ++ .stopReturned () :: before) = true ∧
    after = [.iteration, .iteration]

/-- **A request to stop is missed**, in `run()` and in `run_busy()`. -/
theorem stop_missed : StopMissed false ∧ StopMissed true := by
  constructor
  · have hrun : Exec (machine (bareConfig false)) Always (init (bareConfig false) Unit []) _ _ :=
      exec_run (missed ++ iteration false ++ iteration false)
    exact ⟨[.iteration, .iteration], _, _, hrun, by decide +kernel, rfl⟩
  · have hrun : Exec (machine (bareConfig true)) Always (init (bareConfig true) Unit []) _ _ :=
      exec_run (missed ++ iteration true ++ iteration true)
    exact ⟨[.iteration, .iteration], _, _, hrun, by decide +kernel, rfl⟩

end Scheduler
