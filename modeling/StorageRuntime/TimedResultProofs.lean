import StorageRuntime.TimedExpiryProofs
import Mathlib.Data.Fintype.Basic

/-!
# AffinityBaton — what a timed wait reports

`wait_for` returns what `timed_out` says when the coroutine finally runs.  What it should
report is a matter of the order of events: `firedFirst` says that the wait's own deadline
fired before a user's `post()` reached the waiter, and `userPostSinceReset` that a user's
`post()` took effect after the last `reset()`.

* **`signaled_without_post`**: the expiry of one wait makes another report `kSignaled`
  although nobody called `post()`.
* **`timeout_after_post`**: a wait that a user's `post()` has taken out of the chain reports
  `kTimeout`, because its timer expires before the coroutine runs.
* **`wait_reports_cause`**: in every run that is `Attributable`, each `wait_for` that returns
  reports `kTimeout` exactly if its own deadline fired first, and `kSignaled` only after a
  user's `post()`.

The invariant follows one timed wait through its places: before its push its flag is clear
and it has no timer; while it is suspended its flag says whether its deadline has fired first,
and whoever claimed it was a user whose post still stands, or its own expiry; after that the
flag no longer changes.
-/

namespace AffinityBaton

open Function Interleaving IntrusiveChain ThreadAffinity

variable {Agent : Type}

/-! ## Reading a trace -/

def Poster.isUser : Poster Agent → Bool
  | .post | .postDirect => true
  | .expiry _ _ => false

/-- A user's `post()` took effect since the last `reset()`. -/
def userPostSinceReset : List (Event Agent) → Bool
  | [] => false
  | .exchanged _ p :: t => p.isUser || userPostSinceReset t
  | .reset _ :: _ => false
  | _ :: t => userPostSinceReset t

section Reading

variable [DecidableEq Agent]

/-- Wait `k` of `c` was pushed. -/
def pushedIn (c : Agent) (k : Nat) : List (Event Agent) → Bool
  | [] => false
  | .pushed w _ k' :: t => decide (w = c ∧ k' = some k) || pushedIn c k t
  | _ :: t => pushedIn c k t

/-- Whose exchange was the first after the push of wait `k` of `c`, and so took it out of the
    chain. -/
def reachedBy (c : Agent) (k : Nat) : List (Event Agent) → Option (Poster Agent)
  | [] => none
  | .exchanged _ p :: t =>
    match reachedBy c k t with
    | some q => some q
    | none => if pushedIn c k t = true then some p else none
  | _ :: t => reachedBy c k t

/-- A user's `post()` has reached the waiter of wait `k` of `c`. -/
def reachedByUser (c : Agent) (k : Nat) (t : List (Event Agent)) : Bool :=
  match reachedBy c k t with
  | some p => p.isUser
  | none => false

/-- The deadline of wait `k` of `c` fired before any user's `post()` reached the waiter. -/
def firedFirst (c : Agent) (k : Nat) : List (Event Agent) → Bool
  | [] => false
  | .fired c' k' :: t => (decide (c' = c ∧ k' = k) && !reachedByUser c k t) || firedFirst c k t
  | _ :: t => firedFirst c k t

/-- What had happened when `c` was last resumed, or last went past a posted baton. -/
def atWake (c : Agent) : List (Event Agent) → List (Event Agent)
  | [] => []
  | .resumed _ w _ :: t => if w = c then t else atWake c t
  | .passed w :: t => if w = c then t else atWake c t
  | _ :: t => atWake c t

/-- What the returns of a trace report is what happened. -/
def Reports (t : List (Event Agent)) : Prop :=
  ∀ c k r t', (.returned c k r :: t') <:+ t → (r = .kTimeout ↔ firedFirst c k t' = true) ∧
    (r = .kSignaled → userPostSinceReset (atWake c t') = true)

end Reading

/-! ## The conditions -/

/-- `await_suspend()` of a timed wait is on a worker thread. -/
def RoutedAt (n : WaiterNode) : Pc Agent → Prop
  | .awaitSuspend (.timed _) => n.route.isSet = true
  | _ => True

/-- Every `wait_for` has a positive timeout and suspends on a worker thread. -/
def OnWorkers : List (Event Agent) → State Agent → Act Agent → Prop
  | _, _, .waitFor _ timeout => 0 < timeout
  | _, s, .go a n _ => RoutedAt n (s.pc a)
  | _, _, _ => True

section Conditions

variable [DecidableEq Agent]

/-- A timed wait of `w` is in the chain. -/
def TimedInChain (t : List (Event Agent)) (s : State Agent) (w : Agent) : Prop :=
  (s.pc w).inTimedWait = true ∧ pushedIn w (s.epoch w) t = true ∧
    reachedBy w (s.epoch w) t = none

/-- The condition on runs, place by place:
    a timed wait goes past a posted baton only after a user's `post()` since the last reset;
    an expiry stores `timed_out` only while its own wait is in the chain or its coroutine is
    in no timed wait; its `post()` takes no other timed wait out of the chain; and a `reset()`
    takes effect only while no timed wait is suspended. -/
def AttributableAt (t : List (Event Agent)) (s : State Agent) (spurious : Bool) :
    Pc Agent → Prop
  | .awaitReady (.timed _) => s.ready = true → userPostSinceReset t = true
  | .awaitSuspend (.timed _) => s.ready = true → userPostSinceReset t = true
  | .pushCas (.timed _) _ => s.ready = true → userPostSinceReset t = true
  | .onExpire c k => reachedBy c k t = none ∨ (s.pc c).inTimedWait = false
  | .exchange (.expiry c k) => ∀ w, TimedInChain t s w → w = c ∧ s.epoch w = k
  | .resetCas old =>
    s.word = old ∧ spurious = false →
      ∀ w, (s.pc w).isSuspended = true → (s.pc w).inTimedWait = false
  | _ => True

def Attributable : List (Event Agent) → State Agent → Act Agent → Prop
  | t, s, .go a _ spurious => AttributableAt t s spurious (s.pc a)
  | _, _, _ => True

/-- Both together. -/
def Attributed (t : List (Event Agent)) (s : State Agent) (act : Act Agent) : Prop :=
  OnWorkers t s act ∧ Attributable t s act

end Conditions

instance (n : WaiterNode) (p : Pc Agent) : Decidable (RoutedAt n p) :=
  match p with
  | .awaitSuspend (.timed _) => inferInstanceAs (Decidable (n.route.isSet = true))
  | .awaitSuspend .plain | .idle | .awaitReady _ | .pushCas .. | .suspended _ | .awaitResume _
  | .onExpire .. | .exchange _ | .resumeChain .. | .resumeNode .. | .reset | .resetCas _ =>
    isTrue trivial

instance (t : List (Event Agent)) (s : State Agent) (act : Act Agent) :
    Decidable (OnWorkers t s act) :=
  match act with
  | .waitFor _ timeout => inferInstanceAs (Decidable (0 < timeout))
  | .go a n _ => inferInstanceAs (Decidable (RoutedAt n (s.pc a)))
  | .coAwait _ | .post _ | .postDirect _ | .reset _ | .expire .. => isTrue trivial

section Decide

variable [DecidableEq Agent] [Fintype Agent]

instance (t : List (Event Agent)) (s : State Agent) (w : Agent) :
    Decidable (TimedInChain t s w) :=
  inferInstanceAs (Decidable (_ ∧ _ ∧ _))

instance (t : List (Event Agent)) (s : State Agent) (spurious : Bool) (p : Pc Agent) :
    Decidable (AttributableAt t s spurious p) :=
  match p with
  | .awaitReady (.timed _) | .awaitSuspend (.timed _) | .pushCas (.timed _) _ =>
    inferInstanceAs (Decidable (_ → _))
  | .onExpire .. => inferInstanceAs (Decidable (_ ∨ _))
  | .exchange (.expiry c k) =>
    inferInstanceAs (Decidable (∀ w, TimedInChain t s w → w = c ∧ s.epoch w = k))
  | .resetCas _ => inferInstanceAs (Decidable (_ ∧ _ → ∀ w, (s.pc w).isSuspended = true → _ = _))
  | .awaitReady .plain | .awaitSuspend .plain | .pushCas .plain _ | .exchange .post
  | .exchange .postDirect | .idle | .suspended _ | .awaitResume _ | .resumeChain ..
  | .resumeNode .. | .reset => isTrue trivial

instance (t : List (Event Agent)) (s : State Agent) (act : Act Agent) :
    Decidable (Attributable t s act) :=
  match act with
  | .go a _ spurious => inferInstanceAs (Decidable (AttributableAt t s spurious (s.pc a)))
  | .waitFor .. | .coAwait _ | .post _ | .postDirect _ | .reset _ | .expire .. => isTrue trivial

instance (t : List (Event Agent)) (s : State Agent) (act : Act Agent) :
    Decidable (Attributed t s act) :=
  inferInstanceAs (Decidable (_ ∧ _))

end Decide

/-! ## What events change -/

section Facts

variable [DecidableEq Agent]

/-- The two traces say the same about pushes, exchanges, deadlines and user posts. -/
structure SameFacts (t t' : List (Event Agent)) : Prop where
  pushed : ∀ c k, pushedIn c k t' = pushedIn c k t
  reached : ∀ c k, reachedBy c k t' = reachedBy c k t
  fired : ∀ c k, firedFirst c k t' = firedFirst c k t
  user : userPostSinceReset t' = userPostSinceReset t

theorem sameFacts_refl (t : List (Event Agent)) : SameFacts t t :=
  ⟨fun _ _ => rfl, fun _ _ => rfl, fun _ _ => rfl, rfl⟩

/-- Events that are none of these. -/
def Event.Minor : Event Agent → Prop
  | .pushed _ _ k => k = none
  | .exchanged _ _ => False
  | .reset _ => False
  | .fired _ _ => False
  | _ => True

theorem sameFacts_minor {e : Event Agent} (h : e.Minor) (t : List (Event Agent)) :
    SameFacts t (e :: t) := by
  cases e with
  | pushed w n k =>
    obtain rfl : k = none := h
    exact ⟨fun c k => by simp [pushedIn], fun _ _ => rfl, fun _ _ => rfl, rfl⟩
  | exchanged a p | reset a | fired c k => exact h.elim
  | _ => exact ⟨fun _ _ => rfl, fun _ _ => rfl, fun _ _ => rfl, rfl⟩

/-- Only what was pushed can be reached. -/
theorem pushedIn_of_reachedBy {c : Agent} {k : Nat} {p : Poster Agent} :
    ∀ {t : List (Event Agent)}, reachedBy c k t = some p → pushedIn c k t = true := by
  intro t
  induction t generalizing p with
  | nil => intro h; cases h
  | cons e t ih =>
    intro h
    cases e with
    | pushed w n k' => rw [pushedIn, ih h, Bool.or_true]
    | exchanged a q =>
      rw [reachedBy] at h
      cases hr : reachedBy c k t with
      | some q' => exact ih hr
      | none =>
        rw [hr] at h
        by_cases hp : pushedIn c k t = true
        · exact hp
        · rw [if_neg hp] at h
          cases h
    | _ => exact ih h

/-- After an exchange everything that was pushed has been reached. -/
theorem reachedBy_exchanged {c : Agent} {k : Nat} (a : Agent) (p : Poster Agent)
    {t : List (Event Agent)} (h : pushedIn c k t = true) : reachedBy c k (.exchanged a p :: t) =
      some (match reachedBy c k t with | some q => q | none => p) := by
  rw [reachedBy]
  cases reachedBy c k t with
  | some q => rfl
  | none => exact if_pos h

end Facts

/-! ## The invariant -/

/-- The story of timed wait `k` of `c`, whose flag is `flag`, at place `p`. -/
def Story [DecidableEq Agent] (t : List (Event Agent)) (c : Agent) (k : Nat) (flag : Bool) :
    Pc Agent → Prop
  | .awaitReady (.timed timeout) | .awaitSuspend (.timed timeout)
  | .pushCas (.timed timeout) _ => 0 < timeout ∧ flag = false ∧ pushedIn c k t = false
  | .suspended (.timed _) =>
    pushedIn c k t = true ∧ flag = firedFirst c k t ∧ ∀ p, reachedBy c k t = some p →
        (p.isUser = true ∧ userPostSinceReset t = true) ∨ flag = true
  | .awaitResume (.timed _) =>
    flag = firedFirst c k t ∧ (flag = false → userPostSinceReset (atWake c t) = true)
  | _ => True

/-- All stories, and what is known about timers and expiries. -/
structure TimedInv [DecidableEq Agent] (t : List (Event Agent)) (b : Lifecycle Agent)
    (s : State Agent) : Prop where
  story : ∀ c, Story t c (s.epoch c) (s.timedOut c) (s.pc c)
  bound : ∀ c k, pushedIn c k t = true → k ≤ s.epoch c
  /-- A wait that was pushed and not reached is the present one, in the chain. -/
  waiting : ∀ c k, pushedIn c k t = true → reachedBy c k t = none →
    s.epoch c = k ∧ (∃ n, b.phase c = .waiting n) ∧ ∃ timeout, s.pc c = .suspended (.timed timeout)
  fired : ∀ c k, firedFirst c k t = true → pushedIn c k t = true
  timers : ∀ c k, (c, k) ∈ s.timers → pushedIn c k t = true
  expiring : ∀ a c k, s.pc a = .onExpire c k → pushedIn c k t = true
  /-- An expiry that is about to post has set the flag of its wait, if that wait is still on. -/
  flagged : ∀ a c k, s.pc a = .exchange (.expiry c k) → pushedIn c k t = true ∧
    (s.epoch c = k → (s.pc c).inTimedWait = true → s.timedOut c = true)

section Inv

variable [DecidableEq Agent]

theorem timedInv_init : TimedInv [] ⟨false, fun _ => .out⟩ (init : State Agent) where
  story _ := trivial
  bound _ _ h := nomatch h
  waiting _ _ h := nomatch h
  fired _ _ h := nomatch h
  timers _ _ h := nomatch h
  expiring _ _ _ h := nomatch h
  flagged _ _ _ h := nomatch h

variable {p : Pc Agent} {flag : Bool} {k : Nat} {c a : Agent} {t t' : List (Event Agent)}
  {s s' : State Agent} {b : Lifecycle Agent} {timeout : Int} {old : Tagged Agent} {n : WaiterNode}
  {w : Wait}

/-- Who took a suspended timed wait out of the chain. -/
theorem story_reached (h : Story t c k flag p) (hs : p.isSuspended = true)
    (hw : p.inTimedWait = true) : pushedIn c k t = true ∧ ∀ q, reachedBy c k t = some q →
      (q.isUser = true ∧ userPostSinceReset t = true) ∨ flag = true := by
  cases p with
  | suspended w =>
    cases w with
    | plain => cases hw
    | timed timeout => exact ⟨h.1, h.2.2⟩
  | _ => cases hs

/-- There is no story to tell outside timed waits. -/
theorem story_of_not_timed (h : p.inTimedWait = false) : Story t c k flag p := by
  unfold Story
  split <;> trivial

/-- A story goes on with a trace that says the same about this wait; for a suspended wait it
    remains to show who took it out of the chain. -/
theorem story_step (h : Story t c k flag p) (hp : pushedIn c k t' = pushedIn c k t)
    (hf : firedFirst c k t' = firedFirst c k t) (hw : atWake c t' = atWake c t)
    (hr : p.isSuspended = true → p.inTimedWait = true → ∀ q, reachedBy c k t' = some q →
      (q.isUser = true ∧ userPostSinceReset t' = true) ∨ flag = true) : Story t' c k flag p := by
  cases p with
  | awaitReady w | awaitSuspend w | pushCas w old =>
    cases w with
    | plain => trivial
    | timed timeout => exact ⟨h.1, h.2.1, hp.trans h.2.2⟩
  | suspended w =>
    cases w with
    | plain => trivial
    | timed timeout => exact ⟨hp.trans h.1, h.2.1.trans hf.symm, hr rfl rfl⟩
  | awaitResume w =>
    cases w with
    | plain => trivial
    | timed timeout => exact ⟨h.1.trans hf.symm, fun hflag => by rw [hw]; exact h.2 hflag⟩
  | _ => trivial

/-- A story depends on the facts of the trace only. -/
theorem story_same (hf : SameFacts t t') (hw : atWake c t' = atWake c t) (h : Story t c k flag p) :
    Story t' c k flag p := by
  refine story_step h (hf.pushed c k) (hf.fired c k) hw (fun hs htw q hq => ?_)
  rw [hf.user]
  exact (story_reached h hs htw).2 q ((hf.reached c k).symm.trans hq)

/-- A deadline fires first only in a wait that was pushed. -/
theorem firedFirst_of_not_pushed (hi : TimedInv t b s) (h : pushedIn c k t = false) :
    firedFirst c k t = false := by
  by_contra hf
  have := hi.fired c k ((Bool.not_eq_false _).mp hf)
  rw [h] at this
  cases this

/-- Who is in a timed wait after the move of `a` was in one before. -/
theorem timed_of_update (h : p.inTimedWait = true → (s.pc a).inTimedWait = true)
    (hw : (update s.pc a p c).inTimedWait = true) : (s.pc c).inTimedWait = true := by
  rcases update_cases Pc.inTimedWait hw with ⟨rfl, hp⟩ | ⟨-, hc⟩
  · exact h hp
  · exact hc

/-- One agent moves, not into or out of a timed suspension and not into a new wait. -/
theorem timedInv_move {b' : Lifecycle Agent} (hi : TimedInv t b s) (hf : SameFacts t t')
    (hpc : s'.pc = update s.pc a p) (hold : (s.pc a).isSuspended = false)
    (htimed : p.inTimedWait = true →
      (s.pc a).inTimedWait = true) (hwake : ∀ c, c ≠ a → atWake c t' = atWake c t)
    (hepoch : s'.epoch = s.epoch) (hflag : s'.timedOut = s.timedOut)
    (htimers : ∀ x ∈ s'.timers, x ∈ s.timers) (hphase : ∀ c, c ≠ a → b'.phase c = b.phase c)
    (hstory : Story t' a (s.epoch a) (s.timedOut a) p)
    (hexp : ∀ c k, p = .onExpire c k → pushedIn c k t = true)
    (hexch : ∀ c k, p ≠ .exchange (.expiry c k)) : TimedInv t' b' s' := by
  refine ⟨?_, ?_, ?_, ?_, ?_, ?_, ?_⟩
  · rw [hpc, hepoch, hflag]
    exact forall_update_of_ne (P := fun c p => Story t' c (s.epoch c) (s.timedOut c) p)
      (fun c hc => story_same hf (hwake c hc) (hi.story c)) hstory
  · intro c k hp
    rw [hepoch]
    exact hi.bound c k ((hf.pushed c k).symm.trans hp)
  · intro c k hp hr
    obtain ⟨he, ⟨n, hn⟩, timeout, hs⟩ := hi.waiting c k ((hf.pushed c k).symm.trans hp)
      ((hf.reached c k).symm.trans hr)
    have hca : c ≠ a := fun h => by rw [h] at hs; rw [hs] at hold; cases hold
    rw [hpc, hepoch, update_of_ne hca]
    exact ⟨he, ⟨n, (hphase c hca).trans hn⟩, timeout, hs⟩
  · exact fun c k h => (hf.pushed c k).trans (hi.fired c k ((hf.fired c k).symm.trans h))
  · exact fun c k h => (hf.pushed c k).trans (hi.timers c k (htimers _ h))
  · intro a' c k h
    rw [hpc] at h
    rw [hf.pushed]
    rcases update_cases id h with ⟨-, h⟩ | ⟨-, h⟩
    · exact hexp c k h
    · exact hi.expiring a' c k h
  · intro a' c k h
    rw [hpc] at h ⊢
    obtain ⟨hp, hfl⟩ := hi.flagged a' c k (of_update h (hexch c k)).2
    rw [hepoch, hflag]
    exact ⟨(hf.pushed c k).trans hp, fun he hw => hfl he (timed_of_update htimed hw)⟩

/-- A coroutine begins a timed wait: a new epoch, a clear flag and no timer. -/
theorem timedInv_waitFor (hi : TimedInv t b s) (ha : s.pc a = .idle) (hpos : 0 < timeout) :
    TimedInv t b (State.setPc { s with
      epoch := update s.epoch a (s.epoch a + 1)
      timedOut := update s.timedOut a false } a (.awaitReady (.timed timeout))) := by
  have hepoch : ∀ c, s.epoch c ≤ update s.epoch a (s.epoch a + 1) c :=
    forall_update (P := fun c e => s.epoch c ≤ e) (fun _ => Nat.le_refl _) (Nat.le_succ _)
  refine ⟨fun c => ?_, fun c k hp => Nat.le_trans (hi.bound c k hp) (hepoch c), ?_, hi.fired,
    hi.timers, fun a' c k h => hi.expiring a' c k (of_update h nofun).2, ?_⟩
  · show Story t c (update s.epoch a _ c) (update s.timedOut a false c) (update s.pc a _ c)
    by_cases hc : c = a
    · subst hc
      rw [update_self, update_self, update_self]
      refine ⟨hpos, rfl, ?_⟩
      by_contra hp
      have := hi.bound c _ ((Bool.not_eq_false _).mp hp)
      omega
    · rw [update_of_ne hc, update_of_ne hc, update_of_ne hc]
      exact hi.story c
  · intro c k hp hr
    obtain ⟨he, hn, timeout', hs⟩ := hi.waiting c k hp hr
    have hca : c ≠ a := ne_of_states hs ha nofun
    exact ⟨(update_of_ne hca ..).trans he, hn, timeout', (update_of_ne hca ..).trans hs⟩
  · intro a' c k h
    obtain ⟨hp, hfl⟩ := hi.flagged a' c k (of_update h nofun).2
    refine ⟨hp, fun he hw => ?_⟩
    replace he : update s.epoch a _ c = k := he
    replace hw : (update s.pc a _ c).inTimedWait = true := hw
    by_cases hc : c = a
    · -- the expiry belongs to an earlier wait of `a`
      subst hc
      have := hi.bound c k hp
      rw [update_self] at he
      omega
    · rw [update_of_ne hc] at he hw
      exact (update_of_ne hc ..).trans (hfl he hw)

/-- A timed wait suspends, with its timer. -/
theorem timedInv_push (hi : TimedInv t b s) (ha : s.pc a = .pushCas (.timed timeout) old)
    (n : WaiterNode) (word : Tagged Agent) :
    TimedInv (.pushed a n (some (s.epoch a)) :: t) (b.setPhase a (.waiting n))
      (State.setPc { s with word := word, timers := (a, s.epoch a) :: s.timers } a
        (.suspended (.timed timeout))) := by
  have hst := hi.story a
  rw [ha] at hst
  obtain ⟨-, hclear, hnew⟩ := hst
  have hnone : reachedBy a (s.epoch a) t = none := by
    cases hr : reachedBy a (s.epoch a) t with
    | none => rfl
    | some p => rw [pushedIn_of_reachedBy hr] at hnew; cases hnew
  -- the trace now knows of one more push
  have hpush : ∀ c k, pushedIn c k (.pushed a n (some (s.epoch a)) :: t) = true ↔
      a = c ∧ s.epoch a = k ∨ pushedIn c k t = true := by
    intro c k
    rw [pushedIn, Bool.or_eq_true, decide_eq_true_eq, Option.some.injEq]
  refine ⟨forall_update_of_ne (P := fun c p => Story _ c (s.epoch c) (s.timedOut c) p)
      (fun c hc => ?_) ⟨(hpush a _).mpr (.inl ⟨rfl, rfl⟩), ?_, fun p hp => ?_⟩,
    fun c k hp => ?_, fun c k hp hr => ?_, fun c k h => (hpush c k).mpr (.inr (hi.fired c k h)),
    fun c k h => (hpush c k).mpr ?_,
    fun a' c k h => (hpush c k).mpr (.inr (hi.expiring a' c k (of_update h nofun).2)),
    fun a' c k h => ?_⟩
  · have hsame : pushedIn c (s.epoch c) (.pushed a n (some (s.epoch a)) :: t) =
        pushedIn c (s.epoch c) t := by
      rw [pushedIn, decide_eq_false (fun h => hc h.1.symm), Bool.false_or]
    exact story_step (hi.story c) hsame rfl rfl
      (fun hs htw => (story_reached (hi.story c) hs htw).2)
  · rw [hclear]
    exact (firedFirst_of_not_pushed hi hnew).symm
  · cases hnone.symm.trans hp
  · rcases (hpush c k).mp hp with ⟨rfl, rfl⟩ | hp
    · exact Nat.le_refl _
    · exact hi.bound c k hp
  · rcases (hpush c k).mp hp with ⟨rfl, rfl⟩ | hp
    · exact ⟨rfl, ⟨n, setPhase_self ..⟩, timeout, setPc_self ..⟩
    · obtain ⟨he, ⟨m, hm⟩, timeout', hs⟩ := hi.waiting c k hp hr
      have hca : c ≠ a := ne_of_states hs ha nofun
      exact ⟨he, ⟨m, (setPhase_of_ne _ _ hca).trans hm⟩, timeout', (setPc_of_ne _ _ hca).trans hs⟩
  · rcases List.mem_cons.mp h with h | h
    · exact .inl ⟨(Prod.mk.inj h).1.symm, (Prod.mk.inj h).2.symm⟩
    · exact .inr (hi.timers c k h)
  · obtain ⟨hp, hfl⟩ := hi.flagged a' c k (of_update h nofun).2
    exact ⟨(hpush c k).mpr (.inr hp),
      fun he hw => hfl he (timed_of_update (fun _ => by rw [ha]; rfl) hw)⟩

/-- An exchange: everyone waiting is reached now, by a user or by its own expiry. -/
theorem timedInv_exchange (hi : TimedInv t b s) {p : Poster Agent} (ha : s.pc a = .exchange p)
    (hgood : ∀ c k, p = .expiry c k → ∀ w, TimedInChain t s w → w = c ∧ s.epoch w = k)
    (word : Tagged Agent) (ptr : Option Agent) (b' : Lifecycle Agent) :
    TimedInv (.exchanged a p :: t) b' (State.setPc { s with word := word } a
      (.resumeChain p ptr)) := by
  refine ⟨forall_update (P := fun c p => Story _ c (s.epoch c) (s.timedOut c) p) (fun c => ?_)
    trivial, hi.bound, fun c k hp hr => ?_, hi.fired, hi.timers,
    fun a' c k h => hi.expiring a' c k (of_update h nofun).2, fun a' c k h => ?_⟩
  · refine story_step (hi.story c) rfl rfl rfl (fun hs htw q hq => ?_)
    obtain ⟨hpush, hreach⟩ := story_reached (hi.story c) hs htw
    rw [reachedBy_exchanged a p hpush] at hq
    cases hr : reachedBy c (s.epoch c) t with
    | some q' =>
      rw [hr] at hq
      obtain rfl : q' = q := Option.some.inj hq
      exact (hreach q' hr).imp_left (fun h => ⟨h.1, by
        rw [userPostSinceReset, h.2, Bool.or_true]⟩)
    | none =>
      rw [hr] at hq
      obtain rfl : p = q := Option.some.inj hq
      cases p with
      | expiry c' k' =>
        obtain ⟨rfl, rfl⟩ := hgood c' k' rfl c ⟨htw, hpush, hr⟩
        exact .inr ((hi.flagged a c _ ha).2 rfl htw)
      | _ => exact .inl ⟨rfl, rfl⟩
  · rw [reachedBy_exchanged a p (show pushedIn c k t = true from hp)] at hr
    cases hr
  · obtain ⟨hp, hfl⟩ := hi.flagged a' c k (of_update h nofun).2
    exact ⟨hp, fun he hw => hfl he (timed_of_update (by rintro ⟨⟩) hw)⟩

/-- A claimed coroutine is resumed. -/
theorem timedInv_resumed (hi : TimedInv t b s) {w : Agent} {p : Poster Agent} {nx : Option Agent}
    {how : Resumption} (ha : s.pc a = .resumeNode p w nx how) (hph : b.phase w = .claimed n a)
    {wt : Wait} (hwt : s.pc w = .suspended wt) :
    TimedInv (.resumed a w how :: t) (b.setPhase w .out)
      ((s.setPc a (.resumeChain p nx)).resume w) := by
  have hwa : w ≠ a := ne_of_states hwt ha nofun
  rw [resume_setPc s _ hwa hwt]
  have hf : SameFacts t (.resumed a w how :: t) := sameFacts_minor (by trivial) t
  refine ⟨forall_update_of_ne (P := fun c p => Story _ c (s.epoch c) (s.timedOut c) p)
      (fun c hcw => forall_update (P := fun c p => c ≠ w → Story _ c (s.epoch c) (s.timedOut c) p)
        (b := Pc.resumeChain p nx) (fun c hcw => story_same hf (if_neg (Ne.symm hcw)) (hi.story c))
        (fun _ => trivial) c hcw) ?_,
    hi.bound, fun c k hp hr => ?_, hi.fired, hi.timers,
    fun a' c k h => hi.expiring a' c k (of_update (of_update h nofun).2 nofun).2,
    fun a' c k h => ?_⟩
  · cases wt with
    | plain => trivial
    | timed timeout =>
      have hst := hi.story w
      rw [hwt] at hst
      obtain ⟨hpush, hfl, hreach⟩ := hst
      refine ⟨hfl, fun hclear => ?_⟩
      rw [atWake, if_pos rfl]
      -- it was claimed, so somebody's exchange has reached it
      cases hr : reachedBy w (s.epoch w) t with
      | none =>
        obtain ⟨-, ⟨m, hm⟩, -⟩ := hi.waiting w _ hpush hr
        cases hph.symm.trans hm
      | some q =>
        rcases hreach q hr with h | h
        · exact h.2
        · cases hclear.symm.trans h
  · obtain ⟨he, ⟨m, hm⟩, timeout, hs⟩ := hi.waiting c k hp hr
    have hcw : c ≠ w := ne_of_states hm hph nofun
    have hca : c ≠ a := ne_of_states hs ha nofun
    exact ⟨he, ⟨m, (setPhase_of_ne _ _ hcw).trans hm⟩, timeout,
      (setPc_of_ne _ _ hcw).trans ((setPc_of_ne _ _ hca).trans hs)⟩
  · obtain ⟨hp, hfl⟩ := hi.flagged a' c k (of_update (of_update h nofun).2 nofun).2
    refine ⟨hp, fun he hw => hfl he (timed_of_update (p := .resumeChain p nx) (by rintro ⟨⟩)
      (timed_of_update (s := s.setPc a _) (fun h => ?_) hw))⟩
    rw [setPc_of_ne _ _ hwa, hwt]
    exact h

/-- A `reset()` takes effect while no timed wait is suspended. -/
theorem timedInv_reset (hi : TimedInv t b s) (ha : s.pc a = .resetCas old)
    (hgood : ∀ w, (s.pc w).isSuspended = true → (s.pc w).inTimedWait = false)
    (word : Tagged Agent) :
    TimedInv (.reset a :: t) { b with posted := false }
      (State.setPc { s with word := word } a .idle) := by
  -- the flag and the chain are not part of the invariant; only the trace has changed
  have hi' : TimedInv (.reset a :: t) { b with posted := false } { s with word := word } := by
    refine { hi with story := fun c => ?_ }
    refine story_step (hi.story c) rfl rfl rfl (fun hs htw => ?_)
    rw [hgood c hs] at htw
    cases htw
  exact timedInv_move (p := .idle) hi' (sameFacts_refl _) rfl
    (by show (s.pc a).isSuspended = false; rw [ha]; rfl) nofun (fun _ _ => rfl)
    rfl rfl (fun _ h => h) (fun _ _ => rfl) trivial nofun
    nofun

/-- An expiry stores `timed_out` in its own wait while that is in the chain, or in a place that
    is not in use. -/
theorem timedInv_fired (hi : TimedInv t b s) (ha : s.pc a = .onExpire c k)
    (hgood : reachedBy c k t = none ∨ (s.pc c).inTimedWait = false) :
    TimedInv (.fired c k :: t) b ((s.setTimedOut c).setPc a (.exchange (.expiry c k))) := by
  have hpush := hi.expiring a c k ha
  refine ⟨forall_update_of_ne (P := fun d p => Story _ d (s.epoch d) (update s.timedOut c true d) p)
      (fun d _ => ?_) trivial, hi.bound, fun d j hp hr => ?_, fun d j h => ?_, hi.timers,
    fun a' d j h => hi.expiring a' d j (of_update h nofun).2, fun a' d j h => ?_⟩
  · by_cases hdc : d = c
    · subst hdc
      rw [update_self]
      rcases hgood with hr | hno
      · obtain ⟨rfl, -, timeout, hs⟩ := hi.waiting d k hpush hr
        show Story _ d _ true (s.pc d)
        rw [hs]
        refine ⟨hpush, ?_, fun _ _ => .inr rfl⟩
        rw [firedFirst, decide_eq_true ⟨rfl, rfl⟩, reachedByUser, hr]
        rfl
      · exact story_of_not_timed hno
    · -- no other wait hears of this deadline
      have hfired : firedFirst d (s.epoch d) (.fired c k :: t) = firedFirst d (s.epoch d) t := by
        rw [firedFirst, decide_eq_false (fun h => hdc h.1.symm), Bool.false_and, Bool.false_or]
      rw [update_of_ne hdc]
      exact story_step (hi.story d) rfl hfired rfl
        (fun hs htw => (story_reached (hi.story d) hs htw).2)
  · obtain ⟨he, hn, timeout, hs⟩ := hi.waiting d j hp hr
    exact ⟨he, hn, timeout, (setPc_of_ne _ _ (ne_of_states hs ha nofun)).trans hs⟩
  · rw [firedFirst, Bool.or_eq_true, Bool.and_eq_true, decide_eq_true_eq] at h
    rcases h with ⟨⟨rfl, rfl⟩, -⟩ | h
    · exact hpush
    · exact hi.fired d j h
  · by_cases hdc : d = c ∧ j = k
    · obtain ⟨rfl, rfl⟩ := hdc
      exact ⟨hpush, fun _ _ => update_self ..⟩
    · obtain ⟨hp, hfl⟩ := hi.flagged a' d j (of_update h fun heq => hdc (by cases heq; trivial)).2
      refine ⟨hp, fun he hw => ?_⟩
      have hflag := hfl he (timed_of_update (s := s) (by rintro ⟨⟩) hw)
      exact forall_update (P := fun d f => s.timedOut d = true → f = true) (fun _ => id)
        (fun _ => rfl) d hflag

/-! ## Every step keeps it -/

/-- What a coroutine on its way to the push knows. -/
theorem story_asks (h : Story t c k flag p) (hasks : p.Asks (.timed timeout)) :
    0 < timeout ∧ flag = false ∧ pushedIn c k t = false := by
  cases hasks <;> exact h

/-- It goes past a posted baton, after a user's `post()`. -/
theorem timedInv_passed (hi : TimedInv t b s) (hasks : (s.pc a).Asks w)
    (huser : w.isTimed = true → userPostSinceReset t = true) (m : WaiterNode)
    (next : Option Agent) :
    TimedInv (.passed a :: t) b ((s.setNode a m next).setPc a (.awaitResume w)) := by
  refine timedInv_move (p := .awaitResume w) hi (sameFacts_minor (by trivial) t) rfl
    hasks.not_suspended (fun h => hasks.timed.trans h) (fun c hc => if_neg (Ne.symm hc)) rfl rfl
    (fun _ h => h) (fun _ _ => rfl) ?_ nofun nofun
  cases w with
  | plain => trivial
  | timed timeout =>
    obtain ⟨-, hclear, hpush⟩ := story_asks (hi.story a) hasks
    refine ⟨?_, fun _ => ?_⟩
    · rw [hclear]
      exact (firedFirst_of_not_pushed hi hpush).symm
    · show userPostSinceReset (if a = a then t else atWake a t) = true
      rw [if_pos rfl]
      exact huser rfl

/-- It goes on. -/
theorem timedInv_onward (hi : TimedInv t b s) (hasks : (s.pc a).Asks w) (hp : p.Asks w)
    (hpc : s'.pc = update s.pc a p)
    (htiming : s'.epoch = s.epoch ∧ s'.timedOut = s.timedOut ∧ s'.timers = s.timers) :
    TimedInv t b s' := by
  refine timedInv_move hi (sameFacts_refl t) hpc hasks.not_suspended
    (fun h => hasks.timed.trans (hp.timed.symm.trans h)) (fun _ _ => rfl) htiming.1 htiming.2.1
    (fun x hx => htiming.2.2 ▸ hx) (fun _ _ => rfl) ?_ ?_ ?_
  · cases w with
    | plain => exact story_of_not_timed hp.timed
    | timed timeout =>
      have hknown := story_asks (hi.story a) hasks
      cases hp <;> exact hknown
  · rintro c k rfl
    cases hp
  · rintro c k rfl
    cases hp

/-- One agent moves to a place outside timed waits and outside the start of an expiry. -/
theorem timedInv_outside (hi : TimedInv t b s) (hf : SameFacts t t')
    (hwake : ∀ c, atWake c t' = atWake c t) (hpc : s'.pc = update s.pc a p)
    (hold : (s.pc a).isSuspended = false) (htimed : p.inTimedWait = false)
    (htiming : s'.epoch = s.epoch ∧ s'.timedOut = s.timedOut ∧ s'.timers = s.timers)
    (hexp : ∀ c k, p ≠ .onExpire c k ∧ p ≠ .exchange (.expiry c k)) : TimedInv t' b s' :=
  timedInv_move hi hf hpc hold (fun h => by rw [htimed] at h; exact nomatch h)
    (fun c _ => hwake c) htiming.1 htiming.2.1 (fun x hx => htiming.2.2 ▸ hx)
    (fun _ _ => rfl) (story_of_not_timed htimed) (fun c k h => ((hexp c k).1 h).elim)
    (fun c k => (hexp c k).2)

/-- Both invariants, of one abstract baton. -/
def Kept (t : List (Event Agent)) (s' : State Agent) : Prop :=
  ∃ b, Related b s' ∧ TimedInv t b s'

/-- Both after a step that shows `e`. -/
theorem kept_shown {e : Event Agent} (hm : lifecycle.Matches Related b s' (some e))
    (h : ∀ b', Lifecycle.Step b e b' → TimedInv (e :: t) b' s') : Kept (e :: t) s' := by
  obtain ⟨b', hb', hR'⟩ := hm
  exact ⟨b', hR', h b' hb'⟩

theorem timedInv_go (hR : Related b s) (hi : TimedInv t b s) {spurious : Bool}
    (hgood : Attributed t s (.go a n spurious)) (hs : go s a n spurious = some s') :
    Kept (machine.record s (.go a n spurious) t) s' := by
  show Kept (note t (event s (.go a n spurious))) s'
  have hmove := go_moves hs
  have hm := related_go hR rfl hmove
  obtain ⟨hwork, hattr⟩ := hgood
  rw [OnWorkers] at hwork
  rw [Attributable] at hattr
  generalize event s (.go a n spurious) = o at hmove hm ⊢
  generalize hpc : s.pc a = p at hmove hwork hattr
  have hold : (s.pc a).isSuspended = false := by
    rw [hpc]
    cases hmove with
    | pass _ _ hasks _ | attempt _ hasks _ => exact hasks.not_suspended
    | _ => rfl
  cases hmove with
  | @pass w p m next hasks htag =>
    refine kept_shown hm (fun b' hb' => ?_)
    cases hb'
    refine timedInv_passed hi (hpc.symm ▸ hasks) ?_ m next
    cases w with
    | plain => rintro ⟨⟩
    | timed timeout => cases hasks <;> exact fun _ => hattr htag
  | unready => exact ⟨b, hm, timedInv_onward hi (hpc.symm ▸ .awaitReady) .awaitSuspend rfl
      ⟨rfl, rfl, rfl⟩⟩
  | @refuse timeout hloads =>
    -- a positive timeout on a worker thread gets as far as the load
    have hst := hi.story a
    rw [hpc] at hst
    have hroute : n.route.isSet = true := hwork
    exact absurd (by simp [Wait.loads, hst.1, hroute]) hloads
  | attempt m hasks _ =>
    exact ⟨b, hm, timedInv_onward hi (hpc.symm ▸ hasks) (.pushCas _) rfl ⟨rfl, rfl, rfl⟩⟩
  | push w =>
    refine kept_shown hm (fun b' hb' => ?_)
    cases hb'
    cases w with
    | plain =>
      exact timedInv_move (p := .suspended .plain) hi (sameFacts_minor (by exact rfl) t) rfl
        hold (by rintro ⟨⟩) (fun _ _ => rfl) rfl rfl (fun _ h => h)
        (fun c hc => setPhase_of_ne _ _ hc) trivial (by rintro _ _ ⟨⟩)
        (by rintro _ _ ⟨⟩)
    | timed timeout => exact timedInv_push hi hpc (s.node a) _
  | resume | resetLeave | resetFail =>
    exact ⟨b, hm, timedInv_outside (p := .idle) hi (sameFacts_refl t) (fun _ => rfl) rfl hold
      rfl ⟨rfl, rfl, rfl⟩ (fun _ _ => ⟨by rintro ⟨⟩, by rintro ⟨⟩⟩)⟩
  | «return» timeout | finish p =>
    refine kept_shown hm (fun b' hb' => ?_)
    cases hb'
    exact timedInv_outside (p := .idle) hi (sameFacts_minor (by trivial) t) (fun _ => rfl) rfl
      hold rfl ⟨rfl, rfl, rfl⟩ (fun _ _ => ⟨by rintro ⟨⟩, by rintro ⟨⟩⟩)
  | fire c k =>
    refine kept_shown hm (fun b' hb' => ?_)
    cases hb'
    exact timedInv_fired hi hpc hattr
  | exchange p =>
    refine kept_shown hm (fun b' _ => timedInv_exchange hi hpc ?_ _ _ b')
    rintro c k rfl
    exact hattr
  | read p w =>
    exact ⟨b, hm, timedInv_outside (p := .resumeNode p w (s.next w) (s.node w).resumption) hi
      (sameFacts_refl t) (fun _ => rfl) rfl hold rfl ⟨rfl, rfl, rfl⟩
      (fun _ _ => ⟨by rintro ⟨⟩, by rintro ⟨⟩⟩)⟩
  | wake p w next how =>
    obtain ⟨l, r, hrel⟩ := hR
    obtain ⟨hph, wt, hwt⟩ := hrel.resumeNode_claimed hpc
    refine kept_shown hm (fun b' hb' => ?_)
    obtain rfl : b' = b.setPhase w .out := by cases hb' <;> rfl
    exact timedInv_resumed hi hpc hph hwt
  | reset hsp =>
    refine kept_shown hm (fun b' hb' => ?_)
    cases hb'
    exact timedInv_reset hi hpc (hattr ⟨rfl, hsp⟩) _
  | resetLoad | resetRetry =>
    exact ⟨b, hm, timedInv_outside (p := .resetCas s.word) hi (sameFacts_refl t) (fun _ => rfl) rfl
      hold rfl ⟨rfl, rfl, rfl⟩ (fun _ _ => ⟨by rintro ⟨⟩, by rintro ⟨⟩⟩)⟩

/-- A call other than `wait_for` begins. -/
theorem timedInv_begin (hi : TimedInv t b s) (hs : s.begin a p = some s')
    (htimed : p.inTimedWait = false) (hexp : ∀ c k, p = .onExpire c k → pushedIn c k t = true)
    (hexch : ∀ c k, p ≠ .exchange (.expiry c k)) : TimedInv t b s' := by
  obtain ⟨ha, rfl⟩ : s.pc a = .idle ∧ _ = s' := by simpa [State.begin] using hs
  exact timedInv_move (p := p) hi (sameFacts_refl t) rfl (by rw [ha]; rfl)
    (fun h => by rw [htimed] at h; cases h) (fun _ _ => rfl) rfl rfl (fun _ h => h)
    (fun _ _ => rfl) (story_of_not_timed htimed) hexp hexch

theorem timedInv_step (hk : Kept t s) {act : Act Agent} (hgood : Attributed t s act)
    (hs : machine.step s act = some s') : Kept (machine.record s act t) s' := by
  obtain ⟨b, hR, hi⟩ := hk
  have hR' := related_step hR hs
  cases act with
  | coAwait a | post a | postDirect a | reset a =>
    exact ⟨b, hR', timedInv_begin hi hs rfl (by rintro _ _ ⟨⟩) (by rintro _ _ ⟨⟩)⟩
  | waitFor a timeout =>
    obtain ⟨ha, rfl⟩ : s.pc a = .idle ∧ _ = s' := by
      simpa [machine, step, State.begin] using hs
    exact ⟨b, hR', timedInv_waitFor hi ha hgood.1⟩
  | expire a c k =>
    obtain ⟨hk, hbegin⟩ := step_expire hs
    have hi' : TimedInv t b { s with timers := s.timers.erase (c, k) } :=
      { hi with timers := fun d j h => hi.timers d j (List.mem_of_mem_erase h) }
    refine ⟨b, hR', timedInv_begin hi' hbegin rfl ?_ (by rintro _ _ ⟨⟩)⟩
    rintro d j h
    obtain ⟨rfl, rfl⟩ := Pc.onExpire.inj h
    exact hi.timers c k hk
  | go a n spurious => exact timedInv_go hR hi hgood hs

/-! ## The reports -/

/-- An event that is no return reports nothing. -/
theorem reports_cons (h : Reports t) {e : Event Agent}
    (he : ∀ c k r, e = .returned c k r → (r = .kTimeout ↔ firedFirst c k t = true) ∧
      (r = .kSignaled → userPostSinceReset (atWake c t) = true)) : Reports (e :: t) := by
  intro c k r t' hsuf
  rcases List.suffix_cons_iff.mp hsuf with heq | hsuf
  · obtain ⟨h₁, h₂⟩ := List.cons.inj heq
    rw [h₂]
    exact he c k r h₁.symm
  · exact h c k r t' hsuf

/-- A wait that returns has the story of a wait that may report. -/
theorem returned_reports (hi : TimedInv t b s) (ha : s.pc a = .awaitResume (.timed timeout)) :
    (s.result a = .kTimeout ↔ firedFirst a (s.epoch a) t = true) ∧
      (s.result a = .kSignaled → userPostSinceReset (atWake a t) = true) := by
  have hst := hi.story a
  rw [ha] at hst
  obtain ⟨hflag, huser⟩ := hst
  rw [State.result]
  by_cases h : s.timedOut a = true
  · rw [if_pos h, ← hflag]
    exact ⟨iff_of_true rfl h, fun h => nomatch h⟩
  · rw [if_neg h, ← hflag]
    exact ⟨iff_of_false nofun h, fun _ => huser ((Bool.not_eq_true _).mp h)⟩

/-- Only `await_resume` of a timed wait shows a return, and what it shows is so. -/
theorem goMove_reports (hi : TimedInv t b s) {spurious : Bool} {o : Option (Event Agent)}
    (hpc : s.pc a = p) (hm : GoMove s a n spurious p s' o) {r : WaitResult}
    (ho : o = some (.returned c k r)) : (r = .kTimeout ↔ firedFirst c k t = true) ∧
      (r = .kSignaled → userPostSinceReset (atWake c t) = true) := by
  cases hm with
  | «return» timeout =>
    obtain ⟨rfl, rfl, rfl⟩ := Event.returned.inj (Option.some.inj ho)
    exact returned_reports hi hpc
  | _ => cases ho

theorem reports_step (hk : Kept t s) (h : Reports t) {act : Act Agent}
    (hs : machine.step s act = some s') : Reports (machine.record s act t) := by
  obtain ⟨b, -, hi⟩ := hk
  cases he : machine.event s act with
  | none => rw [Machine.record_none t he]; exact h
  | some e =>
    rw [Machine.record_some t he]
    refine reports_cons h ?_
    rintro c k r rfl
    cases act with
    | go a n spurious =>
      have hm : GoMove s a n spurious (s.pc a) s' (machine.event s (.go a n spurious)) :=
        go_moves hs
      rw [he] at hm
      exact goMove_reports hi rfl hm rfl
    | _ => cases he

/-- **A timed wait reports what woke it.**  For any number of timed and plain waiters, `post()`
    calls, resets and expiries, in every attributed run: each `wait_for` that returns reports
    `kTimeout` exactly if its own deadline fired before a user's `post()` reached its waiter,
    and `kSignaled` only if a user's `post()` took effect after the last reset and before the
    waiter was resumed. -/
theorem wait_reports_cause {t : List (Event Agent)} {s : State Agent}
    (h : Exec machine Attributed init t s) :
    ∀ c k r t', (.returned c k r :: t') <:+ t → (r = .kTimeout ↔ firedFirst c k t' = true) ∧
      (r = .kSignaled → userPostSinceReset (atWake c t') = true) := by
  have hinv : Kept t s ∧ Reports t := by
    refine h.invariant (fun t s => Kept t s ∧ Reports t)
      ⟨⟨_, ⟨[], fun _ => [], rel_init⟩, timedInv_init⟩, ?_⟩ ?_
    · exact fun c k r t' hsuf => nomatch List.suffix_nil.mp hsuf
    · exact fun t s act s' hI hgood hs =>
        ⟨timedInv_step hI.1 hgood hs, reports_step hI.1 hI.2 hs⟩
  exact hinv.2

end Inv

/-- Coroutine 0 times out alone; the baton is reset, 0 waits again and is signaled by a
    `post()`: it reports `kTimeout` and then `kSignaled`. -/
theorem wait_reports_both : ∃ (t : List (Event (Fin 3))) (s : State (Fin 3)),
      Exec machine Attributed init t s ∧ .returned 0 1 .kTimeout ∈ t ∧
      (.returned 0 2 .kSignaled :: t.tail) <:+ t ∧
      userPostSinceReset (atWake 0 t.tail) = true := by
  have hrun : Exec machine Attributed init _ _ :=
    exec_run (.waitFor (0 : Fin 3) 5 :: ops 0 ⟨5, .online 5⟩ 3
      ++ .expire 2 0 1 :: ops 2 ⟨5, .online 5⟩ 5 ++ ops 0 ⟨5, .online 5⟩ 1
      ++ .reset 1 :: ops 1 ⟨SIZE_MAX, .null⟩ 2
      ++ .waitFor 0 200 :: ops 0 ⟨5, .online 5⟩ 3
      ++ .post 1 :: ops 1 ⟨SIZE_MAX, .null⟩ 4 ++ ops 0 ⟨5, .online 5⟩ 1) (by decide)
  exact ⟨_, _, hrun, by decide, by decide,
    (wait_reports_cause hrun 0 2 .kSignaled _ (by decide)).2 rfl⟩

/-- **Signaled without a `post()`.**  Coroutines 0 and 1 wait with timers; the timer of 0
    expires, and its `post()` wakes 1 too, which reports `kSignaled`. -/
theorem signaled_without_post : ∃ (t : List (Event (Fin 3))) (s : State (Fin 3)),
      Exec machine OnWorkers init t s ∧ t.head? = some (.returned 1 1 .kSignaled) ∧
      posters t = [.expiry 0 1] ∧ userPostSinceReset (atWake 1 t.tail) = false := by
  have hrun : Exec machine OnWorkers init _ _ :=
    exec_run (.waitFor (0 : Fin 3) 5 :: ops 0 ⟨5, .online 5⟩ 3
      ++ .waitFor 1 200 :: ops 1 ⟨5, .online 5⟩ 3
      ++ .expire 2 0 1 :: ops 2 ⟨5, .online 5⟩ 7 ++ ops 1 ⟨5, .online 5⟩ 1) (by decide)
  exact ⟨_, _, hrun, by decide⟩

/-- **Timed out after a `post()`.**  A user's `post()` takes coroutine 0 out of the chain and
    resumes it; before it runs its timer expires, and it reports `kTimeout`. -/
theorem timeout_after_post : ∃ (t : List (Event (Fin 3))) (s : State (Fin 3)),
      Exec machine OnWorkers init t s ∧ t.head? = some (.returned 0 1 .kTimeout) ∧
      reachedBy 0 1 t.tail = some .post ∧ firedFirst 0 1 t.tail = false := by
  have hrun : Exec machine OnWorkers init _ _ :=
    exec_run (.waitFor (0 : Fin 3) 5 :: ops 0 ⟨5, .online 5⟩ 3
      ++ .post 1 :: ops 1 ⟨SIZE_MAX, .null⟩ 4
      ++ .expire 2 0 1 :: ops 2 ⟨5, .online 5⟩ 1 ++ ops 0 ⟨5, .online 5⟩ 1) (by decide)
  exact ⟨_, _, hrun, by decide⟩

end AffinityBaton
