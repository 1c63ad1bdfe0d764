import StorageRuntime.BatonSignalProofs

/-!
# AffinityBaton — what the expiry of a timed wait touches

A timer node is never cancelled, and its callback calls the shared `post()`.  `ExpiryOk` says
what one step of a callback may do if it is to touch only its own wait: resume at most that
wait, take nobody else out of the chain, leave an unposted baton unposted, and change nothing
at all if the wait is over.  `timed_out` ends with the wait, so a store that comes later is a
write to whatever is at its place then.

* **`expiry_wakes_others`**: one expiry resumes a plain waiter next to it and leaves the baton
  posted.
* **`expiry_marks_later_wait`**: an expiry whose wait was signaled long ago stores `timed_out`
  in the next wait of the same coroutine.
* **`expiries_ok_iff_quiet`**: in a run every expiry touches only its own wait exactly if
  every step of an expiry is quiet: the `post()` of the callback finds the baton posted, and
  the store of `timed_out` comes while its wait is suspended.
-/

namespace AffinityBaton

open Function Interleaving IntrusiveChain ThreadAffinity

variable {Agent : Type}

def Wait.isTimed : Wait → Bool
  | .plain => false
  | .timed _ => true

/-- Inside a `wait_for` that has not returned. -/
def Pc.inTimedWait : Pc Agent → Bool
  | .awaitReady w | .awaitSuspend w | .pushCas w _ | .suspended w | .awaitResume w => w.isTimed
  | _ => false

theorem Pc.Asks.timed {w : Wait} {p : Pc Agent} (h : p.Asks w) : p.inTimedWait = w.isTimed := by
  cases h <;> rfl

/-- The timed wait whose expiry callback the agent is running. -/
def Pc.expiring : Pc Agent → Option (Agent × Nat)
  | .onExpire c k
  | .exchange (.expiry c k)
  | .resumeChain (.expiry c k) _
  | .resumeNode (.expiry c k) _ _ _ => some (c, k)
  | _ => none

/-- Whose exchanges took effect, newest first. -/
def posters : List (Event Agent) → List (Poster Agent)
  | [] => []
  | .exchanged _ p :: t => p :: posters t
  | _ :: t => posters t

/-- Wait `k` of `c` is suspended and nobody has resumed it. -/
def State.WaitOpen (s : State Agent) (c : Agent) (k : Nat) : Prop :=
  s.epoch c = k ∧ (s.pc c).isSuspended = true ∧ (s.pc c).inTimedWait = true
deriving Decidable

/-- One step, from `s` to `s'`, of the expiry callback of wait `k` of `c`, run by `a`,
    touches only that wait. -/
structure ExpiryOk (s s' : State Agent) (a c : Agent) (k : Nat) : Prop where
  /-- Everyone else stays where it is, with its flag … -/
  others : ∀ w, w ≠ a → w ≠ c → s'.pc w = s.pc w ∧ s'.timedOut w = s.timedOut w
  /-- … and in the chain. -/
  chain : ∀ w, w ≠ c → s.Holds s.word.ptr w → s'.Holds s'.word.ptr w
  /-- At most wait `k` of `c` is resumed. -/
  own : c ≠ a → s'.pc c ≠ s.pc c → s.WaitOpen c k
  unposted : s.ready = false → s'.ready = false
  /-- Nothing changes if the wait is over … -/
  stale : ¬ s.WaitOpen c k → s'.word = s.word ∧ s'.next = s.next ∧ s'.timedOut = s.timedOut ∧
    ∀ w, w ≠ a → s'.pc w = s.pc w
  /-- … and nothing is stored in its frame, where another object may be, or none. -/
  place : s.pc a = .onExpire c k → s.WaitOpen c k

/-- The condition on the steps of expiry callbacks. -/
def Quiet : List (Event Agent) → State Agent → Act Agent → Prop
  | _, s, .go a _ _ =>
    match s.pc a with
    | .onExpire c k => s.WaitOpen c k
    | .exchange (.expiry _ _) => s.ready = true
    | _ => True
  | _, _, _ => True

instance (t : List (Event Agent)) (s : State Agent) (act : Act Agent) :
    Decidable (Quiet t s act) := by
  unfold Quiet
  split
  · split <;> infer_instance
  · infer_instance

/-! ## Quiet expiries walk over nobody -/

/-- An expiry callback that is resuming a chain has come to its end. -/
def Pc.WalkEmpty : Pc Agent → Prop
  | .resumeChain (.expiry _ _) waiters => waiters = none
  | .resumeNode (.expiry _ _) _ _ _ => False
  | _ => True

section Walks

variable [DecidableEq Agent]

variable {a : Agent} {s s' : State Agent} {t : List (Event Agent)}

theorem walkEmpty_update {f : Agent → Pc Agent} (h : ∀ b, (s.pc b).WalkEmpty) {p : Pc Agent}
    (hf : f = update s.pc a p) (hp : p.WalkEmpty) : ∀ b, (f b).WalkEmpty := by
  rw [hf]
  exact forall_update (P := fun _ p => Pc.WalkEmpty p) h hp

theorem walkEmpty_resume (h : ∀ b, (s.pc b).WalkEmpty) (w : Agent) :
    ∀ b, ((s.resume w).pc b).WalkEmpty := by
  rw [State.resume]
  split
  · exact walkEmpty_update h rfl trivial
  · exact h

/-- The step lemma: the posted bit that a quiet expiry finds means that there is no chain. -/
theorem walkEmpty_go {b : Lifecycle Agent} (hR : Related b s) (h : ∀ b, (s.pc b).WalkEmpty)
    {n : WaiterNode} {spurious : Bool} (hq : Quiet t s (.go a n spurious))
    (hs : go s a n spurious = some s') : ∀ b, (s'.pc b).WalkEmpty := by
  have ha := h a
  have hm := go_moves hs
  rw [Quiet] at hq
  generalize event s (.go a n spurious) = o at hm
  generalize s.pc a = q at hm ha hq
  cases hm with
  | pass | unready | refuse | attempt | push | resume | «return» | fire | finish | resetLoad
  | resetLeave | reset | resetRetry | resetFail => exact walkEmpty_update h rfl trivial
  | exchange p =>
    refine walkEmpty_update h rfl ?_
    cases p with
    | expiry c k =>
      obtain ⟨l, r, hi⟩ := hR
      exact hi.empty hq
    | _ => trivial
  | read p w =>
    refine walkEmpty_update h rfl ?_
    cases p with
    | expiry c k => exact nomatch (show some w = none from ha)
    | _ => trivial
  | wake p w next how =>
    refine walkEmpty_resume (walkEmpty_update h rfl ?_) w
    cases p with
    | expiry c k => exact ha.elim
    | _ => trivial

theorem walkEmpty_begin (h : ∀ b, (s.pc b).WalkEmpty) {p : Pc Agent} (hs : s.begin a p = some s')
    (hp : p.WalkEmpty) : ∀ b, (s'.pc b).WalkEmpty := by
  obtain ⟨-, rfl⟩ : s.pc a = .idle ∧ _ = s' := by simpa [State.begin] using hs
  exact walkEmpty_update h rfl hp

theorem walkEmpty_step {b : Lifecycle Agent} (hR : Related b s) (h : ∀ b, (s.pc b).WalkEmpty)
    {act : Act Agent} (hq : Quiet t s act) (hs : machine.step s act = some s') :
    ∀ b, (s'.pc b).WalkEmpty := by
  cases act with
  | coAwait a | post a | postDirect a | reset a => exact walkEmpty_begin h hs trivial
  | waitFor a timeout =>
    have h' : ∀ b, (State.pc { s with
      epoch := update s.epoch a (s.epoch a + 1)
      timedOut := update s.timedOut a false } b).WalkEmpty := h
    exact walkEmpty_begin h' hs trivial
  | expire a c k =>
    obtain ⟨-, hbegin⟩ := step_expire hs
    have h' : ∀ b, (State.pc { s with timers := s.timers.erase (c, k) } b).WalkEmpty := h
    exact walkEmpty_begin h' hbegin trivial
  | go a n spurious => exact walkEmpty_go hR h hq hs

/-- In a quiet run no expiry ever has a chain to resume. -/
theorem quiet_walkEmpty (h : Exec machine Quiet init t s) :
    (∃ b, Related b s) ∧ ∀ b, (s.pc b).WalkEmpty := by
  refine h.invariant (fun _ s => (∃ b, Related b s) ∧ ∀ b, (s.pc b).WalkEmpty)
    ⟨⟨_, [], fun _ => [], rel_init⟩, fun _ => trivial⟩ ?_
  rintro t s a s' ⟨⟨b, hR⟩, hw⟩ hq hs
  exact ⟨(related_step hR hs).related, walkEmpty_step hR hw hq hs⟩

end Walks

/-! ## The steps of an expiry -/

section Expiry

variable [DecidableEq Agent]

/-- The property of runs: every step of an expiry callback touches only its own wait. -/
def ExpiriesOk : List (Event Agent) → State Agent → Act Agent → Prop
  | _, s, .go a n spurious =>
    ∀ c k s', (s.pc a).expiring = some (c, k) →
      machine.step s (.go a n spurious) = some s' → ExpiryOk s s' a c k
  | _, _, _ => True

variable {s : State Agent} {a c : Agent} {k : Nat}

/-- A step that only moves the agent that runs the callback touches no wait. -/
theorem expiryOk_move (hpc : s.pc a ≠ .onExpire c k) (p : Pc Agent) :
    ExpiryOk s (s.setPc a p) a c k where
  others _ hwa _ := ⟨setPc_of_ne s p hwa, rfl⟩
  chain _ _ h := h
  own hca h := (h (setPc_of_ne s p hca)).elim
  unposted h := h
  stale _ := ⟨rfl, rfl, rfl, fun _ hwa => setPc_of_ne s p hwa⟩
  place h := absurd h hpc

/-- The store of `timed_out` touches only its own wait exactly if that wait is suspended. -/
theorem expiryOk_onExpire_iff (hpc : s.pc a = .onExpire c k) (p : Pc Agent) :
    ExpiryOk s ((s.setTimedOut c).setPc a p) a c k ↔ s.WaitOpen c k := by
  constructor
  · intro h
    exact h.place hpc
  · intro hopen
    refine ⟨?_, fun _ _ h => h, ?_, fun h => h, fun hnot => absurd hopen hnot, fun _ => hopen⟩
    · exact fun w hwa hwc => ⟨setPc_of_ne _ p hwa, update_of_ne hwc ..⟩
    · exact fun hca hpc => (hpc (setPc_of_ne _ p hca)).elim

/-- The exchange of an expiry touches only its own wait exactly if the baton is posted. -/
theorem expiryOk_exchange_iff {b : Lifecycle Agent} (hR : Related b s)
    (hpc : s.pc a ≠ .onExpire c k) (p : Pc Agent) :
    ExpiryOk s ({ s with word := ⟨none, true⟩ }.setPc a p) a c k ↔ s.ready = true := by
  constructor
  · intro h
    by_contra hready
    exact nomatch h.unposted ((Bool.not_eq_true _).mp hready)
  · intro hready
    obtain ⟨l, r, hi⟩ := hR
    -- the word that is put back is the one that was there
    have hword : s.word = ⟨none, true⟩ := by
      have hptr := hi.empty hready
      cases hw : s.word with
      | mk ptr tag =>
        rw [hw] at hptr
        rw [State.ready, hw] at hready
        rw [show ptr = none from hptr, show tag = true from hready]
    have hsame : { s with word := ⟨none, true⟩ } = s := by rw [← hword]
    rw [hsame]
    exact expiryOk_move hpc p

/-- The step lemma: after a quiet run, a step of an expiry touches only its own wait exactly
    if it is quiet too. -/
theorem expiryOk_iff {t : List (Event Agent)} {s' : State Agent} (h : Exec machine Quiet init t s)
    {n : WaiterNode} {spurious : Bool} (hexp : (s.pc a).expiring = some (c, k))
    (hs : machine.step s (.go a n spurious) = some s') :
    ExpiryOk s s' a c k ↔ Quiet t s (.go a n spurious) := by
  obtain ⟨⟨b, hR⟩, hw⟩ := quiet_walkEmpty h
  have ha := hw a
  have hm : GoMove s a n spurious (s.pc a) s' _ := go_moves hs
  rw [Quiet]
  generalize event s (.go a n spurious) = o at hm
  generalize hpc : s.pc a = q at hm ha hexp
  cases hm with
  | fire c' k' =>
    obtain ⟨rfl, rfl⟩ := Prod.mk.inj (Option.some.inj hexp)
    exact expiryOk_onExpire_iff hpc _
  | exchange p =>
    cases p with
    | expiry c' k' => exact expiryOk_exchange_iff hR (by simp [hpc]) _
    | _ => cases hexp
  | finish p =>
    cases p with
    | expiry c' k' => exact iff_of_true (expiryOk_move (by simp [hpc]) _) trivial
    | _ => cases hexp
  | read p w =>
    cases p with
    | expiry c' k' => exact nomatch (show some w = none from ha)
    | _ => cases hexp
  | wake p w next how =>
    cases p with
    | expiry c' k' => exact ha.elim
    | _ => cases hexp
  | pass _ _ hasks _ | attempt _ hasks _ => cases hasks <;> cases hexp
  | _ => cases hexp

omit [DecidableEq Agent] in
/-- The condition is about expiries only. -/
theorem quiet_of_not_expiring {t : List (Event Agent)} {n : WaiterNode} {spurious : Bool}
    (h : (s.pc a).expiring = none) : Quiet t s (.go a n spurious) := by
  rw [Quiet]
  split
  · rename_i hpc
    rw [hpc] at h
    cases h
  · rename_i hpc
    rw [hpc] at h
    cases h
  · trivial

/-- **When expiries touch only their own waits.**  For any plain and timed waiters, any
    `post()` and `reset()` calls and every interleaving: in a run every step of every expiry
    resumes at most its own wait, leaves every other waiter suspended and in the chain, leaves
    an unposted baton unposted, and changes nothing if its wait is over — exactly if all these
    steps are quiet. -/
theorem expiries_ok_iff_quiet (t : List (Event Agent)) (s : State Agent) :
    Exec machine ExpiriesOk init t s ↔ Exec machine Quiet init t s := by
  constructor
  · intro h
    induction h with
    | start => exact Exec.start
    | @step t s act s' _ hok hs ih =>
      refine Exec.step act ih ?_ hs
      cases act with
      | go a n spurious =>
        cases hexp : (s.pc a).expiring with
        | none => exact quiet_of_not_expiring hexp
        | some ck => exact (expiryOk_iff ih hexp hs).mp (hok ck.1 ck.2 s' hexp hs)
      | _ => trivial
  · intro h
    induction h with
    | start => exact Exec.start
    | @step t s act s' hrun hq hs ih =>
      refine Exec.step act ih ?_ hs
      cases act with
      | go a n spurious =>
        intro c k s'' hexp hs'
        exact (expiryOk_iff hrun hexp hs').mpr hq
      | _ => trivial

end Expiry

/-- The timer of coroutine 0 expires while it waits, and its callback stores `timed_out`; then
    a `post()` resumes the coroutine, and the callback finds the baton posted. -/
theorem expiry_beside_post_ok : ∃ (t : List (Event (Fin 3))) (s : State (Fin 3)),
      Exec machine ExpiriesOk init t s ∧ posters t = [.expiry 0 1, .post] ∧ .fired 0 1 ∈ t ∧
      .returned 0 1 .kTimeout ∈ t := by
  have hrun : Exec machine Quiet init _ _ :=
    exec_run (.waitFor (0 : Fin 3) 100 :: ops 0 ⟨5, .online 5⟩ 3
      ++ .expire 2 0 1 :: ops 2 ⟨5, .online 5⟩ 1
      ++ .post 1 :: ops 1 ⟨SIZE_MAX, .null⟩ 4 ++ ops 2 ⟨5, .online 5⟩ 2
      ++ ops 0 ⟨5, .online 5⟩ 1) (by decide)
  exact ⟨_, _, (expiries_ok_iff_quiet _ _).mpr hrun, by decide⟩

/-- **An expiry wakes everybody and leaves the baton posted.**  Coroutine 0 waits with a timer
    and coroutine 1 without; nobody calls `post()`.  The expiry of the timed wait resumes both
    and the baton is posted afterwards. -/
theorem expiry_wakes_others : ∃ (t : List (Event (Fin 3))) (s : State (Fin 3)),
      Exec machine Always init t s ∧
      posters t = [.expiry 0 1] ∧ s.pc 1 = .awaitResume .plain ∧
      resumptions 1 t = [(2, .inline)] ∧ s.ready = true := by
  have hrun : Exec machine Always init _ _ :=
    exec_run (.waitFor (0 : Fin 3) 100 :: ops 0 ⟨5, .online 5⟩ 3
      ++ .coAwait 1 :: ops 1 ⟨SIZE_MAX, .null⟩ 3
      ++ .expire 2 0 1 :: ops 2 ⟨5, .online 5⟩ 7) (by decide)
  exact ⟨_, _, hrun, by decide⟩

/-- **An expiry that comes too late marks the next wait.**  The first timed wait of coroutine 0
    is signaled and returns, the baton is reset and 0 waits again; then the first timer
    expires.  It stores `timed_out` in the second wait, whose own timer has not fired. -/
theorem expiry_marks_later_wait : ∃ (t : List (Event (Fin 3))) (s : State (Fin 3)),
      Exec machine Always init t s ∧ s.WaitOpen 0 2 ∧ s.timedOut 0 = true ∧
        .fired 0 1 ∈ t ∧ .fired 0 2 ∉ t := by
  have hrun : Exec machine Always init _ _ :=
    exec_run (.waitFor (0 : Fin 3) 100 :: ops 0 ⟨5, .online 5⟩ 3
      ++ .post 1 :: ops 1 ⟨SIZE_MAX, .null⟩ 4 ++ ops 0 ⟨5, .online 5⟩ 1
      ++ .reset 1 :: ops 1 ⟨SIZE_MAX, .null⟩ 2
      ++ .waitFor 0 100 :: ops 0 ⟨5, .online 5⟩ 3
      ++ .expire 2 0 1 :: ops 2 ⟨5, .online 5⟩ 1) (by decide)
  exact ⟨_, _, hrun, by decide⟩

end AffinityBaton
