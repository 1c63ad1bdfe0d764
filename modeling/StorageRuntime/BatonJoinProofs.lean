import StorageRuntime.AffinityBatonProofs

/-!
# AffinityBaton — one waiter and the tasks it waits for

`coro_join`, `when_all` and `co_submit` use a baton in the same way: one coroutine awaits
it once, tasks post it, nobody resets it.  This file says what such a baton does in the
terms its users need: whether it is posted, where the waiter is, and where each task is in
its `post()`.

* **`joined_step`**: a step of the baton so used is a step of this view.
* **`Joined.waking`**: when the baton is posted, a waiter that is still suspended is being
  woken by a task that has not left its `post()`.
-/

namespace BatonJoin

open Function Interleaving IntrusiveChain ThreadAffinity AffinityBaton

/-- The coroutine that awaits the baton, and the tasks that post it. -/
inductive Party (ι : Type) where
  | waiter
  | task (i : ι)
deriving DecidableEq

abbrev Baton (ι : Type) := AffinityBaton.State (Party ι)

/-! ## The view -/

/-- Where the waiter is: outside, between `await_ready` and the push of its node, suspended, or
    about to run `await_resume`. -/
inductive WaiterPhase where
  | out
  | asking
  | suspended
  | woken
deriving DecidableEq

/-- Where a task is: outside `post()`, before the exchange, with the waiter's node in its hands,
    or with nothing left to do. -/
inductive PosterPhase where
  | out
  | exchanging
  | waking
  | leaving
deriving DecidableEq

structure View (ι : Type) where
  posted : Bool
  waiter : WaiterPhase
  poster : ι → PosterPhase

section View

variable {ι : Type}

def waiterPhase : Pc (Party ι) → WaiterPhase
  | .awaitReady _ | .awaitSuspend _ | .pushCas _ _ => .asking
  | .suspended _ => .suspended
  | .awaitResume _ => .woken
  | _ => .out

def posterPhase : Pc (Party ι) → PosterPhase
  | .exchange _ => .exchanging
  | .resumeChain _ none => .leaving
  | .resumeChain _ (some _) | .resumeNode .. => .waking
  | _ => .out

def view (s : Baton ι) : View ι :=
  ⟨s.word.tag, waiterPhase (s.pc .waiter), fun i => posterPhase (s.pc (.task i))⟩

/-- What is done with the baton. -/
inductive Call (ι : Type) where
  | await
  | goWaiter (n : WaiterNode) (spurious : Bool)
  | post (i : ι)
  | goTask (i : ι)

/-- The steps of the baton.  A task needs neither a node nor a compare-exchange. -/
def Call.act : Call ι → Act (Party ι)
  | .await => .coAwait .waiter
  | .goWaiter n spurious => .go .waiter n spurious
  | .post i => .post (.task i)
  | .goTask i => .go (.task i) ⟨SIZE_MAX, .null⟩ false

/-- The events that signal the waiter: it finds the baton posted, or it is resumed. -/
def signals : Option (Event (Party ι)) → Bool
  | some (.passed .waiter) => true
  | some (.resumed _ .waiter _) => true
  | _ => false

def View.setWaiter (v : View ι) (p : WaiterPhase) : View ι := { v with waiter := p }

variable [DecidableEq ι]

def View.setPoster (v : View ι) (i : ι) (p : PosterPhase) : View ι :=
  { v with poster := update v.poster i p }

/-- What a step can do, and whether it signals the waiter. -/
inductive View.Step (v : View ι) : Call ι → Bool → View ι → Prop where
  | await (hout : v.waiter = .out) : Step v .await false (v.setWaiter .asking)
  | asks {n : WaiterNode} {spurious : Bool} (hasking : v.waiter = .asking) :
      Step v (.goWaiter n spurious) false v
  | suspends {n : WaiterNode} {spurious : Bool} (hasking : v.waiter = .asking)
      (hposted : v.posted = false) :
      Step v (.goWaiter n spurious) false (v.setWaiter .suspended)
  | passes {n : WaiterNode} {spurious : Bool} (hasking : v.waiter = .asking)
      (hposted : v.posted = true) : Step v (.goWaiter n spurious) true (v.setWaiter .woken)
  | returns {n : WaiterNode} {spurious : Bool} (hwoken : v.waiter = .woken) :
      Step v (.goWaiter n spurious) false (v.setWaiter .out)
  | post {i : ι} (hout : v.poster i = .out) : Step v (.post i) false (v.setPoster i .exchanging)
  | claims {i : ι} (hexchanging : v.poster i = .exchanging) (hsuspended : v.waiter = .suspended)
      (hposted : v.posted = false) :
      Step v (.goTask i) false ({ v with posted := true }.setPoster i .waking)
  | posts {i : ι} (hexchanging : v.poster i = .exchanging)
      (hnobody : v.waiter ≠ .suspended ∨ v.posted = true) :
      Step v (.goTask i) false ({ v with posted := true }.setPoster i .leaving)
  | reads {i : ι} (hwaking : v.poster i = .waking) : Step v (.goTask i) false v
  | wakes {i : ι} (hwaking : v.poster i = .waking) (hsuspended : v.waiter = .suspended) :
      Step v (.goTask i) true ((v.setWaiter .woken).setPoster i .leaving)
  | leaves {i : ι} (hleaving : v.poster i = .leaving) :
      Step v (.goTask i) false (v.setPoster i .out)

end View

/-! ## Batons used in this way -/

section Joined

variable {ι : Type}

/-- The places of a coroutine that awaits with `co_await`. -/
inductive Awaits : Pc (Party ι) → Prop where
  | idle : Awaits .idle
  | awaitReady : Awaits (.awaitReady .plain)
  | awaitSuspend : Awaits (.awaitSuspend .plain)
  | pushCas (old : Tagged (Party ι)) : Awaits (.pushCas .plain old)
  | suspended : Awaits (.suspended .plain)
  | awaitResume : Awaits (.awaitResume .plain)

/-- The places of a task that calls `post()`. -/
inductive Posts : Pc (Party ι) → Prop where
  | idle : Posts .idle
  | exchange : Posts (.exchange .post)
  | resumeChain (w : Option (Party ι)) : Posts (.resumeChain .post w)
  | resumeNode (w : Party ι) (next : Option (Party ι)) (how : Resumption) :
      Posts (.resumeNode .post w next how)

/-- The baton is in a state that such use leads to. -/
structure Joined (s : Baton ι) : Prop where
  related : ∃ b, Related b s
  waiter : Awaits (s.pc .waiter)
  poster : ∀ i, Posts (s.pc (.task i))
  claimed : ∀ a w, (s.pc a).pending = some w → s.word.tag = true

theorem joined_init : Joined (AffinityBaton.init : Baton ι) where
  related := ⟨_, [], fun _ => [], rel_init⟩
  waiter := .idle
  poster := fun _ => .idle
  claimed := nofun

/-- A baton that was posted when nobody knew it. -/
def postedBaton : Baton ι := { AffinityBaton.init with word := ⟨none, true⟩ }

theorem joined_posted : Joined (postedBaton : Baton ι) where
  related := ⟨⟨true, fun _ => .out⟩, [], fun _ => [],
    { rel_init with posted := rfl, empty := fun _ => rfl, known := fun _ => trivial }⟩
  waiter := .idle
  poster := fun _ => .idle
  claimed := nofun

variable {s s' : Baton ι}

variable {p : Pc (Party ι)} {w : Party ι}

theorem Posts.not_suspended (h : Posts p) : p.isSuspended = false := by
  cases h <;> rfl

theorem Awaits.pending (h : Awaits p) : p.pending = none := by
  cases h <;> rfl

theorem Awaits.asks {w : Wait} (h : Awaits p) (hasks : p.Asks w) :
    w = .plain ∧ waiterPhase p = .asking := by
  cases hasks <;> cases h <;> exact ⟨rfl, rfl⟩

/-- Only the waiter suspends. -/
theorem Joined.eq_waiter (h : Joined s) (hw : (s.pc w).isSuspended = true) : w = .waiter := by
  cases w with
  | waiter => rfl
  | task i => rw [(h.poster i).not_suspended] at hw; cases hw

theorem Joined.suspended (h : Joined s) (hw : (s.pc .waiter).isSuspended = true) :
    s.pc .waiter = .suspended .plain := by
  have hawaits := h.waiter
  cases hpc : s.pc .waiter with
  | suspended w =>
    rw [hpc] at hawaits
    cases hawaits
    rfl
  | _ => rw [hpc] at hw; cases hw

theorem waiterPhase_eq_suspended : waiterPhase p = .suspended ↔ p.isSuspended = true := by
  cases p <;> simp [waiterPhase, Pc.isSuspended]

theorem posterPhase_eq_waking : posterPhase p = .waking ↔ ∃ w, p.pending = some w := by
  cases p with
  | resumeChain q w => cases w <;> simp [posterPhase, Pc.pending]
  | _ => simp [posterPhase, Pc.pending]

theorem Posts.idle_iff (h : Posts p) : p = .idle ↔ posterPhase p = .out := by
  cases h with
  | resumeChain w => cases w <;> simp [posterPhase]
  | _ => simp [posterPhase]

theorem Awaits.idle_iff (h : Awaits p) : p = .idle ↔ waiterPhase p = .out := by
  cases h <;> simp [waiterPhase]

/-- What a task still has to resume is the suspended waiter, and nobody else. -/
theorem Joined.pending (h : Joined s) {a : Party ι} (hw : (s.pc a).pending = some w) :
    w = .waiter ∧ s.pc .waiter = .suspended .plain := by
  obtain ⟨b, l, r, hrel⟩ := h.related
  have hwalk := hrel.walks a
  rw [hw] at hwalk
  obtain ⟨l', hl, -⟩ := chain_some hwalk
  have hsusp := hrel.suspended_of_mem_walk (a := a) (hl ▸ List.mem_cons_self)
  obtain rfl := h.eq_waiter hsusp
  exact ⟨rfl, h.suspended hsusp⟩

/-- Nothing comes after the waiter in a chain. -/
theorem Joined.next_eq_none (h : Joined s) {i : ι} {p : Poster (Party ι)} {next : Option (Party ι)}
    {how : Resumption} (hpc : s.pc (.task i) = .resumeNode p w next how) : next = none := by
  obtain ⟨b, l, r, hrel⟩ := h.related
  obtain ⟨l', hl, hchain, -⟩ := hrel.resumeNode_mem hpc
  have hwalk := hrel.walks (.task i)
  have hnodup : (r (.task i)).Nodup := chain_nodup hwalk
  have hall : ∀ v ∈ r (.task i), v = .waiter := fun v hv =>
    h.eq_waiter (hrel.suspended_of_mem_walk hv)
  rw [hl] at hnodup hall
  cases next with
  | none => rfl
  | some v =>
    obtain ⟨l'', rfl, -⟩ := chain_some hchain
    have hw := hall w List.mem_cons_self
    have hv := hall v (List.mem_cons_of_mem _ List.mem_cons_self)
    rw [hw, hv] at hnodup
    exact absurd List.mem_cons_self (List.nodup_cons.mp hnodup).1

/-- The word points to nobody but the waiter. -/
theorem Joined.word_eq (h : Joined s) (hptr : s.word.ptr = some w) : w = .waiter := by
  obtain ⟨b, l, r, hrel⟩ := h.related
  have hchain := hrel.chain
  rw [hptr] at hchain
  obtain ⟨l', rfl, -⟩ := chain_some hchain
  exact h.eq_waiter (hrel.suspended_of_mem_chain List.mem_cons_self)

/-- A suspended waiter is the one the word points to, or a task has drained a chain. -/
theorem Joined.located (h : Joined s) (hsusp : (s.pc .waiter).isSuspended = true) :
    s.word.ptr = some .waiter ∨ ∃ a w, (s.pc a).pending = some w := by
  obtain ⟨b, l, r, hrel⟩ := h.related
  cases hphase : b.phase .waiter with
  | out => rw [(hrel.suspended .waiter).mp hphase] at hsusp; cases hsusp
  | waiting n =>
    obtain ⟨hmem, -⟩ := (hrel.waiting .waiter n).mp hphase
    have hchain := hrel.chain
    cases hptr : s.word.ptr with
    | none => rw [hptr] at hchain; rw [chain_none hchain] at hmem; cases hmem
    | some w => exact .inl (congrArg some (h.word_eq hptr))
  | claimed n a =>
    obtain ⟨hmem, -⟩ := (hrel.claimed .waiter n a).mp hphase
    have hwalk := hrel.walks a
    cases hpend : (s.pc a).pending with
    | none => rw [hpend] at hwalk; rw [chain_none hwalk] at hmem; cases hmem
    | some w => exact .inr ⟨a, w, hpend⟩

/-- The word points to the waiter exactly when it is suspended and not claimed. -/
theorem Joined.word (h : Joined s) :
    (s.pc .waiter).isSuspended = true ∧ s.word.tag = false ↔ s.word.ptr = some .waiter := by
  constructor
  · rintro ⟨hsusp, htag⟩
    rcases h.located hsusp with hptr | ⟨a, w, hpend⟩
    · exact hptr
    · rw [h.claimed a w hpend] at htag
      cases htag
  · intro hptr
    obtain ⟨b, l, r, hrel⟩ := h.related
    have hchain := hrel.chain
    rw [hptr] at hchain
    obtain ⟨l', rfl, -⟩ := chain_some hchain
    refine ⟨hrel.suspended_of_mem_chain List.mem_cons_self, ?_⟩
    cases htag : s.word.tag with
    | false => rfl
    | true => rw [hrel.empty htag] at hptr; cases hptr

/-- **A suspended waiter of a posted baton is being woken.** -/
theorem Joined.waking (h : Joined s) (hsusp : (view s).waiter = .suspended)
    (hposted : (view s).posted = true) : ∃ i, (view s).poster i = .waking := by
  rcases h.located (waiterPhase_eq_suspended.mp hsusp) with hptr | ⟨a, w, hpend⟩
  · cases (h.word.mpr hptr).2.symm.trans hposted
  · cases a with
    | waiter => rw [h.waiter.pending] at hpend; cases hpend
    | task i => exact ⟨i, posterPhase_eq_waking.mpr ⟨w, hpend⟩⟩

/-- A task that is waking somebody finds the waiter suspended and the baton posted. -/
theorem Joined.of_waking (h : Joined s) {i : ι} (hi : (view s).poster i = .waking) :
    (view s).waiter = .suspended ∧ (view s).posted = true := by
  obtain ⟨w, hpend⟩ := posterPhase_eq_waking.mp hi
  refine ⟨?_, h.claimed _ w hpend⟩
  show waiterPhase (s.pc .waiter) = .suspended
  rw [(h.pending hpend).2]
  rfl

/-! ## Steps -/

/-- A phase that stays. -/
theorem same_waiter {v : View ι} {p : WaiterPhase} (h : v.waiter = p) : v.setWaiter p = v := by
  rw [View.setWaiter, ← h]

variable [DecidableEq ι]

variable {p : Pc (Party ι)} {i : ι} {o : Bool}

theorem view_waiter (htag : s'.word.tag = s.word.tag) (hpc : s'.pc = update s.pc .waiter p) :
    view s' = (view s).setWaiter (waiterPhase p) := by
  simp only [view, View.setWaiter, htag, hpc, update_self, ne_eq, reduceCtorEq,
    not_false_eq_true, update_of_ne]

theorem view_task (hpc : s'.pc = update s.pc (.task i) p) :
    view s' = ({ view s with posted := s'.word.tag }).setPoster i (posterPhase p) := by
  have hposter : (fun j => posterPhase (s'.pc (.task j))) =
      update (fun j => posterPhase (s.pc (.task j))) i (posterPhase p) := by
    funext j
    rw [hpc]
    rcases eq_or_ne j i with rfl | hne
    · rw [update_self, update_self]
    · rw [update_of_ne hne, update_of_ne fun heq => hne (Party.task.inj heq)]
  rw [view, View.setPoster, hposter, hpc, update_of_ne (by nofun)]
  rfl

theorem Joined.waiterGoes (h : Joined s) {c : Call ι} (hrel : ∃ b, Related b s')
    (htag : s'.word.tag = s.word.tag) (hpc : s'.pc = update s.pc .waiter p) (hp : Awaits p)
    (hstep : View.Step (view s) c o ((view s).setWaiter (waiterPhase p))) :
    Joined s' ∧ View.Step (view s) c o (view s') := by
  refine ⟨⟨hrel, ?_, fun i => ?_, fun a w ha => ?_⟩, view_waiter htag hpc ▸ hstep⟩
  · rw [hpc, update_self]
    exact hp
  · rw [hpc, update_of_ne (by nofun)]
    exact h.poster i
  · rw [htag]
    rw [hpc] at ha
    rcases update_cases Pc.pending ha with ⟨-, hnew⟩ | ⟨-, hold⟩
    · rw [hp.pending] at hnew
      cases hnew
    · exact h.claimed a w hold

theorem Joined.taskGoes (h : Joined s) {c : Call ι} (hrel : ∃ b, Related b s')
    (htag : s.word.tag = true → s'.word.tag = true) (hpc : s'.pc = update s.pc (.task i) p)
    (hp : Posts p) (hclaimed : ∀ w, p.pending = some w → s'.word.tag = true)
    (hstep : View.Step (view s) c o
      (({ view s with posted := s'.word.tag }).setPoster i (posterPhase p))) :
    Joined s' ∧ View.Step (view s) c o (view s') := by
  refine ⟨⟨hrel, ?_, fun j => ?_, fun a w ha => ?_⟩, view_task hpc ▸ hstep⟩
  · rw [hpc, update_of_ne (by nofun)]
    exact h.waiter
  · rw [hpc]
    rcases eq_or_ne (Party.task j) (.task i) with heq | hne
    · rw [heq, update_self]
      exact hp
    · rw [update_of_ne hne]
      exact h.poster j
  · rw [hpc] at ha
    rcases update_cases Pc.pending ha with ⟨-, hnew⟩ | ⟨-, hold⟩
    · exact hclaimed w hnew
    · exact htag (h.claimed a w hold)

/-- The same for a task. -/
theorem same_poster {v : View ι} {p : PosterPhase} (h : v.poster i = p) : v.setPoster i p = v := by
  rw [View.setPoster, ← h, update_eq_self]

theorem waiter_step (h : Joined s) {n : WaiterNode} {spurious : Bool}
    (hs : go s .waiter n spurious = some s') : Joined s' ∧ View.Step (view s) (.goWaiter n spurious)
      (signals (AffinityBaton.event s (.go .waiter n spurious))) (view s') := by
  obtain ⟨b, hb⟩ := h.related
  have hmove := go_moves hs
  have hrel : ∃ b, Related b s' := (related_go hb rfl hmove).related
  have hphase : (view s).waiter = waiterPhase (s.pc .waiter) := rfl
  have hawaits := h.waiter
  generalize hp : s.pc .waiter = p at hmove hawaits hphase
  generalize AffinityBaton.event s (.go .waiter n spurious) = o at hmove
  cases hmove with
  | pass m next hasks htag =>
    obtain ⟨rfl, hasking⟩ := hawaits.asks hasks
    exact h.waiterGoes hrel rfl rfl .awaitResume (.passes (hphase.trans hasking) htag)
  | unready =>
    cases hawaits
    refine h.waiterGoes hrel rfl rfl .awaitSuspend ?_
    exact (same_waiter hphase).symm ▸ .asks hphase
  | attempt m hasks _ =>
    obtain ⟨rfl, hasking⟩ := hawaits.asks hasks
    refine h.waiterGoes hrel rfl rfl (.pushCas _) ?_
    exact (same_waiter (hphase.trans hasking)).symm ▸ .asks (hphase.trans hasking)
  | push w =>
    cases hawaits
    have hfalse : s.word.tag = false := by
      obtain ⟨l, r, hr⟩ := hb
      have hknown := hr.known .waiter
      rw [hp] at hknown
      exact hknown.2
    exact h.waiterGoes hrel hfalse.symm rfl .suspended (.suspends hphase hfalse)
  | resume => exact h.waiterGoes hrel rfl rfl .idle (.returns hphase)
  | _ => cases hawaits

theorem task_step (h : Joined s) {n : WaiterNode} {spurious : Bool}
    (hs : go s (.task i) n spurious = some s') : Joined s' ∧ View.Step (view s) (.goTask i)
      (signals (AffinityBaton.event s (.go (.task i) n spurious))) (view s') := by
  obtain ⟨b, hb⟩ := h.related
  have hmove := go_moves hs
  have hrel : ∃ b, Related b s' := (related_go hb rfl hmove).related
  have hphase : (view s).poster i = posterPhase (s.pc (.task i)) := rfl
  have hposts := h.poster i
  generalize hp : s.pc (.task i) = p at hmove hposts hphase
  generalize AffinityBaton.event s (.go (.task i) n spurious) = o at hmove
  cases hmove with
  | exchange q =>
    cases hposts
    refine h.taskGoes hrel (fun _ => rfl) rfl (.resumeChain _) (fun _ _ => rfl) ?_
    cases hptr : s.word.ptr with
    | none =>
      refine .posts hphase ?_
      by_contra hnot
      simp only [not_or, not_not, Bool.not_eq_true] at hnot
      have := h.word.mp ⟨waiterPhase_eq_suspended.mp hnot.1, hnot.2⟩
      rw [hptr] at this
      cases this
    | some w =>
      obtain rfl := h.word_eq hptr
      obtain ⟨hsusp, htag⟩ := h.word.mpr hptr
      exact .claims hphase (waiterPhase_eq_suspended.mpr hsusp) htag
  | finish q =>
    cases hposts
    exact h.taskGoes hrel id rfl .idle (by rintro _ ⟨⟩) (.leaves hphase)
  | read q w =>
    cases hposts
    have htag : s.word.tag = true := h.claimed (.task i) w (by rw [hp]; rfl)
    refine h.taskGoes hrel id rfl (.resumeNode ..) (fun _ _ => htag) ?_
    exact (same_poster hphase).symm ▸ .reads hphase
  | wake q w next how =>
    cases hposts
    have hpend : (s.pc (.task i)).pending = some w := by rw [hp]; rfl
    obtain ⟨rfl, hsusp⟩ := h.pending hpend
    obtain rfl := h.next_eq_none hp
    have htag := h.claimed _ _ hpend
    rw [resume_setPc s _ (by rintro ⟨⟩) hsusp] at hrel ⊢
    refine ⟨⟨hrel, ?_, fun j => ?_, fun a v ha => htag⟩, ?_⟩
    · exact .awaitResume
    · rw [setPc_of_ne _ _ (by rintro ⟨⟩)]
      rcases eq_or_ne (Party.task j) (.task i) with heq | hne
      · rw [heq, setPc_self]
        exact .resumeChain none
      · rw [setPc_of_ne _ _ hne]
        exact h.poster j
    · have htask : view (s.setPc (.task i) (.resumeChain .post none)) =
          ({ view s with posted := s.word.tag } : View ι).setPoster i
            (posterPhase (.resumeChain .post none)) := view_task rfl
      have hwoken : view ((s.setPc (.task i) (.resumeChain .post none)).setPc .waiter
          (.awaitResume .plain)) =
          (view (s.setPc (.task i) (.resumeChain .post none))).setWaiter
            (waiterPhase (.awaitResume .plain)) := view_waiter rfl rfl
      rw [hwoken, htask]
      exact .wakes hphase (waiterPhase_eq_suspended.mpr (by rw [hsusp]; rfl))
  | pass _ _ hasks _ | attempt _ hasks _ => cases hasks <;> cases hposts
  | _ => cases hposts

/-- A waiter that is not suspended can go on. -/
theorem Joined.waiter_runs (_h : Joined s) (hout : (view s).waiter ≠ .out)
    (hsusp : (view s).waiter ≠ .suspended) (n : WaiterNode) (spurious : Bool) :
    (AffinityBaton.step s (.go .waiter n spurious)).isSome = true := by
  have hphase : (view s).waiter = waiterPhase (s.pc .waiter) := rfl
  rw [hphase] at hout hsusp
  simp only [AffinityBaton.step, go]
  cases hp : s.pc .waiter with
  | awaitReady w | pushCas w old => dsimp only; split <;> rfl
  | awaitSuspend w | awaitResume w => rfl
  | suspended w => rw [hp] at hsusp; exact absurd rfl hsusp
  | _ => rw [hp] at hout; exact absurd rfl hout

/-- A task in `post()` can go on. -/
theorem Joined.task_runs (h : Joined s) (hi : (view s).poster i ≠ .out) :
    (AffinityBaton.step s (Call.goTask i).act).isSome = true := by
  have hposts := h.poster i
  have hphase : (view s).poster i = posterPhase (s.pc (.task i)) := rfl
  rw [hphase] at hi
  simp only [Call.act, AffinityBaton.step, go]
  generalize s.pc (.task i) = p at hposts hi
  cases hposts with
  | idle => exact absurd rfl hi
  | resumeChain w => cases w <;> rfl
  | exchange | resumeNode => rfl

/-- **The view follows the baton.** -/
theorem joined_step (h : Joined s) (c : Call ι) (hs : AffinityBaton.step s c.act = some s') :
    Joined s' ∧ View.Step (view s) c (signals (AffinityBaton.event s c.act)) (view s') := by
  obtain ⟨b, hb⟩ := h.related
  cases c with
  | await =>
    obtain ⟨hidle, rfl⟩ : s.pc .waiter = .idle ∧ s.setPc .waiter (.awaitReady .plain) = s' := by
      simpa [Call.act, AffinityBaton.step, State.begin] using hs
    exact h.waiterGoes ⟨b, related_begin hb hs rfl rfl trivial⟩ rfl rfl .awaitReady
      (.await (congrArg waiterPhase hidle))
  | goWaiter n spurious => exact waiter_step h hs
  | post i =>
    obtain ⟨hidle, rfl⟩ : s.pc (.task i) = .idle ∧ s.setPc (.task i) (.exchange .post) = s' := by
      simpa [Call.act, AffinityBaton.step, State.begin] using hs
    exact h.taskGoes ⟨b, related_begin hb hs rfl rfl trivial⟩ id rfl .exchange (by rintro _ ⟨⟩)
      (.post (congrArg posterPhase hidle))
  | goTask i => exact task_step h hs

end Joined

end BatonJoin
