import StorageRuntime.IntrusiveChainProofs
import StorageRuntime.ThreadAffinityProofs

/-!
# AffinityBaton — one word for the flag and the waiters

`waiters_` holds the head of a chain of waiter nodes or, in its low bit, the posted flag.
`co_await` pushes its node with a compare-exchange that fails if the flag appears; `post()`
and `post_direct()` exchange the whole word for the bare flag and resume the chain they got;
`reset()` clears the flag.  `wait_for` is the same wait with a timer: the expiry callback
stores `timed_out` in the waiting frame and then calls `post()` like anyone else.

The model has one step for every atomic operation on `waiters_` and on `timed_out`, one for
the reads of a drained node and one for its resumption.  A weak compare-exchange may fail
spuriously.  The insertion of the timer is part of the push: nothing can tell a timer that is
not inserted yet from one that has not expired yet.  `timed_out` lives at a fixed place of
the coroutine frame, so a coroutine that waits again uses the same place (`epoch` numbers its
timed waits).  The destructor and the move operations are not modelled.

`Lifecycle` says what a baton is for: a suspension begins only while the baton is unposted,
is claimed by the first exchange that follows, and is resumed once, by the call that claimed
it and before that call returns; a reset changes nobody's suspension.

The relation `Rel` ties the abstract baton to the word, the chain behind it and the chains
that calls of `resume_chain` have drained.  **`related_exec`**: the trace of every run of the
machine is one that `Lifecycle` allows, and it ends in related states.
-/

namespace AffinityBaton

open Function Interleaving IntrusiveChain ThreadAffinity

/-- The two awaiters: `operator co_await` and `wait_for(timeout)`. -/
inductive Wait where
  | plain
  | timed (timeout : Int)
deriving DecidableEq, Repr

/-- `WaitResult`. -/
inductive WaitResult where
  | kSignaled
  | kTimeout
deriving DecidableEq, Repr

/-- Who runs the exchange: a user's `post()` or `post_direct()`, or the `post()` in the
    expiry callback of the `k`-th timed wait of `c`. -/
inductive Poster (Agent : Type) where
  | post
  | postDirect
  | expiry (c : Agent) (k : Nat)
deriving DecidableEq, Repr

/-- Where an agent is.  `old` is the local variable of the compare-exchange loops. -/
inductive Pc (Agent : Type) where
  | idle
  /-- `await_ready`: about to load `waiters_`. -/
  | awaitReady (w : Wait)
  /-- `await_suspend`: about to fill in the node and load `waiters_`. -/
  | awaitSuspend (w : Wait)
  /-- `node.next` is written, about to compare-exchange the node in. -/
  | pushCas (w : Wait) (old : Tagged Agent)
  | suspended (w : Wait)
  /-- Resumed (or never suspended), about to run `await_resume`. -/
  | awaitResume (w : Wait)
  /-- The expiry callback: about to store `timed_out` of wait `k` of `c`. -/
  | onExpire (c : Agent) (k : Nat)
  /-- `post`: about to exchange. -/
  | exchange (p : Poster Agent)
  /-- The top of the loop of `resume_chain`. -/
  | resumeChain (p : Poster Agent) (waiters : Option Agent)
  /-- `resume_chain` has read the node of `w`, about to resume it. -/
  | resumeNode (p : Poster Agent) (w : Agent) (next : Option Agent) (how : Resumption)
  /-- `reset`: about to load `waiters_`. -/
  | reset
  /-- `reset`: the flag was set, about to compare-exchange it away. -/
  | resetCas (old : Tagged Agent)
deriving DecidableEq, Repr

/-- The baton, the frames of all agents, and the timers inserted and not yet expired. -/
structure State (Agent : Type) where
  word : Tagged Agent
  next : Agent → Option Agent
  node : Agent → WaiterNode
  pc : Agent → Pc Agent
  epoch : Agent → Nat
  /-- The place of `timed_out` in the agent's frame.  When the wait is over the place may be gone
      or hold something else; an expiry that stores there all the same is a store here too. -/
  timedOut : Agent → Bool
  timers : List (Agent × Nat)

variable {Agent : Type}

def init : State Agent where
  word := Tagged.zero
  next _ := none
  node _ := ⟨SIZE_MAX, .null⟩
  pc _ := .idle
  epoch _ := 0
  timedOut _ := false
  timers := []

/-- `ready()` and `try_wait()`. -/
def State.ready (s : State Agent) : Bool := s.word.tag

/-- A call begins, a timer expires, or an agent executes its next atomic operation (`n` is
    what `current_worker_id()` and `get_current_route()` return there, and `spurious` makes a
    weak compare-exchange fail). -/
inductive Act (Agent : Type) where
  | coAwait (a : Agent)
  | waitFor (a : Agent) (timeout : Int)
  | post (a : Agent)
  | postDirect (a : Agent)
  | reset (a : Agent)
  /-- Agent `a` (a timer coroutine) takes wait `k` of `c` out of the timers. -/
  | expire (a c : Agent) (k : Nat)
  | go (a : Agent) (n : WaiterNode) (spurious : Bool)

/-- What an observer sees. -/
inductive Event (Agent : Type) where
  /-- `w` suspends with node `n`, in its timed wait `k` if there is one. -/
  | pushed (w : Agent) (n : WaiterNode) (k : Option Nat)
  /-- `w` does not suspend, because it saw the posted bit. -/
  | passed (w : Agent)
  | exchanged (a : Agent) (p : Poster Agent)
  | resumed (a w : Agent) (how : Resumption)
  /-- The `post()` of `a` returns. -/
  | finished (a : Agent)
  /-- `reset()` clears the posted bit. -/
  | reset (a : Agent)
  /-- `timed_out` of wait `k` of `c` is stored by its expiry callback. -/
  | fired (c : Agent) (k : Nat)
  | returned (c : Agent) (k : Nat) (r : WaitResult)
deriving DecidableEq, Repr

section Machine

variable [DecidableEq Agent]

/-- Put agent `a` at `p`. -/
def State.setPc (s : State Agent) (a : Agent) (p : Pc Agent) : State Agent :=
  { s with pc := update s.pc a p }

/-- `state.timed_out.store(true)` in the frame of `c`. -/
def State.setTimedOut (s : State Agent) (c : Agent) : State Agent :=
  { s with timedOut := update s.timedOut c true }

/-- The node of `a` and its link. -/
def State.setNode (s : State Agent) (a : Agent) (n : WaiterNode) (next : Option Agent) :
    State Agent :=
  { s with
    node := update s.node a n
    next := update s.next a next }

/-- One turn of the push loop with the value `old` just read: leave if it is posted, else
    write `node.next`. -/
def State.pushLoop (s : State Agent) (a : Agent) (w : Wait) (old : Tagged Agent) :
    State Agent :=
  if old.tag = true then s.setPc a (.awaitResume w)
  else { s with next := update s.next a old.ptr }.setPc a (.pushCas w old)

/-- `while (old & kPostedBit)` in `reset`, with the value just read. -/
def State.resetLoop (s : State Agent) (a : Agent) : State Agent :=
  if s.word.tag = true then s.setPc a (.resetCas s.word) else s.setPc a .idle

/-- The timer node that `await_suspend` inserts after its push. -/
def State.armed (s : State Agent) (a : Agent) : Wait → List (Agent × Nat)
  | .plain => s.timers
  | .timed _ => (a, s.epoch a) :: s.timers

/-- Resume `w`.  Resuming a coroutine that is not suspended is undefined in the source; here
    it changes nothing. -/
def State.resume (s : State Agent) (w : Agent) : State Agent :=
  match s.pc w with
  | .suspended wt => s.setPc w (.awaitResume wt)
  | _ => s

/-- `await_suspend` up to the load of `waiters_`.  There is a timer context exactly where
    `get_current_route()` finds an online worker or an executor. -/
def State.awaitSuspend (s : State Agent) (a : Agent) (n : WaiterNode) (w : Wait) :
    State Agent :=
  let s₁ := { s with
    node := update s.node a n
    next := update s.next a none }
  match w with
  | .plain => s₁.pushLoop a w s₁.word
  | .timed timeout =>
    if timeout ≤ 0 then (s₁.setTimedOut a).setPc a (.awaitResume w)
    else if n.route.isSet = false then (s₁.setTimedOut a).setPc a (.awaitResume w)
    else s₁.pushLoop a w s₁.word

/-- The next atomic operation of agent `a`. -/
def go (s : State Agent) (a : Agent) (n : WaiterNode) (spurious : Bool) :
    Option (State Agent) :=
  match s.pc a with
  | .awaitReady w =>
    if s.ready = true then some (s.setPc a (.awaitResume w))
    else some (s.setPc a (.awaitSuspend w))
  | .awaitSuspend w => some (s.awaitSuspend a n w)
  | .pushCas w old =>
    if s.word = old ∧ spurious = false then
      some ({ s with word := ⟨some a, false⟩, timers := s.armed a w }.setPc a (.suspended w))
    else some (s.pushLoop a w s.word)
  | .awaitResume _ => some (s.setPc a .idle)
  | .onExpire c k => some ((s.setTimedOut c).setPc a (.exchange (.expiry c k)))
  | .exchange p => some ({ s with word := ⟨none, true⟩ }.setPc a (.resumeChain p s.word.ptr))
  | .resumeChain _ none => some (s.setPc a .idle)
  | .resumeChain p (some w) => some (s.setPc a (.resumeNode p w (s.next w) (s.node w).resumption))
  | .resumeNode p w next _ => some ((s.setPc a (.resumeChain p next)).resume w)
  | .reset => some (s.resetLoop a)
  | .resetCas old =>
    if s.word = old ∧ spurious = false then
      some ({ s with word := ⟨old.ptr, false⟩ }.setPc a .idle)
    else some (s.resetLoop a)
  | .idle | .suspended _ => none

/-- Agent `a`, if idle, begins a call at `p`. -/
def State.begin (s : State Agent) (a : Agent) (p : Pc Agent) : Option (State Agent) :=
  if s.pc a = .idle then some (s.setPc a p) else none

/-- One step. -/
def step (s : State Agent) : Act Agent → Option (State Agent)
  | .coAwait a => s.begin a (.awaitReady .plain)
  | .waitFor a timeout =>
    -- a new `TimedAwaiter` with `timed_out` false
    { s with
      epoch := update s.epoch a (s.epoch a + 1)
      timedOut := update s.timedOut a false }.begin a (.awaitReady (.timed timeout))
  | .post a => s.begin a (.exchange .post)
  | .postDirect a => s.begin a (.exchange .postDirect)
  | .reset a => s.begin a .reset
  | .expire a c k =>
    if (c, k) ∈ s.timers then
      { s with timers := s.timers.erase (c, k) }.begin a (.onExpire c k)
    else none
  | .go a n spurious => go s a n spurious

/-- The timed wait that `a` is in, if it is one. -/
def State.waitId (s : State Agent) (a : Agent) : Wait → Option Nat
  | .plain => none
  | .timed _ => some (s.epoch a)

/-- `TimedAwaiter::await_resume`. -/
def State.result (s : State Agent) (a : Agent) : WaitResult :=
  if s.timedOut a = true then .kTimeout else .kSignaled

/-- Whether `await_suspend` of `w` with node `n` gets as far as loading `waiters_`. -/
def Wait.loads (n : WaiterNode) : Wait → Bool
  | .plain => true
  | .timed timeout => !decide (timeout ≤ 0) && n.route.isSet

def event (s : State Agent) : Act Agent → Option (Event Agent)
  | .go a n spurious =>
    match s.pc a with
    | .awaitReady _ => if s.ready = true then some (.passed a) else none
    | .awaitSuspend w => if w.loads n = true ∧ s.word.tag = true then some (.passed a) else none
    | .pushCas w old =>
      if s.word = old ∧ spurious = false then some (.pushed a (s.node a) (s.waitId a w))
      else if s.word.tag = true then some (.passed a) else none
    | .awaitResume (.timed _) => some (.returned a (s.epoch a) (s.result a))
    | .onExpire c k => some (.fired c k)
    | .exchange p => some (.exchanged a p)
    | .resumeChain _ none => some (.finished a)
    | .resumeNode _ w _ how => some (.resumed a w how)
    | .resetCas old => if s.word = old ∧ spurious = false then some (.reset a) else none
    | _ => none
  | _ => none

def machine : Machine (State Agent) (Act Agent) (Event Agent) where
  step := step
  event := event

end Machine

/-! ## What a step of an agent does -/

section Moves

variable [DecidableEq Agent]

/-- The places of a coroutine that may be about to suspend. -/
inductive Pc.Asks (w : Wait) : Pc Agent → Prop where
  | awaitReady : Asks w (.awaitReady w)
  | awaitSuspend : Asks w (.awaitSuspend w)
  | pushCas (old : Tagged Agent) : Asks w (.pushCas w old)

/-- The steps of agent `a`: where it was, the state then, and what is observed. -/
inductive GoMove (s : State Agent) (a : Agent) (n : WaiterNode) (spurious : Bool) :
    Pc Agent → State Agent → Option (Event Agent) → Prop where
  | pass {w : Wait} {p : Pc Agent} (m : WaiterNode) (next : Option Agent) : p.Asks w →
      s.word.tag = true →
      GoMove s a n spurious p ((s.setNode a m next).setPc a (.awaitResume w)) (some (.passed a))
  | unready {w : Wait} :
      GoMove s a n spurious (.awaitReady w) (s.setPc a (.awaitSuspend w)) none
  /-- There is no time to wait, or no timer context. -/
  | refuse {timeout : Int} : (Wait.timed timeout).loads n ≠ true →
      GoMove s a n spurious (.awaitSuspend (.timed timeout))
        (((s.setNode a n none).setTimedOut a).setPc a (.awaitResume (.timed timeout))) none
  | attempt {w : Wait} {p : Pc Agent} (m : WaiterNode) : p.Asks w → s.word.tag ≠ true →
      GoMove s a n spurious p ((s.setNode a m s.word.ptr).setPc a (.pushCas w s.word)) none
  | push (w : Wait) :
      GoMove s a n spurious (.pushCas w s.word)
        ({ s with word := ⟨some a, false⟩, timers := s.armed a w }.setPc a (.suspended w))
        (some (.pushed a (s.node a) (s.waitId a w)))
  | resume : GoMove s a n spurious (.awaitResume .plain) (s.setPc a .idle) none
  | return (timeout : Int) :
      GoMove s a n spurious (.awaitResume (.timed timeout)) (s.setPc a .idle)
        (some (.returned a (s.epoch a) (s.result a)))
  | fire (c : Agent) (k : Nat) :
      GoMove s a n spurious (.onExpire c k)
        ((s.setTimedOut c).setPc a (.exchange (.expiry c k))) (some (.fired c k))
  | exchange (p : Poster Agent) :
      GoMove s a n spurious (.exchange p)
        ({ s with word := ⟨none, true⟩ }.setPc a (.resumeChain p s.word.ptr))
        (some (.exchanged a p))
  | finish (p : Poster Agent) :
      GoMove s a n spurious (.resumeChain p none) (s.setPc a .idle) (some (.finished a))
  | read (p : Poster Agent) (w : Agent) :
      GoMove s a n spurious (.resumeChain p (some w))
        (s.setPc a (.resumeNode p w (s.next w) (s.node w).resumption)) none
  | wake (p : Poster Agent) (w : Agent) (next : Option Agent) (how : Resumption) :
      GoMove s a n spurious (.resumeNode p w next how)
        ((s.setPc a (.resumeChain p next)).resume w) (some (.resumed a w how))
  | resetLoad : s.word.tag = true →
      GoMove s a n spurious .reset (s.setPc a (.resetCas s.word)) none
  | resetLeave : GoMove s a n spurious .reset (s.setPc a .idle) none
  | reset : spurious = false →
      GoMove s a n spurious (.resetCas s.word)
        ({ s with word := ⟨s.word.ptr, false⟩ }.setPc a .idle) (some (.reset a))
  /-- The compare-exchange failed. -/
  | resetRetry (old : Tagged Agent) : s.word.tag = true →
      GoMove s a n spurious (.resetCas old) (s.setPc a (.resetCas s.word)) none
  | resetFail (old : Tagged Agent) : GoMove s a n spurious (.resetCas old) (s.setPc a .idle) none

variable {s s' : State Agent} {a : Agent} {n : WaiterNode} {spurious : Bool}

@[simp] theorem setNode_self (s : State Agent) (a : Agent) :
    s.setNode a (s.node a) (s.next a) = s := by
  rw [State.setNode, update_eq_self, update_eq_self]

/-- One turn of the push loop, from the state in which `a` has written its node. -/
theorem pushLoop_moves {w : Wait} {p : Pc Agent} (hp : p.Asks w) (m : WaiterNode)
    (next : Option Agent) :
    GoMove s a n spurious p ((s.setNode a m next).pushLoop a w s.word)
      (if s.word.tag = true then some (.passed a) else none) := by
  rw [State.pushLoop]
  by_cases htag : s.word.tag = true
  · rw [if_pos htag, if_pos htag]
    exact .pass m next hp htag
  · rw [if_neg htag, if_neg htag]
    have hnext : update (s.setNode a m next).next a s.word.ptr = update s.next a s.word.ptr :=
      update_idem ..
    rw [hnext]
    exact .attempt m hp htag

theorem awaitSuspend_moves (w : Wait) :
    GoMove s a n spurious (.awaitSuspend w) (s.awaitSuspend a n w)
      (if w.loads n = true ∧ s.word.tag = true then some (.passed a) else none) := by
  have hloop : GoMove s a n spurious (.awaitSuspend w) _ _ := pushLoop_moves .awaitSuspend n none
  cases w with
  | plain =>
    simp only [Wait.loads, true_and]
    exact hloop
  | timed timeout =>
    rw [State.awaitSuspend]
    dsimp only
    by_cases hloads : (Wait.timed timeout).loads n = true
    · obtain ⟨hpos, hroute⟩ : ¬ timeout ≤ 0 ∧ ¬ n.route.isSet = false := by
        simpa [Wait.loads] using hloads
      rw [if_neg hpos, if_neg hroute]
      simp only [hloads, true_and]
      exact hloop
    · simp only [hloads]
      split
      · exact .refuse hloads
      next hpos =>
        rw [if_pos (by simpa [Wait.loads, hpos] using hloads)]
        exact .refuse hloads

/-- Every step of an agent is one of those. -/
theorem go_moves (hs : go s a n spurious = some s') :
    GoMove s a n spurious (s.pc a) s' (event s (.go a n spurious)) := by
  rw [go] at hs
  rw [event]
  generalize hpc : s.pc a = q at hs ⊢
  cases q with
  | idle | suspended w => cases hs
  | awaitReady w =>
    dsimp only at hs ⊢
    by_cases htag : s.ready = true
    · rw [if_pos htag] at hs ⊢
      cases hs
      have hpass : GoMove s a n spurious (.awaitReady w) _ _ :=
        .pass (s.node a) (s.next a) .awaitReady htag
      rwa [setNode_self] at hpass
    · rw [if_neg htag] at hs ⊢
      cases hs
      exact .unready
  | awaitSuspend w =>
    cases hs
    exact awaitSuspend_moves w
  | pushCas w old =>
    dsimp only at hs ⊢
    by_cases hcas : s.word = old ∧ spurious = false
    · rw [if_pos hcas] at hs ⊢
      cases hs
      obtain ⟨rfl, -⟩ := hcas
      exact .push w
    · rw [if_neg hcas] at hs ⊢
      cases hs
      have hloop : GoMove s a n spurious (.pushCas w old) _ _ :=
        pushLoop_moves (.pushCas old) (s.node a) (s.next a)
      rwa [setNode_self] at hloop
  | awaitResume w =>
    cases hs
    cases w with
    | plain => exact .resume
    | timed timeout => exact .return timeout
  | onExpire c k =>
    cases hs
    exact .fire c k
  | exchange p =>
    cases hs
    exact .exchange p
  | resumeChain p waiters =>
    cases waiters with
    | none =>
      cases hs
      exact .finish p
    | some w =>
      cases hs
      exact .read p w
  | resumeNode p w next how =>
    cases hs
    exact .wake p w next how
  | reset =>
    cases hs
    rw [State.resetLoop]
    split
    next htag => exact .resetLoad htag
    next => exact .resetLeave
  | resetCas old =>
    dsimp only at hs ⊢
    by_cases hcas : s.word = old ∧ spurious = false
    · rw [if_pos hcas] at hs ⊢
      cases hs
      obtain ⟨rfl, hsp⟩ := hcas
      exact .reset hsp
    · rw [if_neg hcas] at hs ⊢
      cases hs
      rw [State.resetLoop]
      split
      next htag => exact .resetRetry old htag
      next => exact .resetFail old

end Moves

/-! ## What a baton is for -/

/-- Where a coroutine is in its suspension on the baton. -/
inductive Phase (Agent : Type) where
  | out
  /-- Suspended with node `n`, and nobody has come for it. -/
  | waiting (n : WaiterNode)
  /-- Suspended with node `n`, and the `post()` of `a` is going to resume it. -/
  | claimed (n : WaiterNode) (a : Agent)
deriving DecidableEq, Repr

/-- An exchange by `a` claims a waiting coroutine and changes no other. -/
def Phase.claim (a : Agent) : Phase Agent → Phase Agent
  | .waiting n => .claimed n a
  | .claimed n b => .claimed n b
  | .out => .out

/-- The abstract baton: is it posted, and where is every coroutine. -/
structure Lifecycle (Agent : Type) where
  posted : Bool
  phase : Agent → Phase Agent

section Spec

variable [DecidableEq Agent]

/-- Coroutine `w` is now at `p`. -/
def Lifecycle.setPhase (b : Lifecycle Agent) (w : Agent) (p : Phase Agent) :
    Lifecycle Agent :=
  { b with phase := update b.phase w p }

@[simp] theorem setPhase_self (b : Lifecycle Agent) (w : Agent) (p : Phase Agent) :
    (b.setPhase w p).phase w = p := update_self ..

theorem setPhase_of_ne (b : Lifecycle Agent) {w v : Agent} (p : Phase Agent) (h : v ≠ w) :
    (b.setPhase w p).phase v = b.phase v := update_of_ne h ..

/-- What may happen to a baton. -/
inductive Lifecycle.Step : Lifecycle Agent → Event Agent → Lifecycle Agent → Prop where
  /-- A coroutine suspends only while the baton is unposted. -/
  | pushed {b : Lifecycle Agent} {w : Agent} {n : WaiterNode} {k : Option Nat} :
      b.posted = false → b.phase w = .out →
      Lifecycle.Step b (.pushed w n k) (b.setPhase w (.waiting n))
  /-- A coroutine goes past only a posted baton. -/
  | passed {b : Lifecycle Agent} {w : Agent} :
      b.posted = true → b.phase w = .out → Lifecycle.Step b (.passed w) b
  /-- An exchange posts the baton and claims everyone who is waiting. -/
  | exchanged {b : Lifecycle Agent} {a : Agent} {p : Poster Agent} :
      Lifecycle.Step b (.exchanged a p) ⟨true, fun w => (b.phase w).claim a⟩
  /-- A coroutine is resumed by who claimed it, through its own route to its own worker … -/
  | routed {b : Lifecycle Agent} {a w : Agent} {n : WaiterNode} :
      b.phase w = .claimed n a → n.route.isSet = true → n.workerId ≠ SIZE_MAX →
      Lifecycle.Step b (.resumed a w (.routed n.route n.workerId)) (b.setPhase w .out)
  /-- … or inline, if it recorded no route or no worker. -/
  | inline {b : Lifecycle Agent} {a w : Agent} {n : WaiterNode} :
      b.phase w = .claimed n a → (n.route.isSet = false ∨ n.workerId = SIZE_MAX) →
      Lifecycle.Step b (.resumed a w .inline) (b.setPhase w .out)
  /-- A `post()` returns only when all it claimed are resumed. -/
  | finished {b : Lifecycle Agent} {a : Agent} :
      (∀ w n, b.phase w ≠ .claimed n a) → Lifecycle.Step b (.finished a) b
  /-- A reset changes the flag and nobody's suspension. -/
  | reset {b : Lifecycle Agent} {a : Agent} :
      b.posted = true → Lifecycle.Step b (.reset a) { b with posted := false }
  /-- What timed waits note about themselves does not concern the baton. -/
  | fired {b : Lifecycle Agent} {c : Agent} {k : Nat} : Lifecycle.Step b (.fired c k) b
  | returned {b : Lifecycle Agent} {c : Agent} {k : Nat} {r : WaitResult} :
      Lifecycle.Step b (.returned c k r) b

/-- The abstract baton as a specification of traces. -/
def lifecycle : TraceSpec (Lifecycle Agent) (Event Agent) where
  start := ⟨false, fun _ => .out⟩
  step := Lifecycle.Step

/-- The two rules for a resumption together. -/
theorem Lifecycle.Step.resumed {b : Lifecycle Agent} {a w : Agent} {n : WaiterNode}
    (h : b.phase w = .claimed n a) :
    Lifecycle.Step b (.resumed a w n.resumption) (b.setPhase w .out) := by
  rw [WaiterNode.resumption]
  by_cases hn : n.route.isSet = true ∧ n.workerId ≠ SIZE_MAX
  · rw [if_pos hn]
    exact Lifecycle.Step.routed h hn.1 hn.2
  · rw [if_neg hn]
    refine Lifecycle.Step.inline h ?_
    by_cases hr : n.route.isSet = true
    · exact .inr (by_contra fun hid => hn ⟨hr, hid⟩)
    · exact .inl (Bool.eq_false_iff.mpr hr)

end Spec

/-! ## The relation between the two -/

/-- Suspended on the baton. -/
def Pc.isSuspended : Pc Agent → Bool
  | .suspended _ => true
  | _ => false

/-- The chain that a call of `resume_chain` still has to resume. -/
def Pc.pending : Pc Agent → Option Agent
  | .resumeChain _ waiters => waiters
  | .resumeNode _ w _ _ => some w
  | _ => none

theorem Pc.Asks.not_suspended {w : Wait} {p : Pc Agent} (h : p.Asks w) : p.isSuspended = false := by
  cases h <;> rfl

theorem Pc.Asks.pending {w : Wait} {p : Pc Agent} (h : p.Asks w) : p.pending = none := by
  cases h <;> rfl

/-- What an agent knows from the values it has read. -/
def LocalOk (s : State Agent) (a : Agent) : Pc Agent → Prop
  | .pushCas _ old => s.next a = old.ptr ∧ old.tag = false
  | .resumeNode _ w next how => next = s.next w ∧ how = (s.node w).resumption
  | .resetCas old => old.tag = true
  | _ => True

/-- The abstract baton `b` stands for the state `s`: `l` is the chain behind the word and
    `r a` the part of a drained chain that `a` still has to resume. -/
structure Rel (l : List Agent) (r : Agent → List Agent) (b : Lifecycle Agent)
    (s : State Agent) : Prop where
  posted : b.posted = s.word.tag
  empty : s.word.tag = true → s.word.ptr = none
  chain : Chain s.next s.word.ptr l
  walks : ∀ a, Chain s.next (s.pc a).pending (r a)
  waiting : ∀ w n, b.phase w = .waiting n ↔ w ∈ l ∧ n = s.node w
  claimed : ∀ w n a, b.phase w = .claimed n a ↔ w ∈ r a ∧ n = s.node w
  suspended : ∀ w, b.phase w = .out ↔ (s.pc w).isSuspended = false
  known : ∀ a, LocalOk s a (s.pc a)

/-- Some lists relate `b` and `s`. -/
def Related (b : Lifecycle Agent) (s : State Agent) : Prop := ∃ l r, Rel l r b s

theorem rel_init : Rel [] (fun _ => []) ⟨false, fun _ => .out⟩ (init : State Agent) where
  posted := rfl
  empty h := nomatch h
  chain := rfl
  walks _ := rfl
  waiting _ _ := iff_of_false (fun h => nomatch h) (fun h => nomatch h.1)
  claimed _ _ _ := iff_of_false (fun h => nomatch h) (fun h => nomatch h.1)
  suspended _ := iff_of_true rfl rfl
  known _ := trivial

variable {w a : Agent} {s : State Agent} {b : Lifecycle Agent} {r : Agent → List Agent}
  {l : List Agent}

/-- Who is in the chain is suspended. -/
theorem Rel.suspended_of_mem_chain (h : Rel l r b s) (hw : w ∈ l) :
    (s.pc w).isSuspended = true := by
  have hph := (h.waiting w (s.node w)).mpr ⟨hw, rfl⟩
  by_contra hs
  have := (h.suspended w).mpr (Bool.eq_false_iff.mpr hs)
  rw [hph] at this
  cases this

/-- Who is in a drained chain is suspended. -/
theorem Rel.suspended_of_mem_walk (h : Rel l r b s) (hw : w ∈ r a) :
    (s.pc w).isSuspended = true := by
  have hph := (h.claimed w (s.node w) a).mpr ⟨hw, rfl⟩
  by_contra hs
  have := (h.suspended w).mpr (Bool.eq_false_iff.mpr hs)
  rw [hph] at this
  cases this

/-- The node that `resume_chain` has read is the head of what it still has to resume. -/
theorem Rel.resumeNode_mem (h : Rel l r b s) {p : Poster Agent} {nx : Option Agent}
    {how : Resumption} (ha : s.pc a = .resumeNode p w nx how) :
    ∃ l', r a = w :: l' ∧ Chain s.next nx l' ∧ how = (s.node w).resumption := by
  have hw := h.walks a
  have hk := h.known a
  rw [ha] at hw hk
  obtain ⟨l', hl, hl'⟩ := chain_some hw
  obtain ⟨hnx, hhow⟩ := hk
  exact ⟨l', hl, hnx ▸ hl', hhow⟩

/-- … and that node is claimed by the walk and suspended. -/
theorem Rel.resumeNode_claimed (h : Rel l r b s) {p : Poster Agent} {nx : Option Agent}
    {how : Resumption} (ha : s.pc a = .resumeNode p w nx how) :
    b.phase w = .claimed (s.node w) a ∧ ∃ wt, s.pc w = .suspended wt := by
  obtain ⟨l', hra, -, -⟩ := h.resumeNode_mem ha
  have hmem : w ∈ r a := by rw [hra]; exact List.mem_cons_self
  have hsusp := h.suspended_of_mem_walk hmem
  refine ⟨(h.claimed w (s.node w) a).mpr ⟨hmem, rfl⟩, ?_⟩
  cases hw : s.pc w with
  | suspended wt => exact ⟨wt, rfl⟩
  | _ => rw [hw] at hsusp; cases hsusp

/-- Facts that survive a change of the node of an agent that is not suspended: the links and
    nodes of all suspended agents are as before. -/
theorem Rel.known_of_frame {s' : State Agent} (hi : Rel l r b s) {c : Agent}
    (hnc : s'.next c = s.next c)
    (hfr : ∀ w, (s.pc w).isSuspended = true → s'.next w = s.next w ∧ s'.node w = s.node w) :
    LocalOk s' c (s.pc c) := by
  have hk := hi.known c
  cases hpc : s.pc c with
  | pushCas w old =>
    rw [hpc] at hk
    exact ⟨hnc.trans hk.1, hk.2⟩
  | resumeNode p w nx how =>
    obtain ⟨l', hl, -, -⟩ := hi.resumeNode_mem hpc
    have hw : (s.pc w).isSuspended = true :=
      hi.suspended_of_mem_walk (a := c) (by rw [hl]; exact List.mem_cons_self)
    rw [hpc] at hk
    obtain ⟨hnx, hnode⟩ := hfr w hw
    exact ⟨hk.1.trans hnx.symm, hk.2.trans (by rw [hnode])⟩
  | resetCas old => rw [hpc] at hk; exact hk
  | _ => trivial

section Steps

variable [DecidableEq Agent]

@[simp] theorem setPc_self (s : State Agent) (a : Agent) (p : Pc Agent) :
    (s.setPc a p).pc a = p := update_self ..

variable {a : Agent} {w : Wait} {n : WaiterNode} {s s' : State Agent} {p : Pc Agent}
  {b : Lifecycle Agent} {r : Agent → List Agent} {l : List Agent}

theorem setPc_of_ne (s : State Agent) {b : Agent} (p : Pc Agent) (h : b ≠ a) :
    (s.setPc a p).pc b = s.pc b := update_of_ne h ..

/-- A walker moves on and resumes a suspended coroutine. -/
theorem resume_setPc (s : State Agent) {w : Agent} (p : Pc Agent) {wt : Wait} (hwa : w ≠ a)
    (hwt : s.pc w = .suspended wt) :
    (s.setPc a p).resume w = (s.setPc a p).setPc w (.awaitResume wt) := by
  rw [State.resume, setPc_of_ne _ _ hwa, hwt]

/-- An agent moves on, not into or out of a suspension, writing at most its own node. -/
theorem rel_move (hi : Rel l r b s) (hold : (s.pc a).isSuspended = false)
    (hnew : p.isSuspended = false) (hpend : p.pending = (s.pc a).pending)
    (hpc : s'.pc = update s.pc a p) (hword : s'.word = s.word)
    (hnext : ∀ c, c ≠ a → s'.next c = s.next c) (hnode : ∀ c, c ≠ a → s'.node c = s.node c)
    (hknown : LocalOk s' a p) : Rel l r b s' := by
  have hne : ∀ w, (s.pc w).isSuspended = true → w ≠ a := fun w hw h => by
    rw [h, hold] at hw; cases hw
  have hl : ∀ w ∈ l, w ≠ a := fun w hw => hne w (hi.suspended_of_mem_chain hw)
  have hr : ∀ c, ∀ w ∈ r c, w ≠ a := fun c w hw => hne w (hi.suspended_of_mem_walk hw)
  refine ⟨?_, ?_, ?_, ?_, ?_, ?_, ?_, ?_⟩
  · rw [hword]; exact hi.posted
  · rw [hword]; exact hi.empty
  · rw [hword]; exact chain_congr (fun w hw => hnext w (hl w hw)) hi.chain
  · have hw := fun c => chain_congr (fun w hw => hnext w (hr c w hw)) (hi.walks c)
    rw [hpc]
    exact forall_update (P := fun c p => Chain s'.next (Pc.pending p) (r c)) hw (hpend ▸ hw a)
  · intro w n
    rw [hi.waiting w n]
    exact and_congr_right (fun hw => by rw [hnode w (hl w hw)])
  · intro w n c
    rw [hi.claimed w n c]
    exact and_congr_right (fun hw => by rw [hnode w (hr c w hw)])
  · rw [hpc]
    exact forall_update (P := fun w p => b.phase w = .out ↔ Pc.isSuspended p = false) hi.suspended
      (iff_of_true ((hi.suspended a).mpr hold) hnew)
  · rw [hpc]
    exact forall_update_of_ne (P := LocalOk s') (fun c hc => hi.known_of_frame (hnext c hc)
      (fun w hw => ⟨hnext w (hne w hw), hnode w (hne w hw)⟩)) hknown

/-- The compare-exchange that pushes a node takes effect. -/
theorem rel_push (hi : Rel l r b s) (ha : s.pc a = .pushCas w s.word)
    (timers : List (Agent × Nat)) : b.posted = false ∧ b.phase a = .out ∧
      Rel (a :: l) r (b.setPhase a (.waiting (s.node a)))
        ({ s with word := ⟨some a, false⟩, timers := timers }.setPc a (.suspended w)) := by
  have hk := hi.known a
  have hw := hi.walks a
  rw [ha] at hk hw
  obtain ⟨hnx, htag⟩ := hk
  have hout : b.phase a = .out := (hi.suspended a).mpr (by rw [ha]; rfl)
  refine ⟨hi.posted.trans htag, hout, hi.posted.trans htag, by rintro ⟨⟩,
    chain_push hi.chain hnx,
    forall_update (P := fun c p => Chain s.next (Pc.pending p) (r c)) hi.walks hw,
    forall_update_of_ne (P := fun v p => ∀ n, p = Phase.waiting n ↔ v ∈ a :: l ∧ n = s.node v)
      ?_ ?_,
    forall_update_of_ne (P := fun v p => ∀ n c, p = Phase.claimed n c ↔ v ∈ r c ∧ n = s.node v)
      (fun v _ => hi.claimed v) ?_, ?_,
    forall_update (P := LocalOk _) (fun c => hi.known_of_frame rfl fun _ _ => ⟨rfl, rfl⟩) trivial⟩
  · intro v hv n
    rw [hi.waiting v n, List.mem_cons, or_iff_right hv]
  · intro n
    simp [eq_comm]
  · intro n c
    refine iff_of_false (fun h => by cases h) (fun h => ?_)
    have := (hi.claimed a n c).mpr h
    rw [hout] at this
    cases this
  · exact forall_update₂ (P := fun _ ph p => ph = Phase.out ↔ Pc.isSuspended p = false) hi.suspended
      (iff_of_false (fun h => by cases h) (fun h => by cases h))

omit [DecidableEq Agent] in
theorem claim_eq_claimed {c : Agent} {p : Phase Agent} :
    p.claim a = .claimed n c ↔ p = .waiting n ∧ a = c ∨ p = .claimed n c := by
  cases p with
  | out | waiting m | claimed m d => simp [Phase.claim]

omit [DecidableEq Agent] in
theorem claim_eq_out {p : Phase Agent} : p.claim a = .out ↔ p = .out := by
  cases p <;> simp [Phase.claim]

/-- The exchange of `post()`: the chain becomes the caller's. -/
theorem rel_exchange (hi : Rel l r b s) {p : Poster Agent} (ha : s.pc a = .exchange p) :
    Rel [] (update r a l) ⟨true, fun w => (b.phase w).claim a⟩
      ({ s with word := ⟨none, true⟩ }.setPc a (.resumeChain p s.word.ptr)) := by
  have hra : r a = [] := by
    have := hi.walks a
    rw [ha] at this
    exact chain_none this
  refine ⟨rfl, fun _ => rfl, rfl, forall_update₂ (P := fun _ p l => Chain s.next (Pc.pending p) l)
    hi.walks hi.chain, fun w n => iff_of_false (fun h => ?_) (fun h => by cases h.1), ?_, ?_,
    forall_update (P := LocalOk _) (fun c => hi.known_of_frame rfl fun _ _ => ⟨rfl, rfl⟩) trivial⟩
  · cases hp : b.phase w <;> simp [hp, Phase.claim] at h
  · intro w n c
    rw [claim_eq_claimed, hi.waiting, hi.claimed]
    show _ ↔ w ∈ update r a l c ∧ n = s.node w
    by_cases hc : c = a
    · subst hc
      rw [hra, update_self]
      simp
    · rw [update_of_ne hc]
      simp [Ne.symm hc]
  · intro w
    rw [claim_eq_out]
    refine forall_update (P := fun w p => b.phase w = .out ↔ Pc.isSuspended p = false)
      hi.suspended ?_ w
    rw [hi.suspended, ha]
    exact Iff.rfl

/-- Resuming the next node of a drained chain. -/
theorem rel_resume (hi : Rel l r b s) {w : Agent} {p : Poster Agent} {nx : Option Agent}
    {how : Resumption} (ha : s.pc a = .resumeNode p w nx how) :
    b.phase w = .claimed (s.node w) a ∧ how = (s.node w).resumption ∧
      ∃ r', Rel l r' (b.setPhase w .out) ((s.setPc a (.resumeChain p nx)).resume w) := by
  obtain ⟨l', hra, hl', hhow⟩ := hi.resumeNode_mem ha
  obtain ⟨hph, wt, hwt⟩ := hi.resumeNode_claimed ha
  have hnd : w ∉ l' := by
    have := chain_nodup (hi.walks a)
    rw [hra] at this
    exact (List.nodup_cons.mp this).1
  refine ⟨hph, hhow, update r a l', ?_⟩
  -- `w` is suspended, so it is not `a` itself
  have hwa : w ≠ a := ne_of_states hwt ha nofun
  have hwalk := hi.walks w
  rw [hwt] at hwalk
  rw [resume_setPc s _ hwa hwt]
  refine ⟨hi.posted, hi.empty, hi.chain, ?_,
    forall_update_of_ne (P := fun v p => ∀ n, p = Phase.waiting n ↔ v ∈ l ∧ n = s.node v)
      (fun v _ => hi.waiting v) ?_,
    forall_update_of_ne (P := fun v p => ∀ n c, p = Phase.claimed n c ↔ v ∈ update r a l' c ∧
      n = s.node v) ?_ ?_,
    forall_update₂ (P := fun _ ph p => ph = Phase.out ↔ Pc.isSuspended p = false)
      (forall_update (P := fun v p => b.phase v = .out ↔ Pc.isSuspended p = false) hi.suspended ?_)
      (iff_of_true rfl rfl),
    forall_update (P := LocalOk _) (forall_update (P := LocalOk _)
      (fun c => hi.known_of_frame rfl fun _ _ => ⟨rfl, rfl⟩) trivial) trivial⟩
  · refine forall_update_of_ne (P := fun c p => Chain s.next (Pc.pending p) (update r a l' c))
      (fun c _ => ?_) ?_
    · exact forall_update₂ (P := fun _ p l => Chain s.next (Pc.pending p) l)
        (b := Pc.resumeChain p nx) hi.walks hl' c
    · rw [update_of_ne hwa]
      exact hwalk
  · intro n
    refine iff_of_false (fun h => by cases h) (fun h => ?_)
    have := (hi.waiting w n).mpr h
    rw [hph] at this
    cases this
  · intro v hv n c
    rw [hi.claimed v n c]
    refine and_congr_left (fun _ => ?_)
    by_cases hc : c = a
    · subst hc
      rw [update_self, hra, List.mem_cons, or_iff_right hv]
    · rw [update_of_ne hc]
  · -- nobody else is going to resume it
    intro n c
    refine iff_of_false (fun h => by cases h) (fun h => ?_)
    by_cases hca : c = a
    · rw [hca, update_self] at h
      exact hnd h.1
    · rw [update_of_ne hca] at h
      have := (hi.claimed w n c).mpr h
      rw [hph] at this
      exact hca (Phase.claimed.inj this).2.symm
  · rw [hi.suspended, ha]
    exact Iff.rfl

/-- The compare-exchange of `reset()` takes effect: there was no waiter behind the flag. -/
theorem rel_reset (hi : Rel l r b s) (ha : s.pc a = .resetCas s.word) :
    b.posted = true ∧ Rel l r { b with posted := false }
      ({ s with word := ⟨s.word.ptr, false⟩ }.setPc a .idle) := by
  have htag : s.word.tag = true := by
    have := hi.known a
    rwa [ha] at this
  refine ⟨hi.posted.trans htag, ?_⟩
  have hi' : Rel l r { b with posted := false } { s with word := ⟨s.word.ptr, false⟩ } :=
    { posted := rfl
      empty := fun h => nomatch h
      chain := hi.chain
      walks := hi.walks
      waiting := hi.waiting
      claimed := hi.claimed
      suspended := hi.suspended
      known := fun c => hi.known_of_frame rfl (fun _ _ => ⟨rfl, rfl⟩) }
  exact rel_move (p := .idle) hi' (by show (s.pc a).isSuspended = false; rw [ha]; rfl) rfl
    (by show _ = (s.pc a).pending; rw [ha]; rfl) rfl rfl (fun _ _ => rfl) (fun _ _ => rfl) trivial

/-- A move between two places of one call that touches nothing but the caller's pc. -/
theorem rel_setPc (hi : Rel l r b s) (hold : (s.pc a).isSuspended = false)
    (hnew : p.isSuspended = false) (hpend : p.pending = (s.pc a).pending) (hknown : LocalOk s a p) :
    Rel l r b (s.setPc a p) := by
  refine rel_move hi hold hnew hpend rfl rfl (fun _ _ => rfl) (fun _ _ => rfl) ?_
  cases p <;> exact hknown

/-- The `timed_out` flags do not matter to the baton. -/
theorem rel_setTimedOut (hi : Rel l r b s) (c : Agent) : Rel l r b (s.setTimedOut c) :=
  { hi with known := fun _ => hi.known_of_frame rfl (fun _ _ => ⟨rfl, rfl⟩) }

/-! ## Every step is one the specification allows -/

theorem related_go (hR : Related b s) {spurious : Bool} {o : Option (Event Agent)}
    (hpc : s.pc a = p) (hm : GoMove s a n spurious p s' o) : lifecycle.Matches Related b s' o := by
  obtain ⟨l, r, hi⟩ := hR
  -- who makes a step is not suspended
  have hold : (s.pc a).isSuspended = false := by
    rw [hpc]
    cases hm with
    | pass _ _ hasks _ | attempt _ hasks _ => exact hasks.not_suspended
    | _ => rfl
  cases hm with
  | @pass w p m next hasks htag =>
    refine ⟨b, .passed (hi.posted.trans htag) ((hi.suspended a).mpr hold), l, r, ?_⟩
    exact rel_move (p := .awaitResume w) hi hold rfl (by rw [hpc, hasks.pending]; rfl) rfl rfl
      (fun c hc => update_of_ne hc ..) (fun c hc => update_of_ne hc ..) trivial
  | unready | resume | resetLeave | resetFail =>
    exact ⟨l, r, rel_setPc hi hold rfl (by rw [hpc]; rfl) trivial⟩
  | @refuse timeout _ =>
    exact ⟨l, r, rel_move (p := .awaitResume (.timed timeout)) hi hold rfl (by rw [hpc]; rfl) rfl
      rfl (fun c hc => update_of_ne hc ..) (fun c hc => update_of_ne hc ..) trivial⟩
  | @attempt w p m hasks htag =>
    exact ⟨l, r, rel_move (p := .pushCas w s.word) hi hold rfl (by rw [hpc, hasks.pending]; rfl)
      rfl rfl (fun c hc => update_of_ne hc ..) (fun c hc => update_of_ne hc ..)
      ⟨update_self .., Bool.eq_false_iff.mpr htag⟩⟩
  | push w =>
    obtain ⟨hposted, hout, hi'⟩ := rel_push hi hpc (s.armed a w)
    exact ⟨_, Lifecycle.Step.pushed hposted hout, a :: l, r, hi'⟩
  | «return» timeout =>
    exact ⟨b, Lifecycle.Step.returned, l, r, rel_setPc hi hold rfl (by rw [hpc]; rfl) trivial⟩
  | fire c k =>
    exact ⟨b, Lifecycle.Step.fired, l, r, rel_setPc (rel_setTimedOut hi c) hold rfl
      (by show _ = (s.pc a).pending; rw [hpc]; rfl) trivial⟩
  | exchange p => exact ⟨_, Lifecycle.Step.exchanged, [], _, rel_exchange hi hpc⟩
  | finish p =>
    -- nothing is left to resume, so nothing is claimed any more
    have hra : r a = [] := by
      have := hi.walks a
      rw [hpc] at this
      exact chain_none this
    refine ⟨b, Lifecycle.Step.finished (fun w m h => ?_), l, r,
      rel_setPc hi hold rfl (by rw [hpc]; rfl) trivial⟩
    have := ((hi.claimed w m a).mp h).1
    rw [hra] at this
    cases this
  | read p w => exact ⟨l, r, rel_setPc hi hold rfl (by rw [hpc]; rfl) ⟨rfl, rfl⟩⟩
  | wake p w next how =>
    obtain ⟨hph, rfl, r', hi'⟩ := rel_resume hi hpc
    exact ⟨_, Lifecycle.Step.resumed hph, l, r', hi'⟩
  | reset _ =>
    obtain ⟨hposted, hi'⟩ := rel_reset hi hpc
    exact ⟨_, Lifecycle.Step.reset hposted, l, r, hi'⟩
  | resetLoad htag | resetRetry _ htag =>
    exact ⟨l, r, rel_setPc hi hold rfl (by rw [hpc]; rfl) htag⟩

theorem related_begin (hR : Related b s) (hs : s.begin a p = some s')
    (hsusp : p.isSuspended = false) (hpend : p.pending = none) (hknown : LocalOk s a p) :
    Related b s' := by
  obtain ⟨l, r, hi⟩ := hR
  obtain ⟨ha, rfl⟩ : s.pc a = .idle ∧ _ = s' := by simpa [State.begin] using hs
  exact ⟨l, r, rel_setPc hi (by rw [ha]; rfl) hsusp (by rw [ha, hpend]; rfl) hknown⟩

omit [DecidableEq Agent] in
/-- The relation does not look at the timers, the epochs and the flags. -/
theorem related_timing (hR : Related b s) (epoch : Agent → Nat) (timedOut : Agent → Bool)
    (timers : List (Agent × Nat)) :
    Related b { s with epoch := epoch, timedOut := timedOut, timers := timers } := by
  obtain ⟨l, r, hi⟩ := hR
  exact ⟨l, r, { hi with known := fun _ => hi.known_of_frame rfl (fun _ _ => ⟨rfl, rfl⟩) }⟩

/-- A timer expires only if it is there. -/
theorem step_expire {c : Agent} {k : Nat} (hs : step s (.expire a c k) = some s') :
    (c, k) ∈ s.timers ∧
      { s with timers := s.timers.erase (c, k) }.begin a (.onExpire c k) = some s' := by
  rw [step] at hs
  by_cases hk : (c, k) ∈ s.timers
  · rw [if_pos hk] at hs
    exact ⟨hk, hs⟩
  · rw [if_neg hk] at hs
    cases hs

theorem related_step (hR : Related b s) {act : Act Agent} (hs : machine.step s act = some s') :
    lifecycle.Matches Related b s' (machine.event s act) := by
  cases act with
  | coAwait a | post a | postDirect a | reset a => exact related_begin hR hs rfl rfl trivial
  | waitFor a timeout => exact related_begin (related_timing hR _ _ s.timers) hs rfl rfl trivial
  | expire a c k =>
    obtain ⟨-, hbegin⟩ := step_expire hs
    exact related_begin (related_timing hR s.epoch s.timedOut _) hbegin rfl rfl trivial
  | go a n spurious => exact related_go hR rfl (go_moves hs)

/-- Every run is one the specification allows. -/
theorem related_exec {C : List (Event Agent) → State Agent → Act Agent → Prop}
    {t : List (Event Agent)} (h : Exec machine C init t s) :
    ∃ b, lifecycle.Accepts t b ∧ Related b s :=
  h.simulates lifecycle Related ⟨[], fun _ => [], rel_init⟩ fun _ _ _ _ hR hs => related_step hR hs

end Steps

end AffinityBaton
