import StorageRuntime.ThreadAffinityProofs
import Mathlib.Algebra.BigOperators.Group.Finset.Piecewise
import Mathlib.Algebra.Order.BigOperators.Group.Finset
import Mathlib.Data.Fintype.Basic

/-!
# AffinitySemaphore — a counter and a waiter list, in two words

`count_` is the number of free permits and `waiters_` the head of a list of suspended
coroutines; they are two separate atomics.  `acquire()` takes a permit from the counter
(`try_acquire`), tries again before it suspends, and otherwise pushes its node;
`release()` adds one to the counter AND resumes one waiter, if there is one.

The model has one step for every atomic operation on `count_` and `waiters_`, and a step of
its own for the plain read of `old->next` that precedes the pop.  A weak compare-exchange
may fail spuriously.  `size_t` arithmetic wraps.  `permits a` counts what agent `a` holds:
it grows when `a` takes a permit from the counter or is woken as a waiter, and shrinks when
`a`'s `release()` adds to the counter.

* **`permits_account`**: in every run in which only holders release, free permits plus held
  permits are the initial count PLUS the number of waiters woken so far: a release that
  wakes a waiter gives its permit away twice.
* **`permits_conserved_iff`**: so the semaphore conserves its permits exactly as long as no
  release wakes a waiter.
-/

namespace AffinitySemaphore

open Function Interleaving ThreadAffinity

/-- The number of values of a `size_t`. -/
def sizeModulus : Nat := 2 ^ 64

/-- Who called `try_acquire()`: the user, `await_ready` of `acquire()`, or the check inside
    the loop of `await_suspend`, which has loaded the head `old`. -/
inductive Caller (Agent : Type) where
  | user
  | awaitReady
  | awaitSuspend (old : Option Agent)
deriving DecidableEq, Repr

/-- Where an agent is in `acquire()`, `try_acquire()` or `release()`. -/
inductive Pc (Agent : Type) where
  | idle
  /-- `try_acquire`: about to load `count_`. -/
  | tryLoad (k : Caller Agent)
  /-- `try_acquire`: `expected > 0`, about to compare-exchange. -/
  | tryCas (k : Caller Agent) (expected : Nat)
  /-- `await_suspend`: about to fill in the node and load `waiters_`. -/
  | awaitSuspend
  /-- `node.next` is written, about to compare-exchange the node in. -/
  | pushCas (old : Option Agent)
  | suspended
  /-- `release`: about to add to `count_`. -/
  | releaseAdd
  /-- `release`: about to load `waiters_`. -/
  | releaseLoad
  /-- `release`: about to read `old->next`. -/
  | releaseNext (old : Agent)
  | releaseCas (old : Agent) (next : Option Agent)
  /-- `release`: popped `w`, about to resume it. -/
  | wake (w : Agent)
deriving DecidableEq, Repr

/-- The semaphore with the frames of all agents. -/
structure State (Agent : Type) where
  count : Nat
  waiters : Option Agent
  next : Agent → Option Agent
  node : Agent → WaiterNode
  pc : Agent → Pc Agent
  permits : Agent → Nat

variable {Agent : Type}

/-- `AffinitySemaphore(initial_count)`. -/
def init (initialCount : Nat) : State Agent :=
  ⟨initialCount, none, fun _ => none, fun _ => ⟨SIZE_MAX, .null⟩, fun _ => .idle, fun _ => 0⟩

/-- `available()`. -/
def State.available (s : State Agent) : Nat := s.count

/-- A call begins, or an agent executes its next atomic operation (`n` is what
    `current_worker_id()` and `get_current_route()` return there, and `spurious` makes a
    weak compare-exchange fail). -/
inductive Act (Agent : Type) where
  | acquire (a : Agent)
  | tryAcquire (a : Agent)
  | release (a : Agent)
  | go (a : Agent) (n : WaiterNode) (spurious : Bool)

/-- The observer sees suspensions and resumptions; `granted` says whether the resumed agent
    was in fact suspended. -/
inductive Event (Agent : Type) where
  | suspended (a : Agent)
  | resumed (w : Agent) (how : Resumption) (granted : Bool)
deriving DecidableEq, Repr

section Machine

variable [DecidableEq Agent]

/-- Put agent `a` at `p`. -/
def State.setPc (s : State Agent) (a : Agent) (p : Pc Agent) : State Agent :=
  { s with pc := update s.pc a p }

/-- Agent `a` now holds one permit more. -/
def State.grant (s : State Agent) (a : Agent) : State Agent :=
  { s with permits := update s.permits a (s.permits a + 1) }

/-- `try_acquire` returns false to its caller. -/
def State.tryFailed (s : State Agent) (a : Agent) : Caller Agent → State Agent
  | .user => s.setPc a .idle
  | .awaitReady => s.setPc a .awaitSuspend
  | .awaitSuspend old => { s with next := update s.next a old }.setPc a (.pushCas old)

/-- `while (expected > 0)` in `try_acquire`, with the value of `count_` just read. -/
def State.tryLoop (s : State Agent) (a : Agent) (k : Caller Agent) : State Agent :=
  if 0 < s.count then s.setPc a (.tryCas k s.count) else s.tryFailed a k

/-- `while (old)` in `release`, with the value of `waiters_` just read. -/
def State.releaseLoop (s : State Agent) (a : Agent) : State Agent :=
  match s.waiters with
  | none => s.setPc a .idle
  | some w => s.setPc a (.releaseNext w)

/-- Resume `w`.  Resuming a coroutine that is not suspended is undefined in the source; here
    it changes nothing and the event shows it. -/
def State.resume (s : State Agent) (w : Agent) : State Agent :=
  if s.pc w = .suspended then (s.grant w).setPc w .idle else s

theorem resume_of_suspended {s : State Agent} {w : Agent} (h : s.pc w = .suspended) :
    s.resume w = (s.grant w).setPc w .idle := if_pos h

/-- The next atomic operation of agent `a`. -/
def go (s : State Agent) (a : Agent) (n : WaiterNode) (spurious : Bool) :
    Option (State Agent) :=
  match s.pc a with
  | .tryLoad k => some (s.tryLoop a k)
  | .tryCas k expected =>
    if s.count = expected ∧ spurious = false then
      some (({ s with count := expected - 1 }.grant a).setPc a .idle)
    else some (s.tryLoop a k)
  | .awaitSuspend =>
    some ({ s with
      node := update s.node a n
      next := update s.next a none }.setPc a (.tryLoad (.awaitSuspend s.waiters)))
  | .pushCas old =>
    if s.waiters = old ∧ spurious = false then
      some ({ s with waiters := some a }.setPc a .suspended)
    else some (s.setPc a (.tryLoad (.awaitSuspend s.waiters)))
  | .releaseAdd =>
    some ({ s with
      count := (s.count + 1) % sizeModulus
      permits := update s.permits a (s.permits a - 1) }.setPc a .releaseLoad)
  | .releaseLoad => some (s.releaseLoop a)
  | .releaseNext old => some (s.setPc a (.releaseCas old (s.next old)))
  | .releaseCas old next =>
    if s.waiters = some old ∧ spurious = false then
      some ({ s with waiters := next }.setPc a (.wake old))
    else some (s.releaseLoop a)
  | .wake w => some ((s.setPc a .idle).resume w)
  | .idle | .suspended => none

/-- One step. -/
def step (s : State Agent) : Act Agent → Option (State Agent)
  | .acquire a => if s.pc a = .idle then some (s.setPc a (.tryLoad .awaitReady)) else none
  | .tryAcquire a => if s.pc a = .idle then some (s.setPc a (.tryLoad .user)) else none
  | .release a => if s.pc a = .idle then some (s.setPc a .releaseAdd) else none
  | .go a n spurious => go s a n spurious

def event (s : State Agent) : Act Agent → Option (Event Agent)
  | .go a _ spurious =>
    match s.pc a with
    | .pushCas old => if s.waiters = old ∧ spurious = false then some (.suspended a) else none
    | .wake w => some (.resumed w (s.node w).resumption (decide (s.pc w = .suspended)))
    | _ => none
  | _ => none

def machine : Machine (State Agent) (Act Agent) (Event Agent) where
  step := step
  event := event

/-- Every `release()` is called by an agent that holds a permit. -/
def HolderReleases : List (Event Agent) → State Agent → Act Agent → Prop
  | _, s, .release a => 0 < s.permits a
  | _, _, _ => True

instance (t : List (Event Agent)) (s : State Agent) (a : Act Agent) :
    Decidable (HolderReleases t s a) :=
  match a with
  | .release a => inferInstanceAs (Decidable (0 < s.permits a))
  | .acquire .. | .tryAcquire .. | .go .. => isTrue trivial

end Machine

/-- The number of waiters that releases have woken. -/
def woken : List (Event Agent) → Nat
  | [] => 0
  | .resumed _ _ true :: t => woken t + 1
  | .resumed _ _ false :: t => woken t
  | .suspended _ :: t => woken t

/-- The permits held by all agents together. -/
def held [Fintype Agent] (s : State Agent) : Nat := ∑ a, s.permits a

/-- The number of agents that hold a permit. -/
def holders [Fintype Agent] (s : State Agent) : Nat :=
  (Finset.univ.filter fun a => 0 < s.permits a).card

/-! ## What a step can do -/

/-- An agent that is neither suspended nor about to resume another. -/
def Pc.Plain : Pc Agent → Prop
  | .suspended | .wake _ => False
  | _ => True

/-- A `release()` that has added to the counter and is still going to look at the list. -/
def Pc.looking : Pc Agent → Bool
  | .releaseLoad | .releaseNext _ | .releaseCas _ _ => true
  | _ => false

/-- The local variables of `a` when it gets to `p`, its link field being written. -/
def Arrives (act : Act Agent) (next : Agent → Option Agent) (a : Agent) : Pc Agent → Prop
  | .pushCas old => next a = old
  | .tryCas _ expected => 0 < expected
  | .releaseAdd => act = .release a
  | _ => True

section Moves

variable [DecidableEq Agent]

/-- The steps by what they do to the counter, the list and the permits. -/
inductive Move (s : State Agent) : Act Agent → Option (Event Agent) → State Agent → Prop where
  /-- An agent moves on, writing at most its own node.  A release that will not look at the list
      any more has found it empty. -/
  | move {act : Act Agent} {a : Agent} {p : Pc Agent} {next : Agent → Option Agent}
      (node : Agent → WaiterNode) : (s.pc a).Plain → p.Plain → (∀ b, b ≠ a → next b = s.next b) →
      Arrives act next a p → ((s.pc a).looking = true → p.looking = true ∨ s.waiters = none) →
      Move s act none ({ s with next := next, node := node }.setPc a p)
  | take {act : Act Agent} {a : Agent} {k : Caller Agent} : s.pc a = .tryCas k s.count →
      Move s act none (({ s with count := s.count - 1 }.grant a).setPc a .idle)
  | push {a : Agent} {n : WaiterNode} : s.pc a = .pushCas s.waiters →
      Move s (.go a n false) (some (.suspended a))
        ({ s with waiters := some a }.setPc a .suspended)
  | add {act : Act Agent} {a : Agent} : s.pc a = .releaseAdd →
      Move s act none ({ s with
          count := (s.count + 1) % sizeModulus
          permits := update s.permits a (s.permits a - 1) }.setPc a .releaseLoad)
  | pop {a old : Agent} {n : WaiterNode} {next : Option Agent} : s.pc a = .releaseCas old next →
      s.waiters = some old →
      Move s (.go a n false) none ({ s with waiters := next }.setPc a (.wake old))
  | wake {act : Act Agent} {a w : Agent} : s.pc a = .wake w →
      Move s act (some (.resumed w (s.node w).resumption (decide (s.pc w = .suspended))))
        ((s.setPc a .idle).resume w)

variable {s s' : State Agent} {a : Agent} {act : Act Agent} {p q : Pc Agent}

/-- An agent only changes its program counter. -/
theorem Move.setPc (ha : s.pc a = q) (hold : q.Plain) (hnew : p.Plain)
    (harr : Arrives act s.next a p)
    (hlooks : q.looking = true → p.looking = true ∨ s.waiters = none) :
    Move s act none (s.setPc a p) := by
  subst ha
  exact .move s.node hold hnew (fun _ _ => rfl) harr hlooks

theorem tryLoop_moves (ha : s.pc a = q) (hold : q.Plain) (hlook : ¬ q.looking = true)
    (k : Caller Agent) : Move s act none (s.tryLoop a k) := by
  rw [State.tryLoop]
  split
  next hpos => exact .setPc ha hold trivial hpos fun h => absurd h hlook
  next =>
    cases k with
    | user | awaitReady => exact .setPc ha hold trivial trivial fun h => absurd h hlook
    | awaitSuspend old =>
      subst ha
      exact .move (p := .pushCas old) s.node hold trivial (fun b hb => update_of_ne hb ..)
        (update_self ..) fun h => absurd h hlook

theorem releaseLoop_moves (ha : s.pc a = q) (hold : q.Plain) :
    Move s act none (s.releaseLoop a) := by
  rw [State.releaseLoop]
  cases hw : s.waiters with
  | none => exact .setPc ha hold trivial trivial fun _ => .inr hw
  | some w => exact .setPc ha hold trivial trivial fun _ => .inl rfl

theorem go_moves {n : WaiterNode} {spurious : Bool} (hs : go s a n spurious = some s') :
    Move s (.go a n spurious) (event s (.go a n spurious)) s' := by
  rw [go] at hs
  rw [event]
  generalize hpc : s.pc a = p at hs ⊢
  cases p with
  | idle | suspended => cases hs
  | tryLoad k =>
    cases hs
    exact tryLoop_moves hpc trivial (by rintro ⟨⟩) k
  | tryCas k expected =>
    dsimp only at hs
    by_cases hcas : s.count = expected ∧ spurious = false
    · rw [if_pos hcas] at hs
      cases hs
      obtain ⟨rfl, -⟩ := hcas
      exact .take hpc
    · rw [if_neg hcas] at hs
      cases hs
      exact tryLoop_moves hpc trivial (by rintro ⟨⟩) k
  | awaitSuspend =>
    cases hs
    exact .move _ (by rw [hpc]; trivial) trivial (fun b hb => update_of_ne hb ..) trivial
      (by rw [hpc]; rintro ⟨⟩)
  | pushCas old =>
    dsimp only at hs ⊢
    by_cases hcas : s.waiters = old ∧ spurious = false
    · rw [if_pos hcas] at hs ⊢
      cases hs
      obtain ⟨rfl, rfl⟩ := hcas
      exact .push hpc
    · rw [if_neg hcas] at hs ⊢
      cases hs
      exact .setPc hpc trivial trivial trivial (by rintro ⟨⟩)
  | releaseAdd =>
    cases hs
    exact .add hpc
  | releaseLoad =>
    cases hs
    exact releaseLoop_moves hpc trivial
  | releaseNext old =>
    cases hs
    exact .setPc hpc trivial trivial trivial fun _ => .inl rfl
  | releaseCas old next =>
    dsimp only at hs
    by_cases hcas : s.waiters = some old ∧ spurious = false
    · rw [if_pos hcas] at hs
      cases hs
      obtain ⟨htop, rfl⟩ := hcas
      exact .pop hpc htop
    · rw [if_neg hcas] at hs
      cases hs
      exact releaseLoop_moves hpc trivial
  | wake w =>
    cases hs
    exact .wake hpc

theorem step_moves (hs : step s act = some s') : Move s act (event s act) s' := by
  cases act with
  | acquire a | tryAcquire a | release a =>
    obtain ⟨ha, rfl⟩ : s.pc a = .idle ∧ _ = s' := by simpa [step] using hs
    exact .setPc ha trivial trivial (by trivial) (by rintro ⟨⟩)
  | go a n spurious => exact go_moves hs

end Moves

/-! ## Bookkeeping of the state updates -/

/-- Changing one summand. -/
theorem sum_update [Fintype Agent] [DecidableEq Agent] (f : Agent → Nat) (a : Agent)
    (v : Nat) : ∑ b, update f a v b + f a = ∑ b, f b + v := by
  rw [Finset.sum_update_of_mem (Finset.mem_univ a), Finset.sdiff_singleton_eq_erase]
  have h := Finset.sum_erase_add Finset.univ f (Finset.mem_univ a)
  omega

theorem held_grant [Fintype Agent] [DecidableEq Agent] (s : State Agent) (a : Agent) :
    held (s.grant a) = held s + 1 := by
  have h := sum_update s.permits a (s.permits a + 1)
  show ∑ b, update s.permits a (s.permits a + 1) b = held s + 1
  rw [held]
  omega

/-! ## The account -/

/-- What an agent knows about its own permits and about the counter value it read. -/
def LocalOk (permits : Nat) : Pc Agent → Prop
  | .releaseAdd => 0 < permits
  | .tryCas _ expected => 0 < expected
  | _ => True

/-- Having more permits is fine everywhere. -/
theorem LocalOk.mono {m n : Nat} {p : Pc Agent} (h : LocalOk m p) (hmn : m ≤ n) : LocalOk n p := by
  cases p with
  | releaseAdd => exact Nat.lt_of_lt_of_le h hmn
  | tryCas k e => exact h
  | _ => trivial

/-- The books of the semaphore: free and held permits are the initial ones and one more for
    every waiter woken, as long as the counter cannot have wrapped. -/
structure Account [Fintype Agent] (N : Nat) (t : List (Event Agent)) (s : State Agent) :
    Prop where
  sum : N + woken t < sizeModulus → s.available + held s = N + woken t
  ok : ∀ a, LocalOk (s.permits a) (s.pc a)

section Account

variable [DecidableEq Agent]

variable {s : State Agent}

/-- Moving one agent keeps what the agents know. -/
theorem ok_setPc (h : ∀ b, LocalOk (s.permits b) (s.pc b)) {a : Agent} {p : Pc Agent}
    (ha : LocalOk (s.permits a) p) : ∀ b, LocalOk ((s.setPc a p).permits b) ((s.setPc a p).pc b) :=
  forall_update (P := fun b p => LocalOk (s.permits b) p) h ha

theorem ok_grant (h : ∀ b, LocalOk (s.permits b) (s.pc b)) (a : Agent) :
    ∀ b, LocalOk ((s.grant a).permits b) ((s.grant a).pc b) :=
  forall_update (P := fun b n => LocalOk n (s.pc b)) h ((h a).mono (Nat.le_succ _))

variable [Fintype Agent]

variable {s s' : State Agent} {t : List (Event Agent)} {N : Nat} {a : Agent}

omit [DecidableEq Agent] in
/-- A step that moves no permit and wakes nobody. -/
theorem account_same {t' : List (Event Agent)} (hi : Account N t s) (ht : woken t' = woken t)
    (hc : s'.count = s.count) (hp : s'.permits = s.permits)
    (hok : ∀ b, LocalOk (s'.permits b) (s'.pc b)) : Account N t' s' := by
  refine ⟨fun hN => ?_, hok⟩
  rw [ht] at hN ⊢
  rw [State.available, hc, held, hp]
  exact hi.sum hN

/-- A permit goes from the counter to agent `a`. -/
theorem account_take (hi : Account N t s) (a : Agent) (hpos : 0 < s.count) :
    Account N t (({ s with count := s.count - 1 }.grant a).setPc a .idle) := by
  refine ⟨fun hN => ?_, ok_setPc (ok_grant hi.ok a) trivial⟩
  have hsum := hi.sum hN
  rw [State.available] at hsum
  show s.count - 1 + held (State.grant { s with count := s.count - 1 } a) = N + woken t
  rw [held_grant]
  show s.count - 1 + (held s + 1) = N + woken t
  omega

/-- A permit goes from agent `a` back to the counter, which does not wrap: there are never
    more permits than the books say. -/
theorem account_add (hi : Account N t s) (ha : s.pc a = .releaseAdd) :
    Account N t ({ s with
      count := (s.count + 1) % sizeModulus
      permits := update s.permits a (s.permits a - 1) }.setPc a .releaseLoad) := by
  have hpos : 0 < s.permits a := by
    have := hi.ok a
    rwa [ha] at this
  refine ⟨fun hN => ?_, ?_⟩
  · have hsum := hi.sum hN
    have hupd := sum_update s.permits a (s.permits a - 1)
    rw [State.available] at hsum
    show (s.count + 1) % sizeModulus + ∑ b, update s.permits a (s.permits a - 1) b = N + woken t
    rw [held] at hsum
    rw [Nat.mod_eq_of_lt (by omega)]
    omega
  · intro b
    by_cases hb : b = a
    · subst hb
      show LocalOk _ (update s.pc b .releaseLoad b)
      rw [update_self]
      trivial
    · show LocalOk (update s.permits a _ b) (update s.pc a _ b)
      rw [update_of_ne hb, update_of_ne hb]
      exact hi.ok b

/-- Resuming a waiter gives it a permit that is also in the counter. -/
theorem account_resume (hi : Account N t s) (w : Agent) (how : Resumption) :
    Account N (.resumed w how (decide (s.pc w = .suspended)) :: t) (s.resume w) := by
  rw [State.resume]
  by_cases hw : s.pc w = .suspended
  · rw [if_pos hw, decide_eq_true hw]
    refine ⟨fun hN => ?_, ok_setPc (ok_grant hi.ok w) trivial⟩
    have hsum := hi.sum (Nat.lt_of_succ_lt hN)
    show s.count + held (s.grant w) = N + (woken t + 1)
    rw [held_grant]
    rw [State.available] at hsum
    omega
  · rw [if_neg hw, decide_eq_false hw]
    exact ⟨hi.sum, hi.ok⟩

/-- A release hands its waiter over: the waking agent itself is not suspended, before or
    after. -/
theorem account_wake (hi : Account N t s) {w : Agent} (hpc : s.pc a = .wake w) (how : Resumption) :
    Account N (.resumed w how (decide (s.pc w = .suspended)) :: t)
      ((s.setPc a .idle).resume w) := by
  have hi' : Account N t (s.setPc a .idle) :=
    account_same hi rfl rfl rfl (ok_setPc hi.ok trivial)
  have hsame : ((s.setPc a .idle).pc w = .suspended) = (s.pc w = .suspended) := by
    by_cases hwa : w = a
    · subst hwa
      rw [show (s.setPc w .idle).pc w = .idle from update_self .., hpc]
      exact propext (iff_of_false (fun h => nomatch h) (fun h => nomatch h))
    · rw [show (s.setPc a .idle).pc w = s.pc w from update_of_ne hwa ..]
  have := account_resume hi' w how
  simp only [hsame] at this
  exact this

theorem account_step (hi : Account N t s) {act : Act Agent} {o : Option (Event Agent)}
    (hgood : HolderReleases t s act) (hm : Move s act o s') : Account N (note t o) s' := by
  cases hm with
  | @move act a p next node _ _ _ harr _ =>
    refine account_same hi rfl rfl rfl
      (forall_update (P := fun b p => LocalOk (s.permits b) p) hi.ok ?_)
    cases p with
    | tryCas k e => exact harr
    | releaseAdd =>
      obtain rfl : act = .release a := harr
      exact hgood
    | _ => trivial
  | @take _ a k ha =>
    have hok := hi.ok a
    rw [ha] at hok
    exact account_take hi a hok
  | push | pop =>
    refine account_same hi rfl rfl rfl ?_
    exact forall_update (P := fun b p => LocalOk (s.permits b) p) hi.ok trivial
  | add ha => exact account_add hi ha
  | wake ha => exact account_wake hi ha _

omit [DecidableEq Agent] in
theorem account_init (N : Nat) : Account N [] (init N : State Agent) where
  sum _ := by
    show N + ∑ a : Agent, 0 = N + 0
    rw [Finset.sum_const_zero]
  ok _ := trivial

/-- **The account of permits.**  In every run in which only holders release, free permits
    and held permits together are the initial count plus the number of waiters woken (as
    long as that number fits the counter). -/
theorem permits_account (h : Exec machine HolderReleases (init N) t s)
    (hN : N + woken t < sizeModulus) : s.available + held s = N + woken t :=
  (h.invariant (Account N) (account_init N)
    (fun _ _ _ _ hi hgood hs => account_step hi hgood (step_moves hs))).sum hN

omit [DecidableEq Agent] in
/-- No more agents hold permits than permits are held. -/
theorem holders_le_held (s : State Agent) : holders s ≤ held s := by
  rw [holders, Finset.card_filter, held]
  refine Finset.sum_le_sum (fun a _ => ?_)
  split <;> omega

omit [DecidableEq Agent] in
/-- Where nobody holds two permits, the permits held are the holders. -/
theorem holders_eq_held (h1 : ∀ a, s.permits a ≤ 1) : holders s = held s := by
  rw [holders, Finset.card_filter, held]
  refine Finset.sum_congr rfl (fun a _ => ?_)
  have := h1 a
  split <;> omega

/-- **When the semaphore conserves its permits.**  For every initial count, every number of
    agents and every interleaving in which only holders release: as long as no release has
    woken a waiter, free permits and held permits (or holders, where nobody takes two) add
    up to the initial count and never more than that many agents hold a permit; and once a
    waiter was woken they no longer add up (unless the counter has wrapped around). -/
theorem permits_conserved_iff {N : Nat} (hN : N < sizeModulus) {t : List (Event Agent)}
    {s : State Agent} (h : Exec machine HolderReleases (init N) t s) :
    (woken t = 0 → s.available + held s = N ∧
      ((∀ a, s.permits a ≤ 1) → s.available + holders s = N) ∧ holders s ≤ N) ∧
    (N + woken t < sizeModulus → s.available + held s = N → woken t = 0) := by
  constructor
  · intro h0
    have hsum : s.available + held s = N := by
      rw [permits_account h (by rw [h0]; exact hN), h0]
      rfl
    refine ⟨hsum, fun h1 => ?_, ?_⟩
    · rw [holders_eq_held h1]
      exact hsum
    · have := holders_le_held s
      omega
  · intro hlt hsum
    have := permits_account h hlt
    omega

end Account

/-- `k` atomic operations of agent `a`. -/
def ops (a : Agent) (k : Nat) : List (Act Agent) :=
  List.replicate k (.go a ⟨0, .null⟩ false)

/-- Agents 0 and 1 take the two permits and 0 gives its permit back: nobody was woken, one
    permit is free and one is held. -/
theorem permits_conserved_two : ∃ (t : List (Event (Fin 2))) (s : State (Fin 2)),
      Exec machine HolderReleases (init 2) t s ∧ s.permits 1 = 1 ∧
        s.available + held s = 2 := by
  have hrun : Exec machine HolderReleases (init 2) _ _ :=
    exec_run (.acquire (0 : Fin 2) :: ops 0 2 ++ .tryAcquire 1 :: ops 1 2
      ++ .release 0 :: ops 0 2) (by decide)
  exact ⟨_, _, hrun, by decide, ((permits_conserved_iff (by decide) hrun).1 (by decide)).1⟩

/-- **A release gives its permit away twice.**  The semaphore has one permit.  Agent 0 holds
    it and agent 1 waits; 0 releases, which makes the count 1 and wakes agent 1; then agent 2
    takes the permit from the counter.  Two agents hold the one permit. -/
theorem permit_given_twice : ∃ (t : List (Event (Fin 3))) (s : State (Fin 3)),
      Exec machine HolderReleases (init 1) t s ∧ (∀ a, s.pc a = .idle) ∧
        s.available + holders s ≠ 1 ∧ s.permits 1 = 1 ∧ s.permits 2 = 1 ∧
        1 < holders s := by
  have hrun : Exec machine HolderReleases (init 1) _ _ :=
    exec_run (.acquire (0 : Fin 3) :: ops 0 2 ++ .acquire 1 :: ops 1 4
      ++ .release 0 :: ops 0 5 ++ .acquire 2 :: ops 2 2) (by decide)
  exact ⟨_, _, hrun, by decide⟩

end AffinitySemaphore
