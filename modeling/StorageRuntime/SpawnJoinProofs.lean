import StorageRuntime.BatonJoinProofs
import Mathlib.Data.Fintype.Card

/-!
# Spawned tasks and the coroutine that waits for them

`coro_create` with `coro_join`, `when_all`, and `OnlineWorker::co_submit` spawn tasks that
run a callable, leave what it returned in a shared state, and post the baton there on which
one coroutine waits.  The bodies differ in what they do between the two, and in what they do
with an exception:

* `coro_create` stores `done` and posts; afterwards it still reads `detached`;
* `when_all` decrements `remaining`, and who brings it to zero posts;
* `co_submit` catches what the callable throws, stores it and posts.

An exception that the body does not catch goes to the promise, which keeps it; the frame has
been released and destroys itself.  The baton is the one of `AffinityBaton`; its use here
(`BatonJoin`) says when it is posted and where the waiter is.

* **`completion_signalled`**: when the tasks have ended the baton is posted and the waiter
  is not suspended, if the callables of `coro_create` and `when_all` do not throw.
* **`waiter_left_behind`**: if they do, it is not, and the waiter stays.
-/

namespace SpawnJoin

open Function Interleaving BatonJoin ThreadAffinity

/-! ## The machine -/

inductive Spawner where
  | coroCreate
  | whenAll (n : Nat)
  | coSubmit

/-- The number of tasks. -/
def Spawner.arity : Spawner → Nat
  | .whenAll n => n
  | _ => 1

abbrev Spawner.Task (S : Spawner) := Fin S.arity

inductive TaskPc where
  | queued
  /-- `coro_create`: about to store `done`. -/
  | markDone
  /-- `when_all`: about to decrement `remaining`. -/
  | fetchSub
  | posting
  /-- `coro_create`: about to read `detached`. -/
  | readDetached
  | ended
deriving DecidableEq

inductive WaiterPc where
  | before
  | awaiting
  | returned
deriving DecidableEq

variable {S : Spawner} {E V : Type}

structure State (S : Spawner) (E V : Type) where
  remaining : Nat
  done : Bool
  slots : S.Task → Option (Except E V)
  baton : Baton S.Task
  task : S.Task → TaskPc
  waiter : WaiterPc

/-- `when_all` without callables posts the baton before it returns; nobody waits yet. -/
def Spawner.baton (S : Spawner) : Baton S.Task :=
  if S.arity = 0 then postedBaton else AffinityBaton.init

def init : State S E V := ⟨S.arity, false, fun _ => none, S.baton, fun _ => .queued, .before⟩

inductive Act (S : Spawner) where
  /-- The task is taken from its queue and runs its callable. -/
  | run (i : S.Task)
  | go (i : S.Task)
  | await
  | goWaiter (n : WaiterNode) (spurious : Bool)

inductive Event (S : Spawner) (E V : Type) where
  /-- The waiter finds the baton posted, or is resumed. -/
  | signalled
  | returned (slots : S.Task → Option (Except E V))

def State.setTask (s : State S E V) (i : S.Task) (p : TaskPc) : State S E V :=
  { s with task := update s.task i p }

def State.store (s : State S E V) (i : S.Task) (r : Except E V) : State S E V :=
  { s with slots := update s.slots i (some r) }

/-- Where the body goes on after its callable.  `ended` is the way through
    `unhandled_exception`. -/
def Spawner.afterCall : Spawner → Except E V → TaskPc
  | .coroCreate, .ok _ => .markDone
  | .whenAll _, .ok _ => .fetchSub
  | .coSubmit, _ => .posting
  | _, .error _ => .ended

def Spawner.afterPost : Spawner → TaskPc
  | .coroCreate => .readDetached
  | _ => .ended

/-- The call of `post()`. -/
def State.post (s : State S E V) (i : S.Task) : Option (State S E V) :=
  (AffinityBaton.step s.baton (Call.post i).act).map fun b =>
    { s with baton := b }.setTask i .posting

def State.run (calls : S.Task → Except E V) (s : State S E V) (i : S.Task) :
    Option (State S E V) :=
  match s.task i with
  | .queued =>
    match S.afterCall (calls i) with
    | .ended => some (s.setTask i .ended)
    | .posting => (s.store i (calls i)).post i
    | p => some ((s.store i (calls i)).setTask i p)
  | _ => none

def State.go (s : State S E V) (i : S.Task) : Option (State S E V) :=
  match s.task i with
  | .markDone => { s with done := true }.post i
  | .fetchSub =>
    if s.remaining = 1 then { s with remaining := s.remaining - 1 }.post i
    else some ({ s with remaining := s.remaining - 1 }.setTask i .ended)
  | .posting =>
    (AffinityBaton.step s.baton (Call.goTask i).act).map fun b =>
      if b.pc (.task i) = .idle then { s with baton := b }.setTask i S.afterPost
      else { s with baton := b }
  | .readDetached => some (s.setTask i .ended)
  | .queued | .ended => none

def step (calls : S.Task → Except E V) (s : State S E V) : Act S → Option (State S E V)
  | .run i => s.run calls i
  | .go i => s.go i
  | .await =>
    match s.waiter with
    | .before => (AffinityBaton.step s.baton (Call.act .await)).map fun b =>
      { s with baton := b, waiter := .awaiting }
    | _ => none
  | .goWaiter n spurious =>
    match s.waiter with
    | .awaiting => (AffinityBaton.step s.baton (Call.goWaiter n spurious).act).map fun b =>
      if b.pc .waiter = .idle then { s with baton := b, waiter := .returned }
      else { s with baton := b }
    | _ => none

/-- The baton signals the waiter. -/
def State.signal (s : State S E V) (c : Call S.Task) : Option (Event S E V) :=
  if signals (AffinityBaton.event s.baton c.act) = true then some .signalled else none

def event (s : State S E V) : Act S → Option (Event S E V)
  | .go i =>
    match s.task i with
    | .posting => s.signal (.goTask i)
    | _ => none
  | .goWaiter n spurious =>
    match s.baton.pc .waiter with
    -- `await_resume` moves the results out
    | .awaitResume _ => some (.returned s.slots)
    | _ => s.signal (.goWaiter n spurious)
  | _ => none

def machine (calls : S.Task → Except E V) : Machine (State S E V) (Act S) (Event S E V) :=
  ⟨step calls, event⟩

theorem post_some {s s' : State S E V} {i : S.Task} (h : s.post i = some s') :
    ∃ b, AffinityBaton.step s.baton (Call.post i).act = some b ∧
      { s with baton := b }.setTask i .posting = s' :=
  Option.map_eq_some_iff.mp h

/-! ## The invariant -/

/-- The task has not come to the decision whether to post. -/
def TaskPc.pending : TaskPc → Bool
  | .queued | .markDone | .fetchSub => true
  | _ => false

def pendingTasks (task : S.Task → TaskPc) : Finset S.Task :=
  Finset.univ.filter fun i => (task i).pending = true

/-- One task posts, when none is pending any more. -/
structure Posting (task : S.Task → TaskPc) (v : View S.Task) : Prop where
  busy : ∀ i, task i = .posting ↔ v.poster i ≠ .out
  last : (∃ i, task i = .posting) ∨ v.posted = true → ∀ j, (task j).pending = false
  signal : (∀ j, (task j).pending = false) → v.posted = true ∨ ∃ i, v.poster i = .exchanging
  alone : ∀ i j, task i = .posting → task j = .posting → i = j
  first : ∀ i, v.poster i = .exchanging → v.posted = false

def signalCount : List (Event S E V) → Nat
  | [] => 0
  | .signalled :: t => signalCount t + 1
  | _ :: t => signalCount t

/-- What the waiter's `co_await` has returned. -/
def results : List (Event S E V) → List (S.Task → Option (Except E V))
  | [] => []
  | .returned r :: t => r :: results t
  | _ :: t => results t

/-- The waiter is signalled once, by a posted baton. -/
structure Waits (t : List (Event S E V)) (w : WaiterPc) (v : View S.Task) : Prop where
  inside : w = .awaiting ↔ v.waiter ≠ .out
  posted : v.waiter = .woken ∨ w = .returned → v.posted = true
  signals : signalCount t = if v.waiter = .woken ∨ w = .returned then 1 else 0

/-- The place is one of the body of `S`. -/
def Spawner.Has (S : Spawner) (r : Except E V) : TaskPc → Prop
  | .markDone => S.afterCall r = .markDone
  | .fetchSub => S.afterCall r = .fetchSub
  | .readDetached => S = .coroCreate
  | _ => True

structure Inv (calls : S.Task → Except E V) (t : List (Event S E V)) (s : State S E V) : Prop where
  joined : Joined s.baton
  posting : Posting s.task (view s.baton)
  counted : ∀ n, S = .whenAll n → s.remaining = (pendingTasks s.task).card
  body : ∀ i, S.Has (calls i) (s.task i)
  stored : ∀ i, s.task i ≠ .queued → s.slots i = some (calls i)
  waits : Waits t s.waiter (view s.baton)
  results : results t = if s.waiter = .returned then [fun i => some (calls i)] else []

/-- Every callable returns, or what it throws is caught. -/
def Safe (calls : S.Task → Except E V) : Prop := S = .coSubmit ∨ ∀ i, ∃ v, calls i = .ok v

/-! ## Posting -/

section Posting

variable {task : S.Task → TaskPc} {v v' : View S.Task} {i : S.Task}

/-- A task that is not in `post()` moves on, and is not the last one to stop being pending. -/
theorem Posting.moves (h : Posting task v) {p : TaskPc} (hi : task i ≠ .posting)
    (hp : p ≠ .posting) (hdown : p.pending = true → (task i).pending = true)
    (hother : (task i).pending = true → p.pending = true ∨ ∃ j, j ≠ i ∧ (task j).pending = true) :
    Posting (update task i p) v where
  busy := forall_update (P := fun j (q : TaskPc) => q = .posting ↔ v.poster j ≠ .out) h.busy
    ⟨fun heq => absurd heq hp, fun hne => absurd ((h.busy i).mpr hne) hi⟩
  last := by
    intro hpost
    have hnone : ∀ j, (task j).pending = false := by
      refine h.last (hpost.imp_left ?_)
      rintro ⟨j, hj⟩
      rcases update_cases id hj with ⟨-, hnew⟩ | ⟨-, hold⟩
      · exact absurd hnew hp
      · exact ⟨j, hold⟩
    refine forall_update (P := fun _ (q : TaskPc) => q.pending = false) hnone ?_
    rw [Bool.eq_false_iff]
    intro hpend
    exact Bool.eq_false_iff.mp (hnone i) (hdown hpend)
  signal := by
    intro hnone
    have hself := hnone i
    rw [update_self] at hself
    have helse : ∀ j, j ≠ i → (task j).pending = false := by
      intro j hj
      have := hnone j
      rwa [update_of_ne hj] at this
    refine h.signal fun j => ?_
    rcases eq_or_ne j i with rfl | hj
    · rw [Bool.eq_false_iff]
      intro hpend
      rcases hother hpend with hp' | ⟨k, hk, hpk⟩
      · exact Bool.eq_false_iff.mp hself hp'
      · exact Bool.eq_false_iff.mp (helse k hk) hpk
    · exact helse j hj
  alone := by
    intro j k hj hk
    rcases update_cases id hj with ⟨-, hnew⟩ | ⟨-, hold⟩
    · exact absurd hnew hp
    · rcases update_cases id hk with ⟨-, hnew⟩ | ⟨-, hold'⟩
      · exact absurd hnew hp
      · exact h.alone j k hold hold'
  first := h.first

/-- The last pending task calls `post()`. -/
theorem Posting.starts (h : Posting task v) (hpend : (task i).pending = true)
    (hlast : ∀ j, j ≠ i → (task j).pending = false) :
    Posting (update task i .posting) (v.setPoster i .exchanging) := by
  -- nobody has posted, or is in `post()`: task `i` would not be pending
  have hquiet : ¬ ((∃ j, task j = .posting) ∨ v.posted = true) := fun hpost =>
    Bool.eq_false_iff.mp (h.last hpost i) hpend
  have hnone : ∀ j, task j ≠ .posting := fun j hj => hquiet (.inl ⟨j, hj⟩)
  refine ⟨?_, fun _ => ?_, fun _ => ?_, fun j k hj hk => ?_, fun _ _ => ?_⟩
  · exact forall_update₂ (P := fun _ (q : TaskPc) r => q = .posting ↔ r ≠ PosterPhase.out) h.busy
      (iff_of_true rfl nofun)
  · intro j
    rcases eq_or_ne j i with rfl | hj
    · rw [update_self]
      rfl
    · rw [update_of_ne hj]
      exact hlast j hj
  · exact .inr ⟨i, update_self ..⟩
  · rcases update_cases id hj with ⟨rfl, -⟩ | ⟨-, hold⟩
    · rcases update_cases id hk with ⟨rfl, -⟩ | ⟨-, hold⟩
      · rfl
      · exact absurd hold (hnone k)
    · exact absurd hold (hnone j)
  · exact Bool.eq_false_iff.mpr fun hposted => hquiet (.inr hposted)

/-- A task in `post()` goes on to `r`, and to `p` if it leaves. -/
theorem Posting.goes (h : Posting task v) {p : TaskPc} {r : PosterPhase} (hi : task i = .posting)
    (hposter : v'.poster = update v.poster i r) (hp : p = .posting ↔ r ≠ .out)
    (hpend : p.pending = false) (hr : r ≠ .exchanging)
    (hposted : v'.posted = true) : Posting (update task i p) v' := by
  have hnone := h.last (.inl ⟨i, hi⟩)
  refine ⟨?_, fun _ => ?_, fun _ => .inl hposted, fun j k hj hk => ?_, fun j hj => ?_⟩
  · rw [hposter]
    exact forall_update₂ (P := fun _ (q : TaskPc) r => q = .posting ↔ r ≠ PosterPhase.out) h.busy hp
  · exact forall_update (P := fun _ (q : TaskPc) => q.pending = false) hnone hpend
  · have hback : ∀ j, update task i p j = .posting → task j = .posting := by
      intro j hj
      rcases update_cases id hj with ⟨rfl, -⟩ | ⟨-, hold⟩
      · exact hi
      · exact hold
    exact h.alone j k (hback j hj) (hback k hk)
  · -- another task before its exchange would be in `post()` as well
    rw [hposter] at hj
    rcases update_cases id hj with ⟨-, hnew⟩ | ⟨hne, hold⟩
    · exact absurd hnew hr
    · have hjp : task j = .posting := (h.busy j).mpr (by rw [show v.poster j = _ from hold]; nofun)
      exact absurd (h.alone j i hjp hi) hne

end Posting

/-! ## Waiting -/

section Waiting

variable {t : List (Event S E V)} {w : WaiterPc} {v v' : View S.Task}

theorem Waits.keeps (h : Waits t w v) (hwaiter : v'.waiter = v.waiter)
    (hposted : v.posted = true → v'.posted = true) : Waits t w v' where
  inside := by rw [hwaiter]; exact h.inside
  posted := by rw [hwaiter]; exact fun hw => hposted (h.posted hw)
  signals := by rw [hwaiter]; exact h.signals

/-- The waiter is signalled. -/
theorem Waits.wakes (h : Waits t w v) (hout : v.waiter ≠ .out) (hwoken : v.waiter ≠ .woken)
    (hwaiter : v'.waiter = .woken) (hposted : v'.posted = true) : Waits (.signalled :: t) w v' := by
  have hw := h.inside.mpr hout
  subst hw
  refine ⟨?_, fun _ => hposted, ?_⟩
  · rw [hwaiter]
    exact iff_of_true rfl nofun
  · rw [hwaiter, if_pos (.inl rfl)]
    have hnone := h.signals
    rw [if_neg (by rintro (hw | hw); exacts [hwoken hw, nomatch hw])] at hnone
    exact congrArg (· + 1) hnone

end Waiting

/-! ## Steps -/

section Steps

variable {calls : S.Task → Except E V} {t : List (Event S E V)} {s s' : State S E V} {i : S.Task}
  {b : Baton S.Task}

theorem Safe.afterCall (h : Safe calls) (i : S.Task) : S.afterCall (calls i) ≠ .ended := by
  rcases h with rfl | hok
  · exact nofun
  · obtain ⟨v, hv⟩ := hok i
    rw [hv]
    cases S <;> nofun

/-- Where the body goes on is before the decision, unless the decision is made. -/
theorem pending_afterCall {r : Except E V} (hend : S.afterCall r ≠ .ended)
    (hpost : S.afterCall r ≠ .posting) : (S.afterCall r).pending = true := by
  cases S <;> cases r <;> first | rfl | exact absurd rfl hend | exact absurd rfl hpost

/-- With one task there is no other. -/
theorem eq_of_not_whenAll (hS : ∀ n, S ≠ .whenAll n) (i j : S.Task) : i = j := by
  cases S with
  | whenAll n => exact absurd rfl (hS n)
  | coroCreate | coSubmit => exact Subsingleton.elim (α := Fin 1) i j

theorem mem_pendingTasks {task : S.Task → TaskPc} :
    i ∈ pendingTasks task ↔ (task i).pending = true := by
  rw [pendingTasks, Finset.mem_filter]
  exact and_iff_right (Finset.mem_univ i)

theorem pendingTasks_update {task : S.Task → TaskPc} {p : TaskPc}
    (h : p.pending = (task i).pending) : pendingTasks (update task i p) = pendingTasks task := by
  ext j
  rw [mem_pendingTasks, mem_pendingTasks]
  rcases eq_or_ne j i with rfl | hne
  · rw [update_self, h]
  · rw [update_of_ne hne]

theorem pendingTasks_erase {task : S.Task → TaskPc} {p : TaskPc} (h : p.pending = false) :
    pendingTasks (update task i p) = (pendingTasks task).erase i := by
  ext j
  rw [Finset.mem_erase, mem_pendingTasks, mem_pendingTasks]
  rcases eq_or_ne j i with rfl | hne
  · rw [update_self, h]
    simp
  · rw [update_of_ne hne]
    exact (and_iff_right hne).symm

/-- A task moves on in its body. -/
theorem Inv.body_update (h : Inv calls t s) {p : TaskPc} (hp : S.Has (calls i) p) (j : S.Task) :
    S.Has (calls j) (update s.task i p j) :=
  forall_update (P := fun j => S.Has (calls j)) h.body hp j

theorem has_afterCall (r : Except E V) : S.Has r (S.afterCall r) := by
  cases S <;> cases r <;> first | rfl | trivial

theorem has_afterPost (r : Except E V) : S.Has r S.afterPost := by
  cases S <;> first | rfl | trivial

/-- What has been stored stays. -/
theorem Inv.stored_update (h : Inv calls t s) {p : TaskPc} (hi : s.task i ≠ .queued) (j : S.Task)
    (hj : update s.task i p j ≠ .queued) : s.slots j = some (calls j) := by
  rcases eq_or_ne j i with rfl | hne
  · exact h.stored j hi
  · rw [update_of_ne hne] at hj
    exact h.stored j hj

/-- … and the outcome of one more call is. -/
theorem Inv.stored_store (h : Inv calls t s) {p : TaskPc} (j : S.Task)
    (hj : update s.task i p j ≠ .queued) :
    update s.slots i (some (calls i)) j = some (calls j) := by
  rcases eq_or_ne j i with rfl | hne
  · exact update_self ..
  · rw [update_of_ne hne] at hj ⊢
    exact h.stored j hj

theorem joined_baton (S : Spawner) : Joined S.baton := by
  rw [Spawner.baton]
  split
  · exact joined_posted
  · exact joined_init

theorem view_baton (S : Spawner) : view S.baton = ⟨decide (S.arity = 0), .out, fun _ => .out⟩ := by
  rw [Spawner.baton]
  split
  · rename_i hzero
    rw [decide_eq_true hzero]
    rfl
  · rename_i hpos
    rw [decide_eq_false hpos]
    rfl

theorem inv_init : Inv calls [] (init : State S E V) where
  joined := joined_baton S
  posting := by
    show Posting (fun _ => .queued) (view S.baton)
    rw [view_baton]
    refine ⟨fun i => iff_of_false nofun fun hne => hne rfl, ?_, fun hnone => ?_, nofun, nofun⟩
    · rintro (⟨i, hi⟩ | hzero) j
      · cases hi
      · have hzero : S.arity = 0 := of_decide_eq_true hzero
        exact absurd j.isLt (by omega)
    · rcases Nat.eq_zero_or_pos S.arity with hzero | hpos
      · exact .inl (decide_eq_true hzero)
      · exact nomatch hnone ⟨0, hpos⟩
  counted := by
    intro n _
    have hall : pendingTasks (fun _ : S.Task => TaskPc.queued) = Finset.univ :=
      Finset.filter_true_of_mem fun _ _ => rfl
    show S.arity = (pendingTasks fun _ : S.Task => TaskPc.queued).card
    rw [hall, Finset.card_univ, Fintype.card_fin]
  body := fun _ => trivial
  stored := fun i hi => absurd rfl hi
  waits := by
    show Waits [] .before (view S.baton)
    rw [view_baton]
    refine ⟨iff_of_false nofun fun hne => hne rfl, ?_, rfl⟩
    rintro (hw | hw)
    · cases hw
    · cases hw
  results := rfl

theorem Inv.goes (h : Inv calls t s) {p : TaskPc} (hi : s.task i = .posting)
    (hb : AffinityBaton.step s.baton (Call.goTask i).act = some b)
    (hp : p = .posting ↔ (view b).poster i ≠ .out) (hpend : p.pending = false)
    (hhas : S.Has (calls i) p) : Inv calls (note t (s.signal (.goTask i)))
      { s with baton := b, task := update s.task i p } := by
  obtain ⟨hjoined, hview⟩ := joined_step h.joined (.goTask i) hb
  -- past its exchange the task finds the baton posted
  have hposted : (view s.baton).poster i ≠ .exchanging → (view s.baton).posted = true := by
    intro hne
    rcases h.posting.signal (h.posting.last (.inl ⟨i, hi⟩)) with hposted | ⟨j, hj⟩
    · exact hposted
    · have hjp := (h.posting.busy j).mpr (by rw [hj]; rintro ⟨⟩)
      exact absurd (h.posting.alone i j hi hjp ▸ hj) hne
  have hcounted : ∀ n, S = .whenAll n →
      s.remaining = (pendingTasks (update s.task i p)).card := by
    intro n hn
    rw [pendingTasks_update (by rw [hi, hpend]; rfl)]
    exact h.counted n hn
  have hslots := h.stored_update (p := p) (i := i) (by rw [hi]; rintro ⟨⟩)
  have hsignal : s.signal (.goTask i) = if signals (AffinityBaton.event s.baton
      (Call.goTask i).act) = true then some .signalled else none := rfl
  rw [hsignal]
  generalize signals (AffinityBaton.event s.baton (Call.goTask i).act) = o at hview
  suffices hparts : Posting (update s.task i p) (view b) ∧
      Waits (note t (if o = true then some .signalled else none)) s.waiter (view b) by
    refine ⟨hjoined, hparts.1, hcounted, h.body_update hhas, hslots, hparts.2, ?_⟩
    cases o <;> exact h.results
  generalize view b = v' at hview hp
  cases hview with
  | claims hex hsusp hfalse | posts hex hnobody =>
    refine ⟨h.posting.goes hi rfl ?_ hpend (by rintro ⟨⟩) rfl, h.waits.keeps rfl fun _ => rfl⟩
    simpa [View.setPoster] using hp
  | reads hwaking =>
    refine ⟨h.posting.goes hi (update_eq_self i _).symm hp hpend ?_ ?_, h.waits⟩
    · rw [hwaking]
      rintro ⟨⟩
    · exact hposted (by rw [hwaking]; rintro ⟨⟩)
  | wakes hwaking hsusp =>
    have htrue := hposted (by rw [hwaking]; rintro ⟨⟩)
    refine ⟨h.posting.goes hi rfl ?_ hpend (by rintro ⟨⟩) htrue, h.waits.wakes ?_ ?_ rfl htrue⟩
    · simpa [View.setPoster] using hp
    · rw [hsusp]
      rintro ⟨⟩
    · rw [hsusp]
      rintro ⟨⟩
  | leaves hleaving =>
    have htrue := hposted (by rw [hleaving]; rintro ⟨⟩)
    refine ⟨h.posting.goes hi rfl ?_ hpend (by rintro ⟨⟩) htrue, h.waits.keeps rfl id⟩
    simpa [View.setPoster] using hp

/-- The call of `post()` by the last pending task. -/
theorem Inv.starts (h : Inv calls t s) (hpend : (s.task i).pending = true)
    (hlast : ∀ j, j ≠ i → (s.task j).pending = false)
    (hb : AffinityBaton.step s.baton (Call.post i).act = some b) (remaining : Nat) (done : Bool)
    (slots : S.Task → Option (Except E V))
    (hcounted : ∀ n, S = .whenAll n → remaining = s.remaining - 1)
    (hslots : ∀ j, update s.task i .posting j ≠ .queued → slots j = some (calls j)) :
    Inv calls t ⟨remaining, done, slots, b, update s.task i .posting, s.waiter⟩ := by
  obtain ⟨hjoined, hview⟩ := joined_step h.joined (.post i) hb
  have hposting := h.posting.starts hpend hlast
  have hcard : ∀ n, S = .whenAll n →
      remaining = (pendingTasks (update s.task i .posting)).card := by
    intro n hn
    rw [hcounted n hn, h.counted n hn, pendingTasks_erase rfl,
      Finset.card_erase_of_mem (mem_pendingTasks.mpr hpend)]
  suffices hparts : Posting (update s.task i .posting) (view b) ∧
      Waits t s.waiter (view b) from
    ⟨hjoined, hparts.1, hcard, h.body_update trivial, hslots, hparts.2, h.results⟩
  generalize view b = v' at hview
  cases hview with
  | post hout => exact ⟨hposting, h.waits.keeps rfl id⟩

/-- The last task that decrements finds the others decided. -/
theorem Inv.others_decided (h : Inv calls t s) (hpend : (s.task i).pending = true)
    (hone : ∀ n, S = .whenAll n → s.remaining = 1) (j : S.Task) (hj : j ≠ i) :
    (s.task j).pending = false := by
  by_cases hS : ∀ n, S ≠ .whenAll n
  · exact absurd (eq_of_not_whenAll hS j i) hj
  · obtain ⟨n, hn⟩ := not_forall_not.mp hS
    have hcard := h.counted n hn
    rw [hone n hn] at hcard
    obtain ⟨k, hk⟩ := Finset.card_eq_one.mp hcard.symm
    rw [Bool.eq_false_iff]
    intro hpj
    have hik := mem_pendingTasks.mpr hpend
    have hjk := mem_pendingTasks.mpr hpj
    rw [hk, Finset.mem_singleton] at hik hjk
    exact hj (hjk.trans hik.symm)

/-- A task that stores `done` is alone. -/
theorem Inv.not_whenAll (h : Inv calls t s) (hm : s.task i = .markDone) (n : Nat) :
    S ≠ .whenAll n := by
  rintro rfl
  have hhas := h.body i
  rw [hm] at hhas
  cases hc : calls i <;> rw [hc] at hhas <;> cases hhas

/-- A task that decrements is one of `when_all`. -/
theorem Inv.whenAll (h : Inv calls t s) (hf : s.task i = .fetchSub) : ∃ n, S = .whenAll n := by
  have hhas := h.body i
  rw [hf] at hhas
  cases S with
  | whenAll n => exact ⟨n, rfl⟩
  | coroCreate | coSubmit => cases hc : calls i <;> rw [hc] at hhas <;> cases hhas

/-- The waiter begins to wait. -/
theorem Inv.awaits (h : Inv calls t s) (hw : s.waiter = .before)
    (hb : AffinityBaton.step s.baton (Call.act .await) = some b) :
    Inv calls t { s with baton := b, waiter := .awaiting } := by
  obtain ⟨hjoined, hview⟩ := joined_step h.joined .await hb
  have hwaits := h.waits
  have hresults := h.results
  rw [hw] at hwaits hresults
  suffices hparts : Posting s.task (view b) ∧ Waits t .awaiting (view b) from
    ⟨hjoined, hparts.1, h.counted, h.body, h.stored, hparts.2, hresults⟩
  generalize view b = v' at hview
  cases hview with
  | await hout =>
    refine ⟨⟨h.posting.busy, h.posting.last, h.posting.signal, h.posting.alone,
      h.posting.first⟩, iff_of_true rfl nofun, nofun, ?_⟩
    have hsignals := hwaits.signals
    rw [hout] at hsignals
    exact hsignals

/-- The waiter, when it is signalled, finds all results. -/
theorem Inv.slots_eq (h : Inv calls t s) (hposted : (view s.baton).posted = true) :
    s.slots = fun i => some (calls i) := by
  funext i
  refine h.stored i fun hq => ?_
  have hnone := h.posting.last (.inr hposted) i
  rw [hq] at hnone
  cases hnone

/-- The waiter's `co_await` goes on, or returns. -/
theorem Inv.waiterGoes (h : Inv calls t s) (hw : s.waiter = .awaiting) {n : WaiterNode}
    {spurious : Bool} {w : WaiterPc}
    (hb : AffinityBaton.step s.baton (Call.goWaiter n spurious).act = some b)
    (hreturned : w = if (view b).waiter = .out then .returned else .awaiting) :
    Inv calls (note t (event s (.goWaiter n spurious))) { s with baton := b, waiter := w } := by
  obtain ⟨hjoined, hview⟩ := joined_step h.joined (.goWaiter n spurious) hb
  have hwaits := h.waits
  have hresults := h.results
  rw [hw] at hwaits hresults
  suffices hparts : Posting s.task (view b) ∧
      Waits (note t (event s (.goWaiter n spurious))) w (view b) ∧
      SpawnJoin.results (note t (event s (.goWaiter n spurious))) =
        if w = .returned then [fun i => some (calls i)] else [] from
    ⟨hjoined, hparts.1, h.counted, h.body, h.stored, hparts.2.1, hparts.2.2⟩
  -- the place of the waiter decides what is shown
  have hphase : (view s.baton).waiter = waiterPhase (s.baton.pc .waiter) := rfl
  have hasking : (view s.baton).waiter = .asking →
      event s (.goWaiter n spurious) = s.signal (.goWaiter n spurious) := by
    intro hask
    rw [hphase] at hask
    simp only [event]
    split
    · rename_i hpc
      rw [hpc] at hask
      cases hask
    · rfl
  have hwoken : (view s.baton).waiter = .woken →
      event s (.goWaiter n spurious) = some (.returned s.slots) := by
    intro hwoken
    rw [hphase] at hwoken
    simp only [event]
    cases hpc : s.baton.pc .waiter with
    | awaitResume wt => rfl
    | _ => rw [hpc] at hwoken; cases hwoken
  have hsignal : s.signal (.goWaiter n spurious) = if signals (AffinityBaton.event s.baton
      (Call.goWaiter n spurious).act) = true then some .signalled else none := rfl
  generalize signals (AffinityBaton.event s.baton (Call.goWaiter n spurious).act) = o
    at hview hsignal
  have hposting := h.posting
  generalize view b = v' at hview hreturned
  cases hview with
  | asks hask =>
    rw [hasking hask, hsignal]
    rw [hask] at hreturned
    obtain rfl := hreturned
    exact ⟨hposting, hwaits, hresults⟩
  | suspends hask hfalse =>
    rw [hasking hask, hsignal]
    obtain rfl := hreturned
    refine ⟨{ hposting with },
      ⟨iff_of_true rfl nofun, nofun, ?_⟩, hresults⟩
    have hsignals := hwaits.signals
    rw [hask] at hsignals
    exact hsignals
  | passes hask htrue =>
    rw [hasking hask, hsignal]
    obtain rfl := hreturned
    refine ⟨{ hposting with },
      hwaits.wakes ?_ ?_ rfl htrue, hresults⟩
    · rw [hask]
      nofun
    · rw [hask]
      nofun
  | returns hwok =>
    rw [hwoken hwok]
    obtain rfl := hreturned
    have htrue := hwaits.posted (.inl hwok)
    refine ⟨{ hposting with },
      ⟨iff_of_false nofun fun hne => hne rfl, fun _ => htrue, ?_⟩, ?_⟩
    · have hsignals := hwaits.signals
      rw [if_pos (.inl hwok)] at hsignals
      exact hsignals
    · show s.slots :: SpawnJoin.results t = [fun i => some (calls i)]
      rw [h.slots_eq htrue, hresults]
      rfl

/-- The body of a task runs; no exception gets lost. -/
theorem Inv.run (h : Inv calls t s) (hsafe : Safe calls) (hs : s.run calls i = some s') :
    Inv calls t s' := by
  simp only [State.run] at hs
  split at hs
  · rename_i hq
    have hpend : (s.task i).pending = true := by rw [hq]; rfl
    split at hs
    · rename_i hend
      exact absurd hend (hsafe.afterCall i)
    · rename_i hpost
      obtain ⟨b, hb, rfl⟩ := post_some hs
      have hS : ∀ n, S ≠ .whenAll n := by
        rintro n rfl
        cases hc : calls i <;> rw [hc] at hpost <;> cases hpost
      exact h.starts hpend (h.others_decided hpend fun n hn => absurd hn (hS n)) hb s.remaining
        s.done _ (fun n hn => absurd hn (hS n)) h.stored_store
    · rename_i hend hpost
      cases hs
      have hnext := pending_afterCall hend hpost
      refine ⟨h.joined, h.posting.moves ?_ hpost (fun _ => hpend) fun _ => .inl hnext, ?_,
        h.body_update (has_afterCall _), h.stored_store, h.waits, h.results⟩
      · rw [hq]
        rintro ⟨⟩
      · intro n hn
        rw [State.setTask, State.store, pendingTasks_update (hnext.trans hpend.symm)]
        exact h.counted n hn
  · cases hs

/-- `fetch_sub` by a task that is not the last one. -/
theorem Inv.subs (h : Inv calls t s) (hf : s.task i = .fetchSub) (hmore : s.remaining ≠ 1) :
    Inv calls t ({ s with remaining := s.remaining - 1 }.setTask i .ended) := by
  have hpend : (s.task i).pending = true := by rw [hf]; rfl
  have hmem := mem_pendingTasks.mpr hpend
  obtain ⟨n, hn⟩ := h.whenAll hf
  have hcard := h.counted n hn
  refine ⟨h.joined, h.posting.moves ?_ nofun nofun fun _ => ?_, ?_, h.body_update trivial,
    h.stored_update (by rw [hf]; nofun), h.waits, h.results⟩
  · rw [hf]
    nofun
  · -- somebody else is still pending, since `remaining` was not 1
    have hone : 1 < (pendingTasks s.task).card := by
      have := Finset.card_pos.mpr ⟨i, hmem⟩
      omega
    obtain ⟨j, hj, hne⟩ := Finset.exists_mem_ne hone i
    exact .inr ⟨j, hne, mem_pendingTasks.mp hj⟩
  · intro m hm
    show s.remaining - 1 = (pendingTasks (update s.task i .ended)).card
    rw [h.counted m hm, pendingTasks_erase rfl, Finset.card_erase_of_mem hmem]

/-- A task goes on behind its call. -/
theorem Inv.go (h : Inv calls t s) (hs : s.go i = some s') :
    Inv calls (note t (event s (.go i))) s' := by
  simp only [State.go] at hs
  simp only [event]
  split at hs <;> rename_i hp <;> simp only [hp]
  · obtain ⟨b, hb, rfl⟩ := post_some hs
    have hpend : (s.task i).pending = true := by rw [hp]; rfl
    have hS := h.not_whenAll hp
    exact h.starts hpend (h.others_decided hpend fun n hn => absurd hn (hS n)) hb s.remaining
      true s.slots (fun n hn => absurd hn (hS n)) (h.stored_update (by rw [hp]; rintro ⟨⟩))
  · have hpend : (s.task i).pending = true := by rw [hp]; rfl
    split at hs
    · rename_i hlast
      obtain ⟨b, hb, rfl⟩ := post_some hs
      exact h.starts hpend (h.others_decided hpend fun _ _ => hlast) hb (s.remaining - 1) s.done
        s.slots (fun _ _ => rfl) (h.stored_update (by rw [hp]; rintro ⟨⟩))
    · rename_i hmore
      cases hs
      exact h.subs hp hmore
  · obtain ⟨b, hb, hs⟩ := Option.map_eq_some_iff.mp hs
    have hposts := (joined_step h.joined (.goTask i) hb).1.poster i
    split at hs <;> rename_i hidle <;> obtain rfl := hs
    · refine h.goes hp hb (iff_of_false ?_ fun hne => hne (hposts.idle_iff.mp hidle)) ?_
        (has_afterPost _)
      · cases S <;> rintro ⟨⟩
      · cases S <;> rfl
    · have hgoes := h.goes (p := .posting) hp hb
        (iff_of_true rfl fun hout => hidle (hposts.idle_iff.mpr hout)) rfl trivial
      rwa [← hp, update_eq_self] at hgoes
  · cases hs
    refine ⟨h.joined, h.posting.moves ?_ (by rintro ⟨⟩) (by rintro ⟨⟩) ?_, ?_,
      h.body_update trivial, h.stored_update (by rw [hp]; rintro ⟨⟩), h.waits, h.results⟩
    · rw [hp]
      rintro ⟨⟩
    · rw [hp]
      rintro ⟨⟩
    · intro n hn
      rw [State.setTask, pendingTasks_update (by rw [hp]; rfl)]
      exact h.counted n hn
  · cases hs
  · cases hs

/-- **One step** keeps the invariant if no exception gets lost. -/
theorem Inv.step (h : Inv calls t s) (hsafe : Safe calls) {a : Act S}
    (hs : step calls s a = some s') : Inv calls (note t (event s a)) s' := by
  cases a with
  | run i => exact h.run hsafe hs
  | go i => exact h.go hs
  | await =>
    simp only [SpawnJoin.step] at hs
    split at hs
    · rename_i hw
      obtain ⟨b, hb, rfl⟩ := Option.map_eq_some_iff.mp hs
      exact h.awaits hw hb
    · cases hs
  | goWaiter n spurious =>
    simp only [SpawnJoin.step] at hs
    split at hs
    · rename_i hw
      obtain ⟨b, hb, hs⟩ := Option.map_eq_some_iff.mp hs
      have hawaits := (joined_step h.joined (.goWaiter n spurious) hb).1.waiter
      split at hs <;> rename_i hidle <;> obtain rfl := hs
      · exact h.waiterGoes hw hb (if_pos (hawaits.idle_iff.mp hidle)).symm
      · have hgoes := h.waiterGoes hw hb
          (if_neg fun hout => hidle (hawaits.idle_iff.mpr hout)).symm
        rwa [← hw] at hgoes
    · cases hs

theorem inv_exec (hsafe : Safe calls) (h : Exec (machine calls) Always init t s) : Inv calls t s :=
  h.invariant (Inv calls) inv_init fun t s a s' hinv _ hs => by
    rw [Machine.record_eq_note]
    exact hinv.step hsafe hs

/-- When the tasks have ended the baton is posted and the waiter has been let go. -/
theorem Inv.ended (h : Inv calls t s) (hended : ∀ i, s.task i = .ended) :
    (view s.baton).posted = true ∧ (view s.baton).waiter ≠ .suspended := by
  have hout : ∀ i, (view s.baton).poster i = .out := by
    intro i
    by_contra hne
    have hbusy := (h.posting.busy i).mpr hne
    rw [hended i] at hbusy
    cases hbusy
  have hposted : (view s.baton).posted = true := by
    rcases h.posting.signal fun j => by rw [hended j]; rfl with hposted | ⟨i, hi⟩
    · exact hposted
    · rw [hout i] at hi
      cases hi
  refine ⟨hposted, fun hsusp => ?_⟩
  obtain ⟨i, hi⟩ := h.joined.waking hsusp hposted
  rw [hout i] at hi
  cases hi

end Steps

/-! ## Completion -/

/-- **Completion is signalled.**  Whatever the callables return, and for `co_submit` whatever
    they throw, in every interleaving of the tasks and the waiter: when all tasks have come to
    their end the baton is posted, and the waiter is not suspended on it. -/
theorem completion_signalled {calls : S.Task → Except E V} (hsafe : Safe calls)
    {t : List (Event S E V)} {s : State S E V} (h : Exec (machine calls) Always init t s)
    (hended : ∀ i, s.task i = .ended) :
    s.baton.ready = true ∧ (s.baton.pc .waiter).isSuspended = false := by
  obtain ⟨hposted, hsusp⟩ := (inv_exec hsafe h).ended hended
  exact ⟨hposted, Bool.eq_false_iff.mpr fun hwaits => hsusp (waiterPhase_eq_suspended.mpr hwaits)⟩

/-- Nobody moves when the tasks have ended and the waiter is suspended. -/
theorem stuck {calls : S.Task → Except E V} {s : State S E V} (hended : ∀ i, s.task i = .ended)
    (hsusp : (s.baton.pc .waiter).isSuspended = true) (a : Act S) : step calls s a = none := by
  obtain ⟨wt, hpc⟩ : ∃ wt, s.baton.pc .waiter = .suspended wt := by
    cases hpc : s.baton.pc .waiter with
    | suspended wt => exact ⟨wt, rfl⟩
    | _ => rw [hpc] at hsusp; cases hsusp
  cases a with
  | run i => simp only [step, State.run, hended]
  | go i => simp only [step, State.go, hended]
  | await =>
    simp only [step, Call.act, AffinityBaton.step, AffinityBaton.State.begin, hpc]
    cases s.waiter <;> rfl
  | goWaiter n spurious =>
    simp only [step, Call.act, AffinityBaton.step, AffinityBaton.go, hpc]
    cases s.waiter <;> rfl

/-- The waiter suspends, and then the tasks run to their ends. -/
def waitThenRun (S : Spawner) (steps : List (Act S)) : List (Act S) :=
  .await :: List.replicate 3 (.goWaiter ⟨0, .online 0⟩ false) ++ steps

/-- A callable of `co_submit` throws: the waiter is resumed. -/
theorem exception_signalled : ∃ t, ∃ s : State .coSubmit Nat Nat,
    Exec (machine fun _ => .error 7) Always init t s ∧ (∀ i, s.task i = .ended) ∧
    s.slots (0 : Fin 1) = some (.error 7) ∧
    s.baton.ready = true ∧ (s.baton.pc .waiter).isSuspended = false := by
  have hexec : Exec (machine fun _ => .error 7) Always (init : State .coSubmit Nat Nat) _ _ :=
    exec_run (waitThenRun .coSubmit [.run (0 : Fin 1), .go (0 : Fin 1), .go (0 : Fin 1),
      .go (0 : Fin 1), .go (0 : Fin 1)])
  exact ⟨_, _, hexec, by decide +kernel, by decide +kernel,
    completion_signalled (.inl rfl) hexec (by decide +kernel)⟩

/-- Task 0 throws and task 1 does not. -/
def firstThrows : (Spawner.whenAll 2).Task → Except Nat Nat :=
  fun i => if i.val = 0 then .error 7 else .ok 1

/-- **A waiter is left behind** when the callable of `coro_create`, or one of those of `when_all`,
    throws: the tasks have ended, the waiter is suspended, and nothing can happen any more. -/
theorem waiter_left_behind :
    (∃ t, ∃ s : State .coroCreate Nat Nat, Exec (machine fun _ => .error 7) Always init t s ∧
      (∀ i, s.task i = .ended) ∧ s.baton.ready = false ∧
      (s.baton.pc .waiter).isSuspended = true ∧ ∀ a, step (fun _ => .error 7) s a = none) ∧
    (∃ t, ∃ s : State (.whenAll 2) Nat Nat, Exec (machine firstThrows) Always init t s ∧
      (∀ i, s.task i = .ended) ∧ s.baton.ready = false ∧
      (s.baton.pc .waiter).isSuspended = true ∧ ∀ a, step firstThrows s a = none) := by
  have hcreate : Exec (machine fun _ => .error 7) Always (init : State .coroCreate Nat Nat) _ _ :=
    exec_run (waitThenRun .coroCreate [.run (0 : Fin 1)])
  have hall : Exec (machine firstThrows) Always (init : State (.whenAll 2) Nat Nat) _ _ :=
    exec_run (waitThenRun (.whenAll 2) [.run (0 : Fin 2), .run (1 : Fin 2), .go (1 : Fin 2)])
  exact ⟨⟨_, _, hcreate, by decide +kernel, by decide +kernel, by decide +kernel,
      stuck (by decide +kernel) (by decide +kernel)⟩,
    ⟨_, _, hall, by decide +kernel, by decide +kernel, by decide +kernel,
      stuck (by decide +kernel) (by decide +kernel)⟩⟩

end SpawnJoin
