import StorageRuntime.TimerProofs

/-!
# The timer thread — does it wake in time, and does it stop?

The thread that `start_global_timer_thread` creates loops: load `stop`, read the clock,
`expire`, hand the nodes on, `sleep_until_next`.  Any number of other threads call
`insert`, which decides under the mutex whether the thread must wake and notifies after
it has released the mutex, and `stop_global_timer_thread` (the static destructor does the
same), which stores `stop` and notifies without the mutex, and joins.

A step is one load or store, the acquisition of the mutex, or what is done while it is
held.  A wait may end at any time: at its deadline, or spuriously.  Memory is sequentially
consistent.  The calls on the wheel are those of `Timer`.

* **`never_oversleeps`**: while the thread waits, every pending deadline is at or after
  the end of the wait, or an insertion is about to notify; provided that no deadline is
  `TimePoint::max()`.
* **`stop_ends`**: after a stop the thread does not wait any more, provided that the stop
  does not notify between the thread's test of `stop` and its wait.
-/

namespace TimerThread

open Function Interleaving PriorityQueue Timer

/-- `TimePoint::max()`. -/
def timeMax : Int := 2 ^ 63 - 1

/-- Where the timer thread is. -/
inductive LoopPc where
  /-- `start_global_timer_thread` was not called. -/
  | absent
  /-- About to load `stop`. -/
  | test
  /-- About to read the clock. -/
  | clock
  /-- `expire`: about to lock the mutex. -/
  | expireLock (now : Int)
  /-- `expire` with the mutex. -/
  | expire (now : Int)
  /-- In the loop over what `expire` returned. -/
  | handOn
  /-- `sleep_until_next`: about to lock the mutex. -/
  | sleepLock
  /-- With the mutex: about to look at the heap. -/
  | look
  /-- With the mutex: about to wait, without end if there is no deadline. -/
  | wait (ends : Option Int)
  | waiting (ends : Option Int)
  /-- The wait is over: about to lock the mutex again. -/
  | woken
  /-- With the mutex: about to return. -/
  | relocked
  | exited
deriving DecidableEq

/-- Where another thread is in a call. -/
inductive Call where
  | none
  /-- `insert`: about to lock the mutex. -/
  | insertLock (node : TimerNode)
  /-- `insert` with the mutex: about to push. -/
  | push (node : TimerNode)
  /-- `insert` with the mutex: about to unlock. -/
  | unlock (needWake : Bool)
  /-- `insert`: about to notify. -/
  | notify
  /-- `stop_global_timer_thread`: about to store `stop`. -/
  | stopStore
  | stopNotify
  | join
deriving DecidableEq

/-- The state of the timer thread and of those around it.  The mutex is held by the timer
    thread (`some none`), by an agent, or by nobody. -/
structure State (Q : Queue TimerNode.less) (Agent : Type) where
  wheel : Timer.State Q
  mutex : Option (Option Agent)
  stop : Bool
  loop : LoopPc
  call : Agent → Call

inductive Act (Agent : Type) where
  /-- `start_global_timer_thread`, which creates the thread once. -/
  | start
  /-- The next step of the timer thread. -/
  | go
  | readClock (now : Int)
  /-- The wait ends at its deadline, or spuriously. -/
  | wake
  | insert (a : Agent) (node : TimerNode)
  | stop (a : Agent)
  /-- The next step of the call of agent `a`. -/
  | goCall (a : Agent)
deriving DecidableEq

section Steps

variable {Q : Queue TimerNode.less} {Agent : Type}

variable (Q Agent) in
def init : State Q Agent where
  wheel := Timer.init Q
  mutex := none
  stop := false
  loop := .absent
  call := fun _ => .none

/-- `notify_one` wakes the only thread that waits. -/
def LoopPc.wake : LoopPc → LoopPc
  | .waiting _ => .woken
  | p => p

/-- The deadline that `insert` compares with. -/
def prevTop (pending : Q.Carrier) : Int :=
  match Q.top pending with
  | none => timeMax
  | some node => node.deadline

/-- `need_wake`, after the heap `old` has become `new`. -/
def needWake (old new : Q.Carrier) : Bool :=
  match Q.top new with
  | none => false
  | some node => node.deadline < prevTop old

/-- The timer thread locks the mutex and goes on at `p`. -/
def State.lock (s : State Q Agent) (p : LoopPc) : Option (State Q Agent) :=
  match s.mutex with
  | none => some { s with mutex := some none, loop := p }
  | some _ => none

/-- The next step of the timer thread. -/
def State.go (s : State Q Agent) : Option (State Q Agent) :=
  match s.loop with
  | .test => some { s with loop := if s.stop then .exited else .clock }
  | .expireLock now => s.lock (.expire now)
  | .expire now =>
    some { s with
      wheel := { s.wheel with
        pending := (s.wheel.expire now).2
        expired := (s.wheel.expire now).1 }
      mutex := none
      loop := .handOn }
  | .handOn =>
    match s.wheel.expired with
    | [] => some { s with loop := .sleepLock }
    | _ :: rest => some { s with wheel := { s.wheel with expired := rest } }
  | .sleepLock => s.lock .look
  | .look => some { s with loop := .wait ((Q.top s.wheel.pending).map TimerNode.deadline) }
  | .wait ends => some { s with mutex := none, loop := .waiting ends }
  | .woken => s.lock .relocked
  | .relocked => some { s with mutex := none, loop := .test }
  | _ => none

variable [DecidableEq Agent]

def State.setCall (s : State Q Agent) (a : Agent) (c : Call) : State Q Agent :=
  { s with call := update s.call a c }

/-- The next step of the call of agent `a`. -/
def State.goCall (s : State Q Agent) (a : Agent) : Option (State Q Agent) :=
  match s.call a with
  | .none => none
  | .insertLock node =>
    match s.mutex with
    | none => some ({ s with mutex := some (some a) }.setCall a (.push node))
    | some _ => none
  | .push node =>
    some ({ s with wheel := s.wheel.insert node }.setCall a
      (.unlock (needWake s.wheel.pending (s.wheel.insert node).pending)))
  | .unlock wake => some ({ s with mutex := none }.setCall a (if wake then .notify else .none))
  | .notify => some ({ s with loop := s.loop.wake }.setCall a .none)
  | .stopStore => some ({ s with stop := true }.setCall a .stopNotify)
  | .stopNotify => some ({ s with loop := s.loop.wake }.setCall a .join)
  | .join =>
    -- a thread that was never created is not joinable
    match s.loop with
    | .absent | .exited => some (s.setCall a .none)
    | _ => none

/-- Agent `a` begins a call. -/
def State.begin (s : State Q Agent) (a : Agent) (c : Call) : Option (State Q Agent) :=
  match s.call a with
  | .none => some (s.setCall a c)
  | _ => none

def step (s : State Q Agent) : Act Agent → Option (State Q Agent)
  | .start =>
    match s.loop with
    | .absent => some { s with loop := .test }
    | _ => some s
  | .go => s.go
  | .readClock now =>
    match s.loop with
    | .clock => some { s with loop := .expireLock now }
    | _ => none
  | .wake => some { s with loop := s.loop.wake }
  | .insert a node => s.begin a (.insertLock node)
  | .stop a => s.begin a .stopStore
  | .goCall a => s.goCall a

/-- The call on the wheel that a step makes. -/
def State.wheelAct (s : State Q Agent) : Act Agent → Option Timer.Act
  | .go =>
    match s.loop with
    | .expire now => some (.expire now)
    | .handOn => s.wheel.expired.head?.map fun _ => .handOn
    | _ => none
  | .goCall a =>
    match s.call a with
    | .push node => some (.insert node)
    | _ => none
  | _ => none

/-- What is seen of a step is what is seen of the wheel. -/
def event (dest : TimerNode → Dest) (s : State Q Agent) (act : Act Agent) : Option Timer.Event :=
  (s.wheelAct act).bind (Timer.event dest s.wheel)

variable (Q Agent) in
def machine (dest : TimerNode → Dest) : Machine (State Q Agent) (Act Agent) Timer.Event where
  step := step
  event := event dest

/-! ## What the steps do -/

/-- Where the timer thread locks the mutex. -/
inductive Locks : LoopPc → LoopPc → Prop where
  | expire (now : Int) : Locks (.expireLock now) (.expire now)
  | sleep : Locks .sleepLock .look
  | woken : Locks .woken .relocked

/-- The steps of the timer thread. -/
inductive LoopMove (s : State Q Agent) : LoopPc → State Q Agent → Prop where
  | stops : s.stop = true → LoopMove s .test { s with loop := .exited }
  | goesOn : s.stop = false → LoopMove s .test { s with loop := .clock }
  | locks {p q : LoopPc} : s.mutex = none → Locks p q →
      LoopMove s p { s with mutex := some none, loop := q }
  | expires (now : Int) : LoopMove s (.expire now) { s with
      wheel := { s.wheel with
        pending := (s.wheel.expire now).2
        expired := (s.wheel.expire now).1 }
      mutex := none
      loop := .handOn }
  | handsOn {node : TimerNode} {rest : List TimerNode} : s.wheel.expired = node :: rest →
      LoopMove s .handOn { s with wheel := { s.wheel with expired := rest }, loop := .handOn }
  | handedOn : s.wheel.expired = [] → LoopMove s .handOn { s with loop := .sleepLock }
  | looks : LoopMove s .look
      { s with loop := .wait ((Q.top s.wheel.pending).map TimerNode.deadline) }
  | waits (ends : Option Int) :
      LoopMove s (.wait ends) { s with mutex := none, loop := .waiting ends }
  | returns : LoopMove s .relocked { s with mutex := none, loop := .test }

variable {s s' : State Q Agent}

omit [DecidableEq Agent] in
theorem lock_eq_some {p : LoopPc} (h : s.lock p = some s') :
    s.mutex = none ∧ s' = { s with mutex := some none, loop := p } := by
  rw [State.lock] at h
  split at h
  next hfree => exact ⟨hfree, (Option.some.inj h).symm⟩
  next => cases h

omit [DecidableEq Agent] in
theorem loop_moves (h : s.go = some s') : LoopMove s s.loop s' := by
  rw [State.go] at h
  generalize hp : s.loop = p at h ⊢
  cases p with
  | test =>
    cases h
    by_cases hs : s.stop = true
    · rw [if_pos hs]
      exact .stops hs
    · rw [if_neg hs]
      exact .goesOn (Bool.eq_false_iff.mpr hs)
  | expireLock now =>
    dsimp only at h
    obtain ⟨hfree, rfl⟩ := lock_eq_some h
    exact .locks hfree (Locks.expire now)
  | expire now =>
    cases h
    exact .expires now
  | handOn =>
    dsimp only at h
    split at h
    next hnone =>
      cases h
      exact .handedOn hnone
    next node rest hsome =>
      cases h
      exact .handsOn hsome
  | sleepLock =>
    dsimp only at h
    obtain ⟨hfree, rfl⟩ := lock_eq_some h
    exact .locks hfree Locks.sleep
  | look =>
    cases h
    exact .looks
  | wait ends =>
    cases h
    exact .waits ends
  | woken =>
    dsimp only at h
    obtain ⟨hfree, rfl⟩ := lock_eq_some h
    exact .locks hfree Locks.woken
  | relocked =>
    cases h
    exact .returns
  | _ => cases h

/-- The steps of a call of agent `a`: the state then, and where the call is. -/
inductive CallMove (s : State Q Agent) (a : Agent) : Call → State Q Agent → Call → Prop where
  | locks (node : TimerNode) : s.mutex = none →
      CallMove s a (.insertLock node) { s with mutex := some (some a) } (.push node)
  | pushes (node : TimerNode) : CallMove s a (.push node) { s with wheel := s.wheel.insert node }
      (.unlock (needWake s.wheel.pending (s.wheel.insert node).pending))
  | unlocks (wake : Bool) : CallMove s a (.unlock wake) { s with mutex := none }
      (if wake then .notify else .none)
  | notifies : CallMove s a .notify { s with loop := s.loop.wake } .none
  | stores : CallMove s a .stopStore { s with stop := true } .stopNotify
  | notifiesStop : CallMove s a .stopNotify { s with loop := s.loop.wake } .join
  | joins : CallMove s a .join s .none

theorem call_moves {a : Agent} (h : s.goCall a = some s') :
    ∃ s₁ c, CallMove s a (s.call a) s₁ c ∧ s' = s₁.setCall a c := by
  rw [State.goCall] at h
  generalize hc : s.call a = p at h ⊢
  cases p with
  | none => cases h
  | insertLock node =>
    dsimp only at h
    split at h
    next hfree => exact ⟨_, _, .locks node hfree, (Option.some.inj h).symm⟩
    next => cases h
  | push node =>
    exact ⟨_, _, .pushes node, (Option.some.inj h).symm⟩
  | unlock wake =>
    exact ⟨_, _, .unlocks wake, (Option.some.inj h).symm⟩
  | notify =>
    exact ⟨_, _, .notifies, (Option.some.inj h).symm⟩
  | stopStore =>
    exact ⟨_, _, .stores, (Option.some.inj h).symm⟩
  | stopNotify =>
    exact ⟨_, _, .notifiesStop, (Option.some.inj h).symm⟩
  | join =>
    dsimp only at h
    split at h
    next => exact ⟨_, _, .joins, (Option.some.inj h).symm⟩
    next => exact ⟨_, _, .joins, (Option.some.inj h).symm⟩
    next => cases h

/-- The steps of the machine. -/
inductive Move (s : State Q Agent) : Act Agent → State Q Agent → Prop where
  | starts : s.loop = .absent → Move s .start { s with loop := .test }
  | started : Move s .start s
  | loops {s' : State Q Agent} : LoopMove s s.loop s' → Move s .go s'
  | reads (now : Int) : s.loop = .clock →
      Move s (.readClock now) { s with loop := .expireLock now }
  | wakes : Move s .wake { s with loop := s.loop.wake }
  | inserts {a : Agent} (node : TimerNode) : s.call a = .none →
      Move s (.insert a node) (s.setCall a (.insertLock node))
  | stops {a : Agent} : s.call a = .none → Move s (.stop a) (s.setCall a .stopStore)
  | calls {a : Agent} {s₁ : State Q Agent} {c : Call} : CallMove s a (s.call a) s₁ c →
      Move s (.goCall a) (s₁.setCall a c)

theorem begin_eq_some {a : Agent} {c : Call} (h : s.begin a c = some s') :
    s.call a = .none ∧ s' = s.setCall a c := by
  rw [State.begin] at h
  split at h
  next hnone => exact ⟨hnone, (Option.some.inj h).symm⟩
  next => cases h

/-- Every step of the machine is one of those. -/
theorem step_moves {act : Act Agent} (h : step s act = some s') : Move s act s' := by
  cases act with
  | start =>
    simp only [step] at h
    split at h
    next habsent =>
      cases h
      exact Move.starts habsent
    next =>
      cases h
      exact Move.started
  | go => exact Move.loops (loop_moves h)
  | readClock now =>
    simp only [step] at h
    split at h
    next hclock =>
      cases h
      exact Move.reads now hclock
    next => cases h
  | wake =>
    cases h
    exact Move.wakes
  | insert a node =>
    obtain ⟨hnone, rfl⟩ := begin_eq_some h
    exact Move.inserts node hnone
  | stop a =>
    obtain ⟨hnone, rfl⟩ := begin_eq_some h
    exact Move.stops hnone
  | goCall a =>
    obtain ⟨s₁, c, hm, rfl⟩ := call_moves h
    exact Move.calls hm

end Steps

/-! ## The end of the wait -/

section Wait

variable {Q : Queue TimerNode.less} {Agent : Type} {s s' : State Q Agent}

/-- The timer thread has the mutex. -/
def LoopPc.holds : LoopPc → Bool
  | .expire _ | .look | .wait _ | .relocked => true
  | _ => false

/-- The agent has the mutex. -/
def Call.holds : Call → Bool
  | .push _ | .unlock _ => true
  | _ => false

/-- An insertion that is about to notify. -/
def Call.willNotify : Call → Bool
  | .unlock true | .notify => true
  | _ => false

/-- The node that is being inserted. -/
def Call.node : Call → Option TimerNode
  | .insertLock node | .push node => some node
  | _ => Option.none

/-- Every pending deadline is at or after the end of the wait. -/
def Covers (ends : Option Int) (pending : List TimerNode) : Prop :=
  ∀ node ∈ pending, ∃ e ∈ ends, e ≤ node.deadline

structure Inv (s : State Q Agent) : Prop where
  timer : s.loop.holds = true → s.mutex = some none
  agent : ∀ a, (s.call a).holds = true → s.mutex = some (some a)
  early : ∀ a, ∀ node ∈ (s.call a).node, node.deadline < timeMax
  decided : ∀ ends, s.loop = .wait ends → Covers ends (Q.contents s.wheel.pending)
  waiting : ∀ ends, s.loop = .waiting ends →
    Covers ends (Q.contents s.wheel.pending) ∨ ∃ a, (s.call a).willNotify = true

theorem inv_init : Inv (init Q Agent) where
  timer h := by cases h
  agent a h := by cases h
  early a n h := by cases h
  decided e h := by cases h
  waiting e h := by cases h

/-- The thread waits for the earliest deadline. -/
theorem covers_top (pending : Q.Carrier) :
    Covers ((Q.top pending).map TimerNode.deadline) (Q.contents pending) := by
  intro node hnode
  cases htop : Q.top pending with
  | none =>
    rw [Q.top_none pending htop] at hnode
    cases hnode
  | some first =>
    have hle := less_eq_false.mp (Q.top_max pending first htop node hnode)
    exact ⟨first.deadline, rfl, hle⟩

/-- **An insertion that comes before the end of the wait notifies**, unless its deadline is
    `TimePoint::max()`. -/
theorem covers_push {ends : Option Int} {old new : Q.Carrier} {node : TimerNode}
    (hold : Covers ends (Q.contents old)) (hnew : (Q.contents new).Perm (node :: Q.contents old))
    (hearly : node.deadline < timeMax) :
    Covers ends (Q.contents new) ∨ needWake old new = true := by
  by_cases hlate : ∃ e ∈ ends, e ≤ node.deadline
  · left
    intro b hb
    rcases List.mem_cons.mp (hnew.mem_iff.mp hb) with rfl | hb
    · exact hlate
    · exact hold b hb
  · right
    have hmem : node ∈ Q.contents new := hnew.mem_iff.mpr List.mem_cons_self
    rw [needWake]
    split
    next htop =>
      rw [Q.top_none new htop] at hmem
      cases hmem
    next first htop =>
      have hfirst := less_eq_false.mp (Q.top_max new first htop node hmem)
      refine decide_eq_true (Int.lt_of_le_of_lt hfirst ?_)
      rw [prevTop]
      split
      next => exact hearly
      next top hold' =>
        -- the old top is at or after the end of the wait, the node before it
        have htop' : top ∈ Q.contents old := (Q.pop_perm old top hold').mem_iff.mpr
          List.mem_cons_self
        obtain ⟨e, he, hle⟩ := hold top htop'
        have hlt : node.deadline < e := Int.not_le.mp fun h => hlate ⟨e, he, h⟩
        exact Int.lt_of_lt_of_le hlt hle

/-- While the thread has the mutex, or nobody, no agent has it. -/
theorem Inv.unheld (h : Inv s) (hm : s.mutex = none ∨ s.loop.holds = true) (a : Agent) :
    (s.call a).holds = false := by
  refine Bool.eq_false_iff.mpr ?_
  intro ha
  have hagent := h.agent a ha
  rcases hm with hfree | hholds
  · cases hfree.symm.trans hagent
  · cases (h.timer hholds).symm.trans hagent

/-- A step of the timer thread that neither waits nor decides how long to. -/
theorem Inv.move {loop : LoopPc} {mutex : Option (Option Agent)} {wheel : Timer.State Q}
    (h : Inv s) (htimer : loop.holds = true → mutex = some none)
    (hagent : ∀ a, (s.call a).holds = true → mutex = some (some a))
    (hwait : ∀ ends, loop ≠ .wait ends) (hwaiting : ∀ ends, loop ≠ .waiting ends) :
    Inv { s with loop := loop, mutex := mutex, wheel := wheel } where
  timer := htimer
  agent := hagent
  early := h.early
  decided := fun ends he => absurd he (hwait ends)
  waiting := fun ends he => absurd he (hwaiting ends)

/-- The same where the mutex changes hands. -/
theorem Inv.move_mutex {loop : LoopPc} {mutex : Option (Option Agent)} {wheel : Timer.State Q}
    (h : Inv s) (hm : s.mutex = none ∨ s.loop.holds = true)
    (htimer : loop.holds = true → mutex = some none)
    (hwait : ∀ ends, loop ≠ .wait ends) (hwaiting : ∀ ends, loop ≠ .waiting ends) :
    Inv { s with loop := loop, mutex := mutex, wheel := wheel } := by
  refine h.move htimer ?_ hwait hwaiting
  intro a ha
  cases (h.unheld hm a).symm.trans ha

theorem LoopMove.inv {p : LoopPc} (hm : LoopMove s p s') (hp : s.loop = p) (h : Inv s) :
    Inv s' := by
  cases hm with
  | stops _ | goesOn _ | handsOn _ | handedOn _ => exact h.move nofun h.agent nofun nofun
  | locks hfree hlocks =>
    refine h.move_mutex (.inl hfree) (fun _ => rfl) ?_ ?_
    · cases hlocks <;> exact nofun
    · cases hlocks <;> exact nofun
  | expires now | returns =>
    have hholds : s.loop.holds = true := by
      rw [hp]
      rfl
    exact h.move_mutex (.inr hholds) nofun nofun nofun
  | looks =>
    have hmutex : s.mutex = some none := h.timer (by rw [hp]; rfl)
    refine ⟨fun _ => hmutex, h.agent, h.early, ?_, nofun⟩
    intro ends he
    obtain rfl := LoopPc.wait.inj he
    exact covers_top s.wheel.pending
  | waits ends =>
    have hholds : s.loop.holds = true := by
      rw [hp]
      rfl
    refine ⟨nofun, ?_, h.early, nofun, ?_⟩
    · intro a ha
      cases (h.unheld (.inr hholds) a).symm.trans ha
    · intro ends' he
      obtain rfl := LoopPc.waiting.inj he
      exact .inl (h.decided ends hp)

/-- The thread is woken, or was not waiting. -/
theorem Inv.wake (h : Inv s) : Inv { s with loop := s.loop.wake } := by
  cases hp : s.loop with
  | waiting ends => exact h.move nofun h.agent nofun nofun
  | _ =>
    rw [LoopPc.wake, ← hp]
    · exact h
    · exact nofun

variable [DecidableEq Agent]

variable {c : Call} {a : Agent}

/-- An insertion that was about to notify still is, if its agent has not done it. -/
theorem willNotify_update {call : Agent → Call} (h : ∃ b, (call b).willNotify = true)
    (hc : (call a).willNotify = true → c.willNotify = true) :
    ∃ b, (update call a c b).willNotify = true := by
  obtain ⟨b, hb⟩ := h
  by_cases hba : b = a
  · subst hba
    refine ⟨b, ?_⟩
    rw [update_self]
    exact hc hb
  · refine ⟨b, ?_⟩
    rw [update_of_ne hba]
    exact hb

/-- A step of a call that leaves the loop and the wheel alone. -/
theorem Inv.setCall {mutex : Option (Option Agent)} {stop : Bool} (h : Inv s)
    (htimer : s.loop.holds = true → mutex = some none)
    (hothers : ∀ b, b ≠ a → (s.call b).holds = true → mutex = some (some b))
    (hholds : c.holds = true → mutex = some (some a))
    (hnode : ∀ node ∈ c.node, node.deadline < timeMax)
    (hnotify : ∀ ends, s.loop = .waiting ends → (s.call a).willNotify = true →
      c.willNotify = true) :
    Inv ({ s with mutex := mutex, stop := stop }.setCall a c) where
  timer := htimer
  agent := by
    intro b hb
    rcases update_cases Call.holds hb with ⟨rfl, hc⟩ | ⟨hne, hb⟩
    · exact hholds hc
    · exact hothers b hne hb
  early := forall_update (P := fun _ (c : Call) => ∀ node ∈ c.node, node.deadline < timeMax)
    h.early hnode
  decided := h.decided
  waiting := by
    intro ends he
    rcases h.waiting ends he with hcovers | hsome
    · exact .inl hcovers
    · exact .inr (willNotify_update hsome (hnotify ends he))

/-- A step of a call that does not touch the mutex. -/
theorem Inv.setCall_only {stop : Bool} (h : Inv s) (hholds : c.holds = false)
    (hnode : ∀ node ∈ c.node, node.deadline < timeMax)
    (hnotify : ∀ ends, s.loop = .waiting ends → (s.call a).willNotify = true →
      c.willNotify = true) : Inv ({ s with stop := stop }.setCall a c) := by
  refine h.setCall h.timer (fun b _ => h.agent b) ?_ hnode hnotify
  intro hc
  cases hholds.symm.trans hc

/-- **The push.** -/
theorem Inv.push {node : TimerNode} (h : Inv s) (ha : s.call a = .push node) :
    Inv ({ s with wheel := s.wheel.insert node }.setCall a
      (.unlock (needWake s.wheel.pending (s.wheel.insert node).pending))) where
  timer := h.timer
  agent := by
    intro b hb
    rcases update_cases Call.holds hb with ⟨rfl, -⟩ | ⟨-, hb⟩
    · exact h.agent b (by rw [ha]; rfl)
    · exact h.agent b hb
  early := forall_update (P := fun _ (c : Call) => ∀ node ∈ c.node, node.deadline < timeMax)
    h.early nofun
  decided := by
    intro ends he
    -- the timer thread would have the mutex
    have hmutex := h.agent a (by rw [ha]; rfl)
    have htimer := h.timer (by rw [show s.loop = .wait ends from he]; rfl)
    cases hmutex.symm.trans htimer
  waiting := by
    intro ends he
    rcases h.waiting ends he with hcovers | hsome
    · have hearly : (s.wheel.numbered node).deadline < timeMax := h.early a node (by rw [ha]; rfl)
      have hperm := Q.push_perm (s.wheel.numbered node) s.wheel.pending
      rcases covers_push hcovers hperm hearly with hcovers' | hwake
      · exact .inl hcovers'
      · refine .inr ⟨a, ?_⟩
        show (update s.call a _ a).willNotify = true
        rw [update_self]
        show Call.willNotify (.unlock (needWake s.wheel.pending (s.wheel.insert node).pending)) = _
        rw [show needWake s.wheel.pending (s.wheel.insert node).pending = true from hwake]
        rfl
    · refine .inr (willNotify_update hsome ?_)
      rw [ha]
      exact nofun

theorem wake_ne_waiting (p : LoopPc) (ends : Option Int) : p.wake ≠ .waiting ends := by
  cases p <;> exact nofun

theorem CallMove.inv {c₀ : Call} (hm : CallMove s a c₀ s' c) (ha : s.call a = c₀) (h : Inv s) :
    Inv (s'.setCall a c) := by
  cases hm with
  | locks node hfree =>
    refine h.setCall ?_ ?_ (fun _ => rfl) ?_ ?_
    · intro hholds
      cases hfree.symm.trans (h.timer hholds)
    · intro b _ hb
      cases (h.unheld (.inl hfree) b).symm.trans hb
    · intro n hn
      exact h.early a n (by rw [ha]; exact hn)
    · intro _ _ hn
      rw [ha] at hn
      cases hn
  | pushes node => exact h.push ha
  | unlocks wake =>
    have hmutex : s.mutex = some (some a) := h.agent a (by rw [ha]; rfl)
    refine h.setCall ?_ ?_ ?_ ?_ ?_
    · intro hholds
      cases hmutex.symm.trans (h.timer hholds)
    · intro b hne hb
      have heq : a = b := Option.some.inj (Option.some.inj (hmutex.symm.trans (h.agent b hb)))
      exact absurd heq.symm hne
    · cases wake <;> exact nofun
    · cases wake <;> exact nofun
    · intro _ _ hn
      rw [ha] at hn
      cases wake with
      | true => rfl
      | false => cases hn
  | notifies | notifiesStop =>
    refine h.wake.setCall_only rfl nofun ?_
    intro ends he
    exact absurd he (wake_ne_waiting s.loop ends)
  | stores | joins =>
    refine h.setCall_only rfl nofun ?_
    intro _ _ hn
    rw [ha] at hn
    cases hn

/-- No deadline is `TimePoint::max()`. -/
def Early (_ : List Timer.Event) (_ : State Q Agent) : Act Agent → Prop
  | .insert _ node => node.deadline < timeMax
  | _ => True

instance (t : List Timer.Event) (s : State Q Agent) (act : Act Agent) :
    Decidable (Early t s act) :=
  match act with
  | .insert _ node => inferInstanceAs (Decidable (node.deadline < timeMax))
  | .start | .go | .readClock .. | .wake | .stop .. | .goCall .. => isTrue trivial

theorem Move.inv {t : List Timer.Event} {act : Act Agent} (hm : Move s act s')
    (hearly : Early t s act) (h : Inv s) : Inv s' := by
  have hquiet : ∀ {a : Agent}, s.call a = .none → ∀ {c : Call} ends, s.loop = .waiting ends →
      (s.call a).willNotify = true → c.willNotify = true := by
    intro a ha c _ _ hn
    rw [ha] at hn
    cases hn
  cases hm with
  | starts _ | reads now _ => exact h.move nofun h.agent nofun nofun
  | started => exact h
  | loops hl => exact hl.inv rfl h
  | wakes => exact h.wake
  | inserts node ha =>
    refine h.setCall_only rfl ?_ (hquiet ha)
    intro n hn
    obtain rfl : node = n := Option.some.inj hn
    exact hearly
  | stops ha => exact h.setCall_only rfl nofun (hquiet ha)
  | calls hc => exact hc.inv rfl h

/-- **The timer thread never oversleeps.**  For every correct priority queue, every number of
    threads and every run in which no deadline is `TimePoint::max()`: while the timer thread
    waits, every pending deadline is at or after the end of its wait (there is none, if the
    wait has no end), or an insertion is about to notify it. -/
theorem never_oversleeps (dest : TimerNode → Dest) {t : List Timer.Event}
    (hrun : Exec (machine Q Agent dest) Early (init Q Agent) t s) {ends : Option Int}
    (hwaits : s.loop = .waiting ends) :
    (∀ node ∈ Q.contents s.wheel.pending, ∃ e ∈ ends, e ≤ node.deadline) ∨
      ∃ a, s.call a = .unlock true ∨ s.call a = .notify := by
  have hinv : Inv s := by
    refine hrun.invariant (fun _ s => Inv s) inv_init ?_
    intro t s act s' ih hearly hstep
    exact (step_moves hstep).inv hearly ih
  rcases hinv.waiting ends hwaits with hcovers | ⟨a, ha⟩
  · exact .inl hcovers
  · refine .inr ⟨a, ?_⟩
    cases hc : s.call a with
    | notify => exact .inr rfl
    | unlock wake =>
      rw [hc] at ha
      cases wake with
      | true => exact .inl rfl
      | false => cases ha
    | _ =>
      rw [hc] at ha
      cases ha

end Wait

/-- A queue of nodes, so that runs can be evaluated. -/
def earliestFirst : Queue TimerNode.less := smallestFirst TimerNode.deadline

/-- A sleeper of worker 0 with this deadline. -/
def sleeper (deadline : Int) : TimerNode := SleepAwaiter.awaitSuspend deadline none (some 0) 1

/-- The thread is started, finds nothing and waits without end. -/
def waitEmpty : List (Act Bool) :=
  [.start, .go, .readClock 0, .go, .go, .go, .go, .go, .go]

/-- Agent `a` inserts a node and has released the mutex. -/
def pushes (a : Bool) (deadline : Int) : List (Act Bool) :=
  [.insert a (sleeper deadline), .goCall a, .goCall a, .goCall a]

/-- A node comes while the thread waits without end, and then an earlier one: the first
    insertion has not notified yet. -/
theorem never_oversleeps_early : ∃ (t : List Timer.Event) (s : State earliestFirst Bool),
      Exec (machine _ Bool fun _ => .nowhere) Early (init _ Bool) t s ∧
      s.loop = .waiting none ∧ earliestFirst.contents s.wheel.pending ≠ [] ∧
      ((∀ node ∈ earliestFirst.contents s.wheel.pending,
          ∃ e ∈ (none : Option Int), e ≤ node.deadline) ∨
        ∃ a, s.call a = .unlock true ∨ s.call a = .notify) := by
  have hexec : Exec (machine earliestFirst Bool fun _ => .nowhere) Early
      (init _ Bool) _ _ := exec_run (waitEmpty ++ pushes true 9 ++ pushes false 5)
  exact ⟨_, _, hexec, rfl, by decide +kernel, never_oversleeps _ hexec rfl⟩

/-- **`TimePoint::max()` is not noticed.**  The thread waits without end, a node with this
    deadline is inserted, the insertion is over, and nobody notifies. -/
theorem oversleeps_timeMax : ∃ (t : List Timer.Event) (s : State earliestFirst Bool),
      Exec (machine _ Bool fun _ => .nowhere) Always (init _ Bool) t s ∧
      s.loop = .waiting none ∧
      (earliestFirst.contents s.wheel.pending).map TimerNode.deadline = [timeMax] ∧
      (¬ ∀ node ∈ earliestFirst.contents s.wheel.pending,
          ∃ e ∈ (none : Option Int), e ≤ node.deadline) ∧
      ¬ ∃ a, s.call a = .unlock true ∨ s.call a = .notify := by
  have hexec : Exec (machine earliestFirst Bool fun _ => .nowhere) Always
      (init _ Bool) _ _ := exec_run (waitEmpty ++ pushes true timeMax)
  exact ⟨_, _, hexec, rfl, by decide +kernel⟩

/-! ## The stop -/

section Stop

variable {Q : Queue TimerNode.less} {Agent : Type} {s s' : State Q Agent}

/-- The thread has read `stop` as false and is on the way to its wait. -/
def LoopPc.toWait : LoopPc → Bool
  | .clock | .expireLock _ | .expire _ | .handOn | .sleepLock | .look | .wait _ => true
  | _ => false

/-- The thread will test `stop` before it waits, or has ended. -/
def LoopPc.toTest : LoopPc → Bool
  | .absent | .test | .woken | .relocked | .exited => true
  | _ => false

/-- Stopping notifies only when the thread is not on the way to its wait. -/
def InTime (_ : List Timer.Event) (s : State Q Agent) : Act Agent → Prop
  | .goCall a => s.call a = .stopNotify → s.loop.toWait = false
  | _ => True

instance (t : List Timer.Event) (s : State Q Agent) (act : Act Agent) :
    Decidable (InTime t s act) :=
  match act with
  | .goCall a => inferInstanceAs (Decidable (s.call a = .stopNotify → s.loop.toWait = false))
  | .start | .go | .readClock .. | .wake | .insert .. | .stop .. => isTrue trivial

structure StopInv (s : State Q Agent) : Prop where
  stored : ∀ a, s.call a = .stopNotify → s.stop = true
  notified : ∀ a, s.call a = .join → s.stop = true ∧ s.loop.toTest = true

variable {p : LoopPc}

/-- A thread that is not on the way to its wait tests `stop` first, once it is woken. -/
theorem toTest_wake (h : p.toWait = false) : p.wake.toTest = true := by
  cases p with
  | absent | test | waiting _ | woken | relocked | exited => rfl
  | _ => cases h

theorem toTest_wake_of (h : p.toTest = true) : p.wake.toTest = true := by
  refine toTest_wake ?_
  cases p with
  | absent | test | woken | relocked | exited => rfl
  | _ => cases h

/-- With `stop` set the thread does not get past its test. -/
theorem LoopMove.toTest (hm : LoopMove s p s') (hstop : s.stop = true) (hp : p.toTest = true) :
    s'.loop.toTest = true := by
  cases hm with
  | stops _ => rfl
  | returns => rfl
  | goesOn hs => cases hs.symm.trans hstop
  | locks _ hlocks =>
    cases hlocks with
    | woken => rfl
    | expire now | sleep => cases hp
  | _ => cases hp

theorem LoopMove.frame (hm : LoopMove s p s') : s'.stop = s.stop ∧ s'.call = s.call := by
  cases hm <;> exact ⟨rfl, rfl⟩

variable [DecidableEq Agent]

/-- A step of a call that does not stop. -/
theorem StopInv.setCall {a : Agent} {c : Call} {s₁ : State Q Agent} (h : StopInv s)
    (hcall : s₁.call = s.call) (hstop : s.stop = true → s₁.stop = true)
    (hloop : s.loop.toTest = true → s₁.loop.toTest = true)
    (hstored : c = .stopNotify → s₁.stop = true)
    (hnotified : c = .join → s₁.stop = true ∧ s₁.loop.toTest = true) :
    StopInv (s₁.setCall a c) := by
  constructor
  · intro b hb
    rcases update_cases id hb with ⟨-, hc⟩ | ⟨-, hb⟩
    · exact hstored hc
    · exact hstop (h.stored b (by rw [← hcall]; exact hb))
  · intro b hb
    rcases update_cases id hb with ⟨-, hc⟩ | ⟨-, hb⟩
    · exact hnotified hc
    · obtain ⟨hs, hl⟩ := h.notified b (by rw [← hcall]; exact hb)
      exact ⟨hstop hs, hloop hl⟩

theorem CallMove.stopInv {t : List Timer.Event} {a : Agent} {c₀ c : Call}
    (hm : CallMove s a c₀ s' c) (ha : s.call a = c₀) (hin : InTime t s (.goCall a))
    (h : StopInv s) : StopInv (s'.setCall a c) := by
  cases hm with
  | locks node _ | pushes node | joins => exact h.setCall rfl id id nofun nofun
  | unlocks wake =>
    refine h.setCall rfl id id ?_ ?_
    · cases wake <;> exact nofun
    · cases wake <;> exact nofun
  | notifies => exact h.setCall rfl id toTest_wake_of nofun nofun
  | stores => exact h.setCall rfl (fun _ => rfl) id (fun _ => rfl) nofun
  | notifiesStop =>
    refine h.setCall rfl id toTest_wake_of nofun ?_
    intro _
    exact ⟨h.stored a ha, toTest_wake (hin ha)⟩

theorem Move.stopInv {t : List Timer.Event} {act : Act Agent} (hm : Move s act s')
    (hin : InTime t s act) (h : StopInv s) : StopInv s' := by
  cases hm with
  | started => exact h
  | starts _ => exact ⟨h.stored, fun a ha => ⟨(h.notified a ha).1, rfl⟩⟩
  | loops hl =>
    obtain ⟨hstop, hcall⟩ := hl.frame
    constructor
    · rw [hcall, hstop]
      exact h.stored
    · intro a ha
      rw [hcall] at ha
      obtain ⟨hs, ht⟩ := h.notified a ha
      exact ⟨hstop.trans hs, hl.toTest hs ht⟩
  | reads now hclock =>
    refine ⟨h.stored, ?_⟩
    intro a ha
    obtain ⟨-, ht⟩ := h.notified a ha
    rw [hclock] at ht
    cases ht
  | wakes =>
    refine ⟨h.stored, ?_⟩
    intro a ha
    obtain ⟨hs, ht⟩ := h.notified a ha
    exact ⟨hs, toTest_wake_of ht⟩
  | inserts node _ | stops _ => exact h.setCall rfl id id nofun nofun
  | calls hc => exact hc.stopInv rfl hin h

/-- **A stop ends the timer thread.**  For every correct priority queue, every number of
    threads that insert and stop, and every run in which no stop notifies between the timer
    thread's test of `stop` and its wait: when `stop_global_timer_thread` has notified and
    waits in `join`, `stop` is set and the timer thread does not wait, nor will it before it
    has tested `stop`. -/
theorem stop_ends (dest : TimerNode → Dest) {t : List Timer.Event}
    (hrun : Exec (machine Q Agent dest) InTime (init Q Agent) t s) {a : Agent}
    (hjoins : s.call a = .join) :
    s.stop = true ∧ (∀ ends, s.loop ≠ .waiting ends) ∧ s.loop.toTest = true := by
  have hinv : StopInv s := by
    refine hrun.invariant (fun _ s => StopInv s) ⟨nofun, nofun⟩ ?_
    intro t s act s' ih hin hstep
    exact (step_moves hstep).stopInv hin ih
  obtain ⟨hstop, htest⟩ := hinv.notified a hjoins
  refine ⟨hstop, ?_, htest⟩
  intro ends hwaits
  rw [hwaits] at htest
  cases htest

end Stop

/-- The thread waits, and the stop wakes it. -/
theorem stop_ends_waiting : ∃ (t : List Timer.Event) (s : State earliestFirst Bool),
      Exec (machine _ Bool fun _ => .nowhere) InTime (init _ Bool) t s ∧ s.call true = .join ∧
      s.stop = true ∧ (∀ ends, s.loop ≠ .waiting ends) ∧ s.loop.toTest = true := by
  have hexec : Exec (machine earliestFirst Bool fun _ => .nowhere) InTime
      (init _ Bool) _ _ := exec_run (waitEmpty ++ [.stop true, .goCall true, .goCall true])
  exact ⟨_, _, hexec, rfl, stop_ends (a := true) _ hexec rfl⟩

/-- A stop comes between the thread's test of `stop` and its wait. -/
def stopBetween : List (Act Bool) :=
  List.flatten [[.start, .go, .stop true, .goCall true, .goCall true, .readClock 0],
    List.replicate 6 .go]

/-- **A stop can be missed.**  The thread has read `stop` as false; `stop` is stored and the
    thread is notified before it waits; it finds the heap empty and waits without end, and the
    stop waits for it. -/
theorem stop_between_missed : ∃ (t : List Timer.Event) (s : State earliestFirst Bool),
      Exec (machine _ Bool fun _ => .nowhere) Always (init _ Bool) t s ∧
      s.stop = true ∧ s.call true = .join ∧ s.loop = .waiting none ∧
      earliestFirst.contents s.wheel.pending = [] ∧
      s.call false = .none := by
  have hexec : Exec (machine earliestFirst Bool fun _ => .nowhere) Always (init _ Bool) _ _ :=
    exec_run stopBetween
  exact ⟨_, _, hexec, rfl, rfl, rfl, by decide +kernel, rfl⟩

end TimerThread
