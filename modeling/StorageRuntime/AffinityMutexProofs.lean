import StorageRuntime.IntrusiveChainProofs
import StorageRuntime.ThreadAffinityProofs

/-!
# AffinityMutex — one word for the lock flag and the waiter stack

`state_` is 0 (free), `kLockedFlag` (held, nobody waits) or `waiter | kLockedFlag` (held,
with a stack of waiters whose nodes live in the waiting coroutines' frames).  `co_lock()`
takes the lock by a compare-exchange from 0, at once or after a retry, or pushes its node
and suspends; `unlock()` pops the top waiter and hands the lock to it.

The model has one step for every atomic operation on `state_` and separate steps for the
plain accesses to a node's link field in between.  A weak compare-exchange may fail
spuriously.  A coroutine reuses the same node, at the same address, in every `co_lock()`.

* **`two_holders`**: when `unlock()` pops the LAST waiter it stores 0 and hands the lock
  over all the same, so the next `co_lock()` finds the mutex free and a second coroutine
  holds it.
* **`mutual_exclusion_of_no_last_handoff`**: in every run in which no `unlock()` pops the
  last waiter, at most one coroutine holds the lock.  The invariant ties the word to the
  set of holders: 0 means nobody, a set flag means exactly one, and the chain behind the
  pointer is the set of suspended coroutines.
-/

namespace AffinityMutex

open Function Interleaving IntrusiveChain ThreadAffinity

variable {Coro : Type}

/-- Where a coroutine is in `co_lock()` or `unlock()`.  `old` and `new` are the local
    variables `old_state` and `new_state`. -/
inductive Pc (Coro : Type) where
  | idle
  /-- `await_ready`: about to compare-exchange 0 to `kLockedFlag`. -/
  | awaitReady
  /-- `await_suspend`: about to fill in the node and load `state_`. -/
  | awaitSuspend
  /-- The top of the loop in `await_suspend`. -/
  | lockLoop (old : Tagged Coro)
  /-- `waiter_ptr->next` is written, about to compare-exchange the node in. -/
  | pushCas (old : Tagged Coro)
  | suspended
  /-- Popped by `unlock()`, which has not resumed it yet. -/
  | handed
  | holding
  /-- `unlock()`: about to load `state_`. -/
  | unlockLoad
  /-- The top of the loop in `unlock`: about to read `waiters->next`. -/
  | unlockLoop (old : Tagged Coro)
  | unlockCas (old new : Tagged Coro)
  /-- The compare-exchange of `unlock` took effect, about to resume `w`. -/
  | wake (w : Coro)
deriving DecidableEq, Repr

/-- A coroutine holds the lock from the compare-exchange that took it, or from the hand-off
    by another's `unlock()`, until its own `unlock()` takes effect. -/
def Pc.Holds : Pc Coro → Prop
  | .handed | .holding | .unlockLoad | .unlockLoop _ | .unlockCas _ _ => True
  | _ => False

instance (p : Pc Coro) : Decidable p.Holds :=
  match p with
  | .handed | .holding | .unlockLoad | .unlockLoop .. | .unlockCas .. => isTrue trivial
  | .idle | .awaitReady | .awaitSuspend | .lockLoop .. | .pushCas .. | .suspended | .wake .. =>
    isFalse id

/-- The mutex with the frames of all coroutines. -/
structure State (Coro : Type) where
  word : Tagged Coro
  next : Coro → Option Coro
  node : Coro → WaiterNode
  pc : Coro → Pc Coro

/-- The word of a held mutex with waiter stack `p`. -/
def lockedWord (p : Option Coro) : Tagged Coro := ⟨p, true⟩

def init : State Coro :=
  ⟨Tagged.zero, fun _ => none, fun _ => ⟨SIZE_MAX, .null⟩, fun _ => .idle⟩

/-- `call` begins a `co_lock()` or `unlock()`; `go` executes the next atomic operation of a
    coroutine (`n` is what `current_worker_id()` and `get_current_route()` return there, and
    `spurious` makes a weak compare-exchange fail). -/
inductive Act (Coro : Type) where
  | coLock (c : Coro)
  | unlock (c : Coro)
  | go (c : Coro) (n : WaiterNode) (spurious : Bool)

/-- A coroutine suspends in `co_lock()`, or `unlock()` resumes it. -/
inductive WaitEvent (Coro : Type) where
  | suspended (c : Coro)
  | resumed (c : Coro)
deriving DecidableEq, Repr

/-- The new word computed in `unlock`: the rest of the stack with the flag, or 0. -/
def unlockWord (next : Coro → Option Coro) (old : Tagged Coro) : Tagged Coro :=
  match old.ptr with
  | none => .zero
  | some w =>
    match next w with
    | some n => lockedWord (some n)
    | none => .zero

section Machine

variable [DecidableEq Coro]

/-- Put coroutine `c` at `p`. -/
def State.setPc (s : State Coro) (c : Coro) (p : Pc Coro) : State Coro :=
  { s with pc := update s.pc c p }

/-- The effect of the successful compare-exchange of `unlock` by `c`: the word changes, and
    the popped waiter, if any, now holds the lock. -/
def State.unlocked (s : State Coro) (c : Coro) (old new : Tagged Coro) : State Coro :=
  match old.ptr with
  | none => { s with word := new }.setPc c .idle
  | some w => ({ s with word := new }.setPc c (.wake w)).setPc w .handed

/-- The next atomic operation of coroutine `c`. -/
def go (s : State Coro) (c : Coro) (n : WaiterNode) (spurious : Bool) :
    Option (State Coro) :=
  match s.pc c with
  | .awaitReady =>
    if s.word = .zero then some ({ s with word := lockedWord none }.setPc c .holding)
    else some (s.setPc c .awaitSuspend)
  | .awaitSuspend =>
    some ({ s with
      node := update s.node c n
      next := update s.next c none }.setPc c (.lockLoop s.word))
  | .lockLoop old =>
    if old = .zero then
      -- the lock became free: try to take it directly
      if s.word = .zero then some ({ s with word := lockedWord none }.setPc c .holding)
      else some (s.setPc c (.lockLoop s.word))
    else
      some ({ s with next := update s.next c old.ptr }.setPc c (.pushCas old))
  | .pushCas old =>
    if s.word = old ∧ spurious = false then
      some ({ s with word := lockedWord (some c) }.setPc c .suspended)
    else some (s.setPc c (.lockLoop s.word))
  | .unlockLoad => some (s.setPc c (.unlockLoop s.word))
  | .unlockLoop old => some (s.setPc c (.unlockCas old (unlockWord s.next old)))
  | .unlockCas old new =>
    if s.word = old ∧ spurious = false then some (s.unlocked c old new)
    else some (s.setPc c (.unlockLoop s.word))
  | .wake w => some ((s.setPc c .idle).setPc w .holding)
  | .idle | .suspended | .handed | .holding => none

/-- One step. -/
def step (s : State Coro) : Act Coro → Option (State Coro)
  | .coLock c => if s.pc c = .idle then some (s.setPc c .awaitReady) else none
  | .unlock c => if s.pc c = .holding then some (s.setPc c .unlockLoad) else none
  | .go c n spurious => go s c n spurious

/-- The observer sees which coroutine is resumed, and how. -/
def event (s : State Coro) : Act Coro → Option (Coro × Resumption)
  | .go c _ _ =>
    match s.pc c with
    | .wake w => some (w, (s.node w).resumption)
    | _ => none
  | _ => none

def machine : Machine (State Coro) (Act Coro) (Coro × Resumption) where
  step := step
  event := event

/-- The suspension in `co_lock()` that a step begins, or the one that it ends. -/
def waits (s : State Coro) : Act Coro → Option (WaitEvent Coro)
  | .go c _ spurious =>
    match s.pc c with
    | .pushCas old => if s.word = old ∧ spurious = false then some (.suspended c) else none
    | .wake w => some (.resumed w)
    | _ => none
  | _ => none

/-- The step is a successful compare-exchange of `unlock` that pops a waiter with nobody
    behind it. -/
def popsLast (s : State Coro) : Act Coro → Bool
  | .go c _ spurious =>
    match s.pc c with
    | .unlockCas old _ =>
      decide (s.word = old) && !spurious && (match old.ptr with
         | some w => (s.next w).isNone
         | none => false)
    | _ => false
  | _ => false

/-- The condition on runs: no `unlock()` hands the lock to the last waiter. -/
def NoLastHandoff : List (Coro × Resumption) → State Coro → Act Coro → Prop :=
  fun _ s a => popsLast s a = false
deriving Decidable

end Machine

/-- After popping `w` the word points to the waiter behind it. -/
theorem unlockWord_spec (next : Coro → Option Coro) {old : Tagged Coro} {w : Coro}
    (hw : old.ptr = some w) : (unlockWord next old).ptr = next w ∧
      ((unlockWord next old).tag = false → (unlockWord next old).ptr = none) := by
  rw [unlockWord, hw]
  dsimp only
  cases next w with
  | none => exact ⟨rfl, fun _ => rfl⟩
  | some n => exact ⟨rfl, by rintro ⟨⟩⟩

/-- At most one coroutine holds the lock. -/
def Exclusive (s : State Coro) : Prop :=
  ∀ c d, (s.pc c).Holds → (s.pc d).Holds → c = d

/-! ## The invariant -/

/-- The coroutine is in `unlock()` with `c` as the top waiter it loaded. -/
def Pc.Reads (c : Coro) : Pc Coro → Prop
  | .unlockLoop old => old.ptr = some c
  | .unlockCas old _ => old.ptr = some c
  | _ => False

instance [DecidableEq Coro] (c : Coro) (p : Pc Coro) : Decidable (p.Reads c) :=
  match p with
  | .unlockLoop old | .unlockCas old _ => inferInstanceAs (Decidable (old.ptr = some c))
  | .idle | .awaitReady | .awaitSuspend | .lockLoop .. | .pushCas .. | .suspended | .handed
  | .holding | .unlockLoad | .wake .. => isFalse id

/-- What a coroutine's local variables say about the shared state.  A link that `unlock()` has
    read is current as long as its waiter is suspended. -/
def Current (next : Coro → Option Coro) (pc : Coro → Pc Coro) (c : Coro) : Pc Coro → Prop
  | .pushCas old => next c = old.ptr ∧ old ≠ .zero
  | .unlockCas old new => (∀ w, old.ptr = some w → pc w = .suspended) → new = unlockWord next old
  | .wake w => pc w = .handed ∧ ∀ d, pc d = .wake w → d = c
  | _ => True

/-- The word tied to the stack `l` of suspended coroutines. -/
structure Stack (l : List Coro) (s : State Coro) : Prop where
  chain : Chain s.next s.word.ptr l
  mem : ∀ c, c ∈ l ↔ s.pc c = .suspended
  zero : s.word.tag = false → s.word.ptr = none
  ok : ∀ c, Current s.next s.pc c (s.pc c)

theorem stack_init : Stack [] (init : State Coro) where
  chain := rfl
  mem _ := iff_of_false List.not_mem_nil (by rintro ⟨⟩)
  zero _ := rfl
  ok _ := trivial

/-- The word tied to the holders.  A waiter that `unlock()` has seen at the head stays
    suspended until `unlock()` pops it, because only the holder pops. -/
structure Locked (s : State Coro) : Prop where
  free : s.word.tag = false → ∀ c, ¬ (s.pc c).Holds
  exclusive : Exclusive s
  reads : ∀ u w, (s.pc u).Reads w → s.pc w = .suspended

theorem locked_init : Locked (init : State Coro) where
  free _ _ h := h
  exclusive _ _ h := h.elim
  reads _ _ h := h.elim

/-- A coroutine that is neither suspended, nor handed the lock, nor waking another. -/
def Pc.Plain : Pc Coro → Prop
  | .suspended | .handed | .wake _ => False
  | _ => True

/-- What a coroutine knows survives changes that keep its own link field, bring no waiter
    back that it has read, and keep the waiter it is about to resume. -/
theorem Current.congr {next next' : Coro → Option Coro} {pc pc' : Coro → Pc Coro}
    {d : Coro} {p : Pc Coro} (h : Current next pc d p) (hd : next' d = next d)
    (hs : ∀ w, p.Reads w → pc' w = .suspended → pc w = .suspended ∧ next' w = next w)
    (hh : ∀ w, p = .wake w → pc w = .handed → pc' w = .handed)
    (hw : ∀ u w, p = .wake w → pc' u = .wake w → pc u = .wake w) : Current next' pc' d p := by
  cases p with
  | pushCas old => exact ⟨hd.trans h.1, h.2⟩
  | unlockCas old new =>
    intro hsusp
    rw [h fun w hold => (hs w hold (hsusp w hold)).1, unlockWord, unlockWord]
    cases hp : old.ptr with
    | none => rfl
    | some w =>
      dsimp only
      rw [(hs w hp (hsusp w hp)).2]
  | wake w => exact ⟨hh w rfl h.1, fun u hu => h.2 u (hw u w rfl hu)⟩
  | _ => trivial

theorem Pc.Reads.holds {c : Coro} {p : Pc Coro} (h : p.Reads c) : p.Holds := by
  cases p with
  | unlockLoop | unlockCas => trivial
  | _ => exact h.elim

/-- Only `c` holds the lock, and it is not in `unlock()`. -/
theorem locked_of_only {s : State Coro} {c : Coro} (htag : s.word.tag = true)
    (honly : ∀ d, (s.pc d).Holds → d = c) (hc : ∀ w, ¬ (s.pc c).Reads w) : Locked s := by
  refine ⟨fun ht => ?_, fun d e hd he => (honly d hd).trans (honly e he).symm, fun u w hu => ?_⟩
  · cases htag.symm.trans ht
  · obtain rfl := honly u hu.holds
    exact absurd hu (hc w)

section Stack

variable {l : List Coro} {s : State Coro} (h : Stack l s) {c w : Coro} {new : Tagged Coro}
include h

/-- The coroutine that `c` is about to resume has been handed the lock, by `c` alone. -/
theorem Stack.waking (hc : s.pc c = .wake w) :
    s.pc w = .handed ∧ ∀ d, s.pc d = .wake w → d = c := by
  have hcur := h.ok c
  rwa [hc] at hcur

theorem Stack.pushing {old : Tagged Coro} (hc : s.pc c = .pushCas old) :
    s.next c = old.ptr ∧ old ≠ .zero := by
  have hcur := h.ok c
  rwa [hc] at hcur

/-- The waiter at the head of the present stack is suspended. -/
theorem Stack.head_suspended (hw : s.word.ptr = some w) : s.pc w = .suspended := by
  have hch := h.chain
  rw [hw] at hch
  obtain ⟨l', rfl, -⟩ := chain_some hch
  exact (h.mem w).mp List.mem_cons_self

/-- The link that `unlock()` has read is current, since the head is still suspended. -/
theorem Stack.link (hc : s.pc c = .unlockCas s.word new) : new = unlockWord s.next s.word := by
  have hcur := h.ok c
  rw [hc] at hcur
  exact hcur fun w hw => h.head_suspended hw

end Stack

variable [DecidableEq Coro]

@[simp] theorem setPc_self (s : State Coro) (c : Coro) (p : Pc Coro) :
    (s.setPc c p).pc c = p := update_self ..

variable {c d w : Coro} {p q : Pc Coro} {s s' : State Coro} {a : Act Coro} {l : List Coro}

theorem setPc_of_ne (s : State Coro) (p : Pc Coro) (h : d ≠ c) :
    (s.setPc c p).pc d = s.pc d := update_of_ne h ..

omit [DecidableEq Coro] in
theorem Pc.Plain.ne (hp : p.Plain) (hq : ¬ q.Plain) : p ≠ q := fun h => hq (h ▸ hp)

/-- Who is suspended, handed the lock or waking another does not change when a coroutine that
    is none of these moves on and stays so. -/
theorem setPc_eq_iff (hold : (s.pc c).Plain) (hnew : p.Plain) (hq : ¬ q.Plain) :
    (s.setPc c p).pc d = q ↔ s.pc d = q := update_same_iff (hold.ne hq) (hnew.ne hq)

/-- Who is where after `c` has suspended. -/
structure Suspends (pc : Coro → Pc Coro) (c : Coro) (pc' : Coro → Pc Coro) : Prop where
  suspended : ∀ d, pc' d = .suspended ↔ d = c ∨ pc d = .suspended
  handed : ∀ d, pc' d = .handed ↔ pc d = .handed
  wake : ∀ d v, pc' d = .wake v ↔ pc d = .wake v

theorem suspends_setPc (hc : (s.pc c).Plain) : Suspends s.pc c (s.setPc c .suspended).pc where
  suspended _ := update_eq_self_iff
  handed _ := update_same_iff (hc.ne id) nofun
  wake _ _ := update_same_iff (hc.ne id) nofun

/-- Who is where after `c` has popped `w`. -/
structure HandsOver (pc : Coro → Pc Coro) (c w : Coro) (pc' : Coro → Pc Coro) : Prop where
  suspended : ∀ d, pc' d = .suspended ↔ d ≠ w ∧ pc d = .suspended
  handed : ∀ d, pc' d = .handed ↔ d = w ∨ pc d = .handed
  wake : ∀ d v, pc' d = .wake v ↔ (d = c ∧ w = v) ∨ pc d = .wake v

theorem handsOver_setPc (hc : (s.pc c).Plain) (hw : s.pc w = .suspended) :
    HandsOver s.pc c w ((s.setPc c (.wake w)).setPc w .handed).pc := by
  have hwc : w ≠ c := by
    rintro rfl
    rw [hw] at hc
    exact hc
  have hw' : update s.pc c (.wake w) w = .suspended := (update_of_ne hwc ..).trans hw
  refine ⟨fun d => ?_, fun d => ?_, fun d v => ?_⟩
  · exact Iff.trans (update_eq_iff_of_ne nofun)
      (and_congr_right fun _ => update_same_iff (hc.ne id) nofun)
  · exact Iff.trans update_eq_self_iff (or_congr_right (update_same_iff (hc.ne id) nofun))
  · rw [← Pc.wake.injEq w v]
    exact Iff.trans (update_same_iff (ne_of_eq_of_ne hw' nofun) nofun) (update_eq_iff (hc.ne id))

/-- Who is where after `c` has resumed `w`. -/
structure Resumes (pc : Coro → Pc Coro) (c w : Coro) (pc' : Coro → Pc Coro) : Prop where
  suspended : ∀ d, pc' d = .suspended ↔ pc d = .suspended
  handed : ∀ d, pc' d = .handed ↔ d ≠ w ∧ pc d = .handed
  wake : ∀ d v, pc' d = .wake v ↔ d ≠ c ∧ pc d = .wake v

theorem resumes_setPc (hc : s.pc c = .wake w) (hw : s.pc w = .handed) :
    Resumes s.pc c w ((s.setPc c .idle).setPc w .holding).pc := by
  have hcw : c ≠ w := ne_of_states hc hw nofun
  have hw' : update s.pc c .idle w = .handed := (update_of_ne hcw.symm ..).trans hw
  refine ⟨fun d => ?_, fun d => ?_, fun d v => ?_⟩
  · exact Iff.trans (update_same_iff (ne_of_eq_of_ne hw' nofun) nofun)
      (update_same_iff (ne_of_eq_of_ne hc nofun) nofun)
  · exact Iff.trans (update_eq_iff_of_ne nofun)
      (and_congr_right fun _ => update_same_iff (ne_of_eq_of_ne hc nofun) nofun)
  · exact Iff.trans (update_same_iff (ne_of_eq_of_ne hw' nofun) nofun) (update_eq_iff_of_ne nofun)

/-! ## What a step can do -/

/-- The local variables of `c` when it gets to `p`, its link field being written. -/
def Arrives (s : State Coro) (next : Coro → Option Coro) (c : Coro) : Pc Coro → Prop
  | .pushCas old => next c = old.ptr ∧ old ≠ .zero
  | .unlockLoop old => old = s.word
  | .unlockCas old new => s.pc c = .unlockLoop old ∧ new = unlockWord next old
  | _ => True

/-- The steps by what they do to the word, the links and the holders, with the suspension
    that begins or ends. -/
inductive Move (s : State Coro) : Act Coro → Option (WaitEvent Coro) → State Coro → Prop where
  /-- A coroutine keeps what it holds and moves on, writing at most its own node. -/
  | move {a : Act Coro} (c : Coro) (p : Pc Coro) (next : Coro → Option Coro)
      (node : Coro → WaiterNode) : (s.pc c).Plain → p.Plain → (p.Holds ↔ (s.pc c).Holds) →
      (∀ d, d ≠ c → next d = s.next d) → Arrives s next c p →
      Move s a none ({ s with next := next, node := node }.setPc c p)
  | acquire {a : Act Coro} {c : Coro} : (s.pc c).Plain → s.word = .zero →
      Move s a none ({ s with word := lockedWord none }.setPc c .holding)
  | push {c : Coro} {n : WaiterNode} : s.pc c = .pushCas s.word →
      Move s (.go c n false) (some (.suspended c))
        ({ s with word := lockedWord (some c) }.setPc c .suspended)
  | release {c : Coro} {n : WaiterNode} {new : Tagged Coro} : s.pc c = .unlockCas s.word new →
      s.word.ptr = none → Move s (.go c n false) none ({ s with word := new }.setPc c .idle)
  | handOff {c w : Coro} {n : WaiterNode} {new : Tagged Coro} : s.pc c = .unlockCas s.word new →
      s.word.ptr = some w → Move s (.go c n false) none
        (({ s with word := new }.setPc c (.wake w)).setPc w .handed)
  | wake {c w : Coro} {n : WaiterNode} {spurious : Bool} : s.pc c = .wake w →
      Move s (.go c n spurious) (some (.resumed w)) ((s.setPc c .idle).setPc w .holding)

/-- A coroutine only changes its program counter. -/
theorem Move.setPc (hq : s.pc c = q) (hold : q.Plain) (hnew : p.Plain) (hh : p.Holds ↔ q.Holds)
    (harr : Arrives s s.next c p) : Move s a none (s.setPc c p) := by
  subst hq
  exact Move.move c p s.next s.node hold hnew hh (fun _ _ => rfl) harr

/-- A try to take the lock, from `awaitReady` and from the loop of `await_suspend`. -/
theorem Move.tryLock
    (hs : (if s.word = .zero then some ({ s with word := lockedWord none }.setPc c .holding)
      else some (s.setPc c p)) = some s')
    (hq : s.pc c = q) (hold : q.Plain) (hnew : p.Plain) (hh : p.Holds ↔ q.Holds)
    (harr : Arrives s s.next c p) : Move s a none s' := by
  by_cases hw : s.word = .zero
  · rw [if_pos hw] at hs
    cases hs
    exact Move.acquire (by rw [hq]; exact hold) hw
  · rw [if_neg hw] at hs
    cases hs
    exact Move.setPc hq hold hnew hh harr

theorem go_moves {n : WaiterNode} {spurious : Bool} (hs : go s c n spurious = some s') :
    Move s (.go c n spurious) (waits s (.go c n spurious)) s' := by
  rw [go] at hs
  rw [waits]
  generalize hpc : s.pc c = p at hs ⊢
  cases p with
  | idle | suspended | handed | holding => cases hs
  | awaitReady =>
    exact Move.tryLock hs hpc trivial trivial Iff.rfl trivial
  | awaitSuspend =>
    cases hs
    refine Move.move c _ _ _ (by rw [hpc]; trivial) trivial (by rw [hpc]; exact Iff.rfl) ?_
      trivial
    intro d hd
    exact update_of_ne hd ..
  | lockLoop old =>
    dsimp only at hs
    by_cases hold : old = .zero
    · rw [if_pos hold] at hs
      exact Move.tryLock hs hpc trivial trivial Iff.rfl trivial
    · rw [if_neg hold] at hs
      cases hs
      refine Move.move c (.pushCas old) _ s.node (by rw [hpc]; trivial) trivial
        (by rw [hpc]; exact Iff.rfl) ?_ ⟨update_self .., hold⟩
      intro d hd
      exact update_of_ne hd ..
  | pushCas old =>
    dsimp only at hs ⊢
    by_cases hcas : s.word = old ∧ spurious = false
    · rw [if_pos hcas] at hs ⊢
      obtain ⟨rfl, rfl⟩ := hcas
      cases hs
      exact Move.push hpc
    · rw [if_neg hcas] at hs ⊢
      cases hs
      exact Move.setPc hpc trivial trivial Iff.rfl trivial
  | unlockLoad =>
    cases hs
    exact Move.setPc hpc trivial trivial Iff.rfl rfl
  | unlockLoop old =>
    cases hs
    exact Move.setPc hpc trivial trivial Iff.rfl ⟨hpc, rfl⟩
  | unlockCas old new =>
    dsimp only at hs
    by_cases hcas : s.word = old ∧ spurious = false
    · rw [if_pos hcas] at hs
      obtain ⟨rfl, rfl⟩ := hcas
      cases hs
      rw [State.unlocked]
      cases hp : s.word.ptr with
      | none => exact Move.release hpc hp
      | some w => exact Move.handOff hpc hp
    · rw [if_neg hcas] at hs
      cases hs
      exact Move.setPc hpc trivial trivial Iff.rfl rfl
  | wake w =>
    cases hs
    exact Move.wake hpc

theorem step_moves (hs : step s a = some s') : Move s a (waits s a) s' := by
  cases a with
  | coLock c =>
    obtain ⟨hpc, rfl⟩ : s.pc c = .idle ∧ _ = s' := by simpa [step] using hs
    exact Move.setPc hpc trivial trivial Iff.rfl trivial
  | unlock c =>
    obtain ⟨hpc, rfl⟩ : s.pc c = .holding ∧ _ = s' := by simpa [step] using hs
    exact Move.setPc hpc trivial trivial Iff.rfl trivial
  | go c n spurious => exact go_moves hs

/-! ## The moves keep the stack -/

variable {o : Option (WaitEvent Coro)} {new : Tagged Coro}

/-- A coroutine that is not waiting and does not begin to wait, and changes at most its own
    link field and the flag of the word. -/
theorem Stack.plain (h : Stack l s) {word : Tagged Coro} {next : Coro → Option Coro}
    {node : Coro → WaiterNode} (hold : (s.pc c).Plain) (hnew : p.Plain)
    (hnext : ∀ d, d ≠ c → next d = s.next d) (hptr : word.ptr = s.word.ptr)
    (hzero : word.tag = false → word.ptr = none) (hcur : Current next s.pc c p) :
    Stack l (State.setPc ⟨word, next, node, s.pc⟩ c p) := by
  have hsame : ∀ d q, ¬ q.Plain → (update s.pc c p d = q ↔ s.pc d = q) :=
    fun d q hq => setPc_eq_iff hold hnew hq
  have hnext' : ∀ w, s.pc w = .suspended → next w = s.next w := by
    intro w hw
    refine hnext w ?_
    rintro rfl
    rw [hw] at hold
    exact hold
  have hkeep : ∀ {d q}, Current next s.pc d q → Current next (update s.pc c p) d q := fun hq =>
    hq.congr rfl (fun w _ hw => ⟨(hsame w _ id).mp hw, rfl⟩)
      (fun w _ hw => (hsame w _ id).mpr hw) (fun u _ _ hu => (hsame u _ id).mp hu)
  refine ⟨?_, fun d => (h.mem d).trans (hsame d _ id).symm, hzero,
    forall_update_of_ne (fun d hd => hkeep ?_) (hkeep hcur)⟩
  · show Chain next word.ptr l
    rw [hptr]
    exact chain_congr (fun d hd => hnext' d ((h.mem d).mp hd)) h.chain
  · exact (h.ok d).congr (hnext d hd) (fun w _ hw => ⟨hw, hnext' w hw⟩) (fun _ _ hw => hw)
      (fun _ _ _ hu => hu)

omit [DecidableEq Coro] in
/-- What a coroutine knows when it gets to `p`. -/
theorem Current.arrives {next : Coro → Option Coro} (hp : p.Plain) (h : Arrives s next c p) :
    Current next s.pc c p := by
  cases p with
  | pushCas old => exact h
  | unlockCas old new => exact fun _ => h.2
  | wake w => exact hp.elim
  | _ => trivial

/-- Pushing a node that no `unlock()` has read. -/
theorem Stack.push (h : Stack l s) (hc : s.pc c = .pushCas s.word)
    (hfresh : ∀ u, ¬ (s.pc u).Reads c) :
    Stack (c :: l) ({ s with word := lockedWord (some c) }.setPc c .suspended) := by
  have hm : Suspends s.pc c (update s.pc c .suspended) := suspends_setPc (by rw [hc]; trivial)
  refine ⟨chain_push h.chain (h.pushing hc).1, fun d => ?_, nofun,
    forall_update (fun d => ?_) trivial⟩
  · rw [List.mem_cons, h.mem d]
    exact (hm.suspended d).symm
  · refine (h.ok d).congr rfl (fun w hreads hw => ⟨((hm.suspended w).mp hw).resolve_left ?_, rfl⟩)
      (fun w _ hw => (hm.handed w).mpr hw) (fun u w _ hu => (hm.wake u w).mp hu)
    rintro rfl
    exact hfresh d hreads

/-- Handing the lock to the top waiter `w`. -/
theorem Stack.handOff (h : Stack (w :: l) s) (hc : s.pc c = .unlockCas s.word new)
    (hw : s.word.ptr = some w) :
    Stack l (({ s with word := new }.setPc c (.wake w)).setPc w .handed) := by
  have hws := h.head_suspended hw
  obtain ⟨hptr, hzero⟩ := unlockWord_spec s.next hw
  rw [← h.link hc] at hptr hzero
  have hnd : w ∉ l := (List.nodup_cons.mp (chain_nodup h.chain)).1
  have hm : HandsOver s.pc c w (update (update s.pc c (.wake w)) w .handed) :=
    handsOver_setPc (by rw [hc]; trivial) hws
  -- nobody was about to resume `w` while it was suspended
  have hnone : ∀ d, s.pc d ≠ .wake w := by
    intro d hd
    cases hws.symm.trans (h.waking hd).1
  refine ⟨hptr ▸ h.chain.2, fun d => ?_, hzero, forall_update_update (fun d hdc => ?_)
    ⟨(hm.handed w).mpr (.inl rfl), fun u hu => ?_⟩ trivial⟩
  · refine Iff.trans ?_ (hm.suspended d).symm
    rw [← h.mem d, List.mem_cons]
    constructor
    · exact fun hd => ⟨ne_of_mem_of_not_mem hd hnd, .inr hd⟩
    · exact fun hd => hd.2.resolve_left hd.1
  · refine (h.ok d).congr rfl (fun v _ hv => ⟨((hm.suspended v).mp hv).2, rfl⟩)
      (fun v _ hv => (hm.handed v).mpr (.inr hv)) (fun u v hv hu => ?_)
    rcases (hm.wake u v).mp hu with ⟨-, rfl⟩ | hu
    · exact absurd hv (hnone d)
    · exact hu
  · rcases (hm.wake u w).mp hu with ⟨huc, -⟩ | hu
    · exact huc
    · exact absurd hu (hnone u)

/-- Resuming the coroutine that was handed the lock. -/
theorem Stack.wake (h : Stack l s) (hc : s.pc c = .wake w) :
    Stack l ((s.setPc c .idle).setPc w .holding) := by
  obtain ⟨hwh, huniq⟩ := h.waking hc
  have hm : Resumes s.pc c w (update (update s.pc c .idle) w .holding) := resumes_setPc hc hwh
  refine ⟨h.chain, fun d => (h.mem d).trans (hm.suspended d).symm, h.zero,
    forall_update_update (fun d hdc => ?_) trivial trivial⟩
  refine (h.ok d).congr rfl (fun v _ hv => ⟨(hm.suspended v).mp hv, rfl⟩) (fun v hv hvh => ?_)
    (fun u v _ hu => ((hm.wake u v).mp hu).2)
  refine (hm.handed v).mpr ⟨?_, hvh⟩
  rintro rfl
  exact hdc (huniq d hv)

/-- Every step keeps the stack, if it pushes no node that an `unlock()` has read. -/
theorem Stack.step (h : Stack l s) (hfresh : ∀ c, o = some (.suspended c) → ∀ u, ¬ (s.pc u).Reads c)
    (hm : Move s a o s') : ∃ l', Stack l' s' := by
  cases hm with
  | move c p next node hold hnew _ hnext harr =>
    exact ⟨l, h.plain hold hnew hnext rfl h.zero (Current.arrives hnew harr)⟩
  | acquire hc hw =>
    exact ⟨l, h.plain hc trivial (fun _ _ => rfl) (by rw [hw]; rfl) (by rintro ⟨⟩) trivial⟩
  | push hc => exact ⟨_, h.push hc (hfresh _ rfl)⟩
  | release hc hp =>
    have hnew := h.link hc
    rw [unlockWord, hp] at hnew
    subst hnew
    exact ⟨l, h.plain (by rw [hc]; trivial) trivial (fun _ _ => rfl) hp.symm (fun _ => rfl) trivial⟩
  | handOff hc hp =>
    have hch := h.chain
    rw [hp] at hch
    obtain ⟨l', rfl, -⟩ := chain_some hch
    exact ⟨l', h.handOff hc hp⟩
  | wake hc => exact ⟨l, h.wake hc⟩

/-! ## … and the holders -/

/-- A coroutine that keeps what it holds moves on. -/
theorem Locked.move (h : Locked s) (hpc : s'.pc = update s.pc c p) (hword : s'.word = s.word)
    (hold : (s.pc c).Plain) (hnew : p.Plain) (hh : p.Holds ↔ (s.pc c).Holds)
    (hreads : ∀ w, p.Reads w → s.pc w = .suspended) : Locked s' := by
  have hholds : ∀ d, (s'.pc d).Holds → (s.pc d).Holds := by
    rw [hpc]
    exact forall_update (P := fun d p => Pc.Holds p → (s.pc d).Holds) (fun _ => id) hh.mp
  refine ⟨fun ht d hd => h.free (hword ▸ ht) d (hholds d hd),
    fun d e hd he => h.exclusive d e (hholds d hd) (hholds e he), fun u w hu => ?_⟩
  rw [hpc] at hu ⊢
  refine (setPc_eq_iff hold hnew id).mpr ?_
  rcases update_cases (Pc.Reads w) (eq_true hu) with ⟨-, hu⟩ | ⟨-, hu⟩
  · exact hreads w (of_eq_true hu)
  · exact h.reads u w (of_eq_true hu)

theorem Locked.step (h : Locked s) (hstack : Stack l s) (hgood : popsLast s a = false)
    (hm : Move s a o s') : Locked s' := by
  cases hm with
  | move c p next node hold hnew hh hnext harr =>
    refine h.move rfl rfl hold hnew hh fun w hw => ?_
    cases p with
    | unlockLoop old => exact hstack.head_suspended (harr ▸ hw)
    | unlockCas old new => exact h.reads c w (by rw [harr.1]; exact hw)
    | _ => exact hw.elim
  | @acquire _ c hc hw =>
    refine locked_of_only (c := c) rfl ?_ (by rw [setPc_self]; exact fun _ => id)
    exact forall_update_of_ne (P := fun d p => Pc.Holds p → d = c)
      (fun d _ hd => (h.free (by rw [hw]; rfl) d hd).elim) (fun _ => rfl)
  | @push c n hc =>
    have hm : Suspends s.pc c (update s.pc c .suspended) := suspends_setPc (by rw [hc]; trivial)
    have hsame : ∀ d, (update s.pc c .suspended d).Holds → update s.pc c .suspended d = s.pc d :=
      forall_update_of_ne (P := fun d p => Pc.Holds p → p = s.pc d) (fun _ _ _ => rfl) False.elim
    refine ⟨nofun, fun d e hd he => h.exclusive d e (hsame d hd ▸ hd) (hsame e he ▸ he), ?_⟩
    exact fun u w hu => (hm.suspended w).mpr (.inr (h.reads u w (hsame u hu.holds ▸ hu)))
  | @release c n new hc hp =>
    have hnone : ∀ d, ¬ (update s.pc c .idle d).Holds :=
      forall_update_of_ne (P := fun _ p => ¬ Pc.Holds p)
        (fun d hd hh => hd (h.exclusive d c hh (by rw [hc]; trivial))) id
    exact ⟨fun _ => hnone, fun d _ hd => (hnone d hd).elim, fun u w hu => (hnone u hu.holds).elim⟩
  | @handOff c w n new hc hp =>
    refine locked_of_only (c := w) ?_ ?_ (by rw [setPc_self]; exact fun _ => id)
    · -- others wait behind `w`
      show new.tag = true
      rw [popsLast, hc] at hgood
      rw [hstack.link hc, unlockWord, hp]
      dsimp only
      cases hn : s.next w with
      | none => simp [hp, hn] at hgood
      | some _ => rfl
    · exact forall_update_update (P := fun d p => Pc.Holds p → d = w)
        (fun d hdc hd => absurd (h.exclusive d c hd (by rw [hc]; trivial)) hdc) False.elim
        (fun _ => rfl)
  | @wake c w n spurious hc =>
    obtain ⟨hwh, -⟩ := hstack.waking hc
    have hm : Resumes s.pc c w (update (update s.pc c .idle) w .holding) := resumes_setPc hc hwh
    have hholds : ∀ d, (update (update s.pc c .idle) w .holding d).Holds → (s.pc d).Holds :=
      forall_update_update (P := fun d p => Pc.Holds p → (s.pc d).Holds)
        (fun _ _ h => h) False.elim (fun _ => by rw [hwh]; trivial)
    refine ⟨fun ht d hd => h.free ht d (hholds d hd),
      fun d e hd he => h.exclusive d e (hholds d hd) (hholds e he), fun u v hu => ?_⟩
    refine (hm.suspended v).mpr (h.reads u v ?_)
    revert u
    exact forall_update_update (P := fun d p => Pc.Reads v p → (s.pc d).Reads v)
      (fun _ _ h => h) False.elim False.elim

/-- While one coroutine holds the lock, no node is pushed that an `unlock()` has read. -/
theorem Locked.fresh (h : Locked s) (hm : Move s a o s') (ho : o = some (.suspended c)) (u : Coro) :
    ¬ (s.pc u).Reads c := by
  intro hu
  cases hm with
  | push hc =>
    cases ho
    cases hc.symm.trans (h.reads u _ hu)
  | _ => cases ho

/-- **Mutual exclusion without last-waiter hand-offs.**  In every run, of any number of
    coroutines and in any interleaving, in which no `unlock()` pops a waiter that has
    nobody behind it, at most one coroutine holds the lock in every state reached. -/
theorem mutual_exclusion_of_no_last_handoff {t : List (Coro × Resumption)} {s : State Coro}
    (h : Exec machine NoLastHandoff init t s) : Exclusive s := by
  have hinv : (∃ l, Stack l s) ∧ Locked s := by
    refine h.invariant (fun _ s => (∃ l, Stack l s) ∧ Locked s)
      ⟨⟨[], stack_init⟩, locked_init⟩ ?_
    rintro t s a s' ⟨⟨l, hstack⟩, hlocked⟩ hgood hs
    have hm := step_moves hs
    exact ⟨hstack.step (fun c ho => hlocked.fresh hm ho) hm, hlocked.step hstack hgood hm⟩
  exact hinv.2.exclusive

/-- The schedule in which coroutine `c` takes a free mutex. -/
def take (c : Coro) : List (Act Coro) := [.coLock c, .go c ⟨0, .null⟩ false]

/-- The schedule in which coroutine `c` finds the mutex held, pushes its node and
    suspends. -/
def enqueue (c : Coro) : List (Act Coro) :=
  [.coLock c, .go c ⟨0, .null⟩ false, .go c ⟨0, .null⟩ false, .go c ⟨0, .null⟩ false,
    .go c ⟨0, .null⟩ false]

/-- The schedule in which coroutine `c` unlocks and resumes the top waiter. -/
def handOver (c : Coro) : List (Act Coro) :=
  [.unlock c, .go c ⟨0, .null⟩ false, .go c ⟨0, .null⟩ false, .go c ⟨0, .null⟩ false,
    .go c ⟨0, .null⟩ false]

/-- Coroutine 0 holds the lock, 1 and 2 wait, and 0 hands the lock to 2: the run meets the
    condition, 2 holds the lock and is the only one. -/
theorem mutual_exclusion_three : ∃ (t : List (Nat × Resumption)) (s : State Nat),
      Exec machine NoLastHandoff init t s ∧ s.pc 2 = .holding ∧ Exclusive s := by
  have hrun : Exec machine NoLastHandoff init _ _ :=
    exec_run (take 0 ++ enqueue 1 ++ enqueue 2 ++ handOver 0)
  exact ⟨_, _, hrun, by decide, mutual_exclusion_of_no_last_handoff hrun⟩

/-- **Two holders.**  Coroutine 0 holds the lock and 1 waits alone.  0 unlocks: the word
    becomes 0 and 1 is handed the lock.  Now coroutine 2 takes the lock by its first
    compare-exchange, while 1 still holds it. -/
theorem two_holders : ∃ (t : List (Nat × Resumption)) (s : State Nat),
      Exec machine Always init t s ∧ s.pc 1 = .holding ∧ s.pc 2 = .holding ∧
        ¬ Exclusive s := by
  have hrun : Exec machine Always init _ _ :=
    exec_run (take 0 ++ enqueue 1 ++ handOver 0 ++ take 2)
  refine ⟨_, _, hrun, by decide, by decide, ?_⟩
  intro hex
  exact absurd (hex 1 2 (by decide) (by decide)) (by decide)

end AffinityMutex
