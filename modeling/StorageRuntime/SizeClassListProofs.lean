import StorageRuntime.CustodyProofs
import StorageRuntime.IntrusiveChainProofs
import StorageRuntime.WordArithmeticProofs

/-!
# SizeClassFreeList — a block that comes back while a `pop` is paused

`SizeClassFreeList` of `runtime/memory_pool.cc`: a stack of blocks linked through their
first word.  A step is one access to `head_`, `count_` or a block's `next`.  Threads push
any block that is not in the pool.

* **`blocks_returned_once`**: as long as every `pop` that exchanges `head_` still has the
  `next` of the block that it takes, each return of a block follows a push of its own, and
  every pushed block is on the list or in the hands of one call.
* **`paused_pop_doubles`**: the exchange compares the address only.  When the head was
  popped and pushed back over another block, a block that a thread holds is put on the list
  and returned again, and a pushed block drops off.
-/

namespace SizeClassList

open Function Interleaving IntrusiveChain BlockCustody WordArithmetic

variable {B Agent : Type}

/-- Where a thread is; `old` is what it read from `head_`. -/
inductive Pc (B : Type) where
  | idle
  /-- `push`: about to load `head_`. -/
  | pushLoad (node : B)
  /-- About to store `node->next`. -/
  | pushNext (node : B) (old : Option B)
  /-- About to exchange `head_`. -/
  | pushCas (node : B) (old : Option B)
  /-- About to increment `count_`. -/
  | pushCount
  /-- `pop`: about to load `head_`. -/
  | popLoad
  /-- About to load `old->next`. -/
  | popNext (old : B)
  /-- About to exchange `head_`. -/
  | popCas (old : B) (next : Option B)
  /-- About to decrement `count_` and to return `old`. -/
  | popCount (old : B)
deriving DecidableEq

structure State (B Agent : Type) where
  head : Option B
  count : Nat
  next : B → Option B
  pc : Agent → Pc B

def init : State B Agent := ⟨none, 0, fun _ => none, fun _ => .idle⟩

inductive Act (B Agent : Type) where
  | push (a : Agent) (ptr : B)
  | pop (a : Agent)
  /-- The next step of a thread; `spurious` makes a weak compare-exchange fail. -/
  | go (a : Agent) (spurious : Bool)

/-- The loop of `pop` goes on with `old`, or returns null. -/
def Pc.popLoop : Option B → Pc B
  | none => .idle
  | some old => .popNext old

/-- The blocks that a thread has in its hands. -/
def Pc.holds : Pc B → List B
  | .pushLoad b | .pushNext b _ | .pushCas b _ | .popCount b => [b]
  | _ => []

section Machine

variable [DecidableEq B] [DecidableEq Agent]

def State.setPc (s : State B Agent) (a : Agent) (p : Pc B) : State B Agent :=
  { s with pc := update s.pc a p }

def go (s : State B Agent) (a : Agent) (spurious : Bool) : Option (State B Agent) :=
  match s.pc a with
  | .idle => none
  | .pushLoad b => some (s.setPc a (.pushNext b s.head))
  | .pushNext b old => some ({ s with next := update s.next b old }.setPc a (.pushCas b old))
  | .pushCas b old =>
    if s.head = old ∧ spurious = false then some ({ s with head := some b }.setPc a .pushCount)
    else some (s.setPc a (.pushNext b s.head))
  | .pushCount => some ({ s with count := wadd s.count 1 }.setPc a .idle)
  | .popLoad => some (s.setPc a (.popLoop s.head))
  | .popNext old => some (s.setPc a (.popCas old (s.next old)))
  | .popCas old next =>
    if s.head = some old ∧ spurious = false then
      some ({ s with head := next }.setPc a (.popCount old))
    else some (s.setPc a (.popLoop s.head))
  | .popCount _ => some ({ s with count := wsub s.count 1 }.setPc a .idle)

def step (s : State B Agent) : Act B Agent → Option (State B Agent)
  | .push a ptr => if s.pc a = .idle then some (s.setPc a (.pushLoad ptr)) else none
  | .pop a => if s.pc a = .idle then some (s.setPc a .popLoad) else none
  | .go a spurious => go s a spurious

/-- The observer sees a `push` when it is called and a `pop` when it returns a block. -/
def event (s : State B Agent) : Act B Agent → Option (Event B)
  | .push _ ptr => some (.given ptr)
  | .pop _ => none
  | .go a _ =>
    match s.pc a with
    | .popCount old => some (.returned old)
    | _ => none

def machine : Machine (State B Agent) (Act B Agent) (Event B) := ⟨step, event⟩

/-- A thread pushes only a block that is not in the pool. -/
def Owned (t : List (Event B)) (_ : State B Agent) : Act B Agent → Prop
  | .push _ ptr => ¬ Inside ptr t
  | _ => True

instance (t : List (Event B)) (s : State B Agent) : ∀ act, Decidable (Owned t s act)
  | .push _ ptr => inferInstanceAs (Decidable (¬ Inside ptr t))
  | .pop _ | .go _ _ => inferInstanceAs (Decidable True)

/-- The block that the exchange of a `pop` takes, with the `next` that the `pop` has read. -/
def takes (s : State B Agent) : Act B Agent → Option (B × Option B)
  | .go a false =>
    match s.pc a with
    | .popCas old next => if s.head = some old then some (old, next) else none
    | _ => none
  | _ => none

/-- … and a `pop` takes a block only with the block's present `next`. -/
def Unchanged (t : List (Event B)) (s : State B Agent) (act : Act B Agent) : Prop :=
  Owned t s act ∧ ∀ r ∈ takes s act, s.next r.1 = r.2
deriving Decidable

/-! ## The invariant -/

/-- The list from `head_` on, and the custody of the blocks. -/
structure Inv (t : List (Event B)) (l : List B) (s : State B Agent) : Prop where
  chain : Chain s.next s.head l
  custody : Custody t l fun a => (s.pc a).holds
  linked : ∀ a b old, s.pc a = .pushCas b old → s.next b = old

variable {t t' : List (Event B)} {l l' : List B} {s s' : State B Agent} {a : Agent} {p : Pc B}

omit [DecidableEq B] in
/-- One thread moves: what it holds, and the list, may change. -/
theorem Inv.moves (h : Inv t l s) {head : Option B} {count : Nat} (hchain : Chain s.next head l')
    (hcustody : Custody t' l' (update (fun b => (s.pc b).holds) a p.holds))
    (hlink : ∀ b old, p ≠ .pushCas b old) :
    Inv t' l' ({ s with head := head, count := count }.setPc a p) :=
  ⟨hchain, custody_update hcustody,
    forall_update (P := fun _ p => ∀ b old, p = Pc.pushCas b old → s.next b = old) h.linked
      fun b old hp => absurd hp (hlink b old)⟩

omit [DecidableEq B] in
/-- A thread goes on with what it holds. -/
theorem Inv.stays (h : Inv t l s) {count : Nat} (hp : p.holds = (s.pc a).holds)
    (hlink : ∀ b old, p ≠ .pushCas b old) : Inv t l ({ s with count := count }.setPc a p) :=
  h.moves h.chain (h.custody.move (fun _ => by rw [hp]) (hp ▸ h.custody.apart a)) hlink

/-- A thread links the block in its hands. -/
theorem Inv.links (h : Inv t l s) {b : B} {old : Option B} (ha : (s.pc a).holds = [b]) :
    Inv t l ({ s with next := update s.next b old }.setPc a (.pushCas b old)) := by
  have hb : b ∈ (s.pc a).holds := by rw [ha]; exact List.mem_singleton_self b
  refine ⟨chain_congr (fun c hc => update_of_ne ?_ ..) h.chain, ?_, ?_⟩
  · rintro rfl
    exact h.custody.apart a c hb hc
  · exact custody_update (h.custody.move (fun _ => by rw [ha]; rfl)
      (fun c hc => h.custody.apart a c (ha ▸ hc)))
  · refine forall_update_of_ne
      (P := fun _ p => ∀ c o, p = Pc.pushCas c o → update s.next b old c = o)
      (fun i hi c o hp => ?_) (fun c o hp => ?_)
    · -- another thread that pushes has another block
      have hc : c ∈ (s.pc i).holds := by rw [hp]; exact List.mem_singleton_self c
      rw [update_of_ne fun hcb : c = b => hi (h.custody.alone i a b (hcb ▸ hc) hb)]
      exact h.linked i c o hp
    · cases hp
      exact update_self ..

theorem Inv.go (h : Inv t l s) {spurious : Bool}
    (hc : ∀ r ∈ takes s (.go a spurious), s.next r.1 = r.2) (hs : go s a spurious = some s') :
    ∃ l', Inv (note t (event s (.go a spurious))) l' s' := by
  simp only [SizeClassList.go, event] at hs ⊢
  have hloop : (s.pc a).holds = [] → Inv t l (s.setPc a (.popLoop s.head)) := fun hnil =>
    h.stays (hnil ▸ by cases s.head <;> rfl) (by cases s.head <;> nofun)
  cases hp : s.pc a <;> simp only [hp] at hs ⊢
  case idle => cases hs
  case pushLoad b | popNext old | pushCount =>
    cases hs
    exact ⟨l, h.stays (by rw [hp]; rfl) nofun⟩
  case popLoad =>
    cases hs
    exact ⟨l, hloop (by rw [hp]; rfl)⟩
  case pushNext b old =>
    cases hs
    exact ⟨l, h.links (by rw [hp]; rfl)⟩
  case pushCas b old =>
    have hb : (s.pc a).holds = [b] := by rw [hp]; rfl
    split at hs <;> cases hs
    case isTrue heq =>
      have hchain := chain_push h.chain ((h.linked a b old hp).trans heq.1.symm)
      refine ⟨b :: l, h.moves hchain (h.custody.move ?_ nofun) nofun⟩
      grind [Pc.holds]
    case isFalse => exact ⟨l, h.stays hb.symm nofun⟩
  case popCas old next =>
    have hnil : (s.pc a).holds = [] := by rw [hp]; rfl
    split at hs <;> cases hs
    case isFalse => exact ⟨l, hloop hnil⟩
    case isTrue heq =>
      -- the head is the block whose link was read, and the link is still the same
      have hnext : s.next old = next := hc (old, next) (by simp [takes, heq, hp])
      obtain ⟨l, rfl, hchain⟩ := chain_some (heq.1 ▸ h.chain)
      refine ⟨l, h.moves (hnext ▸ hchain) (h.custody.move ?_ ?_) nofun⟩
      · grind [Pc.holds]
      · simpa [Pc.holds] using (List.nodup_cons.mp (chain_nodup h.chain)).1
  case popCount old =>
    cases hs
    exact ⟨l, h.moves h.chain (h.custody.release (by rw [hp]; rfl)) nofun⟩

theorem exec_inv (h : Exec machine Unchanged init t s) : ∃ l, Inv t l s := by
  refine h.invariant (fun t s => ∃ l, Inv t l s)
    ⟨[], (chain_nil ..).mpr rfl, custody_nil, by rintro _ _ _ ⟨⟩⟩ ?_
  intro t s act s' ⟨l, hinv⟩ hc hs
  cases act with
  | push a ptr =>
    obtain ⟨hidle, ⟨⟩⟩ := Option.ite_none_right_eq_some.mp hs
    exact ⟨l, hinv.moves hinv.chain (hinv.custody.give hc.1 (by rw [hidle]; rfl)) nofun⟩
  | pop a =>
    obtain ⟨hidle, ⟨⟩⟩ := Option.ite_none_right_eq_some.mp hs
    exact ⟨l, hinv.stays (by rw [hidle]; rfl) nofun⟩
  | go a spurious => exact hinv.go hc.2 hs

/-! ## What the threads see -/

/-- **No block is returned twice for one push**, and none drops off the list, in the runs
    where each `pop` that succeeds has read the present link of the head. -/
theorem blocks_returned_once (h : Exec machine Unchanged init t s) :
    ReturnedOnce t ∧ ∃ l, Chain s.next s.head l ∧
      ∀ b, Inside b t → (b ∈ l ∧ ∀ a, b ∉ (s.pc a).holds) ∨ b ∉ l ∧ ∃! a, b ∈ (s.pc a).holds := by
  obtain ⟨l, hinv⟩ := exec_inv h
  refine ⟨hinv.custody.once, l, hinv.chain, fun b hb => ?_⟩
  rcases (hinv.custody.inside b).mp hb with hl | ⟨a, ha⟩
  · exact .inl ⟨hl, fun a ha => hinv.custody.apart a b ha hl⟩
  · exact .inr ⟨hinv.custody.apart a b ha, a, ha, fun i hi => hinv.custody.alone i a b hi ha⟩

end Machine

/-- A call of thread `a` without a spurious failure. -/
def call (act : Act Nat (Fin 2)) (a : Fin 2) (steps : Nat) : List (Act Nat (Fin 2)) :=
  act :: List.replicate steps (.go a false)

/-- Two threads pop at the same time: the exchange of the second fails, and it takes the other
    block.  Then block 7 is pushed and popped again. -/
theorem block_returned_again : ∃ t s, Exec machine Unchanged (init : State Nat (Fin 2)) t s ∧
    t.filter (fun e => e matches .returned _) = [.returned 7, .returned 8, .returned 7] ∧
    ReturnedOnce t := by
  have hexec : Exec machine Unchanged (init : State Nat (Fin 2)) _ _ := exec_run
    ([call (.push 0 8) 0 4, call (.push 0 7) 0 4, call (.pop 1) 1 2, call (.pop 0) 0 4,
      List.replicate 4 (.go 1 false), call (.push 0 7) 0 4, call (.pop 1) 1 4].flatten)
  exact ⟨_, _, hexec, by decide +kernel, (blocks_returned_once hexec).1⟩

/-- **A `pop` that pauses** before its exchange, with block 7 and its successor 8 in hand,
    while the other thread takes both and pushes 9 and then 7: the exchange succeeds and
    makes 8 the head.  Block 8 is returned again, and 9 is nowhere. -/
theorem paused_pop_doubles : ∃ t s, Exec machine Owned (init : State Nat (Fin 2)) t s ∧
    ¬ ReturnedOnce t ∧ Inside 9 t ∧ s.head = none ∧ ∀ a, s.pc a = .idle := by
  have hexec : Exec machine Owned (init : State Nat (Fin 2)) _ _ := exec_run
    ([call (.push 0 8) 0 4, call (.push 0 7) 0 4, call (.pop 1) 1 2, call (.pop 0) 0 4,
      call (.pop 0) 0 4, call (.push 0 9) 0 4, call (.push 0 7) 0 4,
      List.replicate 2 (.go 1 false), call (.pop 1) 1 4].flatten)
  exact ⟨_, _, hexec, by decide +kernel⟩

end SizeClassList
