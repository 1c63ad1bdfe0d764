import StorageRuntime.MpmcRingProofs

/-!
# MPMCRing — the invariant of the ring

The accepted objects, in the order of the producers' reservations, form a log;
every index of the four counters is a position in it.  The invariant says
which agent is responsible for which positions:

* producers' pieces tile `[prod.tail, prod.head)`, consumers' pieces tile
  `[cons.tail, cons.head)` (`Tiling`);
* what an agent read earlier still bounds what it may do (`Pc.Stale`): an old
  `cons_.tail` only understates the free entries, and a compare-exchange
  succeeds only on the current `head`;
* a producer's written prefix and the published part of the ring hold the
  log's objects (`Written`).

One lemma for each kind of step (`Inv.move`, `Inv.reserve`, `Inv.write`,
`Inv.publish`, `Inv.take`, `Inv.hand`) shows that it is kept, and
**`inv_exec`** that it holds after every run.
-/

namespace MpmcRing

open Function Interleaving Reservation WordArithmetic

variable {T Agent : Type}

/-! ## What a trace says -/

/-- The accepted objects, in the order of the producers' reservations. -/
def accepted : List (Event T Agent) → List T
  | [] => []
  | .reserved _ xs :: t => accepted t ++ xs
  | _ :: t => accepted t

theorem accepted_prefix_note (t : List (Event T Agent)) (o : Option (Event T Agent)) :
    accepted t <+: accepted (note t o) := by
  cases o with
  | none => exact List.prefix_rfl
  | some e =>
    cases e with
    | reserved a xs => exact List.prefix_append _ xs
    | _ => exact List.prefix_rfl

/-- The number of accepted objects only grows. -/
theorem accepted_length_record (M : Machine (State T Agent) (Act T Agent) (Event T Agent))
    (s : State T Agent) (act : Act T Agent) (t : List (Event T Agent)) :
    (accepted t).length ≤ (accepted (M.record s act t)).length := by
  exact (accepted_prefix_note t _).length_le

/-- The positions that consumers reserved, in the order of their reservations. -/
def takenIndices : List (Event T Agent) → List Nat
  | [] => []
  | .taken _ h n :: t => takenIndices t ++ List.range' h n
  | _ :: t => takenIndices t

/-- The positions of the objects that calls returned, in the order of the returns. -/
def handedIndices : List (Event T Agent) → List Nat
  | [] => []
  | .handed _ h objs :: t => handedIndices t ++ List.range' h objs.length
  | _ :: t => handedIndices t

/-! ## Reading a program counter -/

/-- The positions a producer has reserved and not yet published. -/
def Pc.prodClaim : Pc T → Option (Nat × Nat)
  | .enqueueCopy xs head _ | .enqueueWait xs head | .enqueueStore xs head =>
    some (head, head + xs.length)
  | _ => none

/-- The positions a consumer has reserved and not yet given up. -/
def Pc.consClaim : Pc T → Option (Nat × Nat)
  | .dequeueCopy true n head _ => some (head, head + n)
  | .dequeueWait head objs | .dequeueStore head objs | .singleTail head objs =>
    some (head, head + objs.length)
  | _ => none

/-- The objects of the log that an agent has in hand, with their position. -/
def Pc.holds : Pc T → Option (Nat × List T)
  | .enqueueCopy xs head _ | .enqueueWait xs head | .enqueueStore xs head => some (head, xs)
  | .dequeueCopy _ _ head objs | .dequeueWait head objs | .dequeueStore head objs
  | .singleHead head objs | .singleTail head objs => some (head, objs)
  | _ => none

/-- The objects a producer has already written. -/
def Pc.wrote : Pc T → Option (Nat × List T)
  | .enqueueCopy xs head i => some (head, xs.take i)
  | .enqueueWait xs head | .enqueueStore xs head => some (head, xs)
  | _ => none

/-- The kind of dequeue the agent is in (`true` for `dequeue_bulk_mc`). -/
def Pc.consumer : Pc T → Option Bool
  | .dequeueHead mc _ | .dequeueTail mc _ _ | .dequeueCopy mc _ _ _ => some mc
  | .dequeueCas _ _ | .dequeueWait _ _ | .dequeueStore _ _ => some true
  | .singleHead _ _ | .singleTail _ _ => some false
  | _ => none

/-- What earlier reads still say about the counters: facts that survive as the counters
    grow. -/
def Pc.Stale (cap : Nat) (s : State T Agent) : Pc T → Prop
  | .enqueueTail _ head => head ≤ s.prodHead
  | .enqueueCas xs head => head ≤ s.prodHead ∧ head + xs.length ≤ s.consTail + cap ∧ xs ≠ []
  | .enqueueCopy xs _ i => i ≤ xs.length
  | .dequeueTail _ _ head => head ≤ s.consHead
  | .dequeueCas n head => head ≤ s.consHead ∧ head + n ≤ s.prodTail ∧ 0 < n
  | .dequeueCopy _ n head objs => objs.length ≤ n ∧ head + n ≤ s.prodTail ∧ 0 < n
  | .singleHead head objs => head + objs.length ≤ s.prodTail ∧ objs ≠ []
  | _ => True

/-- What is still exactly as the agent read it, because only that agent may change it. -/
def Pc.Pinned (s : State T Agent) : Pc T → Prop
  | .enqueueStore _ head => s.prodTail = head
  | .dequeueStore head _ | .singleTail head _ => s.consTail = head
  | .dequeueTail false _ head | .dequeueCopy false _ head _ | .singleHead head _ =>
    s.consHead = head
  | _ => True

/-- The ring holds `xs` from position `h` on. -/
def Written (cap : Nat) (ring : Nat → T) (h : Nat) (xs : List T) : Prop :=
  ∀ j x, xs[j]? = some x → ring ((h + j) % cap) = x

/-- What is known about one agent. -/
structure Local (cap : Nat) (mode : Mode Agent) (log : List T) (s : State T Agent)
    (a : Agent) (p : Pc T) : Prop where
  stale : p.Stale cap s
  pinned : p.Pinned s
  holds : ∀ h xs, p.holds = some (h, xs) → Segment log h xs
  wrote : ∀ h xs, p.wrote = some (h, xs) → Written cap s.ring h xs
  allowed : ∀ mc, p.consumer = some mc → mode.Allows a mc

/-- What the trace says about the counters and the consumers. -/
structure History (t : List (Event T Agent)) (s : State T Agent) : Prop where
  taken : takenIndices t = List.range s.consHead
  handed : handedIndices t = List.range s.consTail
  -- a call returns the objects of the positions that it reserved
  objs : ∀ a h objs, Event.handed a h objs ∈ t →
    Segment (accepted t) h objs ∧ Event.taken a h objs.length ∈ t
  claims : ∀ a h n, (s.pc a).consClaim = some (h, h + n) → Event.taken a h n ∈ t

/-- **The invariant.** -/
structure Inv (cap : Nat) (mode : Mode Agent) (t : List (Event T Agent))
    (s : State T Agent) : Prop where
  head : s.prodHead = (accepted t).length
  room : s.prodHead ≤ s.consTail + cap
  order : s.consHead ≤ s.prodTail
  prod : Tiling s.prodTail s.prodHead (fun a => (s.pc a).prodClaim)
  cons : Tiling s.consTail s.consHead (fun a => (s.pc a).consClaim)
  data : ∀ i x, s.consTail ≤ i → i < s.prodTail → (accepted t)[i]? = some x →
    s.ring (i % cap) = x
  agents : ∀ a, Local cap mode (accepted t) s a (s.pc a)
  past : History t s

/-! ## Frame lemmas -/

/-- The counters only grow. -/
structure Grows (s s' : State T Agent) : Prop where
  prodHead : s.prodHead ≤ s'.prodHead
  prodTail : s.prodTail ≤ s'.prodTail
  consHead : s.consHead ≤ s'.consHead
  consTail : s.consTail ≤ s'.consTail

variable {p : Pc T} {s s' : State T Agent}

theorem Pc.Stale.frame {cap : Nat} (h : p.Stale cap s) (hg : Grows s s') : p.Stale cap s' := by
  obtain ⟨h₁, h₂, h₃, h₄⟩ := hg
  cases p with
  | enqueueTail xs head => exact Nat.le_trans h h₁
  | enqueueCas xs head => exact ⟨Nat.le_trans h.1 h₁, by have := h.2.1; omega, h.2.2⟩
  | dequeueTail mc n head => exact Nat.le_trans h h₃
  | dequeueCas n head => exact ⟨Nat.le_trans h.1 h₃, Nat.le_trans h.2.1 h₂, h.2.2⟩
  | dequeueCopy mc n head objs => exact ⟨h.1, Nat.le_trans h.2.1 h₂, h.2.2⟩
  | singleHead head objs => exact ⟨Nat.le_trans h.1 h₂, h.2⟩
  | _ => exact h

/-- A pin holds as long as the counter stays, or is moved by the agent that holds the
    first piece or the right to dequeue. -/
theorem Pc.Pinned.frame (h : p.Pinned s)
    (hpt : s'.prodTail = s.prodTail ∨ ∀ e, p.prodClaim ≠ some (s.prodTail, e))
    (hct : s'.consTail = s.consTail ∨ ∀ e, p.consClaim ≠ some (s.consTail, e))
    (hch : s'.consHead = s.consHead ∨ p.consumer ≠ some false) : p.Pinned s' := by
  cases p with
  | enqueueStore xs head =>
    obtain rfl : s.prodTail = head := h
    exact hpt.resolve_right (fun hne => hne _ rfl)
  | dequeueStore head objs | singleTail head objs =>
    obtain rfl : s.consTail = head := h
    exact hct.resolve_right (fun hne => hne _ rfl)
  | singleHead head objs => exact (hch.resolve_right (fun hne => hne rfl)).trans h
  | dequeueTail mc n head | dequeueCopy mc n head objs =>
    cases mc with
    | true => trivial
    | false => exact (hch.resolve_right (fun hne => hne rfl)).trans h
  | _ => trivial

/-- What is known about an agent survives the steps of the others. -/
theorem Local.frame {cap : Nat} {mode : Mode Agent} {log log' : List T} {a : Agent}
    (h : Local cap mode log s a p) (hlog : log <+: log') (hg : Grows s s')
    (hpin : p.Pinned s → p.Pinned s')
    (hring : ∀ h xs, p.wrote = some (h, xs) → Written cap s.ring h xs →
      Written cap s'.ring h xs) : Local cap mode log' s' a p where
  stale := h.stale.frame hg
  pinned := hpin h.pinned
  holds i xs hp := (h.holds i xs hp).mono hlog
  wrote i xs hp := hring i xs hp (h.wrote i xs hp)
  allowed := h.allowed

/-- Nothing needs to be known about an agent outside the ring. -/
theorem local_idle (cap : Nat) (mode : Mode Agent) (log : List T) (s : State T Agent)
    (a : Agent) : Local cap mode log s a .idle where
  stale := trivial
  pinned := trivial
  holds _ _ h := nomatch h
  wrote _ _ h := nomatch h
  allowed _ h := nomatch h

theorem inv_init [Inhabited T] (cap : Nat) (mode : Mode Agent) :
    Inv cap mode [] (init : State T Agent) where
  head := rfl
  room := Nat.zero_le _
  order := Nat.le_refl 0
  prod := Tiling.empty 0
  cons := Tiling.empty 0
  data _ _ _ hi := absurd hi (Nat.not_lt_zero _)
  agents a := local_idle cap mode [] init a
  past := ⟨rfl, rfl, nofun, nofun⟩

/-- A trace that gained only events that say nothing about the objects. -/
structure SameLog (t t' : List (Event T Agent)) : Prop where
  accepted : accepted t' = accepted t
  taken : takenIndices t' = takenIndices t
  handed : handedIndices t' = handedIndices t
  grows : ∀ e ∈ t, e ∈ t'
  objs : ∀ a h objs, Event.handed a h objs ∈ t' → Event.handed a h objs ∈ t

theorem sameLog_refl (t : List (Event T Agent)) : SameLog t t :=
  ⟨rfl, rfl, rfl, fun _ h => h, fun _ _ _ h => h⟩

/-- A step that shows nothing, or only that a call returned without objects: a dequeue does
    so when nothing is published. -/
def Silent (s : State T Agent) : Option (Event T Agent) → Prop
  | none | some (.counted _ _) => True
  | some (.enqueued _ n) => n = 0
  | some (.missed _ n) => n = 0 ∨ s.consHead = s.prodTail
  | some _ => False

theorem Silent.sameLog {o : Option (Event T Agent)} (h : Silent s o) (t : List (Event T Agent)) :
    SameLog t (note t o) := by
  cases o with
  | none => exact sameLog_refl t
  | some e =>
    cases e with
    | enqueued a n | missed a n | counted a n =>
      exact ⟨rfl, rfl, rfl, fun _ h => List.mem_cons_of_mem _ h, by simp [note]⟩
    | reserved a xs | taken a h n | handed a h objs => exact h.elim

theorem History.same {t t' : List (Event T Agent)} (h : History t s) (same : SameLog t t')
    (hch : s'.consHead = s.consHead) (hct : s'.consTail = s.consTail)
    (hclaims : ∀ a, (s'.pc a).consClaim = (s.pc a).consClaim) : History t' s' where
  taken := by rw [same.taken, hch]; exact h.taken
  handed := by rw [same.handed, hct]; exact h.handed
  objs a i xs hx := by
    obtain ⟨hseg, htaken⟩ := h.objs a i xs (same.objs a i xs hx)
    rw [same.accepted]
    exact ⟨hseg, same.grows _ htaken⟩
  claims a i n hc := same.grows _ (h.claims a i n (by rw [← hclaims]; exact hc))

theorem range_append (m n : Nat) : List.range m ++ List.range' m n = List.range (m + n) := by
  rw [List.range_eq_range', List.range_eq_range', ← List.range'_append_1, Nat.zero_add]

/-! ## What the invariant says about positions -/

section Positions

variable {cap : Nat} {mode : Mode Agent} {t : List (Event T Agent)} {s : State T Agent} {a : Agent}

/-- What a producer has written lies in the piece that it holds. -/
theorem wrote_within {q : Pc T} {h : Nat} {ys : List T} (hq : q.wrote = some (h, ys)) :
    ∃ e, q.prodClaim = some (h, e) ∧ h + ys.length ≤ e := by
  cases q with
  | enqueueCopy xs head i =>
    obtain ⟨rfl, rfl⟩ := Prod.mk.inj (Option.some.inj hq)
    exact ⟨head + xs.length, rfl, Nat.add_le_add_left (List.length_take_le' ..) _⟩
  | enqueueWait xs head | enqueueStore xs head =>
    cases hq
    exact ⟨_, rfl, Nat.le_refl _⟩
  | _ => cases hq

/-- The positions from `cons.tail` to `prod.head` are in different slots. -/
theorem Inv.slot_ne (h : Inv cap mode t s) {i j : Nat} (hi : s.consTail ≤ i)
    (hj : s.consTail ≤ j) (hi' : i < s.prodHead) (hj' : j < s.prodHead) (hij : i ≠ j) :
    i % cap ≠ j % cap := by
  have := h.room
  exact mod_ne_of_window ⟨hi, by omega⟩ ⟨hj, by omega⟩ hij

/-- Only one agent dequeues when the dequeues are `dequeue_bulk`, and none of the others
    ever makes such a call. -/
theorem Inv.others_not_single (h : Inv cap mode t s) {mc : Bool}
    (ha : (s.pc a).consumer = some mc) : ∀ b, b ≠ a → (s.pc b).consumer ≠ some false := by
  intro b hba hb
  have hma := (h.agents a).allowed mc ha
  have hmb := (h.agents b).allowed false hb
  cases mode with
  | multi => cases hmb
  | single c => exact hba (hmb.1.trans hma.1.symm)

/-- While the single consumer holds no piece, nobody does. -/
theorem Inv.single_tail_eq_head (h : Inv cap mode t s) (ha : (s.pc a).consumer = some false)
    (hnone : (s.pc a).consClaim = none) : s.consTail = s.consHead := by
  refine h.cons.eq_of_none fun b => ?_
  rcases eq_or_ne b a with rfl | hba
  · exact hnone
  · have hma := (h.agents a).allowed false ha
    have hmb := (h.agents b).allowed
    cases mode with
    | multi => cases hma
    | single c =>
      cases hc : (s.pc b).consClaim with
      | none => rfl
      | some piece =>
        exfalso
        obtain ⟨mc, hmc⟩ : ∃ mc, (s.pc b).consumer = some mc := by
          revert hc
          cases s.pc b <;> simp [Pc.consClaim, Pc.consumer]
        exact hba ((hmb mc hmc).1.trans hma.1.symm)

/-- The counters are in order and below the bound. -/
theorem Inv.ordered (h : Inv cap mode t s) (hlen : (accepted t).length < 2 ^ 63) :
    s.consTail ≤ s.consHead ∧ s.consHead ≤ s.prodTail ∧ s.prodTail ≤ s.prodHead ∧
      s.prodHead < 2 ^ 63 :=
  ⟨h.cons.le, h.order, h.prod.le, by rw [h.head]; exact hlen⟩

/-- A consumer copies from positions that are not given up yet. -/
theorem Inv.reader_after_tail (h : Inv cap mode t s) {mc : Bool} {n head : Nat}
    {objs : List T} (hp : s.pc a = .dequeueCopy mc n head objs) : s.consTail ≤ head := by
  cases mc with
  | true =>
    have hclaim : (s.pc a).consClaim = some (head, head + n) := by rw [hp]; rfl
    exact (h.cons.within a head (head + n) hclaim).1
  | false =>
    have hpin := (h.agents a).pinned
    rw [hp] at hpin
    obtain rfl : s.consHead = head := hpin
    exact h.cons.le

/-- The slot computed by the code is the position modulo the capacity. -/
theorem slot_eq {k i : Nat} (hcap : cap = 2 ^ k) : slot cap i = i % cap := by
  rw [slot, hcap]
  exact Nat.and_two_pow_sub_one_eq_mod i k

/-- The slot of a position whose index is kept as a word. -/
theorem slot_mod {k : Nat} (hcap : cap = 2 ^ k) (hk : k ≤ 64) (i : Nat) :
    slot cap (i % wordSize) = i % cap := by
  rw [slot_eq hcap]
  exact Nat.mod_mod_of_dvd i (hcap ▸ Nat.pow_dvd_pow 2 hk)

end Positions

/-! ## Changing one agent -/

section Steps

variable [DecidableEq Agent] {cap : Nat} {mode : Mode Agent} {t t' : List (Event T Agent)}
  {s s' : State T Agent} {a : Agent} {p : Pc T}

/-- The pieces after one program counter changed. -/
theorem tiling_setPc {f : Pc T → Option (Nat × Nat)} {lo hi : Nat}
    (h : Tiling lo hi (update (fun b => f (s.pc b)) a (f p))) :
    Tiling lo hi fun b => f ((s.setPc a p).pc b) :=
  (congrArg (Tiling lo hi) (comp_update f s.pc a p)).mpr h

/-- An agent that reads the same under `f` changes nothing. -/
theorem comp_setPc_eq {β : Type} (f : Pc T → β) (hp : f p = f (s.pc a)) :
    (fun b => f ((s.setPc a p).pc b)) = fun b => f (s.pc b) :=
  (comp_update f s.pc a p).trans (hp ▸ update_eq_self ..)

theorem Local.setPc {log : List T} {b : Agent} {q : Pc T} (h : Local cap mode log s b q) :
    Local cap mode log (s.setPc a p) b q := { h with }

theorem locals_setPc {log : List T} (hothers : ∀ b ≠ a, Local cap mode log s b (s.pc b))
    (hself : Local cap mode log s a p) :
    ∀ b, Local cap mode log (s.setPc a p) b ((s.setPc a p).pc b) :=
  forall_update_of_ne (P := fun b q => Local cap mode log (s.setPc a p) b q)
    (fun b hb => (hothers b hb).setPc) hself.setPc

/-! ## What a step of an agent does -/

/-- The steps of agent `a` in a state that satisfies the invariant: the state then, what is
    observed, and what the later proofs need to know about the step. -/
inductive GoMove (cap : Nat) (mode : Mode Agent) (t : List (Event T Agent))
    (s : State T Agent) (a : Agent) : State T Agent → Option (Event T Agent) → Prop where
  | stay : GoMove cap mode t s a s none
  /-- The agent moves on and keeps its pieces. -/
  | move {p : Pc T} {o : Option (Event T Agent)} : Silent s o →
      p.prodClaim = (s.pc a).prodClaim → p.consClaim = (s.pc a).consClaim →
      Local cap mode (accepted t) s a p → GoMove cap mode t s a (s.setPc a p) o
  /-- A producer's compare-exchange succeeds. -/
  | reserve {xs : List T} : s.pc a = .enqueueCas xs s.prodHead →
      GoMove cap mode t s a
        ({ s with prodHead := s.prodHead + xs.length }.setPc a (.enqueueCopy xs s.prodHead 0))
        (some (.reserved a xs))
  /-- A producer writes one slot of its piece. -/
  | write {xs : List T} {head i : Nat} {x : T} : s.pc a = .enqueueCopy xs head i →
      xs[i]? = some x →
      GoMove cap mode t s a ({ s with ring := update s.ring ((head + i) % cap) x }.setPc a
          (.enqueueCopy xs head (i + 1))) none
  /-- A producer publishes its piece. -/
  | publish {xs : List T} : s.pc a = .enqueueStore xs s.prodTail →
      GoMove cap mode t s a ({ s with prodTail := s.prodTail + xs.length }.setPc a .idle)
        (some (.enqueued a xs.length))
  /-- A consumer reserves the positions from `cons.head` on. -/
  | take {p : Pc T} {n : Nat} : 0 < n → s.consHead + n ≤ s.prodTail →
      (s.pc a).consClaim = none → p.prodClaim = (s.pc a).prodClaim →
      p.consClaim = some (s.consHead, s.consHead + n) →
      (∀ b, b ≠ a → (s.pc b).consumer ≠ some false) →
      Local cap mode (accepted t) ({ s with consHead := s.consHead + n }) a p →
      GoMove cap mode t s a ({ s with consHead := s.consHead + n }.setPc a p)
        (some (.taken a s.consHead n))
  /-- A consumer gives up the first piece and returns its objects. -/
  | hand {objs : List T} : (s.pc a).prodClaim = none →
      (s.pc a).consClaim = some (s.consTail, s.consTail + objs.length) →
      Segment (accepted t) s.consTail objs →
      GoMove cap mode t s a ({ s with consTail := s.consTail + objs.length }.setPc a .idle)
        (some (.handed a s.consTail objs))

/-- An agent at `q` moves on and keeps its pieces. -/
theorem GoMove.moved {q : Pc T} {o : Option (Event T Agent)} (hp : s.pc a = q) (ho : Silent s o)
    (hprod : p.prodClaim = q.prodClaim) (hcons : p.consClaim = q.consClaim)
    (hl : Local cap mode (accepted t) s a p) : GoMove cap mode t s a (s.setPc a p) o := by
  subst hp
  exact .move ho hprod hcons hl

variable {head n k : Nat} {xs : List T}

/-- `enqueue_bulk` computes the free entries and shrinks its batch. -/
theorem Inv.go_enqueueTail (h : Inv cap mode t s) (hlen : (accepted t).length < 2 ^ 63)
    (hcap : cap ≤ 2 ^ 63) (hp : s.pc a = .enqueueTail xs head) (spurious : Bool) :
    GoMove cap mode t s a (s.go cap a spurious).1 (s.go cap a spurious).2 := by
  obtain ⟨h₁, h₂, h₃, h₄⟩ := h.ordered hlen
  have hw : wordSize = 2 ^ 64 := rfl
  have hroom := h.room
  have hl := h.agents a
  rw [hp] at hl
  have hstale : head ≤ s.prodHead := hl.stale
  have hfree : wsub (wadd cap s.consTail) head = cap + s.consTail - head := by
    rw [wadd_eq (by omega), wsub_eq (by omega) (by omega)]
  simp only [State.go, hp, hfree]
  split
  next => exact .moved hp rfl rfl rfl (local_idle ..)
  next hne =>
    refine .moved hp trivial rfl rfl ⟨⟨hstale, ?_, ?_⟩, trivial, nofun, nofun, nofun⟩
    · rw [List.length_take]
      omega
    · exact fun hnil => hne (by rw [hnil]; rfl)

/-- A dequeue computes the entries and shrinks its batch. -/
theorem Inv.go_dequeueTail (h : Inv cap mode t s) (hlen : (accepted t).length < 2 ^ 63) {mc : Bool}
    (hp : s.pc a = .dequeueTail mc n head) (spurious : Bool) :
    GoMove cap mode t s a (s.go cap a spurious).1 (s.go cap a spurious).2 := by
  obtain ⟨h₁, h₂, h₃, h₄⟩ := h.ordered hlen
  have hw : wordSize = 2 ^ 64 := rfl
  have hl := h.agents a
  rw [hp] at hl
  have hstale : head ≤ s.consHead := hl.stale
  have hent : wsub s.prodTail head = s.prodTail - head :=
    wsub_eq (by omega) (by omega)
  simp only [State.go, hp, hent]
  split
  next hzero =>
    have hnothing : n = 0 ∨ s.consHead = s.prodTail := by omega
    exact .moved hp hnothing rfl rfl (local_idle ..)
  next hne =>
    have hmin : head + min n (s.prodTail - head) ≤ s.prodTail := by omega
    cases mc with
    | true =>
      exact .moved hp trivial rfl rfl
        ⟨⟨hstale, hmin, Nat.pos_of_ne_zero hne⟩, trivial, nofun, nofun, hl.allowed⟩
    | false =>
      refine .moved hp trivial rfl rfl
        ⟨⟨Nat.zero_le _, hmin, Nat.pos_of_ne_zero hne⟩, hl.pinned, ?_, nofun, hl.allowed⟩
      intro i ys hys
      cases hys
      exact segment_nil _ _

/-- A consumer reads one slot of its piece, or leaves the copy loop. -/
theorem Inv.go_dequeueCopy (h : Inv cap mode t s) (hlen : (accepted t).length < 2 ^ 63)
    (hcap : cap = 2 ^ k) {mc : Bool} {objs : List T} (hp : s.pc a = .dequeueCopy mc n head objs)
    (spurious : Bool) : GoMove cap mode t s a (s.go cap a spurious).1 (s.go cap a spurious).2 := by
  obtain ⟨h₁, h₂, h₃, h₄⟩ := h.ordered hlen
  have hw : wordSize = 2 ^ 64 := rfl
  have hl := h.agents a
  rw [hp] at hl
  obtain ⟨hle, hent, hpos⟩ : objs.length ≤ n ∧ head + n ≤ s.prodTail ∧ 0 < n := hl.stale
  have hseg : Segment (accepted t) head objs := hl.holds head objs rfl
  have htail := h.reader_after_tail hp
  simp only [State.go, hp]
  split
  next hlt =>
    -- the slot holds the next object of the log
    have hslot : slot cap (wadd head objs.length) = (head + objs.length) % cap := by
      rw [wadd_eq (by omega), slot_eq hcap]
    have hi : head + objs.length < (accepted t).length := by
      rw [← h.head]
      omega
    have hnext := List.getElem?_eq_getElem hi
    have hread := h.data _ _ (by omega) (by omega) hnext
    rw [hslot, hread]
    refine .moved hp trivial rfl ?_ ⟨⟨?_, hent, hpos⟩, ?_, ?_, nofun, hl.allowed⟩
    · cases mc <;> rfl
    · rw [List.length_append]
      exact hlt
    · have := hl.pinned
      cases mc <;> exact this
    · intro i ys hys
      cases hys
      exact hseg.snoc hnext
  next hge =>
    obtain rfl : objs.length = n := by omega
    cases mc with
    | true =>
      exact .moved hp trivial rfl rfl ⟨trivial, trivial, hl.holds, nofun, hl.allowed⟩
    | false =>
      exact .moved hp trivial rfl rfl
        ⟨⟨hent, List.length_pos_iff.mp hpos⟩, hl.pinned, hl.holds, nofun, hl.allowed⟩

/-- Every step of an agent inside a call is one of those. -/
theorem Inv.go_moves (h : Inv cap mode t s) (hk : k ≤ 63) (hcap : cap = 2 ^ k) (a : Agent)
    (spurious : Bool) (hold : (accepted t).length < 2 ^ 63)
    (hnew : (accepted (note t (s.go cap a spurious).2)).length < 2 ^ 63) :
    GoMove cap mode t s a (s.go cap a spurious).1 (s.go cap a spurious).2 := by
  obtain ⟨h₁, h₂, h₃, h₄⟩ := h.ordered hold
  have hw : wordSize = 2 ^ 64 := rfl
  have hcap' : cap ≤ 2 ^ 63 := by
    rw [hcap]
    exact Nat.pow_le_pow_right (by decide) hk
  have hl := h.agents a
  simp only [State.go] at hnew ⊢
  generalize hp : s.pc a = p at hl hnew ⊢
  cases p with
  | idle => exact .stay
  | enqueueTail xs head => simpa only [State.go, hp] using h.go_enqueueTail hold hcap' hp spurious
  | dequeueTail mc n head => simpa only [State.go, hp] using h.go_dequeueTail hold hp spurious
  | dequeueCopy mc n head objs =>
    simpa only [State.go, hp] using h.go_dequeueCopy hold hcap hp spurious
  | enqueueHead xs =>
    exact .moved hp trivial rfl rfl ⟨Nat.le_refl _, trivial, nofun, nofun, nofun⟩
  | enqueueCas xs head =>
    dsimp only at hnew ⊢
    split
    next hc =>
      obtain ⟨rfl, hsp⟩ := hc
      rw [if_pos ⟨rfl, hsp⟩] at hnew
      have hsum : s.prodHead + xs.length < 2 ^ 63 := by
        rw [h.head, ← List.length_append]
        exact hnew
      rw [wadd_eq (by omega)]
      exact .reserve hp
    next =>
      exact .moved hp trivial rfl rfl ⟨trivial, trivial, nofun, nofun, nofun⟩
  | enqueueCopy xs head i =>
    dsimp only
    split
    next x hx =>
      obtain ⟨hi, -⟩ := List.getElem?_eq_some_iff.mp hx
      have hclaim : (s.pc a).prodClaim = some (head, head + xs.length) := by rw [hp]; rfl
      have hwithin := h.prod.within a _ _ hclaim
      rw [wadd_eq (by omega), slot_eq hcap]
      exact .write hp hx
    next hx =>
      have hall : xs.take i = xs := List.take_of_length_le (List.getElem?_eq_none_iff.mp hx)
      refine .moved hp trivial rfl rfl ⟨trivial, trivial, hl.holds, ?_, nofun⟩
      intro j ys hys
      exact hl.wrote j ys (by rw [← hys]; exact congrArg (fun l => some (head, l)) hall)
  | enqueueWait xs head =>
    dsimp only
    split
    next heq =>
      exact .moved hp trivial rfl rfl ⟨trivial, heq, hl.holds, hl.wrote, nofun⟩
    next => exact .stay
  | enqueueStore xs head =>
    obtain rfl : s.prodTail = head := hl.pinned
    have hclaim : (s.pc a).prodClaim = some (s.prodTail, s.prodTail + xs.length) := by
      rw [hp]; rfl
    have hwithin := h.prod.within a _ _ hclaim
    dsimp only
    rw [wadd_eq (by omega)]
    exact .publish hp
  | dequeueHead mc n =>
    refine .moved hp trivial rfl rfl ⟨Nat.le_refl _, ?_, nofun, nofun, hl.allowed⟩
    cases mc with
    | true => trivial
    | false => rfl
  | dequeueCas n head =>
    obtain ⟨-, hent, hpos⟩ : head ≤ s.consHead ∧ head + n ≤ s.prodTail ∧ 0 < n := hl.stale
    dsimp only
    split
    next hc =>
      obtain ⟨rfl, -⟩ := hc
      rw [wadd_eq (by omega)]
      refine .take hpos hent (by rw [hp]; rfl) (by rw [hp]; rfl) rfl
        (h.others_not_single (a := a) (by rw [hp]; rfl))
        ⟨⟨Nat.zero_le _, hent, hpos⟩, trivial, ?_, nofun, hl.allowed⟩
      intro i ys hys
      cases hys
      exact segment_nil _ _
    next =>
      exact .moved hp trivial rfl rfl ⟨trivial, trivial, nofun, nofun, hl.allowed⟩
  | dequeueWait head objs =>
    dsimp only
    split
    next heq =>
      exact .moved hp trivial rfl rfl ⟨trivial, heq, hl.holds, nofun, hl.allowed⟩
    next => exact .stay
  | dequeueStore head objs | singleTail head objs =>
    obtain rfl : s.consTail = head := hl.pinned
    have hclaim : (s.pc a).consClaim = some (s.consTail, s.consTail + objs.length) := by
      rw [hp]; rfl
    have hwithin := h.cons.within a _ _ hclaim
    dsimp only
    rw [wadd_eq (by omega)]
    exact .hand (by rw [hp]; rfl) hclaim (hl.holds _ _ rfl)
  | singleHead head objs =>
    obtain rfl : s.consHead = head := hl.pinned
    obtain ⟨hent, hne⟩ : s.consHead + objs.length ≤ s.prodTail ∧ objs ≠ [] := hl.stale
    have htail : s.consTail = s.consHead :=
      h.single_tail_eq_head (a := a) (by rw [hp]; rfl) (by rw [hp]; rfl)
    dsimp only
    rw [wadd_eq (by omega)]
    exact .take (List.length_pos_iff.mpr hne) hent (by rw [hp]; rfl) (by rw [hp]; rfl) rfl
      (h.others_not_single (a := a) (by rw [hp]; rfl))
      ⟨trivial, htail, hl.holds, nofun, hl.allowed⟩
  | countFirst tailFirst =>
    exact .moved hp trivial rfl rfl ⟨trivial, trivial, nofun, nofun, nofun⟩
  | countSecond tailFirst first =>
    exact .moved hp trivial rfl rfl (local_idle ..)

/-! ## Every step keeps the invariant -/

omit [DecidableEq Agent] in
/-- What was taken and handed stays in the trace. -/
theorem History.objs_cons (h : History t s) {e : Event T Agent} (b : Agent) (i : Nat)
    (ys : List T) (hys : Event.handed b i ys ∈ t) :
    Segment (accepted (e :: t)) i ys ∧ Event.taken b i ys.length ∈ e :: t :=
  have hold := h.objs b i ys hys
  ⟨hold.1.mono (accepted_prefix_note t (some e)), List.mem_cons_of_mem _ hold.2⟩

/-- A step that moves only the agent, and none of its pieces. -/
theorem Inv.move (h : Inv cap mode t s) (same : SameLog t t')
    (hprod : p.prodClaim = (s.pc a).prodClaim) (hcons : p.consClaim = (s.pc a).consClaim)
    (hl : Local cap mode (accepted t) s a p) : Inv cap mode t' (s.setPc a p) := by
  refine ⟨?_, h.room, h.order, tiling_setPc (h.prod.keep hprod),
    tiling_setPc (h.cons.keep hcons), ?_, ?_,
    h.past.same same rfl rfl (congrFun (comp_setPc_eq Pc.consClaim hcons))⟩
  · rw [same.accepted]
    exact h.head
  · rw [same.accepted]
    exact h.data
  · rw [same.accepted]
    exact locals_setPc (fun b _ => h.agents b) hl

/-- A producer's compare-exchange succeeds. -/
theorem Inv.reserve (h : Inv cap mode t s) (hp : s.pc a = .enqueueCas xs s.prodHead) :
    Inv cap mode (.reserved a xs :: t) ({ s with prodHead := s.prodHead + xs.length }.setPc a
        (.enqueueCopy xs s.prodHead 0)) := by
  have hstale := (h.agents a).stale
  rw [hp] at hstale
  obtain ⟨-, hroom, hne⟩ := hstale
  have hlen : 0 < xs.length := List.length_pos_iff.mpr hne
  have hlog : accepted (.reserved a xs :: t) = accepted t ++ xs := rfl
  refine ⟨?_, hroom, h.order,
    tiling_setPc (h.prod.reserve (by rw [hp]; rfl) (Nat.lt_add_of_pos_right hlen)),
    tiling_setPc (h.cons.keep (by rw [hp]; rfl)), ?_, ?_, ?_⟩
  · show s.prodHead + xs.length = (accepted t ++ xs).length
    rw [List.length_append, h.head]
  · -- the published part of the log is as it was
    intro i x hlo hi hx
    have hlt : i < (accepted t).length := by
      rw [← h.head]
      exact Nat.lt_of_lt_of_le hi h.prod.le
    rw [hlog, List.getElem?_append_left hlt] at hx
    exact h.data i x hlo hi hx
  · refine locals_setPc (fun b _ => ?_) ⟨Nat.zero_le _, trivial, ?_, ?_, nofun⟩
    · exact (h.agents b).frame (List.prefix_append _ xs)
        ⟨Nat.le_add_right .., Nat.le_refl _, Nat.le_refl _, Nat.le_refl _⟩
        (fun hpin => hpin.frame (.inl rfl) (.inl rfl) (.inl rfl)) (fun _ _ _ hw => hw)
    · rintro i ys hys
      cases hys
      rw [hlog, h.head]
      exact segment_append _ _
    · rintro i ys hys
      cases hys
      intro j x hx
      cases hx
  · refine ⟨h.past.taken, h.past.handed,
      fun b i ys hys => h.past.objs_cons b i ys (by simpa using hys), fun b i n hb => ?_⟩
    rw [congrFun (comp_setPc_eq Pc.consClaim (by rw [hp]; rfl)) b] at hb
    exact List.mem_cons_of_mem _ (h.past.claims b i n hb)

/-- A producer writes one slot of its piece. -/
theorem Inv.write (h : Inv cap mode t s) {i : Nat} {x : T} (hp : s.pc a = .enqueueCopy xs head i)
    (hx : xs[i]? = some x) :
    Inv cap mode t ({ s with ring := update s.ring ((head + i) % cap) x }.setPc a
      (.enqueueCopy xs head (i + 1))) := by
  have hl := h.agents a
  rw [hp] at hl
  obtain ⟨hi, -⟩ := List.getElem?_eq_some_iff.mp hx
  have hclaim : (s.pc a).prodClaim = some (head, head + xs.length) := by rw [hp]; rfl
  obtain ⟨hlo, -, hhi⟩ := h.prod.within a head (head + xs.length) hclaim
  have horder := h.order
  have hct := h.cons.le
  -- every other position of the window keeps its object
  have hkeep : ∀ k, s.consTail ≤ k → k < s.prodHead → k ≠ head + i →
      update s.ring ((head + i) % cap) x (k % cap) = s.ring (k % cap) := by
    intro k hk hk' hne
    exact update_of_ne (h.slot_ne hk (by omega) hk' (by omega) hne) _ _
  refine ⟨h.head, h.room, h.order, tiling_setPc (h.prod.keep hclaim.symm),
    tiling_setPc (h.cons.keep (by rw [hp]; rfl)), ?_, ?_, ?_⟩
  · intro k y hk hk' hy
    have hk₁ : s.consTail ≤ k := hk
    have hk₂ : k < s.prodTail := hk'
    exact (hkeep k hk₁ (by omega) (by omega)).trans (h.data k y hk hk' hy)
  · refine locals_setPc (fun b hba => ?_) ⟨hi, trivial, hl.holds, ?_, hl.allowed⟩
    · refine (h.agents b).frame List.prefix_rfl
        ⟨Nat.le_refl _, Nat.le_refl _, Nat.le_refl _, Nat.le_refl _⟩
        (fun hpin => hpin.frame (.inl rfl) (.inl rfl) (.inl rfl)) ?_
      intro k ys hys hw j y hy
      obtain ⟨e, hb, he⟩ := wrote_within hys
      obtain ⟨hj, -⟩ := List.getElem?_eq_some_iff.mp hy
      obtain ⟨hlo', -, hhi'⟩ := h.prod.within b k e hb
      have hapart := h.prod.disjoint b a k e head (head + xs.length) hb hclaim hba
      exact (hkeep (k + j) (by omega) (by omega) (by omega)).trans (hw j y hy)
    · rintro k ys hys
      cases hys
      intro j y hy
      rw [List.take_add_one, hx] at hy
      rcases Nat.lt_or_ge j i with hj | hj
      · refine (hkeep (head + j) (by omega) (by omega) (by omega)).trans ?_
        refine hl.wrote head (xs.take i) rfl j y ?_
        rwa [List.getElem?_append_left (by rw [List.length_take]; omega)] at hy
      · obtain ⟨hj', rfl⟩ := List.getElem?_eq_some_iff.mp hy
        obtain rfl : j = i := by simp at hj'; omega
        simp
  · exact h.past.same (sameLog_refl t) rfl rfl
      (congrFun (comp_setPc_eq Pc.consClaim (by rw [hp]; rfl)))

/-- A producer publishes its piece. -/
theorem Inv.publish (h : Inv cap mode t s) (hp : s.pc a = .enqueueStore xs s.prodTail) :
    Inv cap mode (.enqueued a xs.length :: t)
      ({ s with prodTail := s.prodTail + xs.length }.setPc a .idle) := by
  have hl := h.agents a
  rw [hp] at hl
  have hclaim : (s.pc a).prodClaim = some (s.prodTail, s.prodTail + xs.length) := by
    rw [hp]; rfl
  have hcons : Pc.consClaim (.idle : Pc T) = (s.pc a).consClaim := by rw [hp]; rfl
  have same : SameLog t (.enqueued a xs.length :: t) :=
    ⟨rfl, rfl, rfl, fun _ h => List.mem_cons_of_mem _ h, by simp⟩
  refine ⟨h.head, h.room, Nat.le_trans h.order (Nat.le_add_right ..),
    tiling_setPc (h.prod.close hclaim), tiling_setPc (h.cons.keep hcons), ?_, ?_,
    h.past.same same rfl rfl (congrFun (comp_setPc_eq Pc.consClaim hcons))⟩
  · -- the new part of the ring is what the producer wrote
    intro i x hlo hi hx
    have hi' : i < s.prodTail + xs.length := hi
    rcases Nat.lt_or_ge i s.prodTail with hlt | hge
    · exact h.data i x hlo hlt hx
    · obtain ⟨j, rfl⟩ := Nat.exists_eq_add_of_le hge
      have hj : j < xs.length := by omega
      have hxj := List.getElem?_eq_getElem hj
      have hlog := hl.holds s.prodTail xs rfl j _ hxj
      obtain rfl : x = xs[j] := Option.some.inj (hx.symm.trans hlog)
      exact hl.wrote s.prodTail xs rfl j _ hxj
  · refine locals_setPc (fun b hba => ?_) (local_idle ..)
    refine (h.agents b).frame List.prefix_rfl
      ⟨Nat.le_refl _, Nat.le_add_right .., Nat.le_refl _, Nat.le_refl _⟩ (fun hpin => ?_)
      (fun _ _ _ hw => hw)
    -- another agent that is about to publish would hold the first piece too
    refine hpin.frame (.inr fun e he => hba ?_) (.inl rfl) (.inl rfl)
    exact h.prod.unique_first he hclaim

/-- A consumer reserves the positions from `cons.head` on. -/
theorem Inv.take (h : Inv cap mode t s) (hn : 0 < n) (hent : s.consHead + n ≤ s.prodTail)
    (hnone : (s.pc a).consClaim = none) (hprod : p.prodClaim = (s.pc a).prodClaim)
    (hclaim : p.consClaim = some (s.consHead, s.consHead + n))
    (hother : ∀ b, b ≠ a → (s.pc b).consumer ≠ some false)
    (hself : Local cap mode (accepted t) ({ s with consHead := s.consHead + n }) a p) :
    Inv cap mode (.taken a s.consHead n :: t)
      ({ s with consHead := s.consHead + n }.setPc a p) := by
  refine ⟨h.head, h.room, hent, tiling_setPc (h.prod.keep hprod), tiling_setPc ?_, h.data, ?_, ?_⟩
  · rw [hclaim]
    exact h.cons.reserve hnone (Nat.lt_add_of_pos_right hn)
  · exact locals_setPc (fun b hba => (h.agents b).frame List.prefix_rfl
      ⟨Nat.le_refl _, Nat.le_refl _, Nat.le_add_right .., Nat.le_refl _⟩
      (fun hpin => hpin.frame (.inl rfl) (.inl rfl) (.inr (hother b hba)))
      (fun _ _ _ hw => hw)) hself
  · refine ⟨?_, h.past.handed, fun b i ys hys => h.past.objs_cons b i ys (by simpa using hys), ?_⟩
    · show takenIndices t ++ List.range' s.consHead n = List.range (s.consHead + n)
      rw [h.past.taken, range_append]
    · intro b i m hb
      rcases update_cases Pc.consClaim hb with ⟨rfl, hnew⟩ | ⟨-, hold⟩
      · rw [hclaim] at hnew
        obtain ⟨rfl, hm⟩ := Prod.mk.inj (Option.some.inj hnew)
        obtain rfl : n = m := Nat.add_left_cancel hm
        exact List.mem_cons_self
      · exact List.mem_cons_of_mem _ (h.past.claims b i m hold)

/-- A consumer gives up the first piece and returns its objects. -/
theorem Inv.hand (h : Inv cap mode t s) {objs : List T} (hprod : (s.pc a).prodClaim = none)
    (hclaim : (s.pc a).consClaim = some (s.consTail, s.consTail + objs.length))
    (hseg : Segment (accepted t) s.consTail objs) : Inv cap mode (.handed a s.consTail objs :: t)
      ({ s with consTail := s.consTail + objs.length }.setPc a .idle) := by
  refine ⟨h.head, ?_, h.order, tiling_setPc (h.prod.keep hprod.symm),
    tiling_setPc (h.cons.close hclaim), ?_, ?_, ?_⟩
  · show s.prodHead ≤ s.consTail + objs.length + cap
    have := h.room
    omega
  · intro i x hlo hi hx
    exact h.data i x (Nat.le_trans (Nat.le_add_right ..) hlo) hi hx
  · refine locals_setPc (fun b hba => ?_) (local_idle ..)
    refine (h.agents b).frame List.prefix_rfl
      ⟨Nat.le_refl _, Nat.le_refl _, Nat.le_refl _, Nat.le_add_right ..⟩ (fun hpin => ?_)
      (fun _ _ _ hw => hw)
    refine hpin.frame (.inl rfl) (.inr fun e he => hba ?_) (.inl rfl)
    exact h.cons.unique_first he hclaim
  · refine ⟨h.past.taken, ?_, ?_, ?_⟩
    · show handedIndices t ++ List.range' s.consTail objs.length =
        List.range (s.consTail + objs.length)
      rw [h.past.handed, range_append]
    · intro b i ys hys
      rcases List.mem_cons.mp hys with heq | hys
      · obtain ⟨rfl, rfl, rfl⟩ := Event.handed.inj heq
        exact ⟨hseg, List.mem_cons_of_mem _ (h.past.claims b _ _ hclaim)⟩
      · exact h.past.objs_cons b i ys hys
    · intro b i m hb
      rcases update_cases Pc.consClaim hb with ⟨-, hnew⟩ | ⟨-, hold⟩
      · cases hnew
      · exact List.mem_cons_of_mem _ (h.past.claims b i m hold)

/-- Every step of an agent inside a call keeps the invariant. -/
theorem Inv.go (h : Inv cap mode t s) {o : Option (Event T Agent)}
    (hm : GoMove cap mode t s a s' o) : Inv cap mode (note t o) s' := by
  cases hm with
  | stay => exact h
  | move hsilent hprod hcons hl => exact h.move (hsilent.sameLog t) hprod hcons hl
  | reserve hp => exact h.reserve hp
  | write hp hx => exact h.write hp hx
  | publish hp => exact h.publish hp
  | take hn hent hnone hprod hclaim hother hself =>
    exact h.take hn hent hnone hprod hclaim hother hself
  | hand hprod hclaim hseg => exact h.hand hprod hclaim hseg

theorem Inv.call (h : Inv cap mode t s) (hcall : s.call a p = some s')
    (hprod : p.prodClaim = none) (hcons : p.consClaim = none)
    (hl : Local cap mode (accepted t) s a p) : Inv cap mode t s' := by
  rw [State.call] at hcall
  split at hcall
  next hp =>
    cases hcall
    exact h.move (sameLog_refl t) (by rw [hp]; exact hprod) (by rw [hp]; exact hcons) hl
  next => cases hcall

/-- **Every step keeps the invariant**, as long as fewer than `2 ^ 63` objects are accepted. -/
theorem Inv.step (h : Inv cap mode t s) (hk : k ≤ 63) (hcap : cap = 2 ^ k) (act : Act T Agent)
    (hstep : (machine cap mode).step s act = some s') (hold : (accepted t).length < 2 ^ 63)
    (hnew : (accepted ((machine cap mode).record s act t)).length < 2 ^ 63) :
    Inv cap mode ((machine cap mode).record s act t) s' := by
  cases act with
  | go a spurious =>
    cases hstep
    exact h.go (h.go_moves hk hcap a spurious hold hnew)
  | enqueueBulk a objs | count a tailFirst =>
    exact h.call hstep rfl rfl ⟨trivial, trivial, nofun, nofun, nofun⟩
  | dequeueBulk a n | dequeueBulkMc a n =>
    change (if _ then _ else _) = _ at hstep
    split at hstep
    next hallowed =>
      refine h.call hstep rfl rfl ⟨trivial, trivial, nofun, nofun, ?_⟩
      rintro mc hmc
      cases hmc
      exact hallowed
    next => cases hstep

/-- The invariant holds after every run in which fewer than `2 ^ 63` objects were accepted. -/
theorem inv_exec [Inhabited T] (hk : k ≤ 63) (hcap : cap = 2 ^ k)
    (hrun : Exec (machine cap mode) Always init t s) (hlen : (accepted t).length < 2 ^ 63) :
    Inv cap mode t s := by
  revert hlen
  refine hrun.invariant (fun t s => (accepted t).length < 2 ^ 63 → Inv cap mode t s)
    (fun _ => inv_init cap mode) ?_
  intro t s act s' ih _ hstep hnew
  have hold := Nat.lt_of_le_of_lt (accepted_length_record (machine cap mode) s act t) hnew
  exact (ih hold).step hk hcap act hstep hold hnew

end Steps

end MpmcRing
