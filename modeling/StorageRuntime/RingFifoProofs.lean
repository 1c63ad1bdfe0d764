import StorageRuntime.RingInvariantProofs

/-!
# MPMCRing — the ring refines an atomic queue

What a user of the ring may think of it: a list of objects to which an
enqueue appends its batch in one step, when it publishes, and from whose front a
dequeue takes its batch in one step, when it reserves; a dequeue comes back
empty-handed only if the list is empty at one moment of the call, and a call
returns what it took.  **`refines_fifo`**: the trace of every run of the ring is
one of this queue, with the published and unreserved positions as its list.
-/

namespace MpmcRing

open Function Interleaving Reservation

variable {T Agent : Type}

/-! ## The abstract queue -/

/-- The queue, the batches that callers are about to enqueue, and what callers have taken. -/
structure Fifo (T Agent : Type) where
  items : List T
  batch : Agent → List T
  hand : Agent → List T

inductive Fifo.Step [DecidableEq Agent] : Fifo T Agent → Event T Agent → Fifo T Agent → Prop where
  /-- The queue has room for `xs`. -/
  | accept (f : Fifo T Agent) (a : Agent) (xs : List T) :
      Fifo.Step f (.reserved a xs) { f with batch := update f.batch a xs }
  | enqueue (f : Fifo T Agent) (a : Agent) :
      Fifo.Step f (.enqueued a (f.batch a).length) { f with items := f.items ++ f.batch a }
  /-- The queue has no room. -/
  | full (f : Fifo T Agent) (a : Agent) : Fifo.Step f (.enqueued a 0) f
  | dequeue (f : Fifo T Agent) (a : Agent) (head n : Nat) : n ≤ f.items.length →
      Fifo.Step f (.taken a head n)
        { f with items := f.items.drop n, hand := update f.hand a (f.items.take n) }
  | deliver (f : Fifo T Agent) (a : Agent) (head : Nat) :
      Fifo.Step f (.handed a head (f.hand a)) f
  /-- A caller that wants something finds nothing. -/
  | miss (f : Fifo T Agent) (a : Agent) (n : Nat) : n = 0 ∨ f.items = [] →
      Fifo.Step f (.missed a n) f
  | count (f : Fifo T Agent) (a : Agent) (n : Nat) : Fifo.Step f (.counted a n) f

/-- The atomic queue. -/
def fifo [DecidableEq Agent] : TraceSpec (Fifo T Agent) (Event T Agent) where
  start := ⟨[], fun _ => [], fun _ => []⟩
  step := Fifo.Step

/-! ## The refinement -/

/-- The list holds the published positions that no consumer has reserved; what a caller has
    reserved is a piece of the log. -/
structure Refines (f : Fifo T Agent) (log : List T) (s : State T Agent) : Prop where
  items : f.items = piece log s.consHead s.prodTail
  batch : ∀ a h e, (s.pc a).prodClaim = some (h, e) → f.batch a = piece log h e
  hand : ∀ a h e, (s.pc a).consClaim = some (h, e) → f.hand a = piece log h e

section Steps

variable [DecidableEq Agent] {cap : Nat} {mode : Mode Agent} {t : List (Event T Agent)}
  {s s' : State T Agent} {a : Agent} {f : Fifo T Agent}

/-- A step that changes neither the counters of the list nor the pieces. -/
theorem Refines.keep {log : List T} (hr : Refines f log s) (hpt : s'.prodTail = s.prodTail)
    (hch : s'.consHead = s.consHead) {p : Pc T} (hpc : s'.pc = update s.pc a p)
    (hprod : p.prodClaim = (s.pc a).prodClaim) (hcons : p.consClaim = (s.pc a).consClaim) :
    Refines f log s' := by
  refine ⟨by rw [hpt, hch]; exact hr.items, ?_, ?_⟩
  · intro b i e hbe
    rcases update_cases Pc.prodClaim (hpc ▸ hbe) with ⟨rfl, hb⟩ | ⟨-, hb⟩
    · exact hr.batch b i e (hprod.symm.trans hb)
    · exact hr.batch b i e hb
  · intro b i e hbe
    rcases update_cases Pc.consClaim (hpc ▸ hbe) with ⟨rfl, hb⟩ | ⟨-, hb⟩
    · exact hr.hand b i e (hcons.symm.trans hb)
    · exact hr.hand b i e hb

/-- An agent that leaves the ring leaves no piece behind. -/
theorem Refines.leave {log : List T} (hr : Refines f log s) (hpc : s'.pc = update s.pc a .idle) :
    (∀ b h e, (s'.pc b).prodClaim = some (h, e) → f.batch b = piece log h e) ∧
      ∀ b h e, (s'.pc b).consClaim = some (h, e) → f.hand b = piece log h e := by
  constructor
  · intro b i e hbe
    rcases update_cases Pc.prodClaim (hpc ▸ hbe) with ⟨-, hb⟩ | ⟨-, hb⟩
    · cases hb
    · exact hr.batch b i e hb
  · intro b i e hbe
    rcases update_cases Pc.consClaim (hpc ▸ hbe) with ⟨-, hb⟩ | ⟨-, hb⟩
    · cases hb
    · exact hr.hand b i e hb

/-- A producer's reservation: the log grows, the list does not. -/
theorem Refines.reserve (h : Inv cap mode t s) (hr : Refines f (accepted t) s) {xs : List T}
    (hp : s.pc a = .enqueueCas xs s.prodHead) :
    Refines { f with batch := update f.batch a xs } (accepted t ++ xs)
      ({ s with prodHead := s.prodHead + xs.length }.setPc a (.enqueueCopy xs s.prodHead 0)) := by
  have hlen := h.head
  have hpt := h.prod.le
  have hch := h.order
  refine ⟨?_, ?_, ?_⟩
  · exact hr.items.trans (piece_grow xs (by omega)).symm
  · intro b i e hbe
    rcases update_cases Pc.prodClaim hbe with ⟨rfl, hb⟩ | ⟨hba, hb⟩
    · cases hb
      show update f.batch b xs b = _
      rw [update_self, hlen, piece_end]
    · have hin := h.prod.within b i e hb
      show update f.batch a xs b = _
      rw [update_of_ne hba, piece_grow xs (by omega)]
      exact hr.batch b i e hb
  · intro b i e hbe
    rcases update_cases Pc.consClaim hbe with ⟨rfl, hb⟩ | ⟨hba, hb⟩
    · cases hb
    · have hin := h.cons.within b i e hb
      rw [piece_grow xs (by omega)]
      exact hr.hand b i e hb

/-- **Every step of an agent is a step of the queue**, or none. -/
theorem Refines.go (h : Inv cap mode t s) (hr : Refines f (accepted t) s)
    {o : Option (Event T Agent)} (hm : GoMove cap mode t s a s' o) :
    fifo.Matches (fun f s => Refines f (accepted (note t o)) s) f s' o := by
  cases hm with
  | stay => exact hr
  | move hsilent hprod hcons hl =>
    have hkeep : ∀ p : Pc T, p.prodClaim = (s.pc a).prodClaim →
        p.consClaim = (s.pc a).consClaim → Refines f (accepted t) (s.setPc a p) :=
      fun p hprod hcons => hr.keep rfl rfl rfl hprod hcons
    cases o with
    | none => exact hkeep _ hprod hcons
    | some e =>
      cases e with
      | enqueued b n =>
        obtain rfl : n = 0 := hsilent
        exact ⟨f, Fifo.Step.full f b, hkeep _ hprod hcons⟩
      | missed b n =>
        refine ⟨f, Fifo.Step.miss f b n ?_, hkeep _ hprod hcons⟩
        rcases hsilent with hzero | heq
        · exact .inl hzero
        · exact .inr (by rw [hr.items, heq, piece_self])
      | counted b n => exact ⟨f, Fifo.Step.count f b n, hkeep _ hprod hcons⟩
      | reserved b xs | taken b i n | handed b i objs => exact hsilent.elim
  | reserve hp => exact ⟨_, Fifo.Step.accept f a _, hr.reserve h hp⟩
  | write hp hx => exact hr.keep rfl rfl rfl (by rw [hp]; rfl) (by rw [hp]; rfl)
  | publish hp =>
    next xs =>
    have hclaim : (s.pc a).prodClaim = some (s.prodTail, s.prodTail + xs.length) := by
      rw [hp]; rfl
    have hin := h.prod.within a _ _ hclaim
    have hbatch := hr.batch a _ _ hclaim
    have hlen : (f.batch a).length = xs.length := by
      rw [hbatch, length_piece (by rw [← h.head]; omega), Nat.add_sub_cancel_left]
    refine ⟨{ f with items := f.items ++ f.batch a }, ?_, ?_, (hr.leave rfl).1, (hr.leave rfl).2⟩
    · rw [← hlen]
      exact Fifo.Step.enqueue f a
    · rw [hr.items, hbatch]
      exact piece_append h.order (Nat.le_add_right ..)
  | take hn hent hnone hprod hclaim hother hself =>
    next p n =>
    have hpt := h.prod.le
    have hlen : n ≤ f.items.length := by
      rw [hr.items, length_piece (by rw [← h.head]; exact hpt)]
      omega
    refine ⟨_, Fifo.Step.dequeue f a s.consHead n hlen, ?_, ?_, ?_⟩
    · rw [hr.items]
      exact drop_piece ..
    · intro b i e hbe
      rcases update_cases Pc.prodClaim hbe with ⟨rfl, hb⟩ | ⟨hba, hb⟩
      · exact hr.batch b i e (hprod.symm.trans hb)
      · exact hr.batch b i e hb
    · intro b i e hbe
      rcases update_cases Pc.consClaim hbe with ⟨rfl, hb⟩ | ⟨hba, hb⟩
      · obtain ⟨rfl, rfl⟩ := Prod.mk.inj (Option.some.inj (hclaim.symm.trans hb))
        show update f.hand b (f.items.take n) b = _
        rw [update_self, hr.items, take_piece hent]
        rfl
      · show update f.hand a (f.items.take n) b = _
        rw [update_of_ne hba]
        exact hr.hand b i e hb
  | hand hprod hclaim hseg =>
    next objs =>
    have hobjs : objs = f.hand a := hseg.eq_piece.trans (hr.hand a _ _ hclaim).symm
    refine ⟨f, ?_, hr.items, (hr.leave rfl).1, (hr.leave rfl).2⟩
    rw [hobjs]
    exact Fifo.Step.deliver f a s.consTail

/-- A call that begins holds nothing. -/
theorem Refines.call {log : List T} {p : Pc T} (hr : Refines f log s)
    (hcall : s.call a p = some s') (hprod : p.prodClaim = none) (hcons : p.consClaim = none) :
    Refines f log s' := by
  rw [State.call] at hcall
  split at hcall
  next hp =>
    cases hcall
    exact hr.keep rfl rfl rfl (by rw [hp]; exact hprod) (by rw [hp]; exact hcons)
  next => cases hcall

/-- Every step of the ring is a step of the queue, or none. -/
theorem Refines.step (h : Inv cap mode t s) (hr : Refines f (accepted t) s) {k : Nat}
    (hk : k ≤ 63) (hcap : cap = 2 ^ k) (act : Act T Agent)
    (hstep : (machine cap mode).step s act = some s') (hold : (accepted t).length < 2 ^ 63)
    (hnew : (accepted (note t ((machine cap mode).event s act))).length < 2 ^ 63) : fifo.Matches
      (fun f s' => Refines f (accepted (note t ((machine cap mode).event s act))) s') f s'
      ((machine cap mode).event s act) := by
  cases act with
  | go a spurious =>
    cases hstep
    exact hr.go h (h.go_moves hk hcap a spurious hold hnew)
  | enqueueBulk a objs | count a tailFirst => exact hr.call hstep rfl rfl
  | dequeueBulk a n | dequeueBulkMc a n =>
    change (if _ then _ else _) = _ at hstep
    split at hstep
    next => exact hr.call hstep rfl rfl
    next => cases hstep

/-- **The ring refines the atomic queue**: in every run with fewer than `2 ^ 63` accepted
    objects, what the callers see is a run of the queue, whose list is what is published and
    not yet reserved. -/
theorem refines_fifo [Inhabited T] {capacity : Nat} (hnew : construct capacity = some cap)
    (hrun : Exec (machine cap mode) Always init t s) (hlen : (accepted t).length < 2 ^ 63) :
    ∃ f, fifo.Accepts t f ∧ f.items = piece (accepted t) s.consHead s.prodTail ∧
      f.items.length ≤ cap := by
  obtain ⟨k, hk, hcap, -⟩ := construct_spec hnew
  have hinv : Inv cap mode t s ∧ ∃ f, fifo.Accepts t f ∧ Refines f (accepted t) s := by
    revert hlen
    refine hrun.invariant (fun t s => (accepted t).length < 2 ^ 63 →
      Inv cap mode t s ∧ ∃ f, fifo.Accepts t f ∧ Refines f (accepted t) s) ?_ ?_
    · intro _
      exact ⟨inv_init cap mode, _, TraceSpec.Accepts.nil, rfl, nofun, nofun⟩
    · intro t s act s' ih _ hstep hnew'
      have hold := Nat.lt_of_le_of_lt (accepted_length_record (machine cap mode) s act t) hnew'
      obtain ⟨h, f, hacc, hr⟩ := ih hold
      refine ⟨h.step hk hcap act hstep hold hnew', ?_⟩
      rw [Machine.record_eq_note] at hnew' ⊢
      have hmatch := hr.step h hk hcap act hstep hold hnew'
      cases he : (machine cap mode).event s act with
      | none =>
        rw [he] at hmatch
        exact ⟨f, hacc, hmatch⟩
      | some e =>
        rw [he] at hmatch
        obtain ⟨f', hf', hr'⟩ := hmatch
        exact ⟨f', TraceSpec.Accepts.cons hacc hf', hr'⟩
  obtain ⟨h, f, hacc, hr⟩ := hinv
  obtain ⟨h₁, h₂, h₃, -⟩ := h.ordered hlen
  refine ⟨f, hacc, hr.items, ?_⟩
  rw [hr.items, length_piece (by rw [← h.head]; exact h₃)]
  have := h.room
  omega

end Steps

/-- The objects of the two producers are handed out in the order of the reservations, and the
    fourth is left. -/
theorem refines_fifo_two_producers :
    ∃ (t : List (Event Nat (Fin 3))) (s : State Nat (Fin 3)) (f : Fifo Nat (Fin 3)),
      Exec (machine 4 .multi) Always init t s ∧ fifo.Accepts t f ∧ f.items = [20] ∧
      t.head? = some (.handed 2 0 [10, 11, 12]) := by
  have hrun : Exec (machine 4 .multi) Always init _ _ :=
    exec_run twoProducersOneConsumer
  obtain ⟨f, hacc, hitems, -⟩ :=
    refines_fifo (show construct 3 = some 4 by decide) hrun (by decide +kernel)
  exact ⟨_, _, f, hrun, hacc, hitems.trans (by decide +kernel), by decide +kernel⟩

end MpmcRing
