import StorageRuntime.RingFifoProofs
import StorageRuntime.SpscQueueProofs
import StorageRuntime.WorkQueueProofs

/-!
# The queues of a worker, call by call and access by access

`WorkQueue` has a call of a ring as one step, and of an SPSC queue the accesses of a push
and a dequeue as one step.  `MpmcRing.machine` and `SpscQueue.machine` have every access
of every thread.

* **`ring_follows`**: the atomic queue, which every run of the ring refines, makes the calls
  of `WorkQueue.Ring` one after the other.  They differ in one point: an enqueue that runs
  beside other calls may be refused while there is room (`refused_beside_dequeue`).
* **`spsc_accesses`**: a run of one producer and one consumer is one of the accesses that
  `WorkQueue.SpscQueue` has.  Two producers make the same accesses, but what they push is
  not appended: `overlapping_pushes_overwrite`.
-/

namespace WorkQueue

open Function Interleaving RingBuffer WordArithmetic
open MpmcRing (slot Fifo Event)

variable {T Agent : Type}

/-! ## The ring -/

/-- A batch that there is room for is taken as a whole. -/
theorem Ring.enqueueBulk_of_room (r : Ring T) {objs : List T}
    (h : (r.items ++ objs).length ≤ r.capacity) :
    (r.enqueueBulk objs).2 = objs.length ∧ (r.enqueueBulk objs).1.items = r.items ++ objs := by
  rw [List.length_append] at h
  have hmin : min objs.length r.freeEntries = objs.length := by
    rw [r.freeEntries_eq, ← r.length_items]
    omega
  refine ⟨?_, ?_⟩
  · rw [enqueueBulk]
    split
    next hzero => exact hzero.symm.trans hmin
    next => exact hmin
  · rw [(r.items_enqueueBulk objs).1, List.take_of_length_le (by omega)]

/-- **The atomic queue is a ring whose calls are single steps**: an enqueue is made when it is
    published, a dequeue when it is reserved, and the rest leaves the ring alone. -/
theorem ring_follows [DecidableEq Agent] {f f' : Fifo T Agent} {e : Event T Agent}
    (h : Fifo.Step f e f') {r : Ring T} (hr : r.items = f.items)
    (hroom : f'.items.length ≤ r.capacity) : ∃ r', r'.items = f'.items ∧ r'.capacity = r.capacity ∧
      match e with
      | .enqueued a n => n = 0 ∧ r' = r ∨ (n, r') = (r.enqueueBulk (f.batch a)).swap
      | .taken a _ n => (f'.hand a, r') = r.dequeueBulk n
      | .missed _ n => r' = r ∧ (r.dequeueBulk n).1 = []
      | _ => r' = r := by
  cases h with
  | enqueue a =>
    rw [← hr] at hroom
    obtain ⟨hall, hitems⟩ := r.enqueueBulk_of_room hroom
    refine ⟨_, hitems.trans (by rw [hr]), (r.items_enqueueBulk _).2, .inr ?_⟩
    rw [← hall]
    rfl
  | dequeue a head n hn =>
    obtain ⟨htaken, hleft, hcap⟩ := r.items_dequeueBulk n
    refine ⟨_, hleft.trans (by rw [hr]), hcap, ?_⟩
    show (update f.hand a (f.items.take n) a, _) = _
    rw [update_self, ← hr, ← htaken]
  | miss a n hnone =>
    refine ⟨r, hr, rfl, rfl, ?_⟩
    rw [(r.items_dequeueBulk n).1, hr]
    rcases hnone with rfl | hnil
    · rfl
    · rw [hnil, List.take_nil]
  | full a => exact ⟨r, hr, rfl, .inl ⟨rfl, rfl⟩⟩
  | accept | deliver | count => exact ⟨r, hr, rfl, rfl⟩

/-- One slot: the dequeue of agent 1 has taken the object and not given back the slot, and the
    enqueue of agent 2 is refused though the ring is empty. -/
theorem refused_beside_dequeue : ∃ (t : List (MpmcRing.Event Nat (Fin 3))) (s : _),
    Exec (MpmcRing.machine 1 .multi) Always MpmcRing.init t s ∧
      t.take 2 = [.enqueued 2 0, .taken 1 0 1] ∧ s.consHead = s.prodTail := by
  have hrun : Exec (MpmcRing.machine 1 .multi) Always
      (MpmcRing.init : MpmcRing.State Nat (Fin 3)) _ _ :=
    exec_run [.enqueueBulk 0 [10], .go 0 false, .go 0 false, .go 0 false, .go 0 false, .go 0 false,
      .go 0 false, .go 0 false, .dequeueBulkMc 1 1, .go 1 false, .go 1 false, .go 1 false,
      .enqueueBulk 2 [20], .go 2 false, .go 2 false]
  exact ⟨_, _, hrun, by decide +kernel⟩

/-! ## The SPSC queue -/

/-- The queue is what the two threads share. -/
structure Holds (q : SpscQueue T) (s : SpscQueue.State T) : Prop where
  ring : q.ring = s.ring
  writeHead : q.writeHead = s.writeHead
  localWriteTail : q.localWriteTail = s.localWriteTail
  localTail : q.localTail = s.localTail

/-- What an access does to the queue. -/
inductive Access (q : SpscQueue T) : SpscQueue T → Prop where
  /-- An access before the last one of a push. -/
  | push {x : T} {o : Option PushPc} {q' : SpscQueue T} {p : PushPc} :
      q.access x o = some (q', p) → Access q q'
  | publish (count : Nat) : Access q (q.publish count)
  /-- The consumer reads one element. -/
  | read {x : T} : (q.tryDequeueBatch 1).1 = [x] → Access q (q.tryDequeueBatch 1).2

section Spsc

variable [Inhabited T] {t : List (SpscQueue.Event T)} {s s' : SpscQueue.State T} {q : SpscQueue T}

/-- A step of the machine is one access, or none. -/
theorem Holds.step (h : Holds q s) (hinv : SpscQueue.Inv spscCapacity t s)
    {act : SpscQueue.Act T} (hs : SpscQueue.step spscCapacity s act = some s') :
    ∃ q', Relation.ReflGen Access q q' ∧ Holds q' s' := by
  have hnone : ∀ p c, ∃ q', Relation.ReflGen Access q q' ∧
      Holds q' { s with producer := p, consumer := c } :=
    fun p c => ⟨q, .refl, h.ring, h.writeHead, h.localWriteTail, h.localTail⟩
  cases act with
  | pushBatch _ | tryDequeueBatch _ =>
    rw [SpscQueue.step] at hs
    split at hs
    next =>
      cases hs
      exact hnone _ _
    next => cases hs
  | goProducer =>
    rw [SpscQueue.step, SpscQueue.State.goProducer] at hs
    split at hs
    next => cases hs
    next items i writeIdx hpc =>
      split at hs
      next x hx =>
        cases hs
        refine ⟨_, .single (.push (x := x) (o := some (.copy writeIdx)) rfl), ?_⟩
        exact ⟨congrArg (update · _ x) h.ring, h.writeHead, h.localWriteTail, h.localTail⟩
      next =>
        cases hs
        exact hnone _ _
    next items writeIdx hpc =>
      cases hs
      refine ⟨_, .single (.push (x := default) (o := some (.setTail writeIdx)) rfl), ?_⟩
      exact ⟨h.ring, h.writeHead, rfl, h.localTail⟩
    next items hpc =>
      cases hs
      refine ⟨_, .single (.publish items.length), h.ring, ?_, h.localWriteTail, h.localTail⟩
      exact congrArg (wadd · _) h.writeHead
  | goConsumer =>
    rw [SpscQueue.step, SpscQueue.State.goConsumer] at hs
    split at hs
    next => cases hs
    next =>
      cases hs
      exact hnone _ _
    next n out hpc =>
      split at hs
      next hlt =>
        cases hs
        -- the consumer has counted an element that it has not read yet
        have hleft := hinv.consumer
        rw [hpc] at hleft
        have hroom : (SpscQueue.pushed t).length - SpscQueue.reads t s ≤ spscCapacity :=
          Nat.le_trans (Nat.le_add_right _ _) hinv.room
        have hcount : min q.approxCount 1 = 1 := by
          have hdist := SpscQueue.wsub_mod (k := 12) rfl (by omega) hinv.order hroom
          rw [← hinv.head, ← hinv.tail, ← h.writeHead, ← h.localTail] at hdist
          have : n - out.length ≤ _ := hleft
          rw [SpscQueue.approxCount, hdist]
          omega
        have hread : q.tryDequeueBatch 1 = ([q.ring (slot spscCapacity q.localTail)],
            { q with localTail := wadd q.localTail 1, words := ⟨q.words.1, wadd_lt ..⟩ }) := by
          simp only [SpscQueue.tryDequeueBatch, hcount]
          rfl
        refine ⟨_, .single (.read (congrArg Prod.fst hread)), ?_⟩
        rw [hread]
        exact ⟨h.ring, h.writeHead, h.localWriteTail, congrArg (wadd · 1) h.localTail⟩
      next =>
        cases hs
        exact hnone _ _

/-- **A run of one producer and one consumer is one of accesses.** -/
theorem spsc_accesses (hrun : Exec (SpscQueue.machine spscCapacity)
      (SpscQueue.NoOverrun spscCapacity) SpscQueue.init t s) :
    ∃ q, Relation.ReflTransGen Access SpscQueue.new q ∧ Holds q s := by
  have hrun' : SpscQueue.Inv spscCapacity t s ∧
      ∃ q, Relation.ReflTransGen Access SpscQueue.new q ∧ Holds q s := by
    refine hrun.invariant (fun t s => SpscQueue.Inv spscCapacity t s ∧
      ∃ q, Relation.ReflTransGen Access SpscQueue.new q ∧ Holds q s)
      ⟨SpscQueue.inv_init _, _, .refl, rfl, rfl, rfl, rfl⟩ ?_
    rintro t s act s' ⟨hinv, q, hreach, hq⟩ hc hs
    obtain ⟨q', hstep, hq'⟩ := hq.step hinv hs
    exact ⟨hinv.step (k := 12) rfl (by omega) hc hs, q', hreach.trans hstep.to_reflTransGen, hq'⟩
  exact hrun'.2

end Spsc

/-- The accesses of two threads that push `x` and `y`, each after the same one of the other. -/
def SpscQueue.pushBoth (q : SpscQueue T) (x y : T) : Option (SpscQueue T) := do
  let (q, first) ← q.access x none
  let (q, second) ← q.access y none
  let (q, first) ← q.access x (some first)
  let (q, second) ← q.access y (some second)
  let (q, _) ← q.access x (some first)
  let (q, _) ← q.access y (some second)
  return (q.publish 1).publish 1

/-- **A second producer writes over what the first has written**: the queue grows by two
    elements, of which one is `y` and the other whatever stood in the next slot. -/
theorem overlapping_pushes_overwrite (q : SpscQueue T) (h : q.localWriteTail = q.writeHead)
    (hroom : q.items.length + 2 ≤ spscCapacity) (x y : T) : ∃ q', q.pushBoth x y = some q' ∧
      q'.items = q.items ++ [y, q.ring (slot spscCapacity (wadd q.writeHead 1))] := by
  have hcap : spscCapacity < wordSize := by decide
  rw [SpscQueue.length_items] at hroom
  have hslot : slot spscCapacity (wadd q.writeHead 1) =
      (q.localTail + (q.approxCount + 1)) % spscCapacity := by
    have hpow : spscCapacity = 2 ^ 12 := rfl
    rw [MpmcRing.slot_eq hpow, q.writeHead_eq, wadd_assoc,
      wadd_mod (hpow ▸ pow_dvd_wordSize (by omega))]
  have hcount : wsub (wadd (wadd q.writeHead 1) 1) q.localTail = q.approxCount + 1 + 1 := by
    rw [q.writeHead_eq, wadd_assoc, wadd_assoc, wsub_wadd q.words.2 (by omega)]
  refine ⟨_, rfl, ?_⟩
  show window spscCapacity (update (update q.ring (slot spscCapacity q.localWriteTail) x)
    (slot spscCapacity q.localWriteTail) y) q.localTail
    (wsub (wadd (wadd q.writeHead 1) 1) q.localTail) = _
  rw [h, hcount, update_idem, hslot, q.slot_writeHead, window_succ, window_push (by omega),
    update_of_ne, List.append_assoc]
  · rfl
  · exact @mod_ne_of_window q.localTail _ _ _ (by omega) (by omega) (by omega)

end WorkQueue
