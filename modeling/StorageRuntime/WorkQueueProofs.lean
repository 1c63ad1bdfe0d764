import StorageRuntime.LocalQueueProofs

/-!
# WorkQueue — the queues of a worker, called one call at a time

`runtime/work_queue.h` and its four implementations: `RingWorkQueue` and
`AffineWorkQueue` over `MPMCRing`, `LocalWorkQueue` over `LocalQueue`, and
`BatchedSPSCWorkQueue` over `BatchedSPSCQueue`.  The state of the rings is given
between calls and carries what then holds of its indices.  Of `push_batch`, which
only one thread at a time may call, the single accesses are given as well.

All are bounded.  `enqueue` has no result: a full ring and a full local queue
refuse the item, and the SPSC queue writes over what was not read yet.

**`loses_nothing_iff`**: a sequence of calls returns what was enqueued, in
order and with nothing dropped, exactly if no enqueue finds the queue full.
-/

namespace WorkQueue

open Function WordArithmetic RingBuffer MpmcRing

variable {T : Type}

/-! ## Copy loops -/

/-- Write objects to the slots from index `head` on. -/
def store (cap : Nat) (slots : Nat → T) (head : Nat) : List T → Nat → T
  | [] => slots
  | x :: xs => store cap (update slots (slot cap head) x) (wadd head 1) xs

/-- Read the `n` slots from index `head` on. -/
def load (cap : Nat) (slots : Nat → T) (head : Nat) : Nat → List T
  | 0 => []
  | n + 1 => slots (slot cap head) :: load cap slots (wadd head 1) n

theorem load_eq_window {cap k : Nat} (hcap : cap = 2 ^ k) (hk : k ≤ 64) (slots : Nat → T) :
    ∀ (n head : Nat), load cap slots head n = window cap slots head n := by
  intro n
  induction n with
  | zero => intro head; rfl
  | succ n ih =>
    intro head
    rw [load, window_cons, slot_eq hcap, ih, window_wadd (hcap ▸ pow_dvd_wordSize hk)]

/-- Writing behind the window appends to it, while there is room. -/
theorem window_store {cap k : Nat} (hcap : cap = 2 ^ k) (hk : k ≤ 64) (lo : Nat) :
    ∀ (xs : List T) (slots : Nat → T) (n : Nat), n + xs.length ≤ cap →
      window cap (store cap slots (wadd lo n) xs) lo (n + xs.length) =
        window cap slots lo n ++ xs := by
  intro xs
  induction xs with
  | nil => intro slots n _; simp [store]
  | cons x xs ih =>
    intro slots n hroom
    rw [List.length_cons] at hroom
    have hslot : slot cap (wadd lo n) = (lo + n) % cap := by
      rw [slot_eq hcap, wadd_mod (hcap ▸ pow_dvd_wordSize hk)]
    have hstep := ih (update slots ((lo + n) % cap) x) (n + 1) (by omega)
    rw [store, hslot, wadd_assoc, List.length_cons, ← Nat.add_assoc, Nat.add_right_comm,
      hstep, window_push (by omega), List.append_assoc, List.singleton_append]

/-! ## MPMCRing -/

/-- `MPMCRing` between calls.  Heads and tails agree, so a call never waits for another. -/
structure Ring (T : Type) where
  capacity : Nat
  prodHead : Nat
  prodTail : Nat
  consHead : Nat
  consTail : Nat
  ring : Nat → T
  pow : ∃ k, k ≤ 63 ∧ capacity = 2 ^ k
  settled : prodTail = prodHead ∧ consTail = consHead
  words : prodHead < wordSize ∧ consHead < wordSize
  room : wsub prodHead consHead ≤ capacity

namespace Ring

/-- The objects between the two indices. -/
def items (r : Ring T) : List T :=
  window r.capacity r.ring r.consHead (wsub r.prodTail r.consHead)

/-- `count()`. -/
def count (r : Ring T) : Nat := wsub r.prodTail r.consHead

/-- The free entries that `enqueue_bulk` computes. -/
def freeEntries (r : Ring T) : Nat := wsub (wadd r.capacity r.consTail) r.prodHead

theorem capacity_lt (r : Ring T) : r.capacity < wordSize := by
  obtain ⟨k, hk, hcap⟩ := r.pow
  rw [hcap]
  exact Nat.pow_lt_pow_right (by decide) (by omega)

@[simp] theorem length_items (r : Ring T) : r.items.length = r.count := length_window ..

theorem count_le (r : Ring T) : r.count ≤ r.capacity := by
  rw [count, r.settled.1]
  exact r.room

/-- The producers' index is the consumers' and the number of objects between them. -/
theorem prodHead_eq (r : Ring T) : r.prodHead = wadd r.consHead r.count := by
  rw [count, r.settled.1, wadd_wsub r.words.2 r.words.1]

/-- The free entries are what is left of the capacity. -/
theorem freeEntries_eq (r : Ring T) : r.freeEntries = r.capacity - r.count := by
  have hcap := r.capacity_lt
  have hle := r.count_le
  rw [freeEntries, r.prodHead_eq, r.settled.2]
  simp only [wsub, wadd, wordSize] at *
  omega

/-- `MPMCRing(capacity)`; the constructor does not return for a capacity above `2 ^ 63`. -/
def new [Inhabited T] (capacity : Nat) : Option (Ring T) :=
  match h : construct capacity with
  | none => none
  | some cap => some {
      capacity := cap
      prodHead := 0
      prodTail := 0
      consHead := 0
      consTail := 0
      ring := fun _ => default
      pow := (construct_spec h).imp fun _ hk => ⟨hk.1, hk.2.1⟩
      settled := ⟨rfl, rfl⟩
      words := by decide
      room := Nat.zero_le _ }

/-- Both indices of the producers move behind the objects written. -/
def publish (r : Ring T) (objs : List T) (h : objs.length ≤ r.freeEntries) : Ring T where
  capacity := r.capacity
  prodHead := wadd r.prodHead objs.length
  prodTail := wadd r.prodHead objs.length
  consHead := r.consHead
  consTail := r.consTail
  ring := store r.capacity r.ring r.prodHead objs
  pow := r.pow
  settled := ⟨rfl, r.settled.2⟩
  words := ⟨wadd_lt .., r.words.2⟩
  room := by
    have hcap := r.capacity_lt
    have hle := r.count_le
    rw [r.freeEntries_eq] at h
    rw [r.prodHead_eq, wadd_assoc, wsub_wadd r.words.2 (by omega)]
    omega

/-- `enqueue_bulk`: takes as many objects as there are free entries. -/
def enqueueBulk (r : Ring T) (objs : List T) : Ring T × Nat :=
  let n := min objs.length r.freeEntries
  if n = 0 then (r, 0)
  else (r.publish (objs.take n) (by rw [List.length_take]; omega), n)

/-- There is room behind the objects that a dequeue leaves. -/
theorem room_dequeue (r : Ring T) {m : Nat} (hm : m ≤ r.count) :
    wsub r.prodHead (wadd r.consHead m) ≤ r.capacity := by
  have hle := r.count_le
  rw [r.prodHead_eq]
  simp only [wsub, wadd, wordSize] at *
  omega

/-- `dequeue_bulk`. -/
def dequeueBulk (r : Ring T) (n : Nat) : List T × Ring T :=
  let m := min n r.count
  if m = 0 then ([], r)
  else (load r.capacity r.ring r.consHead m, {
    capacity := r.capacity
    prodHead := r.prodHead
    prodTail := r.prodTail
    consHead := wadd r.consHead m
    consTail := wadd r.consHead m
    ring := r.ring
    pow := r.pow
    settled := ⟨r.settled.1, rfl⟩
    words := ⟨r.words.1, wadd_lt ..⟩
    room := r.room_dequeue (Nat.min_le_right n r.count) })

theorem items_publish (r : Ring T) (objs : List T) (h : objs.length ≤ r.freeEntries) :
    (r.publish objs h).items = r.items ++ objs := by
  obtain ⟨k, hk, hcap⟩ := r.pow
  have hle := r.count_le
  have hlt := r.capacity_lt
  have hfree := r.freeEntries_eq
  have hcount : wsub (wadd r.prodHead objs.length) r.consHead = r.count + objs.length := by
    rw [r.prodHead_eq, wadd_assoc, wsub_wadd r.words.2 (by omega)]
  show window r.capacity (store r.capacity r.ring r.prodHead objs) r.consHead _ = _
  rw [show (r.publish objs h).prodTail = wadd r.prodHead objs.length from rfl,
    show (r.publish objs h).consHead = r.consHead from rfl, hcount, r.prodHead_eq]
  exact window_store hcap (by omega) r.consHead objs r.ring r.count (by omega)

/-- **`enqueue_bulk` appends what fits.** -/
theorem items_enqueueBulk (r : Ring T) (objs : List T) :
    (r.enqueueBulk objs).1.items = r.items ++ objs.take (r.capacity - r.items.length) ∧
      (r.enqueueBulk objs).1.capacity = r.capacity := by
  have hfree := r.freeEntries_eq
  rw [enqueueBulk, length_items, ← hfree]
  split
  next hn =>
    refine ⟨?_, rfl⟩
    rcases Nat.le_total objs.length r.freeEntries with hle | hle
    · rw [List.eq_nil_of_length_eq_zero (by omega : objs.length = 0)]
      simp
    · rw [show r.freeEntries = 0 by omega]
      simp
  next hn =>
    refine ⟨?_, rfl⟩
    rw [items_publish]
    rcases Nat.le_total objs.length r.freeEntries with hle | hle
    · rw [Nat.min_eq_left hle, List.take_length, List.take_of_length_le hle]
    · rw [Nat.min_eq_right hle]

/-- **`dequeue_bulk` takes from the front.** -/
theorem items_dequeueBulk (r : Ring T) (n : Nat) :
    (r.dequeueBulk n).1 = r.items.take n ∧ (r.dequeueBulk n).2.items = r.items.drop n ∧
      (r.dequeueBulk n).2.capacity = r.capacity := by
  obtain ⟨k, hk, hcap⟩ := r.pow
  have hdvd : r.capacity ∣ wordSize := hcap ▸ pow_dvd_wordSize (by omega)
  have hle := r.count_le
  have hlt := r.capacity_lt
  rw [dequeueBulk]
  split
  next hm =>
    rcases Nat.eq_zero_or_pos n with rfl | hn
    · simp
    · rw [List.eq_nil_of_length_eq_zero (by rw [length_items]; omega : r.items.length = 0)]
      simp
  next hm =>
    have hleft : wsub r.prodTail (wadd r.consHead (min n r.count)) =
        r.count - min n r.count := by
      rw [r.settled.1, r.prodHead_eq]
      simp only [wsub, wadd, wordSize] at *
      omega
    refine ⟨?_, ?_, rfl⟩
    · rw [load_eq_window hcap (by omega), items, window_take]
      rfl
    · show window r.capacity r.ring (wadd r.consHead (min n r.count)) _ = _
      rw [hleft, window_wadd hdvd, items, window_drop]
      rcases Nat.le_total n r.count with hn | hn
      · rw [Nat.min_eq_left hn]
        rfl
      · rw [Nat.min_eq_right hn, Nat.sub_self, show wsub r.prodTail r.consHead - n = 0 from
          Nat.sub_eq_zero_of_le hn]
        rfl

end Ring

/-! ## LocalQueue -/

/-- The `LocalQueue` in a `LocalWorkQueue`: its `Capacity` is 1024, whatever capacity the
    constructor is given. -/
abbrev LocalQueue (T : Type) : Type := LocalRing.LocalQueue T 10

def LocalQueue.new [Inhabited T] : LocalQueue T := LocalRing.LocalQueue.new 10 fun _ => default

/-! ## BatchedSPSCQueue -/

/-- The `Capacity` of the `BatchedSPSCQueue` in a `BatchedSPSCWorkQueue`, whatever capacity
    its constructor is given. -/
def spscCapacity : Nat := 4096

/-- `BatchedSPSCQueue`, also in the middle of a `push_batch`. -/
structure SpscQueue (T : Type) where
  ring : Nat → T
  writeHead : Nat
  localWriteTail : Nat
  localTail : Nat
  words : writeHead < wordSize ∧ localTail < wordSize

/-- Where a thread is in `push_batch` of one element. -/
inductive PushPc where
  /-- About to write the slot of the index that was read from `local_write_tail_`. -/
  | copy (writeIdx : Nat)
  /-- About to store `local_write_tail_`. -/
  | setTail (writeIdx : Nat)
  /-- About to add to `write_head_`. -/
  | publish
deriving DecidableEq

namespace SpscQueue

/-- `approx_count()`. -/
def approxCount (q : SpscQueue T) : Nat := wsub q.writeHead q.localTail

/-- What the consumer will read. -/
def items (q : SpscQueue T) : List T := window spscCapacity q.ring q.localTail q.approxCount

@[simp] theorem length_items (q : SpscQueue T) : q.items.length = q.approxCount :=
  length_window ..

def new [Inhabited T] : SpscQueue T := ⟨fun _ => default, 0, 0, 0, by decide⟩

/-- The last access of `push_batch`. -/
def publish (q : SpscQueue T) (count : Nat) : SpscQueue T :=
  { q with writeHead := wadd q.writeHead count, words := ⟨wadd_lt .., q.words.2⟩ }

/-- The accesses before it, when `x` is pushed: there is no check for room. -/
def access (q : SpscQueue T) (x : T) : Option PushPc → Option (SpscQueue T × PushPc)
  | none => some (q, .copy q.localWriteTail)
  | some (.copy writeIdx) =>
    some ({ q with ring := update q.ring (slot spscCapacity writeIdx) x },
      .setTail (wadd writeIdx 1))
  | some (.setTail writeIdx) => some ({ q with localWriteTail := writeIdx }, .publish)
  | some .publish => none

/-- `push_batch`, with no other thread in it. -/
def pushBatch (q : SpscQueue T) (objs : List T) : SpscQueue T :=
  publish { q with
    ring := store spscCapacity q.ring q.localWriteTail objs
    localWriteTail := wadd q.localWriteTail objs.length } objs.length

/-- `try_dequeue_batch`. -/
def tryDequeueBatch (q : SpscQueue T) (max : Nat) : List T × SpscQueue T :=
  let n := min q.approxCount max
  (load spscCapacity q.ring q.localTail n,
    { q with localTail := wadd q.localTail n, words := ⟨q.words.1, wadd_lt ..⟩ })

theorem writeHead_eq (q : SpscQueue T) : q.writeHead = wadd q.localTail q.approxCount := by
  rw [approxCount, wadd_wsub q.words.2 q.words.1]

/-- The slot behind the elements. -/
theorem slot_writeHead (q : SpscQueue T) :
    slot spscCapacity q.writeHead = (q.localTail + q.approxCount) % spscCapacity := by
  have hpow : spscCapacity = 2 ^ 12 := rfl
  rw [slot_eq hpow, q.writeHead_eq, wadd_mod (hpow ▸ pow_dvd_wordSize (by omega))]

/-- How far a thread that is alone in `push_batch` of `x` has come. -/
def During (q : SpscQueue T) (x : T) : Option PushPc → Prop
  | none => q.localWriteTail = q.writeHead
  | some (.copy writeIdx) => q.localWriteTail = q.writeHead ∧ writeIdx = q.writeHead
  | some (.setTail writeIdx) =>
    writeIdx = wadd q.writeHead 1 ∧ q.ring (slot spscCapacity q.writeHead) = x
  | some .publish =>
    q.localWriteTail = wadd q.writeHead 1 ∧ q.ring (slot spscCapacity q.writeHead) = x

/-- **Until it publishes it changes nothing that the consumer will read**, while there is
    room. -/
theorem During.access {q q' : SpscQueue T} {x : T} {o : Option PushPc} {p : PushPc}
    (h : q.During x o) (hroom : q.items.length < spscCapacity)
    (hstep : q.access x o = some (q', p)) : q'.During x (some p) ∧ q'.items = q.items := by
  rw [length_items] at hroom
  match o with
  | none =>
    cases hstep
    exact ⟨⟨h, h⟩, rfl⟩
  | some (.copy writeIdx) =>
    cases hstep
    obtain ⟨-, rfl⟩ := h
    refine ⟨⟨rfl, update_self ..⟩, ?_⟩
    show window spscCapacity (update q.ring (slot spscCapacity q.writeHead) x) q.localTail
      q.approxCount = _
    rw [q.slot_writeHead]
    refine window_update_of_ne fun i hi => ?_
    exact @mod_ne_of_window q.localTail _ _ _ (by omega) (by omega) (by omega)
  | some (.setTail writeIdx) =>
    cases hstep
    exact ⟨h, rfl⟩
  | some .publish => cases hstep

theorem During.take {q : SpscQueue T} {x : T} {p : PushPc} (h : q.During x (some p))
    (max : Nat) : (q.tryDequeueBatch max).2.During x (some p) := by
  cases p <;> exact h

/-- **Publishing appends what was written.** -/
theorem During.publish {q : SpscQueue T} {x : T} (h : q.During x (some .publish))
    (hroom : q.items.length < spscCapacity) :
    (q.publish 1).During x none ∧ (q.publish 1).items = q.items ++ [x] := by
  rw [length_items] at hroom
  have hcap : spscCapacity < wordSize := by decide
  have hcount : (q.publish 1).approxCount = q.approxCount + 1 := by
    show wsub (wadd q.writeHead 1) q.localTail = _
    rw [q.writeHead_eq, wadd_assoc, wsub_wadd q.words.2 (by omega)]
  refine ⟨h.1, ?_⟩
  show window spscCapacity q.ring q.localTail (q.publish 1).approxCount = _
  rw [hcount, window_succ, ← q.slot_writeHead, h.2]
  rfl

/-- **`try_dequeue_batch` takes from the front.** -/
theorem items_tryDequeueBatch (q : SpscQueue T) (max : Nat) :
    (q.tryDequeueBatch max).1 = q.items.take max ∧
      (q.tryDequeueBatch max).2.items = q.items.drop max := by
  have hdvd : spscCapacity ∣ wordSize := pow_dvd_wordSize (k := 12) (by omega)
  have hcount : q.approxCount < wordSize := wsub_lt ..
  rw [tryDequeueBatch]
  refine ⟨?_, ?_⟩
  · have hpow : spscCapacity = 2 ^ 12 := rfl
    refine (load_eq_window hpow (by omega) q.ring _ _).trans ?_
    rw [items, window_take, Nat.min_comm]
  · have hleft : wsub q.writeHead (wadd q.localTail (min q.approxCount max)) =
        q.approxCount - min q.approxCount max := by
      rw [q.writeHead_eq]
      simp only [wsub, wadd, wordSize] at *
      omega
    show window spscCapacity q.ring (wadd q.localTail (min q.approxCount max)) (wsub _ _) = _
    rw [hleft, window_wadd hdvd, items, window_drop]
    rcases Nat.le_total max q.approxCount with hmax | hmax
    · rw [Nat.min_eq_right hmax]
    · rw [Nat.min_eq_left hmax, Nat.sub_self, Nat.sub_eq_zero_of_le hmax]
      rfl

end SpscQueue

/-! ## The interface -/

/-- The classes that implement `WorkQueue`. -/
inductive Kind where
  | ring
  | affine
  | local
  | spsc
deriving DecidableEq

/-- A `WorkQueue` with its dynamic type. -/
inductive Queue (T : Type) where
  | ring (q : Ring T)
  | affine (q : Ring T)
  | local (q : LocalQueue T)
  | spsc (q : SpscQueue T)

/-- The constructors; those of `LocalWorkQueue` and `BatchedSPSCWorkQueue` ignore the
    capacity. -/
def make [Inhabited T] (capacity : Nat) : Kind → Option (Queue T)
  | .ring => (Ring.new capacity).map .ring
  | .affine => (Ring.new capacity).map .affine
  | .local => some (.local LocalQueue.new)
  | .spsc => some (.spsc SpscQueue.new)

namespace Queue

def kind : Queue T → Kind
  | .ring _ => .ring
  | .affine _ => .affine
  | .local _ => .local
  | .spsc _ => .spsc

/-- What the queue would hand out, in order. -/
def items : Queue T → List T
  | .ring q | .affine q => q.items
  | .local q => q.items
  | .spsc q => q.items

/-- No push to the queue is half done. -/
def Settled : Queue T → Prop
  | .spsc q => q.localWriteTail = q.writeHead
  | _ => True

/-- How many objects the queue has room for. -/
def limit : Queue T → Nat
  | .ring q | .affine q => q.capacity
  | .local _ => 1023
  | .spsc _ => spscCapacity

/-- `enqueue`. -/
def enqueue (q : Queue T) (item : T) : Queue T :=
  match q with
  | .ring q => .ring (q.enqueueBulk [item]).1
  | .affine q => .affine (q.enqueueBulk [item]).1
  | .local q => .local (q.tryEnqueue item).2
  | .spsc q => .spsc (q.pushBatch [item])

/-- `try_dequeue_batch`. -/
def tryDequeueBatch (q : Queue T) (max : Nat) : List T × Queue T :=
  match q with
  | .ring q => ((q.dequeueBulk max).1, .ring (q.dequeueBulk max).2)
  | .affine q => ((q.dequeueBulk max).1, .affine (q.dequeueBulk max).2)
  | .local q => ((q.tryDequeueBatch max).1, .local (q.tryDequeueBatch max).2)
  | .spsc q => ((q.tryDequeueBatch max).1, .spsc (q.tryDequeueBatch max).2)

/-- `try_dequeue`: of the local queue a function of its own, of the others a batch of one. -/
def tryDequeue (q : Queue T) : Option T × Queue T :=
  match q with
  | .local q => (q.tryDequeue.1, .local q.tryDequeue.2)
  | q => ((q.tryDequeueBatch 1).1.head?, (q.tryDequeueBatch 1).2)

/-- `approx_count`. -/
def approxCount : Queue T → Nat
  | .ring q | .affine q => q.count
  | .local q => q.size
  | .spsc q => q.approxCount

@[simp] theorem length_items (q : Queue T) : q.items.length = q.approxCount := by
  cases q with
  | ring q | affine q | «local» q | spsc q => exact q.length_items

/-- No queue holds more than it has room for, except for the SPSC queue. -/
theorem length_items_le (q : Queue T) (hkind : q.kind ≠ .spsc) : q.items.length ≤ q.limit := by
  cases q with
  | ring q | affine q =>
    rw [length_items]
    exact q.count_le
  | «local» q =>
    rw [length_items]
    exact Nat.le_of_lt_succ (show q.size < 1024 from q.size_lt)
  | spsc q => exact absurd rfl hkind

/-- **A queue with room appends.**  What a push to the SPSC queue does is said by
    `SpscQueue.During`. -/
theorem items_enqueue_of_lt (q : Queue T) (item : T) (h : q.items.length < q.limit)
    (hkind : q.kind ≠ .spsc) : (q.enqueue item).items = q.items ++ [item] := by
  cases q with
  | ring q | affine q =>
    have hlt : q.items.length < q.capacity := h
    refine (q.items_enqueueBulk [item]).1.trans ?_
    rw [List.take_of_length_le (by rw [List.length_singleton]; omega)]
    rfl
  | «local» q => exact (q.items_tryEnqueue item).2.trans (if_pos h)
  | spsc q => exact absurd rfl hkind

/-- **A full queue drops the item**, except for the SPSC queue. -/
theorem items_enqueue_of_ge (q : Queue T) (item : T) (h : q.limit ≤ q.items.length)
    (hkind : q.kind ≠ .spsc) : (q.enqueue item).items = q.items := by
  cases q with
  | ring q | affine q =>
    have hge : q.capacity ≤ q.items.length := h
    refine (q.items_enqueueBulk [item]).1.trans ?_
    rw [Nat.sub_eq_zero_of_le hge]
    exact List.append_nil _
  | «local» q => exact (q.items_tryEnqueue item).2.trans (if_neg (Nat.not_lt.mpr h))
  | spsc q => exact absurd rfl hkind

@[simp] theorem kind_enqueue (q : Queue T) (item : T) : (q.enqueue item).kind = q.kind := by
  cases q <;> rfl

@[simp] theorem limit_enqueue (q : Queue T) (item : T) : (q.enqueue item).limit = q.limit := by
  cases q with
  | ring q | affine q => exact (q.items_enqueueBulk [item]).2
  | _ => rfl

/-- **A batch is taken from the front.** -/
theorem items_tryDequeueBatch (q : Queue T) (max : Nat) :
    (q.tryDequeueBatch max).1 = q.items.take max ∧
      (q.tryDequeueBatch max).2.items = q.items.drop max := by
  cases q with
  | ring q | affine q =>
    obtain ⟨hfirst, hrest, -⟩ := q.items_dequeueBulk max
    exact ⟨hfirst, hrest⟩
  | «local» q => exact LocalRing.LocalQueue.items_tryDequeueBatch max q
  | spsc q => exact q.items_tryDequeueBatch max

@[simp] theorem kind_tryDequeueBatch (q : Queue T) (max : Nat) :
    (q.tryDequeueBatch max).2.kind = q.kind := by
  cases q <;> rfl

@[simp] theorem limit_tryDequeueBatch (q : Queue T) (max : Nat) :
    (q.tryDequeueBatch max).2.limit = q.limit := by
  cases q with
  | ring q | affine q => exact (q.items_dequeueBulk max).2.2
  | _ => rfl

/-- **One item is taken from the front.** -/
theorem items_tryDequeue (q : Queue T) :
    q.tryDequeue.1 = q.items.head? ∧ q.tryDequeue.2.items = q.items.tail := by
  have hbatch : ∀ q : Queue T, (q.tryDequeueBatch 1).1.head? = q.items.head? ∧
      (q.tryDequeueBatch 1).2.items = q.items.tail := by
    intro q
    obtain ⟨hfirst, hrest⟩ := q.items_tryDequeueBatch 1
    rw [hfirst, hrest]
    cases q.items with
    | nil | cons x xs => exact ⟨rfl, rfl⟩
  cases q with
  | «local» q => exact q.items_tryDequeue
  | ring q => exact hbatch (.ring q)
  | affine q => exact hbatch (.affine q)
  | spsc q => exact hbatch (.spsc q)

@[simp] theorem kind_tryDequeue (q : Queue T) : q.tryDequeue.2.kind = q.kind := by
  cases q <;> rfl

end Queue

/-! ## Sequences of calls -/

inductive Op (T : Type) where
  | enqueue (item : T)
  | tryDequeue
  | tryDequeueBatch (max : Nat)

/-- The item passed to `enqueue`. -/
def Op.item : Op T → Option T
  | .enqueue item => some item
  | _ => none

/-- The items passed to `enqueue`, in order. -/
def enqueued (ops : List (Op T)) : List T := ops.filterMap Op.item

/-- One call, with the items it returns. -/
def Queue.call (q : Queue T) : Op T → List T × Queue T
  | .enqueue item => ([], q.enqueue item)
  | .tryDequeue => (q.tryDequeue.1.toList, q.tryDequeue.2)
  | .tryDequeueBatch max => q.tryDequeueBatch max

/-- A sequence of calls, with all items they return. -/
def Queue.calls (q : Queue T) : List (Op T) → List T × Queue T
  | [] => ([], q)
  | op :: ops => ((q.call op).1 ++ ((q.call op).2.calls ops).1, ((q.call op).2.calls ops).2)

/-- What `n` further calls of `try_dequeue` return. -/
def Queue.drain (n : Nat) (q : Queue T) : List T := (q.calls (List.replicate n .tryDequeue)).1

/-- Every enqueue of the sequence finds the queue with room for one item more. -/
def Queue.Fits (q : Queue T) : List (Op T) → Prop
  | [] => True
  | op :: ops => (op.item.isSome → q.items.length < q.limit) ∧ (q.call op).2.Fits ops

def Queue.decideFits : ∀ (ops : List (Op T)) (q : Queue T), Decidable (q.Fits ops)
  | [], _ => isTrue trivial
  | op :: ops, q =>
    have := decideFits ops (q.call op).2
    inferInstanceAs (Decidable (_ ∧ _))

instance (q : Queue T) (ops : List (Op T)) : Decidable (q.Fits ops) := q.decideFits ops

/-- The sequence of calls on `q` loses nothing: it returns a beginning of what was enqueued,
    and enough further calls return the rest. -/
def Queue.LosesNothing (q : Queue T) (ops : List (Op T)) : Prop :=
  (q.calls ops).1 <+: enqueued ops ∧
    ∀ n, (enqueued ops).length ≤ n → (q.calls ops).1 ++ (q.calls ops).2.drain n = enqueued ops

namespace Queue

/-- A call that takes items takes them from the front. -/
theorem call_takes (q : Queue T) {op : Op T} (hop : op.item = none) :
    (q.call op).1 ++ (q.call op).2.items = q.items := by
  cases op with
  | enqueue item => cases hop
  | tryDequeue =>
    obtain ⟨hfirst, hrest⟩ := q.items_tryDequeue
    show q.tryDequeue.1.toList ++ q.tryDequeue.2.items = q.items
    rw [hfirst, hrest]
    cases q.items <;> rfl
  | tryDequeueBatch max =>
    obtain ⟨hfirst, hrest⟩ := q.items_tryDequeueBatch max
    show (q.tryDequeueBatch max).1 ++ (q.tryDequeueBatch max).2.items = q.items
    rw [hfirst, hrest, List.take_append_drop]

/-- A call that fits: what it takes and what it leaves are the old items and the new one. -/
theorem call_of_fits (q : Queue T) (hkind : q.kind ≠ .spsc) {op : Op T}
    (h : op.item.isSome → q.items.length < q.limit) :
    (q.call op).1 ++ (q.call op).2.items = q.items ++ op.item.toList := by
  cases hop : op.item with
  | none => rw [call_takes q hop, Option.toList_none, List.append_nil]
  | some item =>
    cases op with
    | enqueue x =>
      obtain rfl : x = item := Option.some.inj hop
      exact q.items_enqueue_of_lt x (h rfl) hkind
    | _ => cases hop

/-- An enqueue that does not fit changes nothing. -/
theorem call_of_full (q : Queue T) (hkind : q.kind ≠ .spsc) {op : Op T}
    (h : ¬ (op.item.isSome → q.items.length < q.limit)) :
    (q.call op).1 ++ (q.call op).2.items = q.items ∧ op.item.toList.length = 1 := by
  obtain ⟨hsome, hfull⟩ := Classical.not_imp.mp h
  cases op with
  | enqueue x => exact ⟨q.items_enqueue_of_ge x (Nat.not_lt.mp hfull) hkind, rfl⟩
  | _ => cases hsome

@[simp] theorem kind_call (q : Queue T) (op : Op T) : (q.call op).2.kind = q.kind := by
  cases op with
  | enqueue item => exact q.kind_enqueue item
  | tryDequeue => exact q.kind_tryDequeue
  | tryDequeueBatch max => exact q.kind_tryDequeueBatch max

/-- Draining returns what is in the queue. -/
theorem drain_eq (n : Nat) : ∀ q : Queue T, q.drain n = q.items.take n := by
  induction n with
  | zero => intro q; rfl
  | succ n ih =>
    intro q
    obtain ⟨hfirst, hrest⟩ := q.items_tryDequeue
    have hdrain : q.drain (n + 1) = q.tryDequeue.1.toList ++ q.tryDequeue.2.drain n := rfl
    rw [hdrain, hfirst, ih, hrest]
    cases q.items with
    | nil => simp
    | cons x xs => rfl

theorem enqueued_cons (op : Op T) (ops : List (Op T)) :
    enqueued (op :: ops) = op.item.toList ++ enqueued ops := by
  rw [enqueued, List.filterMap_cons]
  cases op.item <;> rfl

/-- What fits is returned or still in the queue. -/
theorem calls_of_fits (ops : List (Op T)) : ∀ q : Queue T, q.kind ≠ .spsc → q.Fits ops →
      (q.calls ops).1 ++ (q.calls ops).2.items = q.items ++ enqueued ops := by
  induction ops with
  | nil => intro q _ _; exact (List.append_nil _).symm
  | cons op ops ih =>
    rintro q hkind ⟨hop, hfits⟩
    rw [calls, List.append_assoc, ih _ (by rwa [kind_call]) hfits, ← List.append_assoc,
      call_of_fits q hkind hop, enqueued_cons, List.append_assoc]

/-- What does not fit is missing. -/
theorem length_calls (ops : List (Op T)) : ∀ q : Queue T, q.kind ≠ .spsc →
      (q.calls ops).1.length + (q.calls ops).2.items.length ≤
          q.items.length + (enqueued ops).length ∧
        (¬ q.Fits ops → (q.calls ops).1.length + (q.calls ops).2.items.length ≠
          q.items.length + (enqueued ops).length) := by
  induction ops with
  | nil => intro q _; exact ⟨Nat.le_of_eq (Nat.add_comm _ _), fun h => absurd trivial h⟩
  | cons op ops ih =>
    intro q hkind
    obtain ⟨hle, hne⟩ := ih (q.call op).2 (by rw [kind_call]; exact hkind)
    have hcount := congrArg List.length (enqueued_cons op ops)
    have hsplit : (q.calls (op :: ops)).1.length =
        (q.call op).1.length + ((q.call op).2.calls ops).1.length := List.length_append
    have hsame : (q.calls (op :: ops)).2 = ((q.call op).2.calls ops).2 := rfl
    rw [List.length_append] at hcount
    rw [hcount, hsplit, hsame]
    by_cases hop : op.item.isSome → q.items.length < q.limit
    · have hstep := congrArg List.length (call_of_fits q hkind hop)
      rw [List.length_append, List.length_append] at hstep
      refine ⟨by omega, fun hnot => ?_⟩
      have := hne fun hfits => hnot ⟨hop, hfits⟩
      omega
    · obtain ⟨hstep, hone⟩ := call_of_full q hkind hop
      have hstep := congrArg List.length hstep
      rw [List.length_append] at hstep
      exact ⟨by omega, fun _ => by omega⟩

/-- The constructors make empty queues. -/
theorem items_make [Inhabited T] {capacity : Nat} {kind : Kind} {q : Queue T}
    (h : make capacity kind = some q) : q.items = [] ∧ q.kind = kind := by
  have hring : ∀ {r : Ring T}, Ring.new capacity = some r → r.items = [] := by
    intro r hr
    rw [Ring.new] at hr
    split at hr
    next => cases hr
    next =>
      cases hr
      refine List.eq_nil_of_length_eq_zero ((Ring.length_items _).trans ?_)
      exact wsub_self (a := 0) (by decide)
  cases kind with
  | ring | affine =>
    obtain ⟨r, hr, rfl⟩ := Option.map_eq_some_iff.mp h
    exact ⟨hring hr, rfl⟩
  | «local» =>
    cases h
    exact ⟨(LocalRing.LocalQueue.items_eq_nil_iff _).mpr rfl, rfl⟩
  | spsc =>
    cases h
    refine ⟨List.eq_nil_of_length_eq_zero ((SpscQueue.length_items _).trans ?_), rfl⟩
    exact wsub_self (a := 0) (by decide)

/-- **When the work queues lose nothing.**  For `RingWorkQueue`, `AffineWorkQueue` and
    `LocalWorkQueue`, every capacity and every sequence of calls: the items returned are a
    beginning of those enqueued and draining returns all the rest, exactly if no enqueue
    finds as many items in the queue as it has room for. -/
theorem loses_nothing_iff [Inhabited T] {capacity : Nat} {kind : Kind} (hkind : kind ≠ .spsc)
    {q : Queue T} (hnew : make capacity kind = some q) (ops : List (Op T)) :
    q.LosesNothing ops ↔ q.Fits ops := by
  obtain ⟨hempty, hq⟩ := items_make hnew
  constructor
  · rintro ⟨-, hdrain⟩
    by_contra hnot
    obtain ⟨hle, hne⟩ := length_calls ops q (hq ▸ hkind)
    -- the rest of the queue is no longer than what was enqueued
    have hall := congrArg List.length (hdrain (enqueued ops).length (Nat.le_refl _))
    rw [List.length_append, drain_eq, List.length_take] at hall
    have := hne hnot
    rw [hempty] at this hle
    simp only [List.length_nil] at this hle
    omega
  · intro hfits
    have hall := calls_of_fits ops q (hq ▸ hkind) hfits
    rw [hempty, List.nil_append] at hall
    refine ⟨⟨_, hall⟩, fun n hn => ?_⟩
    have hlen := congrArg List.length hall
    rw [List.length_append] at hlen
    rw [drain_eq, List.take_of_length_le (by omega), hall]

/-- Two enqueues, a dequeue and a third enqueue on a ring of two slots. -/
theorem ring_of_two_loses_nothing : ∃ q : Queue Nat, make 2 .ring = some q ∧
      q.LosesNothing [.enqueue 7, .enqueue 8, .tryDequeue, .enqueue 9] := by
  have hnew : make 2 .ring = some (Option.get (make 2 .ring : Option (Queue Nat)) (by decide)) :=
    (Option.some_get _).symm
  exact ⟨_, hnew, (loses_nothing_iff (by decide) hnew _).mpr (by decide)⟩

/-- **A full ring drops what it is given.**  Of two items enqueued to a `RingWorkQueue` of
    capacity 1, draining returns only the first. -/
theorem full_ring_drops :
    ∃ q : Queue Nat, make 1 .ring = some q ∧ ¬ q.LosesNothing [.enqueue 7, .enqueue 8] := by
  refine ⟨Option.get (make 1 .ring) (by decide), (Option.some_get _).symm, fun h => ?_⟩
  exact absurd (h.2 2 (Nat.le_refl 2)) (by decide)

end Queue

end WorkQueue
