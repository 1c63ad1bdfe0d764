import StorageRuntime.RingInvariantProofs
import StorageRuntime.RingBufferProofs

/-!
# BatchedSPSCQueue — one producer and one consumer

The model of `runtime/batched_spsc_queue.h`.  The producer copies its batch slot
by slot and publishes it with one `fetch_add` on `write_head_`; the consumer
loads `write_head_` once and copies what it finds, counting its own
`local_tail_`.  A step is one atomic operation or one slot copy.  The indices
are words that wrap around.

The producer never looks at `local_tail_`: nothing keeps it from writing over
slots that the consumer has not read.

* **`delivers_prefix_of_no_overrun`**: in a run in which it does not, what was
  dequeued is a beginning of what was pushed.
* **`overflow_delivers_overwritten`**: three elements pushed into two slots come
  out as the third, the second and the third again.
-/

namespace SpscQueue

open Function Interleaving WordArithmetic RingBuffer MpmcRing

variable {T : Type}

/-- Where the producer is in `push_batch`. -/
inductive ProducerPc (T : Type) where
  | idle
  /-- In the copy loop, about to copy element `i` to index `writeIdx`. -/
  | copy (items : List T) (i writeIdx : Nat)
  /-- About to store `local_write_tail_`. -/
  | setTail (items : List T) (writeIdx : Nat)
  /-- About to add to `write_head_`. -/
  | publish (items : List T)
deriving DecidableEq

/-- Where the consumer is in `try_dequeue_batch`. -/
inductive ConsumerPc (T : Type) where
  | idle
  /-- About to load `write_head_`. -/
  | load (max : Nat)
  /-- In the copy loop, with the elements copied so far, of `n` to copy. -/
  | copy (n : Nat) (out : List T)
deriving DecidableEq

structure State (T : Type) where
  ring : Nat → T
  writeHead : Nat
  localWriteTail : Nat
  localTail : Nat
  producer : ProducerPc T
  consumer : ConsumerPc T

inductive Act (T : Type) where
  | pushBatch (items : List T)
  | tryDequeueBatch (max : Nat)
  | goProducer
  | goConsumer

inductive Event (T : Type) where
  /-- `push_batch` published its elements. -/
  | pushed (items : List T)
  /-- `try_dequeue_batch` returned. -/
  | dequeued (items : List T)

def init [Inhabited T] : State T := ⟨fun _ => default, 0, 0, 0, .idle, .idle⟩

/-- The next step of `push_batch`. -/
def State.goProducer (cap : Nat) (s : State T) : Option (State T) :=
  match s.producer with
  | .idle => none
  | .copy items i writeIdx =>
    match items[i]? with
    | some x => some { s with
        ring := update s.ring (slot cap writeIdx) x
        producer := .copy items (i + 1) (wadd writeIdx 1) }
    | none => some { s with producer := .setTail items writeIdx }
  | .setTail items writeIdx => some { s with
      localWriteTail := writeIdx, producer := .publish items }
  | .publish items => some { s with
      writeHead := wadd s.writeHead items.length, producer := .idle }

/-- The next step of `try_dequeue_batch`. -/
def State.goConsumer (cap : Nat) (s : State T) : Option (State T) :=
  match s.consumer with
  | .idle => none
  | .load max => some { s with
      consumer := .copy (min (wsub s.writeHead s.localTail) max) [] }
  | .copy n out =>
    if out.length < n then some { s with
      localTail := wadd s.localTail 1
      consumer := .copy n (out ++ [s.ring (slot cap s.localTail)]) }
    else some { s with consumer := .idle }

def step (cap : Nat) (s : State T) : Act T → Option (State T)
  | .pushBatch items =>
    match s.producer with
    | .idle => some { s with producer := .copy items 0 s.localWriteTail }
    | _ => none
  | .tryDequeueBatch max =>
    match s.consumer with
    | .idle => some { s with consumer := .load max }
    | _ => none
  | .goProducer => s.goProducer cap
  | .goConsumer => s.goConsumer cap

def event (s : State T) : Act T → Option (Event T)
  | .goProducer =>
    match s.producer with
    | .publish items => some (.pushed items)
    | _ => none
  | .goConsumer =>
    match s.consumer with
    | .copy n out => if out.length < n then none else some (.dequeued out)
    | _ => none
  | _ => none

def machine (cap : Nat) : Machine (State T) (Act T) (Event T) where
  step := step cap
  event := event

/-- Everything pushed, in order. -/
def pushed : List (Event T) → List T
  | [] => []
  | .pushed items :: t => pushed t ++ items
  | .dequeued _ :: t => pushed t

/-- Everything dequeued, in order. -/
def dequeued : List (Event T) → List T
  | [] => []
  | .dequeued items :: t => dequeued t ++ items
  | .pushed _ :: t => dequeued t

/-- The producer writes no slot that holds an unread element: when it copies the next
    element, fewer than `cap` elements lie between the consumer's index and its own. -/
def NoOverrun (cap : Nat) : List (Event T) → State T → Act T → Prop
  | _, s, .goProducer =>
    match s.producer with
    | .copy items i writeIdx => i < items.length → wsub writeIdx s.localTail < cap
    | _ => True
  | _, _, _ => True

instance (cap : Nat) (t : List (Event T)) (s : State T) (act : Act T) :
    Decidable (NoOverrun cap t s act) :=
  match act with
  | .goProducer =>
    match h : s.producer with
    | .copy items i writeIdx =>
      decidable_of_iff (i < items.length → wsub writeIdx s.localTail < cap)
        (by simp only [NoOverrun, h])
    | .idle | .setTail .. | .publish _ => isTrue (by simp only [NoOverrun, h])
  | .pushBatch _ | .tryDequeueBatch _ | .goConsumer => isTrue trivial

/-! ## The invariant -/

/-- The batch that the producer has not published yet. -/
def ProducerPc.items : ProducerPc T → List T
  | .idle => []
  | .copy items _ _ | .setTail items _ | .publish items => items

/-- How much of it is in its slots. -/
def ProducerPc.written : ProducerPc T → Nat
  | .copy _ i _ => i
  | p => p.items.length

/-- What the consumer has read and not returned yet. -/
def ConsumerPc.out : ConsumerPc T → List T
  | .copy _ out => out
  | _ => []

/-- The producer's own indices, when `p` elements were published. -/
def ProducerOk (p : Nat) (localWriteTail : Nat) : ProducerPc T → Prop
  | .idle => localWriteTail = p % wordSize
  | .copy items i writeIdx =>
    localWriteTail = p % wordSize ∧ writeIdx = (p + i) % wordSize ∧ i ≤ items.length
  | .setTail items writeIdx => writeIdx = (p + items.length) % wordSize
  | .publish items => localWriteTail = (p + items.length) % wordSize

/-- The consumer has as many elements left to copy as are published. -/
def ConsumerOk (left : Nat) : ConsumerPc T → Prop
  | .copy n out => n - out.length ≤ left
  | _ => True

theorem ConsumerOk.mono {left left' : Nat} {pc : ConsumerPc T} (h : ConsumerOk left pc)
    (hle : left ≤ left') : ConsumerOk left' pc := by
  cases pc with
  | copy n out => exact Nat.le_trans h hle
  | idle | load _ => trivial

/-- The number of elements that were read. -/
def reads (t : List (Event T)) (s : State T) : Nat :=
  (dequeued t).length + s.consumer.out.length

/-- **The invariant.** -/
structure Inv (cap : Nat) (t : List (Event T)) (s : State T) : Prop where
  head : s.writeHead = (pushed t).length % wordSize
  tail : s.localTail = reads t s % wordSize
  order : reads t s ≤ (pushed t).length
  taken : dequeued t ++ s.consumer.out = (pushed t).take (reads t s)
  room : (pushed t).length - reads t s + s.producer.written ≤ cap
  producer : ProducerOk (pushed t).length s.localWriteTail s.producer
  consumer : ConsumerOk ((pushed t).length - reads t s) s.consumer
  data : window cap s.ring (reads t s)
      ((pushed t).length - reads t s + s.producer.written) =
    (pushed t).drop (reads t s) ++ s.producer.items.take s.producer.written

theorem inv_init [Inhabited T] (cap : Nat) : Inv cap [] (init : State T) where
  head := rfl
  tail := rfl
  order := Nat.le_refl 0
  taken := rfl
  room := Nat.zero_le cap
  producer := rfl
  consumer := trivial
  data := rfl

section Steps

variable {cap k : Nat} {t : List (Event T)} {s s' : State T}

/-- Word indices that are at most `cap` apart have their distance as difference. -/
theorem wsub_mod {a b : Nat} (hcap : cap = 2 ^ k) (hk : k ≤ 63) (hle : b ≤ a)
    (hroom : a - b ≤ cap) : wsub (a % wordSize) (b % wordSize) = a - b := by
  have hlt : cap < wordSize := by
    rw [hcap]
    exact Nat.pow_lt_pow_right (by decide) (by omega)
  simp only [wsub, wordSize] at *
  omega

theorem wadd_mod_one (i : Nat) : wadd (i % wordSize) 1 = (i + 1) % wordSize := by
  rw [wadd, Nat.mod_add_mod]

theorem Inv.push (h : Inv cap t s) (items : List T) (hidle : s.producer = .idle) :
    Inv cap t { s with producer := .copy items 0 s.localWriteTail } := by
  have hp := h.producer
  have hd := h.data
  have hroom := h.room
  rw [hidle] at hp hd hroom
  exact { h with room := hroom, producer := ⟨hp, hp, Nat.zero_le _⟩, data := hd }

/-- The producer copies one element, behind everything that is unread. -/
theorem Inv.write (h : Inv cap t s) (hcap : cap = 2 ^ k) (hk : k ≤ 63) {items : List T}
    {i writeIdx : Nat} {x : T} (hpc : s.producer = .copy items i writeIdx)
    (hx : items[i]? = some x) (hspare : wsub writeIdx s.localTail < cap) :
    Inv cap t { s with
      ring := update s.ring (slot cap writeIdx) x
      producer := .copy items (i + 1) (wadd writeIdx 1) } := by
  obtain ⟨hi, hget⟩ := List.getElem?_eq_some_iff.mp hx
  have hp := h.producer
  have hroom := h.room
  have hd := h.data
  have horder := h.order
  rw [hpc] at hp hroom hd
  obtain ⟨htail, hidx, -⟩ := hp
  replace hroom : (pushed t).length - reads t s + i ≤ cap := hroom
  have hfree : (pushed t).length - reads t s + i < cap := by
    rw [hidx, h.tail, wsub_mod hcap hk (by omega) (by omega)] at hspare
    omega
  refine { h with room := hfree, producer := ⟨htail, ?_, hi⟩, data := ?_ }
  · rw [hidx, wadd_mod_one, Nat.add_assoc]
  · have hslot : slot cap writeIdx =
        (reads t s + ((pushed t).length - reads t s + i)) % cap := by
      rw [hidx, slot_mod hcap (by omega),
        show (pushed t).length + i = reads t s + ((pushed t).length - reads t s + i) by omega]
    show window cap (update s.ring (slot cap writeIdx) x) (reads t s)
      ((pushed t).length - reads t s + i + 1) = _ ++ items.take (i + 1)
    rw [hslot, window_push hfree, ← hget, ← List.take_append_getElem hi,
      ← List.append_assoc]
    exact congrArg (· ++ [_]) hd

/-- The copy loop ends. -/
theorem Inv.copied (h : Inv cap t s) {items : List T} {i writeIdx : Nat}
    (hpc : s.producer = .copy items i writeIdx) (hi : items.length ≤ i) :
    Inv cap t { s with producer := .setTail items writeIdx } := by
  have hp := h.producer
  have hroom := h.room
  have hd := h.data
  rw [hpc] at hp hroom hd
  obtain ⟨-, hidx, hle⟩ := hp
  obtain rfl : i = items.length := Nat.le_antisymm hle hi
  exact { h with room := hroom, producer := hidx, data := hd }

/-- `local_write_tail_` is stored. -/
theorem Inv.setTail (h : Inv cap t s) {items : List T} {writeIdx : Nat}
    (hpc : s.producer = .setTail items writeIdx) :
    Inv cap t { s with localWriteTail := writeIdx, producer := .publish items } := by
  have hp := h.producer
  have hroom := h.room
  have hd := h.data
  rw [hpc] at hp hroom hd
  exact { h with room := hroom, producer := hp, data := hd }

/-- The batch is published. -/
theorem Inv.publish (h : Inv cap t s) {items : List T} (hpc : s.producer = .publish items) :
    Inv cap (.pushed items :: t) { s with
      writeHead := wadd s.writeHead items.length, producer := .idle } := by
  have hp := h.producer
  have hroom := h.room
  have hd := h.data
  have horder := h.order
  rw [hpc] at hp hroom hd
  replace hroom : (pushed t).length - reads t s + items.length ≤ cap := hroom
  have hlen : (pushed (.pushed items :: t)).length = (pushed t).length + items.length :=
    List.length_append
  have hreads : reads (.pushed items :: t) { s with
      writeHead := wadd s.writeHead items.length, producer := .idle } = reads t s := rfl
  refine ⟨?_, h.tail, ?_, ?_, ?_, ?_, ?_, ?_⟩
  · show wadd s.writeHead items.length = _
    rw [h.head, hlen, wadd, Nat.mod_add_mod]
  · rw [hreads, hlen]
    omega
  · show dequeued t ++ s.consumer.out = (pushed t ++ items).take (reads t s)
    rw [List.take_append_of_le_length horder]
    exact h.taken
  · rw [hreads, hlen]
    show (pushed t).length + items.length - reads t s + 0 ≤ cap
    omega
  · rw [hlen]
    exact hp
  · rw [hreads, hlen]
    exact h.consumer.mono (by omega)
  · rw [hreads, hlen]
    show window cap s.ring (reads t s) ((pushed t).length + items.length - reads t s + 0) =
      (pushed t ++ items).drop (reads t s) ++ []
    rw [List.drop_append_of_le_length horder, List.append_nil, Nat.add_zero,
      show (pushed t).length + items.length - reads t s =
        (pushed t).length - reads t s + items.length by omega]
    refine hd.trans ?_
    show _ ++ items.take items.length = _
    rw [List.take_length]

/-- The consumer is between two copies, or called. -/
theorem Inv.consume (h : Inv cap t s) {pc : ConsumerPc T} (hout : pc.out = s.consumer.out)
    (hok : ConsumerOk ((pushed t).length - reads t s) pc) :
    Inv cap t { s with consumer := pc } := by
  have hreads : reads t { s with consumer := pc } = reads t s := by
    simp only [reads, hout]
  refine ⟨h.head, ?_, ?_, ?_, ?_, h.producer, ?_, ?_⟩
  · rw [hreads]
    exact h.tail
  · rw [hreads]
    exact h.order
  · rw [hreads]
    exact hout ▸ h.taken
  · rw [hreads]
    exact h.room
  · rw [hreads]
    exact hok
  · rw [hreads]
    exact h.data

/-- The consumer reads one element: the oldest unread one. -/
theorem Inv.read (h : Inv cap t s) (hcap : cap = 2 ^ k) (hk : k ≤ 63) {n : Nat}
    {out : List T} (hpc : s.consumer = .copy n out) (hn : out.length < n) :
    Inv cap t { s with
      localTail := wadd s.localTail 1
      consumer := .copy n (out ++ [s.ring (slot cap s.localTail)]) } := by
  have hc := h.consumer
  have htaken := h.taken
  have hroom := h.room
  have hd := h.data
  rw [hpc] at hc htaken
  replace hc : n - out.length ≤ (pushed t).length - reads t s := hc
  have hlt : reads t s < (pushed t).length := by omega
  have hreads : reads t { s with
      localTail := wadd s.localTail 1
      consumer := .copy n (out ++ [s.ring (slot cap s.localTail)]) } = reads t s + 1 := by
    simp only [reads, hpc, ConsumerPc.out, List.length_append, List.length_singleton]
    omega
  -- the window starts with the slot that is read
  rw [show (pushed t).length - reads t s + s.producer.written =
      ((pushed t).length - (reads t s + 1) + s.producer.written) + 1 by omega, window_cons,
    List.drop_eq_getElem_cons hlt, List.cons_append] at hd
  obtain ⟨hfirst, hrest⟩ := List.cons.inj hd
  refine ⟨h.head, ?_, ?_, ?_, ?_, h.producer, ?_, ?_⟩
  · rw [hreads]
    show wadd s.localTail 1 = _
    rw [h.tail, wadd_mod_one]
  · rw [hreads]
    exact hlt
  · rw [hreads, ← List.take_append_getElem hlt, ← htaken, h.tail, slot_mod hcap (by omega), hfirst]
    exact (List.append_assoc ..).symm
  · rw [hreads]
    show (pushed t).length - (reads t s + 1) + s.producer.written ≤ cap
    omega
  · rw [hreads]
    show n - (out ++ [_]).length ≤ _
    rw [List.length_append, List.length_singleton]
    omega
  · rw [hreads]
    exact hrest

theorem Inv.dequeue (h : Inv cap t s) {n : Nat} {out : List T} (hpc : s.consumer = .copy n out) :
    Inv cap (.dequeued out :: t) { s with consumer := .idle } := by
  have htaken := h.taken
  rw [hpc] at htaken
  have hreads : reads (.dequeued out :: t) { s with consumer := .idle } = reads t s := by
    simp only [reads, hpc, ConsumerPc.out, dequeued, List.length_append, List.length_nil,
      Nat.add_zero]
  refine ⟨h.head, ?_, ?_, ?_, ?_, h.producer, trivial, ?_⟩
  · rw [hreads]
    exact h.tail
  · rw [hreads]
    exact h.order
  · rw [hreads]
    show (dequeued t ++ out) ++ [] = _
    rw [List.append_nil]
    exact htaken
  · rw [hreads]
    exact h.room
  · rw [hreads]
    exact h.data

theorem Inv.goProducer (h : Inv cap t s) (hcap : cap = 2 ^ k) (hk : k ≤ 63)
    (hspare : NoOverrun cap t s .goProducer) (hstep : s.goProducer cap = some s') :
    Inv cap ((machine cap).record s .goProducer t) s' := by
  rw [Machine.record_eq_note]
  cases hpc : s.producer with
  | idle => simp only [State.goProducer, hpc, reduceCtorEq] at hstep
  | copy items i writeIdx =>
    simp only [NoOverrun, hpc] at hspare
    simp only [State.goProducer, hpc] at hstep
    have hnote : event s .goProducer = none := by simp only [event, hpc]
    rw [show (machine cap).event s .goProducer = none from hnote]
    cases hx : items[i]? with
    | some x =>
      simp only [hx, Option.some.injEq] at hstep
      subst hstep
      exact h.write hcap hk hpc hx (hspare (List.getElem?_eq_some_iff.mp hx).1)
    | none =>
      simp only [hx, Option.some.injEq] at hstep
      subst hstep
      exact h.copied hpc (List.getElem?_eq_none_iff.mp hx)
  | setTail items writeIdx =>
    simp only [State.goProducer, hpc, Option.some.injEq] at hstep
    subst hstep
    have hnote : event s .goProducer = none := by simp only [event, hpc]
    rw [show (machine cap).event s .goProducer = none from hnote]
    exact h.setTail hpc
  | publish items =>
    simp only [State.goProducer, hpc, Option.some.injEq] at hstep
    subst hstep
    have hnote : event s .goProducer = some (.pushed items) := by simp only [event, hpc]
    rw [show (machine cap).event s .goProducer = some (.pushed items) from hnote]
    exact h.publish hpc

theorem Inv.goConsumer (h : Inv cap t s) (hcap : cap = 2 ^ k) (hk : k ≤ 63)
    (hstep : s.goConsumer cap = some s') : Inv cap ((machine cap).record s .goConsumer t) s' := by
  rw [Machine.record_eq_note]
  cases hpc : s.consumer with
  | idle => simp only [State.goConsumer, hpc, reduceCtorEq] at hstep
  | load max =>
    simp only [State.goConsumer, hpc, Option.some.injEq] at hstep
    subst hstep
    have hnote : event s .goConsumer = none := by simp only [event, hpc]
    rw [show (machine cap).event s .goConsumer = none from hnote]
    refine h.consume (by rw [hpc]; rfl) ?_
    have hroom := h.room
    show min (wsub s.writeHead s.localTail) max - 0 ≤ _
    rw [h.head, h.tail, wsub_mod hcap hk h.order (by omega)]
    omega
  | copy n out =>
    by_cases hn : out.length < n
    · simp only [State.goConsumer, hpc, if_pos hn, Option.some.injEq] at hstep
      subst hstep
      have hnote : event s .goConsumer = none := by simp only [event, hpc, if_pos hn]
      rw [show (machine cap).event s .goConsumer = none from hnote]
      exact h.read hcap hk hpc hn
    · simp only [State.goConsumer, hpc, if_neg hn, Option.some.injEq] at hstep
      subst hstep
      have hnote : event s .goConsumer = some (.dequeued out) := by
        simp only [event, hpc, if_neg hn]
      rw [show (machine cap).event s .goConsumer = some (.dequeued out) from hnote]
      exact h.dequeue hpc

theorem Inv.step {act : Act T} (h : Inv cap t s) (hcap : cap = 2 ^ k) (hk : k ≤ 63)
    (hspare : NoOverrun cap t s act) (hstep : step cap s act = some s') :
    Inv cap ((machine cap).record s act t) s' := by
  cases act with
  | pushBatch items =>
    cases hpc : s.producer with
    | idle =>
      simp only [SpscQueue.step, hpc, Option.some.injEq] at hstep
      subst hstep
      exact h.push items hpc
    | _ => simp only [SpscQueue.step, hpc, reduceCtorEq] at hstep
  | tryDequeueBatch max =>
    cases hpc : s.consumer with
    | idle =>
      simp only [SpscQueue.step, hpc, Option.some.injEq] at hstep
      subst hstep
      exact h.consume (by rw [hpc]; rfl) trivial
    | _ => simp only [SpscQueue.step, hpc, reduceCtorEq] at hstep
  | goProducer => exact h.goProducer hcap hk hspare hstep
  | goConsumer => exact h.goConsumer hcap hk hstep

end Steps

/-! ## What is delivered -/

/-- **What was dequeued is a beginning of what was pushed**, in a run in which the
    producer writes no slot that holds an unread element. -/
theorem delivers_prefix_of_no_overrun [Inhabited T] {k : Nat} (hk : k ≤ 63)
    {t : List (Event T)} {s : State T}
    (h : Exec (machine (2 ^ k)) (NoOverrun (2 ^ k)) init t s) :
    dequeued t <+: pushed t := by
  have hinv : Inv (2 ^ k) t s :=
    h.invariant (Inv (2 ^ k)) (inv_init _) fun t s act s' hI hspare hstep =>
      hI.step rfl hk hspare hstep
  have hread : dequeued t ++ s.consumer.out <+: pushed t := by
    rw [hinv.taken]
    exact List.take_prefix ..
  exact (List.prefix_append ..).trans hread

/-- The schedule of a `push_batch` call alone. -/
def pushCall (items : List T) : List (Act T) :=
  .pushBatch items :: List.replicate (items.length + 3) .goProducer

/-- The schedule of a `try_dequeue_batch` call alone that copies `n` elements. -/
def dequeueCall (max n : Nat) : List (Act T) :=
  .tryDequeueBatch max :: List.replicate (n + 2) .goConsumer

/-- Two elements are pushed into two slots and read, then a third one. -/
theorem two_slots_deliver_three :
    ∃ (t : List (Event Nat)) (s : State Nat),
      Exec (machine (2 ^ 1)) (NoOverrun (2 ^ 1)) init t s ∧
      dequeued t = [1, 2, 3] ∧ dequeued t <+: pushed t := by
  let schedule : List (Act Nat) :=
    pushCall [1, 2] ++ dequeueCall 4 2 ++ pushCall [3] ++ dequeueCall 4 1
  have hexec : Exec (machine (2 ^ 1)) (NoOverrun (2 ^ 1)) init _ _ :=
    exec_run schedule
  exact ⟨_, _, hexec, by decide, delivers_prefix_of_no_overrun (by decide) hexec⟩

/-- **Three elements pushed into two slots come out as the third and the second**,
    and then the third again. -/
theorem overflow_delivers_overwritten :
    ∃ (t : List (Event Nat)) (s : State Nat),
      Exec (machine (2 ^ 1)) Always init t s ∧
      pushed t = [1, 2, 3] ∧ dequeued t = [3, 2, 3] ∧ ¬ dequeued t <+: pushed t := by
  let schedule : List (Act Nat) := pushCall [1, 2, 3] ++ dequeueCall 4 3
  have hexec : Exec (machine (2 ^ 1)) Always init _ _ := exec_run schedule
  exact ⟨_, _, hexec, by decide⟩

end SpscQueue
