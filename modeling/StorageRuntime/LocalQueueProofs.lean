import StorageRuntime.RingInvariantProofs
import StorageRuntime.RingBufferProofs

/-!
# LocalQueue — a list of at most `Capacity - 1` elements

`runtime/local_queue.h`, for every `Capacity` that is a power of two.  Two masked
indices mark a window of the array; one slot always stays free, so that equal
indices mean an empty queue.

**`local_queue_is_list`**: every sequence of calls returns what it returns on a
list that takes at most `Capacity - 1` elements.
-/

namespace LocalRing

open Function WordArithmetic RingBuffer MpmcRing

variable {T : Type} {k : Fin 64}

/-- `Capacity`, a power of two in a `size_t`. -/
def capacity (k : Fin 64) : Nat := 2 ^ k.val

theorem capacity_dvd (k : Fin 64) : capacity k ∣ wordSize := pow_dvd_wordSize (by omega)

theorem capacity_pos (k : Fin 64) : 0 < capacity k := Nat.two_pow_pos _

theorem capacity_lt (k : Fin 64) : capacity k < wordSize :=
  Nat.pow_lt_pow_right (by decide) k.isLt

theorem slot_capacity (i : Nat) : slot (capacity k) i = i % capacity k := slot_eq (k := k.val) rfl

/-- The index after `i`: `(i + 1) & (Capacity - 1)`. -/
def next (k : Fin 64) (i : Nat) : Nat := slot (capacity k) (i + 1)

theorem next_lt (i : Nat) : next k i < capacity k := by
  rw [next, slot_capacity]
  exact Nat.mod_lt _ (capacity_pos k)

theorem next_cases {i : Nat} (h : i < capacity k) :
    (i + 1 < capacity k ∧ next k i = i + 1) ∨ (i + 1 = capacity k ∧ next k i = 0) := by
  rw [next, slot_capacity]
  rcases Nat.lt_or_eq_of_le (Nat.succ_le_of_lt h) with hlt | heq
  · exact .inl ⟨hlt, Nat.mod_eq_of_lt hlt⟩
  · exact .inr ⟨heq, by rw [← Nat.succ_eq_add_one, heq, Nat.mod_self]⟩

/-- The array and the two indices, which stay below the capacity. -/
structure LocalQueue (T : Type) (k : Fin 64) where
  items_ : Nat → T
  head : Nat
  tail : Nat
  head_lt : head < capacity k
  tail_lt : tail < capacity k

namespace LocalQueue

/-- A new queue; what the array holds is arbitrary. -/
def new (k : Fin 64) (items_ : Nat → T) : LocalQueue T k :=
  ⟨items_, 0, 0, capacity_pos k, capacity_pos k⟩

def tryEnqueue (q : LocalQueue T k) (item : T) : Bool × LocalQueue T k :=
  if next k q.tail = q.head then (false, q)
  else (true, { q with
    items_ := update q.items_ q.tail item
    tail := next k q.tail
    tail_lt := next_lt _ })

def tryDequeue (q : LocalQueue T k) : Option T × LocalQueue T k :=
  if q.head = q.tail then (none, q)
  else (some (q.items_ q.head), { q with head := next k q.head, head_lt := next_lt _ })

/-- `try_dequeue_batch`: each turn of the loop takes one element, while there are any. -/
def tryDequeueBatch (q : LocalQueue T k) : Nat → List T × LocalQueue T k
  | 0 => ([], q)
  | max + 1 =>
    match q.tryDequeue with
    | (none, q') => ([], q')
    | (some x, q') => (x :: (q'.tryDequeueBatch max).1, (q'.tryDequeueBatch max).2)

def size (q : LocalQueue T k) : Nat := slot (capacity k) (wsub q.tail q.head)

def empty (q : LocalQueue T k) : Bool := q.head == q.tail

/-- The elements from `head` up to `tail`. -/
def items (q : LocalQueue T k) : List T := window (capacity k) q.items_ q.head q.size

theorem size_lt (q : LocalQueue T k) : q.size < capacity k := by
  rw [size, slot_capacity]
  exact Nat.mod_lt _ (capacity_pos k)

@[simp] theorem length_items (q : LocalQueue T k) : q.items.length = q.size := length_window ..

/-- The masked difference, where the tail has come round and where it has not. -/
theorem size_cases (q : LocalQueue T k) : (q.head ≤ q.tail ∧ q.size = q.tail - q.head) ∨
    (q.tail < q.head ∧ q.size = q.tail + capacity k - q.head) := by
  have hh := q.head_lt
  have ht := q.tail_lt
  have hword := capacity_lt k
  rw [size, slot_capacity]
  rcases Nat.lt_or_ge q.tail q.head with hlt | hle
  · obtain ⟨m, hm⟩ := capacity_dvd k
    have hround : wsub q.tail q.head = q.tail + capacity k - q.head + capacity k * (m - 1) := by
      rw [Nat.mul_sub_one, ← hm, wsub, Nat.mod_eq_of_lt (by omega)]
      omega
    exact .inr ⟨hlt, by rw [hround, Nat.add_mul_mod_self_left]; exact Nat.mod_eq_of_lt (by omega)⟩
  · exact .inl ⟨hle, by rw [wsub_eq hle (by omega)]; exact Nat.mod_eq_of_lt (by omega)⟩

/-- The tail is the slot behind the elements. -/
theorem tail_eq (q : LocalQueue T k) : q.tail = (q.head + q.size) % capacity k := by
  have hh := q.head_lt
  have ht := q.tail_lt
  rcases q.size_cases with ⟨hle, hs⟩ | ⟨hlt, hs⟩
  · rw [hs, Nat.add_sub_of_le hle, Nat.mod_eq_of_lt ht]
  · rw [hs, show q.head + (q.tail + capacity k - q.head) = q.tail + capacity k by omega,
      Nat.add_mod_right, Nat.mod_eq_of_lt ht]

theorem items_eq_nil_iff (q : LocalQueue T k) : q.items = [] ↔ q.head = q.tail := by
  have hh := q.head_lt
  have hs := q.size_cases
  rw [← List.length_eq_zero_iff, length_items]
  omega

theorem items_tryEnqueue (q : LocalQueue T k) (item : T) :
    (q.tryEnqueue item).1 = decide (q.items.length < capacity k - 1) ∧ (q.tryEnqueue item).2.items =
        if q.items.length < capacity k - 1 then q.items ++ [item] else q.items := by
  have hh := q.head_lt
  have ht := q.tail_lt
  have hs := q.size_cases
  have hn := next_cases ht
  rw [length_items, tryEnqueue]
  by_cases hfull : next k q.tail = q.head
  · have hroom : ¬ q.size < capacity k - 1 := by omega
    rw [if_pos hfull, if_neg hroom, decide_eq_false hroom]
    exact ⟨rfl, rfl⟩
  · have hroom : q.size < capacity k - 1 := by omega
    rw [if_neg hfull, if_pos hroom, decide_eq_true hroom]
    refine ⟨rfl, ?_⟩
    -- the new element is written right behind the window
    generalize hq : LocalQueue.mk (k := k) (update q.items_ q.tail item) _ (next k q.tail) _ _ = q'
    have hgrow : q'.size = q.size + 1 := by
      have hs' := q'.size_cases
      rw [← hq] at hs' ⊢
      dsimp only at hs'
      omega
    rw [items, hgrow, ← hq]
    nth_rewrite 1 [q.tail_eq]
    exact window_push (by omega) item

theorem items_tryDequeue (q : LocalQueue T k) :
    q.tryDequeue.1 = q.items.head? ∧ q.tryDequeue.2.items = q.items.tail := by
  have hh := q.head_lt
  have ht := q.tail_lt
  have hs := q.size_cases
  have hn := next_cases hh
  rw [tryDequeue]
  by_cases hempty : q.head = q.tail
  · rw [if_pos hempty, q.items_eq_nil_iff.mpr hempty]
    exact ⟨rfl, rfl⟩
  · rw [if_neg hempty]
    obtain ⟨m, hm⟩ : ∃ m, q.size = m + 1 := Nat.exists_eq_add_one.mpr (by omega)
    generalize hq : LocalQueue.mk (k := k) q.items_ (next k q.head) q.tail _ _ = q'
    have hshrink : q'.size = m := by
      have hs' := q'.size_cases
      rw [← hq] at hs' ⊢
      dsimp only at hs'
      omega
    rw [items, hm, window_cons, Nat.mod_eq_of_lt hh, items, hshrink, ← hq]
    refine ⟨rfl, window_congr ?_ m⟩
    show next k q.head % capacity k = (q.head + 1) % capacity k
    rcases hn with ⟨-, hn⟩ | ⟨hc, hn⟩
    · rw [hn]
    · rw [hn, hc, Nat.zero_mod, Nat.mod_self]

theorem items_tryDequeueBatch (max : Nat) : ∀ q : LocalQueue T k,
    (q.tryDequeueBatch max).1 = q.items.take max ∧
      (q.tryDequeueBatch max).2.items = q.items.drop max := by
  induction max with
  | zero => intro q; exact ⟨rfl, rfl⟩
  | succ max ih =>
    intro q
    obtain ⟨hhead, htail⟩ := q.items_tryDequeue
    rw [tryDequeueBatch]
    rcases hq : q.tryDequeue with ⟨o, q'⟩
    rw [hq] at hhead htail
    cases hitems : q.items with
    | nil =>
      rw [hitems] at hhead htail
      subst hhead
      exact ⟨rfl, htail⟩
    | cons x xs =>
      rw [hitems] at hhead htail
      subst hhead
      obtain ⟨hfirst, hrest⟩ := ih q'
      rw [htail] at hfirst hrest
      exact ⟨congrArg (x :: ·) hfirst, hrest⟩

end LocalQueue

/-! ## Sequences of calls -/

inductive Op (T : Type) where
  | tryEnqueue (item : T)
  | tryDequeue
  | tryDequeueBatch (max : Nat)
  | size
  | empty

/-- What a call returns; a batch is what was written to `items`. -/
inductive Result (T : Type) where
  | accepted (b : Bool)
  | item (x : Option T)
  | batch (xs : List T)
  | size (n : Nat)
  | empty (b : Bool)
deriving DecidableEq

/-- A call of the queue. -/
def LocalQueue.call (q : LocalQueue T k) : Op T → Result T × LocalQueue T k
  | .tryEnqueue item => (.accepted (q.tryEnqueue item).1, (q.tryEnqueue item).2)
  | .tryDequeue => (.item q.tryDequeue.1, q.tryDequeue.2)
  | .tryDequeueBatch max => (.batch (q.tryDequeueBatch max).1, (q.tryDequeueBatch max).2)
  | .size => (.size q.size, q)
  | .empty => (.empty q.empty, q)

/-- The same call of a list that takes at most `bound` elements. -/
def callList (bound : Nat) (l : List T) : Op T → Result T × List T
  | .tryEnqueue item =>
    if l.length < bound then (.accepted true, l ++ [item]) else (.accepted false, l)
  | .tryDequeue => (.item l.head?, l.tail)
  | .tryDequeueBatch max => (.batch (l.take (min max l.length)), l.drop (min max l.length))
  | .size => (.size l.length, l)
  | .empty => (.empty l.isEmpty, l)

/-- The results of a sequence of calls, and what is left. -/
def calls {S : Type} (call : S → Op T → Result T × S) : S → List (Op T) → List (Result T) × S
  | s, [] => ([], s)
  | s, op :: ops =>
    let later := calls call (call s op).2 ops
    ((call s op).1 :: later.1, later.2)

/-- One call of the queue is the call of its list. -/
theorem call_eq_callList (q : LocalQueue T k) (op : Op T) :
    (q.call op).1 = (callList (capacity k - 1) q.items op).1 ∧
      (q.call op).2.items = (callList (capacity k - 1) q.items op).2 := by
  cases op with
  | tryEnqueue item =>
    obtain ⟨hr, hq⟩ := q.items_tryEnqueue item
    rw [LocalQueue.call, callList, hr]
    split
    next h => exact ⟨by rw [decide_eq_true h], by rw [hq, if_pos h]⟩
    next h => exact ⟨by rw [decide_eq_false h], by rw [hq, if_neg h]⟩
  | tryDequeue =>
    obtain ⟨hr, hq⟩ := q.items_tryDequeue
    exact ⟨congrArg Result.item hr, hq⟩
  | tryDequeueBatch max =>
    obtain ⟨hr, hq⟩ := q.items_tryDequeueBatch max
    rw [callList, List.take_eq_take_min.symm, List.drop_eq_drop_min.symm]
    exact ⟨congrArg Result.batch hr, hq⟩
  | size => exact ⟨congrArg Result.size q.length_items.symm, rfl⟩
  | empty =>
    refine ⟨congrArg Result.empty ?_, rfl⟩
    rw [LocalQueue.empty, Bool.eq_iff_iff, beq_iff_eq, List.isEmpty_iff, q.items_eq_nil_iff]

theorem calls_eq_callList (ops : List (Op T)) : ∀ q : LocalQueue T k,
    (calls LocalQueue.call q ops).1 = (calls (callList (capacity k - 1)) q.items ops).1 ∧
      (calls LocalQueue.call q ops).2.items =
        (calls (callList (capacity k - 1)) q.items ops).2 := by
  induction ops with
  | nil => intro q; exact ⟨rfl, rfl⟩
  | cons op ops ih =>
    intro q
    obtain ⟨hr, hq⟩ := call_eq_callList q op
    obtain ⟨hrs, hqs⟩ := ih (q.call op).2
    rw [hq] at hrs hqs
    exact ⟨by rw [calls, calls, hr, hrs], hqs⟩

/-- **`LocalQueue` is a bounded list.**  For every capacity, whatever the array holds at first,
    each call of every sequence returns what it returns on a list of at most `Capacity - 1`
    elements, and the elements of the queue are that list. -/
theorem local_queue_is_list (k : Fin 64) (items_ : Nat → T) (ops : List (Op T)) :
    let queue := calls LocalQueue.call (LocalQueue.new k items_) ops
    let list := calls (callList (2 ^ k.val - 1)) [] ops
    queue.1 = list.1 ∧ queue.2.items = list.2 := by
  have hnew : (LocalQueue.new k items_).items = [] := (LocalQueue.items_eq_nil_iff _).mpr rfl
  have hcalls := calls_eq_callList ops (LocalQueue.new k items_)
  rw [hnew] at hcalls
  exact hcalls

end LocalRing
