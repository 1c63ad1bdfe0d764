import StorageRuntime.RingInvariantProofs
import StorageRuntime.RingBufferProofs

/-!
# MPMCRing of memory_pool.cc — the bounded ring of returned blocks

The sequence-numbered ring of `runtime/memory_pool.cc` (not the ring of
`runtime/mpmc_ring.h`), as a single thread runs it.  Each cell has a sequence
number next to its data: a cell whose number is the tail is free, a cell whose
number is one past the head is occupied.

A call that finds neither a free cell nor a full ring reloads its index and tries
again; with one thread it finds the same again, so the model says `none` for a call
that never returns.  It does not happen: on a ring that `Holds` the elements `l`,

* **`SeqRing.tryEnqueue_of_lt`**, **`SeqRing.tryEnqueue_of_full`**: `try_enqueue`
  appends, or refuses when the ring is full;
* **`SeqRing.tryDequeue_cons`**, **`SeqRing.tryDequeue_nil`**: `try_dequeue` takes the
  oldest element, or finds nothing.
-/

namespace ReturnRing

open Function WordArithmetic RingBuffer MpmcRing

variable {T : Type}

/-- The ring: `buffer_[i].sequence`, `buffer_[i].data` and the two indices. -/
structure SeqRing (T : Type) where
  sequence : Nat → Nat
  data : Nat → T
  head : Nat
  tail : Nat

/-- The constructor numbers the cells. -/
def SeqRing.new [Inhabited T] : SeqRing T := ⟨fun i => i, fun _ => default, 0, 0⟩

/-- `static_cast<intptr_t>` of a word. -/
def signed (w : Nat) : Int := if w < 2 ^ 63 then w else w - wordSize

/-- `try_enqueue`; `none` if the loop never ends. -/
def SeqRing.tryEnqueue (cap : Nat) (r : SeqRing T) (x : T) : Option (Bool × SeqRing T) :=
  let cell := slot cap r.tail
  let diff := signed (wsub (r.sequence cell) r.tail)
  if diff < 0 then some (false, r)
  else if diff ≠ 0 then none
  else some (true, { r with
    tail := wadd r.tail 1
    data := update r.data cell x
    sequence := update r.sequence cell (wadd r.tail 1) })

/-- `try_dequeue`; `none` if the loop never ends. -/
def SeqRing.tryDequeue (cap : Nat) (r : SeqRing T) : Option (Option T × SeqRing T) :=
  let cell := slot cap r.head
  let diff := signed (wsub (r.sequence cell) (wadd r.head 1))
  if diff < 0 then some (none, r)
  else if diff ≠ 0 then none
  else some (some (r.data cell), { r with
    head := wadd r.head 1
    sequence := update r.sequence cell (wadd r.head cap) })

/-- The ring holds the elements `l`, after `h` of them were taken. -/
structure HoldsAt (cap : Nat) (r : SeqRing T) (h : Nat) (l : List T) : Prop where
  head : r.head = h % wordSize
  tail : r.tail = (h + l.length) % wordSize
  bound : l.length ≤ cap
  data : window cap r.data h l.length = l
  -- occupied cells are numbered one past their position, free ones with the position
  occupied : ∀ i, i < l.length → r.sequence ((h + i) % cap) = (h + i + 1) % wordSize
  free : ∀ i, l.length ≤ i → i < cap → r.sequence ((h + i) % cap) = (h + i) % wordSize

/-- The ring holds the elements `l`. -/
def SeqRing.Holds (cap : Nat) (r : SeqRing T) (l : List T) : Prop := ∃ h, HoldsAt cap r h l

theorem SeqRing.holds_new [Inhabited T] {cap : Nat} (hcap : cap ≤ wordSize) :
    (SeqRing.new : SeqRing T).Holds cap [] := by
  refine ⟨0, rfl, rfl, Nat.zero_le _, rfl, fun i hi => absurd hi (Nat.not_lt_zero i), ?_⟩
  intro i _ hi
  show (0 + i) % cap = (0 + i) % wordSize
  rw [Nat.zero_add, Nat.mod_eq_of_lt hi, Nat.mod_eq_of_lt (Nat.lt_of_lt_of_le hi hcap)]

/-- What a ring holds is determined by the ring. -/
theorem SeqRing.Holds.unique {cap k : Nat} {r : SeqRing T} {l l' : List T}
    (hcap : cap = 2 ^ k) (hk : k ≤ 63) (h : r.Holds cap l) (h' : r.Holds cap l') : l = l' := by
  obtain ⟨i, h⟩ := h
  obtain ⟨j, h'⟩ := h'
  have hlt : cap < wordSize := by
    rw [hcap]
    exact Nat.pow_lt_pow_right (by decide) (by omega)
  have hpos : i % wordSize = j % wordSize := h.head.symm.trans h'.head
  have htail : (i + l.length) % wordSize = (j + l'.length) % wordSize :=
    h.tail.symm.trans h'.tail
  have hlen : l.length = l'.length := by
    have hb := h.bound
    have hb' := h'.bound
    simp only [wordSize] at *
    omega
  have hcell : i % cap = j % cap := by
    rw [← Nat.mod_mod_of_dvd i (hcap ▸ pow_dvd_wordSize (by omega)),
      ← Nat.mod_mod_of_dvd j (hcap ▸ pow_dvd_wordSize (by omega)), hpos]
  rw [← h.data, ← h'.data, hlen]
  exact window_congr hcell _

section Spec

variable {cap k : Nat} {r : SeqRing T} {l : List T}

/-- The ring is empty when the indices meet. -/
theorem SeqRing.Holds.head_eq_tail_iff (h : r.Holds cap l) (hcap : cap < wordSize) :
    r.head = r.tail ↔ l = [] := by
  obtain ⟨i, h⟩ := h
  have hbound := h.bound
  rw [h.head, h.tail, ← List.length_eq_zero_iff]
  simp only [wordSize] at *
  omega

theorem signed_wsub_self (i : Nat) : signed (wsub (i % wordSize) (i % wordSize)) = 0 := by
  rw [wsub_self (Nat.mod_lt i (by decide))]
  rfl

/-- A number that is behind by at most `2 ^ 62` shows as negative. -/
theorem signed_wsub_neg {i j : Nat} (hlt : i < j) (hle : j ≤ i + 2 ^ 62) :
    signed (wsub (i % wordSize) (j % wordSize)) < 0 := by
  have hword : 2 ^ 63 ≤ wsub (i % wordSize) (j % wordSize) ∧
      wsub (i % wordSize) (j % wordSize) < wordSize := by
    simp only [wsub, wordSize]
    omega
  rw [signed, if_neg (by omega)]
  omega

theorem capacity_bounds (hcap : cap = 2 ^ k) (hk : 1 ≤ k ∧ k ≤ 62) : 2 ≤ cap ∧ cap ≤ 2 ^ 62 := by
  subst hcap
  exact ⟨Nat.pow_le_pow_right Nat.zero_lt_two hk.1, Nat.pow_le_pow_right Nat.zero_lt_two hk.2⟩

/-- Two positions less than `cap` apart have different cells. -/
theorem cell_ne {h i j : Nat} (hi : i < cap) (hj : j < cap) (hne : i ≠ j) :
    (h + i) % cap ≠ (h + j) % cap := by
  have hwindow : h ≤ h + i ∧ h + i < h + cap := by omega
  exact mod_ne_of_window hwindow (by omega) (by omega)

/-- **`try_enqueue` appends to a ring that is not full.** -/
theorem SeqRing.tryEnqueue_of_lt (hcap : cap = 2 ^ k) (hk : 1 ≤ k ∧ k ≤ 62)
    (hr : r.Holds cap l) (hlt : l.length < cap) (x : T) :
    ∃ r', r.tryEnqueue cap x = some (true, r') ∧ r'.Holds cap (l ++ [x]) := by
  obtain ⟨h, hr⟩ := hr
  have hcell : slot cap r.tail = (h + l.length) % cap := by
    rw [hr.tail, slot_mod hcap (by omega)]
  have hdiff : signed (wsub (r.sequence (slot cap r.tail)) r.tail) = 0 := by
    rw [hcell, hr.free l.length (Nat.le_refl _) hlt, hr.tail, signed_wsub_self]
  have hcall : r.tryEnqueue cap x = some (true, { r with
      tail := wadd r.tail 1
      data := update r.data (slot cap r.tail) x
      sequence := update r.sequence (slot cap r.tail) (wadd r.tail 1) }) := by
    simp only [SeqRing.tryEnqueue, hdiff]
    rfl
  have hlen : (l ++ [x]).length = l.length + 1 := List.length_append
  have hnext : wadd r.tail 1 = (h + l.length + 1) % wordSize := by
    rw [hr.tail, wadd, Nat.mod_add_mod]
  refine ⟨_, hcall, h, hr.head, ?_, ?_, ?_, ?_, ?_⟩
  · rw [hlen]
    exact hnext
  · rw [hlen]
    exact hlt
  · rw [hlen]
    rw [hcell, window_push hlt, hr.data]
  · intro i hi
    show update r.sequence (slot cap r.tail) (wadd r.tail 1) _ = _
    rw [hcell, hnext]
    by_cases hil : i = l.length
    · rw [hil, update_self]
    · rw [update_of_ne (cell_ne (by omega) hlt hil)]
      exact hr.occupied i (by omega)
  · intro i hi hic
    show update r.sequence (slot cap r.tail) (wadd r.tail 1) _ = _
    rw [hcell, update_of_ne (cell_ne hic hlt (by omega))]
    exact hr.free i (by omega) hic

/-- **`try_enqueue` refuses on a full ring**: the cell of the tail is the cell of the
    head, which is occupied. -/
theorem SeqRing.tryEnqueue_of_full (hcap : cap = 2 ^ k) (hk : 1 ≤ k ∧ k ≤ 62)
    (hr : r.Holds cap l) (hfull : l.length = cap) (x : T) :
    r.tryEnqueue cap x = some (false, r) := by
  obtain ⟨h, hr⟩ := hr
  obtain ⟨htwo, hle⟩ := capacity_bounds hcap hk
  have hcell : slot cap r.tail = (h + 0) % cap := by
    rw [hr.tail, slot_mod hcap (by omega), hfull, Nat.add_mod_right, Nat.add_zero]
  have hdiff : signed (wsub (r.sequence (slot cap r.tail)) r.tail) < 0 := by
    rw [hcell, hr.occupied 0 (by omega), hr.tail]
    exact signed_wsub_neg (by omega) (by omega)
  simp only [SeqRing.tryEnqueue, hdiff, if_true]

/-- **`try_dequeue` finds nothing in an empty ring.** -/
theorem SeqRing.tryDequeue_nil (hcap : cap = 2 ^ k) (hk : 1 ≤ k ∧ k ≤ 62)
    (hr : r.Holds cap []) : r.tryDequeue cap = some (none, r) := by
  obtain ⟨h, hr⟩ := hr
  obtain ⟨htwo, hle⟩ := capacity_bounds hcap hk
  have hcell : slot cap r.head = (h + 0) % cap := by
    rw [hr.head, slot_mod hcap (by omega), Nat.add_zero]
  have hnext : wadd r.head 1 = (h + 1) % wordSize := by
    rw [hr.head, wadd, Nat.mod_add_mod]
  have hdiff : signed (wsub (r.sequence (slot cap r.head)) (wadd r.head 1)) < 0 := by
    rw [hcell, hr.free 0 (Nat.le_refl _) (by omega), hnext]
    exact signed_wsub_neg (by omega) (by omega)
  simp only [SeqRing.tryDequeue, hdiff, if_true]

/-- **`try_dequeue` takes the oldest element.** -/
theorem SeqRing.tryDequeue_cons (hcap : cap = 2 ^ k) (hk : 1 ≤ k ∧ k ≤ 62) {x : T}
    (hr : r.Holds cap (x :: l)) : ∃ r', r.tryDequeue cap = some (some x, r') ∧ r'.Holds cap l := by
  obtain ⟨h, hr⟩ := hr
  have hbound := hr.bound
  rw [List.length_cons] at hbound
  have hcell : slot cap r.head = (h + 0) % cap := by
    rw [hr.head, slot_mod hcap (by omega), Nat.add_zero]
  have hnext : wadd r.head 1 = (h + 1) % wordSize := by
    rw [hr.head, wadd, Nat.mod_add_mod]
  have hdiff : signed (wsub (r.sequence (slot cap r.head)) (wadd r.head 1)) = 0 := by
    rw [hcell, hr.occupied 0 (Nat.zero_lt_succ _), hnext]
    exact signed_wsub_self _
  have hdata := hr.data
  rw [List.length_cons, window_cons] at hdata
  obtain ⟨hfirst, hrest⟩ := List.cons.inj hdata
  have hcall : r.tryDequeue cap = some (some x, { r with
      head := wadd r.head 1
      sequence := update r.sequence (slot cap r.head) (wadd r.head cap) }) := by
    simp only [SeqRing.tryDequeue, hdiff]
    rw [hcell, Nat.add_zero, hfirst]
    rfl
  refine ⟨_, hcall, h + 1, hnext, ?_, by omega, hrest, ?_, ?_⟩
  · rw [hr.tail, List.length_cons, Nat.add_assoc, Nat.add_comm 1]
  · intro i hi
    show update r.sequence (slot cap r.head) _ _ = _
    rw [hcell, Nat.add_assoc h 1 i, Nat.add_comm 1 i,
      update_of_ne (cell_ne (by omega) (by omega) (by omega))]
    exact hr.occupied (i + 1) (Nat.succ_lt_succ hi)
  · intro i hi hic
    show update r.sequence (slot cap r.head) (wadd r.head cap) _ = _
    rw [Nat.add_assoc h 1 i, Nat.add_comm 1 i, hcell]
    by_cases hlast : i + 1 = cap
    · -- the cell that was just emptied is the last free one
      rw [hlast, Nat.add_mod_right, Nat.add_zero, update_self, hr.head, wadd, Nat.mod_add_mod]
    · rw [update_of_ne (cell_ne (by omega) (by omega) (by omega))]
      exact hr.free (i + 1) (Nat.succ_le_succ hi) (by omega)

end Spec

end ReturnRing
