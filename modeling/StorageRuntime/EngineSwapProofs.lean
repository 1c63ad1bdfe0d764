import StorageRuntime.WorkQueueProofs

/-!
# OnlineWorker — replacing the engine queue

`swap_engine_queue` of `runtime/online_worker.h` empties the old engine queue
item by item into the new one and puts the new one in its place.  What the new
queue does with an item is decided by three dynamic casts, and the results of
the enqueues are ignored.

**`swap_keeps_work_iff`**: the new queue holds its own items followed by those of
the old one exactly if there were none, or it is not an SPSC queue (for which
no cast fits) and has room for all of them.
-/

namespace EngineSwap

open WorkQueue

variable {T : Type}

/-- `TaskDispatchMode`. -/
inductive DispatchMode where
  | indirect
  | direct
deriving DecidableEq

/-- The queues of a worker and what `swap_engine_queue` reads and writes of it. -/
structure Worker (T : Type) where
  queues : List (Queue T)
  idxEngine : Nat
  dispatchMode : DispatchMode

/-- The body of the loop: the item goes to the new queue if one of the casts succeeds. -/
def handOver (new : Queue T) (item : T) : Queue T :=
  match new with
  | .local q => .local (q.tryEnqueue item).2
  | .ring q => (Queue.ring q).enqueue item
  | .affine q => (Queue.affine q).enqueue item
  | .spsc q => .spsc q

/-- `while (old_q->try_dequeue(item))`, for at most `fuel` tests. -/
def migrate : Nat → Queue T → Queue T → Option (Queue T)
  | 0, _, _ => none
  | fuel + 1, old, new =>
    match old.tryDequeue with
    | (none, _) => some new
    | (some item, old') => migrate fuel old' (handOver new item)

/-- `semantic() == QueueSemantic::kLocal`. -/
def modeOf (q : Queue T) : DispatchMode :=
  if q.kind = .local then .direct else .indirect

/-- `swap_engine_queue`, with its result; `none` if the loop takes more than `fuel` tests. -/
def Worker.swapEngineQueue (w : Worker T) (new : Queue T) (fuel : Nat) :
    Option (Bool × Worker T) :=
  match w.queues[w.idxEngine]? with
  | none => some (false, w)
  | some old =>
    match migrate fuel old new with
    | none => none
    | some q => some (true, { w with
        queues := w.queues.set w.idxEngine q
        dispatchMode := modeOf q })

/-! ## The loop -/

/-- The SPSC queue gets nothing; the others are given the item as by `enqueue`. -/
theorem handOver_eq (new : Queue T) (item : T) (h : new.kind ≠ .spsc) :
    handOver new item = new.enqueue item := by
  cases new with
  | spsc q => exact absurd rfl h
  | _ => rfl

@[simp] theorem kind_handOver (new : Queue T) (item : T) : (handOver new item).kind = new.kind := by
  cases new <;> rfl

/-- The loop hands the old items over one after the other, and ends. -/
theorem migrate_eq : ∀ (fuel : Nat) (old new : Queue T), old.items.length < fuel →
    migrate fuel old new = some (old.items.foldl handOver new) := by
  intro fuel
  induction fuel with
  | zero => intro old new h; exact absurd h (Nat.not_lt_zero _)
  | succ fuel ih =>
    intro old new h
    obtain ⟨hfirst, hrest⟩ := old.items_tryDequeue
    rw [migrate]
    cases hitems : old.items with
    | nil =>
      rw [hitems] at hfirst
      rw [show old.tryDequeue = (none, old.tryDequeue.2) from Prod.ext hfirst rfl]
      rfl
    | cons x xs =>
      rw [hitems] at hfirst hrest h
      rw [show old.tryDequeue = (some x, old.tryDequeue.2) from Prod.ext hfirst rfl]
      have hshort : old.tryDequeue.2.items.length < fuel := by
        rw [hrest]
        exact Nat.lt_of_succ_lt_succ h
      refine (ih _ (handOver new x) hshort).trans ?_
      rw [hrest]
      rfl

theorem kind_foldl_handOver (xs : List T) (new : Queue T) :
    (xs.foldl handOver new).kind = new.kind := by
  induction xs generalizing new with
  | nil => rfl
  | cons x xs ih => exact (ih _).trans (kind_handOver new x)

theorem foldl_handOver_spsc (q : SpscQueue T) (xs : List T) :
    xs.foldl handOver (.spsc q) = .spsc q := by
  induction xs with
  | nil => rfl
  | cons x xs ih => exact ih

/-- As much as fits is appended. -/
theorem items_foldl_handOver (xs : List T) :
    ∀ new : Queue T, new.kind ≠ .spsc → (xs.foldl handOver new).items =
      new.items ++ xs.take (new.limit - new.items.length) := by
  induction xs with
  | nil => intro new _; simp
  | cons x xs ih =>
    intro new hkind
    rw [List.foldl_cons, handOver_eq new x hkind, ih _ (by simpa using hkind), Queue.limit_enqueue]
    rcases Nat.lt_or_ge new.items.length new.limit with hlt | hge
    · obtain ⟨m, hm⟩ : ∃ m, new.limit - new.items.length = m + 1 :=
        Nat.exists_eq_add_one.mpr (by omega)
      rw [new.items_enqueue_of_lt x hlt hkind, hm, List.take_succ_cons, List.append_assoc,
        List.length_append, List.length_singleton,
        show new.limit - (new.items.length + 1) = m by omega]
      rfl
    · rw [new.items_enqueue_of_ge x hge hkind, Nat.sub_eq_zero_of_le hge]
      rfl

/-- **What the loop makes of the new queue.** -/
theorem migrated_iff (old new : Queue T) :
    (old.items.foldl handOver new).items = new.items ++ old.items ↔ old.items = [] ∨
        (new.kind ≠ .spsc ∧ new.items.length + old.items.length ≤ new.limit) := by
  by_cases hkind : new.kind = .spsc
  · obtain ⟨q, rfl⟩ : ∃ q, new = .spsc q := by
      cases new with
      | spsc q => exact ⟨q, rfl⟩
      | _ => cases hkind
    rw [foldl_handOver_spsc]
    constructor
    · intro h
      exact .inl (List.append_right_eq_self.mp h.symm)
    · rintro (hnil | ⟨hne, -⟩)
      · rw [hnil, List.append_nil]
      · exact absurd hkind hne
  · rw [items_foldl_handOver _ _ hkind, List.append_right_inj]
    constructor
    · intro h
      have hlen := congrArg List.length h
      rw [List.length_take] at hlen
      rcases Nat.eq_zero_or_pos old.items.length with hzero | hpos
      · exact .inl (List.eq_nil_of_length_eq_zero hzero)
      · exact .inr ⟨hkind, by omega⟩
    · rintro (hnil | ⟨-, hle⟩)
      · rw [hnil, List.take_nil]
      · exact List.take_of_length_le (by omega)

/-! ## The call -/

/-- The worker after the old queue was emptied into the new one. -/
def Worker.swapped (w : Worker T) (old new : Queue T) : Worker T :=
  { w with
    queues := w.queues.set w.idxEngine (old.items.foldl handOver new)
    dispatchMode := modeOf (old.items.foldl handOver new) }

/-- The call returns true if there is an engine queue. -/
theorem swapEngineQueue_eq {w : Worker T} {new old : Queue T} {fuel : Nat}
    (hold : w.queues[w.idxEngine]? = some old) (hfuel : old.items.length < fuel) :
    w.swapEngineQueue new fuel = some (true, w.swapped old new) := by
  simp only [Worker.swapEngineQueue, hold, migrate_eq fuel old new hfuel, Worker.swapped]

/-- **When replacing the engine queue keeps the pending work.**  For every content of the old
    queue and every new queue, the call returns true, the new queue is the engine queue, and
    it holds its own earlier items followed by all of the old ones exactly if there were no
    old ones, or the new queue is no SPSC queue and has room for them. -/
theorem swap_keeps_work_iff (w : Worker T) (new old : Queue T) {fuel : Nat}
    (hold : w.queues[w.idxEngine]? = some old) (hfuel : old.items.length < fuel) :
    ∃ w' q, w.swapEngineQueue new fuel = some (true, w') ∧
      w'.queues[w'.idxEngine]? = some q ∧ q.kind = new.kind ∧
      (q.items = new.items ++ old.items ↔ old.items = [] ∨
          (new.kind ≠ .spsc ∧ new.items.length + old.items.length ≤ new.limit)) := by
  have hidx : w.idxEngine < w.queues.length := (List.getElem?_eq_some_iff.mp hold).1
  exact ⟨w.swapped old new, old.items.foldl handOver new, swapEngineQueue_eq hold hfuel,
    List.getElem?_set_self hidx, kind_foldl_handOver _ _, migrated_iff old new⟩

/-- A ring with two items is replaced by a local queue. -/
theorem swap_keeps_two :
    ∃ (w w' : Worker Nat) (old new q : Queue Nat), w.queues[w.idxEngine]? = some old ∧
      old.items = [7, 8] ∧ w.swapEngineQueue new 3 = some (true, w') ∧
      w'.queues[w'.idxEngine]? = some q ∧ q.items = [7, 8] := by
  let old := ((Option.get (make 2 .ring : Option (Queue Nat)) (by decide)).enqueue 7).enqueue 8
  obtain ⟨w', q, hswap, hq, -, hiff⟩ :=
    swap_keeps_work_iff ⟨[old], 0, .indirect⟩ (.local LocalQueue.new) old rfl
      (show old.items.length < 3 by decide)
  exact ⟨_, w', old, _, q, rfl, by decide, hswap, hq,
    (hiff.mpr (.inr (by decide))).trans (by decide)⟩

/-- A ring of the size of the engine queue can hold any number of items up to 65536. -/
theorem exists_engine_ring {n : Nat} (hn : n ≤ 65536) :
    ∃ q : Queue Nat, q.items.length = n ∧ q.kind = .ring ∧ q.limit = 65536 := by
  induction n with
  | zero =>
    have hnew : make 65536 .ring =
        some (Option.get (make 65536 .ring : Option (Queue Nat)) (by decide)) :=
      (Option.some_get _).symm
    obtain ⟨hempty, hkind⟩ := Queue.items_make hnew
    exact ⟨_, by rw [hempty]; rfl, hkind, by decide⟩
  | succ n ih =>
    obtain ⟨q, hlen, hkind, hlimit⟩ := ih (by omega)
    refine ⟨q.enqueue 7, ?_, by rw [Queue.kind_enqueue, hkind], by
      rw [Queue.limit_enqueue, hlimit]⟩
    rw [q.items_enqueue_of_lt 7 (by omega) (by rw [hkind]; nofun), List.length_append, hlen]
    rfl

/-- **The swap that `apply_plan` makes can lose work.**  An engine ring with 1024 pending items
    is replaced by a `LocalWorkQueue` that was asked to hold 200000: the call returns true and
    an item is gone. -/
theorem swap_to_local_loses :
    ∃ (w w' : Worker Nat) (old new q : Queue Nat), w.queues[w.idxEngine]? = some old ∧
      old.items.length = 1024 ∧ make 200000 .local = some new ∧
      w.swapEngineQueue new 1025 = some (true, w') ∧ w'.queues[w'.idxEngine]? = some q ∧
      q.items ≠ new.items ++ old.items ∧ q.items.length = 1023 := by
  obtain ⟨old, hlen, -, -⟩ := exists_engine_ring (n := 1024) (by decide)
  have hnew : (Queue.local LocalQueue.new : Queue Nat).items = [] :=
    (Queue.items_make (show make 200000 .local = some _ from rfl)).1
  have hq := items_foldl_handOver old.items (.local LocalQueue.new) nofun
  rw [hnew, List.nil_append] at hq
  have hcount : (old.items.foldl handOver (.local LocalQueue.new)).items.length = 1023 := by
    rw [hq, List.length_take, hlen]
    rfl
  let w : Worker Nat := ⟨[old], 0, .indirect⟩
  refine ⟨w, w.swapped old (.local LocalQueue.new), old, .local LocalQueue.new, _, rfl, hlen, rfl,
    swapEngineQueue_eq rfl (by omega), rfl, fun h => ?_, hcount⟩
  rw [hnew, List.nil_append] at h
  have := congrArg List.length h
  omega

end EngineSwap
