import StorageRuntime.OnlineWorkerProofs
import StorageRuntime.YieldRoutingProofs

/-!
# OnlineWorker — what keeps a worker from sleeping on submitted work

`submit_engine`, `submit_net_io`, `submit_disk_io` and `enqueue_affine` enqueue and
return; none of them notifies the worker.  In `run()` the worker stays awake because of
its timer coroutine, which is in some queue whenever the policy decides.

* **`never_sleeps_on_work`**: as long as every queue takes the timer when it yields,
  the thread does not even call `enter_idle()`.
* `asleep_on_work`: a full engine queue drops the timer.  Once the thread has worked off
  what is queued it goes to sleep, and what is submitted then stays where it is.
-/

namespace OnlineWorker

open Interleaving AdaptiveIdle WorkQueue Scheduler

variable {T Agent P : Type}

/-! ## Where the timer is -/

/-- The queues are of the kinds that the constructor registered. -/
def Kinds (w : Work (Handle T) P) : Prop :=
  w.queues.map Queue.kind = [.ring, .spsc, .spsc, .ring, .affine]

/-- In `run()` the timer yields to these queues only. -/
def TimerQueue (i : Nat) : Prop := i = idxAffine ∨ i = idxEngine ∨ i = idxTimer

/-- The timer is in one of its queues. -/
def Home (w : Work (Handle T) P) : Prop := ∃ i, TimerQueue i ∧ Handle.timer ∈ w.items i

/-- The timer is in a queue that the policy will see it in: one that is not the affine queue
    and whose snapshot, if it was taken already, shows an item. -/
def Seen (w : Work (Handle T) P) (snaps : List QueueSnapshot) : Prop :=
  ∃ i, TimerQueue i ∧ i ≠ idxAffine ∧ Handle.timer ∈ w.items i ∧
    ∀ snap, snaps[i]? = some snap → 0 < snap.approxCount

/-- Where the timer is, depending on where the thread is. -/
def Located (w : Work (Handle T) P) : WorkerPc (Handle T) → Prop
  | .absent | .exited | .clearRunning | .notify _ | .idle _ => True
  | .boot k | .booting k _ => 0 < k → Home w
  | .body (.snapshot snaps) => Seen w snaps
  | .body p => Handle.timer ∈ p.pending ∨ Home w
  | _ => Home w

section Queues

variable {w w' : Work (Handle T) P}

/-- A step keeps the kinds. -/
theorem Kinds.moved (h : Kinds w) {put : Nat → Option (Bool × Handle T)}
    (hm : ∀ i, Moved w w' (put i) i) : Kinds w' := by
  rw [Kinds, ← h]
  refine List.ext_getElem? fun i => ?_
  obtain ⟨f, hf, hmoves⟩ := hm i
  rw [List.getElem?_map, List.getElem?_map, hf]
  cases w.queues[i]? with
  | none => rfl
  | some q =>
    refine congrArg some (?_ : (f q).kind = q.kind)
    have hq := hmoves q
    generalize f q = q', put i = o at hq ⊢
    cases hq with
    | stays => rfl
    | takes max => exact q.kind_tryDequeueBatch max
    | puts room x => exact kind_offer q room x

theorem Kinds.put (h : Kinds w) (room : Bool) (i : Nat) (x : Handle T) :
    Kinds (w.put room i x) := h.moved (moved_put w room i x)

theorem Kinds.take (h : Kinds w) (i max : Nat) : Kinds (w.take i max).2 :=
  h.moved (moved_take w i max)

variable {i j max : Nat}

/-- The timer's queues are no SPSC queues. -/
theorem Kinds.ne_spsc (h : Kinds w) (hi : TimerQueue i) {q : Queue (Handle T)}
    (hq : w.queues[i]? = some q) : q.kind ≠ .spsc := by
  have hkind : (w.queues.map Queue.kind)[i]? = some q.kind := by rw [List.getElem?_map, hq]; rfl
  rw [h] at hkind
  intro hspsc
  rw [hspsc] at hkind
  rcases hi with rfl | rfl | rfl <;> cases hkind

/-- What is in one of the timer's queues stays there when something is enqueued. -/
theorem Kinds.mem_put (h : Kinds w) (hi : TimerQueue i) {x : Handle T} (hx : x ∈ w.items i)
    (room : Bool) (j : Nat) (y : Handle T) : x ∈ (w.put room j y).items i := by
  cases hq : w.queues[i]? with
  | none =>
    rw [items_eq_nil hq] at hx
    cases hx
  | some q =>
    rw [items_eq hq] at hx
    rw [Work.items, getElem?_put, hq]
    by_cases hij : j = i
    · rw [if_pos hij]
      show x ∈ (offer q room y).items
      by_cases hacc : accepts q room = true
      · rw [items_offer y hacc (h.ne_spsc hi hq)]
        exact List.mem_append_left _ hx
      · rwa [items_offer_refused y (Bool.eq_false_iff.mpr hacc) (h.ne_spsc hi hq)]
    · rwa [if_neg hij]

theorem Home.put (h : Home w) (hkinds : Kinds w) (room : Bool) (j : Nat) (y : Handle T) :
    Home (w.put room j y) := by
  obtain ⟨i, hi, hmem⟩ := h
  exact ⟨i, hi, hkinds.mem_put hi hmem room j y⟩

/-- The timer is where it was, as long as its queues lose nothing. -/
theorem Located.mono {p : WorkerPc (Handle T)} (h : Located w p)
    (hmem : ∀ i, TimerQueue i → Handle.timer ∈ w.items i → Handle.timer ∈ w'.items i) :
    Located w' p := by
  have hhome : Home w → Home w' := fun ⟨i, hi, htimer⟩ => ⟨i, hi, hmem i hi htimer⟩
  cases p with
  | absent | exited | clearRunning | notify _ | idle _ => trivial
  | boot k | booting k x => exact fun hk => hhome (h hk)
  | body p =>
    cases p with
    | snapshot snaps =>
      obtain ⟨i, hi, hne, htimer, hsnaps⟩ := h
      exact ⟨i, hi, hne, hmem i hi htimer, hsnaps⟩
    | _ => exact h.imp_right hhome
  | _ => exact hhome h

theorem Located.put {p : WorkerPc (Handle T)} (h : Located w p) (hkinds : Kinds w) (room : Bool)
    (j : Nat) (y : Handle T) : Located (w.put room j y) p :=
  h.mono fun _ hi htimer => hkinds.mem_put hi htimer room j y

/-- A queue of the timer that takes an item has it. -/
theorem Kinds.mem_put_self (hkinds : Kinds w) (hi : TimerQueue i) {room : Bool}
    (h : w.accepts room i = true) (x : Handle T) : x ∈ (w.put room i x).items i := by
  obtain ⟨q, hq, h⟩ := (Option.any_eq_true _ _).mp h
  rw [Work.items, getElem?_put, if_pos rfl, hq]
  show x ∈ (offer q room x).items
  rw [items_offer x h (hkinds.ne_spsc hi hq)]
  exact List.mem_append_right _ (List.mem_singleton_self x)

/-- What is not taken stays. -/
theorem mem_take {xs : List (Handle T)} (h : w.take j max = (xs, w')) {x : Handle T}
    (hx : x ∈ w.items i) : x ∈ xs ∨ x ∈ w'.items i := by
  obtain ⟨hfirst, hrest⟩ := items_take w j max
  rw [h] at hfirst hrest
  have hi := hrest i
  dsimp only at hfirst hi
  by_cases hij : j = i
  · subst hij
    rw [if_pos rfl] at hi
    rw [hfirst, hi, ← List.mem_append, List.take_append_drop]
    exact hx
  · rw [if_neg hij] at hi
    exact .inr (hi ▸ hx)

theorem Home.take (h : Home w) {xs : List (Handle T)} (htake : w.take j max = (xs, w')) :
    Handle.timer ∈ xs ∨ Home w' := by
  obtain ⟨i, hi, hmem⟩ := h
  exact (mem_take htake hmem).imp_right fun hmem => ⟨i, hi, hmem⟩

theorem Home.take_nil (h : Home w) (htake : w.take j max = ([], w')) : Home w' :=
  (h.take htake).resolve_left List.not_mem_nil

end Queues

/-! ## Steps -/

/-- In `run()` without an IO backend every queue takes the timer when it yields.  In the other
    modes the thread never idles, whatever happens to the timer. -/
def TimerTaken (u : Setup) (_ : List (Event (Handle T) Agent))
    (s : State (Handle T) StrictPriority Agent) (act : Act (Handle T) Unit Agent) : Prop :=
  u.ioBackend = false → u.busyPoll = false →
    ∀ r ∈ s.puts (config T u) act, r.2.2 = .timer → s.work.accepts r.1 r.2.1 = true

instance [DecidableEq T] (u : Setup) (t : List (Event (Handle T) Agent))
    (s : State (Handle T) StrictPriority Agent) (act : Act (Handle T) Unit Agent) :
    Decidable (TimerTaken u t s act) :=
  inferInstanceAs (Decidable (_ → _ → ∀ r ∈ s.puts (config T u) act, _))

/-- The thread is not idle, and as long as only the timer keeps it from that, the timer is
    there. -/
structure Awake (u : Setup) (s : State (Handle T) StrictPriority Agent) : Prop where
  kinds : Kinds s.work
  timer : u.ioBackend = false → u.busyPoll = false → Located s.work s.worker
  active : ∀ p, s.worker ≠ .idle p

section Steps

variable {u : Setup} {t : List (Event (Handle T) Agent)}
  {s s' : State (Handle T) StrictPriority Agent} {w' : Work (Handle T) StrictPriority}

/-- When `drain_p0` is done, the timer is not in the affine queue. -/
theorem Home.seen {w w' : Work (Handle T) P} (h : Home w')
    (htake : w.take idxAffine maxBatchSize = ([], w')) : Seen w' [] := by
  obtain ⟨i, hi, hmem⟩ := h
  refine ⟨i, hi, ?_, hmem, nofun⟩
  rintro rfl
  obtain ⟨hfirst, hrest⟩ := items_take w idxAffine maxBatchSize
  rw [htake] at hfirst hrest
  have hnil : w.items idxAffine = [] :=
    (List.take_eq_nil_iff.mp hfirst.symm).resolve_left (by decide)
  have hleft := hrest idxAffine
  rw [if_pos rfl, hnil, List.drop_nil] at hleft
  have hempty : w'.items idxAffine = [] := hleft
  rw [hempty] at hmem
  cases hmem

/-- The next snapshot shows the timer, if it is that of its queue. -/
theorem Seen.snap {w : Work (Handle T) P} {snaps : List QueueSnapshot} (h : Seen w snaps)
    {q : Queue (Handle T)} (hq : w.queues[snaps.length]? = some q) :
    Seen w (snaps ++ [snapshotOf (config T u) snaps.length q]) := by
  obtain ⟨i, hi, hne, hmem, hsnaps⟩ := h
  refine ⟨i, hi, hne, hmem, fun snap hget => ?_⟩
  rcases Nat.lt_trichotomy i snaps.length with hlt | heq | hgt
  · rw [List.getElem?_append_left hlt] at hget
    exact hsnaps snap hget
  · rw [heq, List.getElem?_concat_length] at hget
    cases hget
    rw [← heq] at hq ⊢
    rw [items_eq hq] at hmem
    have hpos : 0 < q.approxCount := by
      rw [← Queue.length_items]
      exact List.length_pos_of_mem hmem
    show 0 < if i = idxAffine then 0 else q.approxCount
    rwa [if_neg hne]
  · rw [List.getElem?_eq_none (by rw [List.length_append, List.length_singleton]; omega)] at hget
    cases hget

variable {w : Work (Handle T) StrictPriority} {room : Bool} {n : Next (Handle T)}
  {b : BodyAct (Handle T) Unit} {p : BodyPc (Handle T)}

/-- The policy that sees the timer does not let the thread idle. -/
theorem Seen.busy {snaps : List QueueSnapshot} (h : Seen w snaps)
    (hall : w.queues.length ≤ snaps.length) :
    ((config T u).policy.decide w.policy () snaps).1.idle = false := by
  obtain ⟨i, hi, hne, hmem, hsnaps⟩ := h
  have hlt : i < w.queues.length := by
    by_contra hge
    rw [items_eq_nil (List.getElem?_eq_none (Nat.not_lt.mp hge))] at hmem
    cases hmem
  have hget := List.getElem?_eq_getElem (Nat.lt_of_lt_of_le hlt hall)
  have hpos := hsnaps _ hget
  rcases strictPriority_spec 64 w.policy snaps with ⟨-, hzero⟩ | ⟨hbusy, -⟩
  · have := hzero _ (List.mem_of_getElem? hget)
    omega
  · exact hbusy

/-- The timer that leaves is taken by one of its queues; any other item leaves it alone. -/
theorem home_leave (hkinds : Kinds w) {x : Handle T} {l : Leave} (hmay : may x l = true)
    (htls : TimerQueue (w.yieldIdx (config T u)))
    (htaken : ∀ i, w.target (config T u) l = some i → x = .timer → w.accepts room i = true)
    (h : x = .timer ∨ Home w) : Home (w.leave (config T u) room x l) := by
  have hto : ∀ i, TimerQueue i → w.target (config T u) l = some i → Home (w.put room i x) := by
    intro i hi htarget
    rcases h with rfl | h
    · exact ⟨i, hi, hkinds.mem_put_self hi (htaken i htarget rfl) _⟩
    · exact h.put hkinds room i x
  cases l with
  | returns =>
    rcases h with rfl | h
    · cases hmay
    · exact h
  | yields => exact hto _ htls rfl
  | yieldsTo i =>
    rcases h with rfl | h
    · exact hto i (.inr (.inr (of_decide_eq_true hmay))) rfl
    · exact h.put hkinds room i x

/-- Where `yield()` takes an item in `run()`. -/
theorem timerQueue_yieldIdx (htls : w.tls = (config T u).leftOver t) :
    TimerQueue (w.yieldIdx (config T u)) := by
  rw [Work.yieldIdx, htls, Config.leftOver]
  split
  next => exact .inl rfl
  next => exact .inr (.inl rfl)

/-- The queue that the running item leaves to takes it, if it is the timer. -/
theorem taken_of_leave {x : Handle T} {l : Leave} (hcurrent : s.worker.current = some x)
    (htaken : ∀ r ∈ s.puts (config T u) (.work (.leave room l)), r.2.2 = .timer →
      s.work.accepts r.1 r.2.1 = true) :
    ∀ i, s.work.target (config T u) l = some i → x = .timer → s.work.accepts room i = true := by
  intro i hi hx
  refine htaken (room, i, x) ?_ hx
  simp only [State.puts, hcurrent, hi]
  rfl

/-- A step inside an iteration of `run()` does not lose the timer. -/
theorem body_located [DecidableEq T] (hm : BodyMove (config T u) s.work p b w' n)
    (hp : s.worker = .body p) (hio : u.ioBackend = false) (hrunLoop : u.busyPoll = false)
    (hkinds : Kinds s.work) (hrouted : Routed (config T u) t s.work.tls (.body p))
    (h : Located s.work (.body p)) (htaken : TimerTaken u t s (.work b)) : Located w' n.pc := by
  obtain ⟨hruns, -, hleft⟩ := hrouted
  replace hruns : p.runs false = true := hrunLoop ▸ hruns
  cases hm with
  | drained second htake =>
    have hhome : Home w' := (h.resolve_left List.not_mem_nil).take_nil htake
    cases second with
    | true => exact hhome
    | false =>
      have hnext : (afterDrain (config T u) false : Next (Handle T)) =
          .body (.snapshot []) := by
        show (if u.busyPoll = true then _ else _) = _
        rw [hrunLoop]
        rfl
      rw [hnext]
      exact hhome.seen htake
  | drains second htake | takes htake => exact (h.resolve_left List.not_mem_nil).take htake
  | snaps hq => exact Seen.snap h hq
  | decides e hall =>
    rw [decide_busy (Seen.busy h hall)]
    obtain ⟨i, hi, -, hmem, -⟩ := h
    exact .inr ⟨i, hi, hmem⟩
  | takesNone htake => exact (h.resolve_left List.not_mem_nil).take_nil htake
  | disk | skips _ _ | visits _ _ _ | visited _ => cases hruns
  | ends f =>
    have hhome : Home s.work := h.resolve_left List.not_mem_nil
    cases f <;> exact .inr hhome
  | executes f x rest => exact h
  | emits f x rest room i _ => exact Located.put (p := .body (.exec f x rest)) h hkinds room i _
  | leaves f rest room hmay =>
    next x l =>
    have htarget := taken_of_leave (by rw [hp]; rfl : s.worker.current = some x)
      (htaken hio hrunLoop)
    have hyield := timerQueue_yieldIdx (hleft hrunLoop)
    by_cases hrest : Handle.timer ∈ rest
    · exact .inl hrest
    · refine .inr (home_leave hkinds hmay hyield htarget ?_)
      refine h.imp_left fun hmem => ?_
      exact ((List.mem_cons.mp hmem).resolve_right hrest).symm

/-- No step inside an iteration leads to `enter_idle()`. -/
theorem body_active [DecidableEq T] (hm : BodyMove (config T u) w p b w' n)
    (hruns : p.runs u.busyPoll = true)
    (h : u.ioBackend = false → u.busyPoll = false → Located w (.body p)) : ∀ q, n.pc ≠ .idle q := by
  cases hm with
  | drained second _ =>
    rw [afterDrain]
    cases second with
    | true => rintro q ⟨⟩
    | false => cases (config T u).busyPoll <;> rintro q ⟨⟩
  | decides e hall =>
    next snaps =>
    cases hidle : ((config T u).policy.decide w.policy e snaps).1.idle with
    | false =>
      rw [decide_busy hidle]
      rintro q ⟨⟩
    | true =>
      rw [decide_idle hidle]
      cases hio : u.ioBackend with
      | true =>
        have htest : (config T u).ioBackend = true := hio
        rw [if_pos htest]
        rintro q ⟨⟩
      | false =>
        have hrunLoop : u.busyPoll = false := by simpa [BodyPc.runs] using hruns
        cases (Seen.busy (h hio hrunLoop) hall).symm.trans hidle
  | _ => rintro q ⟨⟩

/-- A step of the worker's thread inside an iteration or inside `on_worker_start`. -/
theorem work_awake [DecidableEq T] {p q : WorkerPc (Handle T)}
    (hm : WorkMove (config T u) s p b w' q) (hp : s.worker = p) (h : Awake u s)
    (hrouted : Routed (config T u) t s.work.tls p) (htaken : TimerTaken u t s (.work b)) :
    Awake u { s with work := w', worker := q } := by
  obtain ⟨hkinds, htimer, -⟩ := h
  rw [hp] at htimer
  have hkinds' : Kinds w' := hkinds.moved fun _ => hm.moved hp
  cases hm with
  | booted k hnone =>
    refine ⟨hkinds', fun hio hrunLoop => htimer hio hrunLoop ?_, by rintro q ⟨⟩⟩
    -- the timer is the first of the coroutines, so it was resumed
    exact Nat.pos_of_ne_zero (by rintro rfl; cases hnone)
  | resumes _ => exact ⟨hkinds', fun hio hrunLoop => htimer hio hrunLoop, by rintro q ⟨⟩⟩
  | emits k x room i _ =>
    exact ⟨hkinds', fun hio hrunLoop => (htimer hio hrunLoop).put hkinds room i _,
      by rintro q ⟨⟩⟩
  | leaves k room hmay =>
    next x l =>
    refine ⟨hkinds', fun hio hrunLoop _ => ?_, by rintro q ⟨⟩⟩
    obtain ⟨-, i, hget, htls⟩ := hrouted
    -- without an IO backend it is the timer that was resumed
    obtain ⟨rfl, rfl⟩ : x = .timer ∧ i = idxTimer := by
      have hlist : (config T u).persistent = [(.timer, idxTimer)] := by simp [config, hio]
      rw [hlist] at hget
      cases k with
      | zero => exact Prod.mk.inj (Option.some.inj hget.symm)
      | succ k => cases hget
    have hyield : TimerQueue (s.work.yieldIdx (config T u)) := by
      rw [Work.yieldIdx, htls]
      exact .inr (.inr rfl)
    have htarget := taken_of_leave (by rw [hp]; rfl : s.worker.current = some .timer)
      (htaken hio hrunLoop)
    exact home_leave hkinds hmay hyield htarget (.inl rfl)
  | iterates hb =>
    exact ⟨hkinds',
      fun hio hrunLoop =>
        body_located hb hp hio hrunLoop hkinds hrouted (htimer hio hrunLoop) htaken,
      body_active hb hrouted.1 htimer⟩

/-- The other steps of the worker's thread. -/
theorem thread_awake {p : WorkerPc (Handle T)} (hm : ThreadMove (config T u) s p s')
    (hp : s.worker = p) (h : Awake u s) : Awake u s' := by
  obtain ⟨hkinds, htimer, hactive⟩ := h
  rw [hp] at htimer hactive
  cases hm with
  | sets | begins _ => exact ⟨hkinds, htimer, nofun⟩
  | refuses _ | notifies _ | notified | exits _ => exact ⟨hkinds, fun _ _ => trivial, nofun⟩
  | setsLate stop =>
    cases stop with
    | true => exact ⟨hkinds, fun _ _ => trivial, nofun⟩
    | false => exact ⟨hkinds, htimer, nofun⟩
  | clears =>
    refine ⟨hkinds, fun _ _ => ?_, fun q => ?_⟩
    · split <;> trivial
    · split <;> nofun
  | enters _ => exact ⟨hkinds, fun hio hrunLoop => .inr (htimer hio hrunLoop), nofun⟩
  | idles _ => exact absurd rfl (hactive _)

/-- There is nobody to be woken. -/
theorem Awake.wake (h : Awake u s) : Awake u { s with worker := s.worker.wake } := by
  have hsame : s.worker.wake = s.worker := (wake_eq h.active).mpr rfl
  rw [hsame]
  exact h

/-- The calls of the agents. -/
theorem call_awake {a : Agent} {c₀ c : Call (Handle T)} (hm : CallMove s a room c₀ s' c)
    (h : Awake u s) : Awake u s' := by
  cases hm with
  | creates _ => exact ⟨h.kinds, fun _ _ hk => absurd hk (Nat.lt_irrefl 0), nofun⟩
  | resets | requests | clears | stage _ | returns _ => exact ⟨h.kinds, h.timer, h.active⟩
  | woken _ => exact h.wake
  | submits i x =>
    exact ⟨h.kinds.put room i x,
      fun hio hrunLoop => (h.timer hio hrunLoop).put h.kinds room i x, h.active⟩

theorem Awake.step [DecidableEq T] [DecidableEq Agent] {act : Act (Handle T) Unit Agent}
    (hm : StepMove (config T u) s act s') (h : Awake u s)
    (hrouted : Routed (config T u) t s.work.tls s.worker) (htaken : TimerTaken u t s act) :
    Awake u s' := by
  cases hm with
  | works hw => exact work_awake hw rfl h hrouted htaken
  | threads ht => exact thread_awake ht rfl h
  | early hw =>
    have htimer := h.timer
    rw [hw] at htimer
    exact ⟨h.kinds, htimer, nofun⟩
  | wakes => exact h.wake
  | joins _ => exact ⟨h.kinds, fun _ _ => trivial, nofun⟩
  | begins _ _ => exact ⟨h.kinds, h.timer, h.active⟩
  | calls hc =>
    have h' := call_awake hc h
    exact ⟨h'.kinds, h'.timer, h'.active⟩

/-- The timer is in no SPSC queue. -/
theorem Awake.access (h : Awake u s) {i : Nat} {q q' : SpscQueue (Handle T)}
    (hq : s.work.queues[i]? = some (.spsc q)) : Awake u { s with
      work := { s.work with queues := s.work.queues.set i (.spsc q') } } := by
  have hitems : ∀ j, TimerQueue j →
      Work.items { s.work with queues := s.work.queues.set i (.spsc q') } j = s.work.items j := by
    intro j hj
    have hne : i ≠ j := by
      rintro rfl
      exact h.kinds.ne_spsc hj hq rfl
    simp only [Work.items, List.getElem?_set_ne hne]
  refine ⟨?_, fun hio hrunLoop => (h.timer hio hrunLoop).mono fun j hj htimer => ?_, h.active⟩
  rotate_left
  · rw [hitems j hj]
    exact htimer
  rw [Kinds, ← h.kinds]
  refine List.ext_getElem? fun j => ?_
  rw [List.getElem?_map, List.getElem?_map, List.getElem?_set]
  split
  next hij =>
    subst hij
    rw [hq, if_pos (List.getElem?_eq_some_iff.mp hq).1]
    rfl
  next => rfl

end Steps

/-! ## Whole runs -/

/-- The thread is blocked in `idle_park`. -/
def Asleep (s : State (Handle T) P Agent) : Prop := ∃ g, s.worker = .idle (.parkBlocked g)

/-- A submission to queue `i` is still in progress. -/
def Submitting (s : State (Handle T) P Agent) (i : Nat) : Prop :=
  ∃ a, s.call a = .submitted i ∨ ∃ x, s.call a = .submit i x

/-- The thread is blocked although a queue has items whose submission is over. -/
def SleepsOnWork (s : State (Handle T) P Agent) : Prop :=
  Asleep s ∧ ∃ i, s.work.items i ≠ [] ∧ ¬ Submitting s i

variable [DecidableEq T] [DecidableEq Agent]

theorem awake_exec (u : Setup) {t : List (Event (Handle T) Agent)}
    {s : System (Handle T) StrictPriority Agent}
    (hrun : Exec (machine (config T u)) (OnState (TimerTaken u)) (init (config T u) Agent queues)
      t s) : Awake u s.toState := by
  have hstart : Routed (config T u) ([] : List (Event (Handle T) Agent)) none .absent ∧
      Awake u (init (config T u) Agent queues).toState :=
    ⟨trivial, rfl, fun _ _ => trivial, nofun⟩
  refine (state_invariant hrun
    (fun t s => Routed (config T u) t s.work.tls s.worker ∧ Awake u s) hstart ?_ ?_).2
  · intro t S act s' ⟨hrouted, ih⟩ htaken hm
    exact ⟨hrouted.step hm, ih.step hm hrouted htaken⟩
  · intro t s i q q' ⟨hrouted, ih⟩ hq
    exact ⟨hrouted, ih.access hq⟩

/-- **A worker never sleeps on submitted work.**  For every set-up, all tasks and any agents
    that submit in any order, in every run in which the queues take the timer when it yields:
    it is not the case that the thread is blocked in `idle_park` and some queue of the worker
    is neither empty nor being submitted to.  More than that, the thread is not in
    `enter_idle()` at all. -/
theorem never_sleeps_on_work (u : Setup) {t : List (Event (Handle T) Agent)}
    {s : System (Handle T) StrictPriority Agent}
    (hrun : Exec (machine (config T u)) (OnState (TimerTaken u)) (init (config T u) Agent queues)
      t s) : (∀ p, s.worker ≠ .idle p) ∧ ¬ SleepsOnWork s.toState := by
  have hactive := (awake_exec u hrun).active
  refine ⟨hactive, ?_⟩
  rintro ⟨⟨g, hblocked⟩, -⟩
  exact hactive _ hblocked

/-- Something is submitted to each queue. -/
def submitAll : List (Act (Handle Nat) Unit Unit) :=
  List.flatten [submitEngine () (.task 0) :: steps 2,
    submitNetIo () (.task 1) :: pushing (some ()) idxNetIo (.task 1), steps 2,
    submitDiskIo () (.task 2) :: pushing (some ()) idxDiskIo (.task 2), steps 2,
    enqueueAffine () (.task 3) :: steps 2]

/-- Something is submitted to each queue while the timer runs; the timer then yields to the
    engine queue. -/
theorem awake_with_submission :
    ∃ (t : List (Event (Handle Nat) Unit)) (s : System (Handle Nat) StrictPriority Unit),
      Exec (machine (config Nat plain)) (OnState (TimerTaken plain))
        (init (config Nat plain) Unit queues) t s ∧
      s.work.items idxAffine = [.task 3] ∧ s.work.items idxEngine = [.task 0, .timer] ∧
      ¬ SleepsOnWork s.toState := by
  have hrun : Exec (machine (config Nat plain)) (OnState (TimerTaken plain))
      (init (config Nat plain) Unit queues) _ _ :=
    exec_run (List.flatten [startUp, [.work .go, .go, .go], iterate, submitAll,
      [.work (.leave true .yields)]])
  exact ⟨_, _, hrun, by decide +kernel, by decide +kernel, (never_sleeps_on_work plain hrun).2⟩

/-! ## A full engine queue drops the timer -/

/-- A worker in its loop, with no call in progress. -/
def inLoop (g : Signals (Option Unit)) (w : Work (Handle Nat) StrictPriority)
    (p : WorkerPc (Handle Nat)) : State (Handle Nat) StrictPriority Unit where
  work := w
  running := true
  stopRequested := false
  signals := g
  worker := p
  call := fun _ => .none

/-- The worker can get there, with no push in progress. -/
def Reaches (s : State (Handle Nat) StrictPriority Unit) : Prop :=
  ∃ t, Exec (machine (config Nat plain)) Always (init (config Nat plain) Unit queues) t s.alone

/-- A step that puts nothing into an SPSC queue. -/
theorem Reaches.step {s s' : State (Handle Nat) StrictPriority Unit} (h : Reaches s)
    (act : Act (Handle Nat) Unit Unit) (hdue : s.due (config Nat plain) act = none)
    (hstep : Scheduler.step (config Nat plain) s act = some s') : Reaches s' := by
  obtain ⟨t, ht⟩ := h
  exact ⟨_, Exec.step act ht trivial (alone_step hdue hstep)⟩

/-- There are `n` tasks in the engine queue and nothing else in any queue. -/
structure Backlog (w : Work (Handle Nat) StrictPriority) (n : Nat) : Prop where
  kinds : Kinds w
  limit : ∀ q ∈ w.queues[idxEngine]?, q.limit = 65536
  engine : w.items idxEngine = List.replicate n (.task 0)
  others : ∀ i, i ≠ idxEngine → w.items i = []
  unset : w.tls = none

section Drain

variable {g : Signals (Option Unit)} {w w' : Work (Handle Nat) StrictPriority}
  {p : WorkerPc (Handle Nat)} {n : Nat}

/-- The engine queue is no SPSC queue. -/
theorem Backlog.due (h : Backlog w n) (x : Handle Nat) :
    (if (w.queues[idxEngine]?).map Queue.kind = some .spsc then
      some (Push.mk idxEngine x .publish) else none) = none := by
  have hkind : (w.queues[idxEngine]?).map Queue.kind = some .ring := by
    rw [← List.getElem?_map, h.kinds]
    rfl
  rw [hkind]
  rfl

/-- A whole `submit_engine`. -/
theorem Reaches.submitEngine (h : Reaches (inLoop g w p)) (hw : Backlog w n) :
    Reaches (inLoop g (w.put true idxEngine (.task 0)) p) := by
  have hthree := ((h.step (OnlineWorker.submitEngine () (.task 0)) rfl rfl).step (.goCall () true)
    (hw.due _) rfl).step (.goCall () true) rfl rfl
  have hend : _ = inLoop g (w.put true idxEngine (.task 0)) p :=
    State.ext rfl rfl rfl rfl rfl (funext fun () => rfl)
  exact hend ▸ hthree

/-- A step inside an iteration. -/
theorem Reaches.body {p : BodyPc (Handle Nat)} {next : Next (Handle Nat)}
    (h : Reaches (inLoop g w (.body p))) (b : BodyAct (Handle Nat) Unit)
    (hdue : (inLoop g w (.body p)).due (config Nat plain) (.work b) = none)
    (hstep : w.step (config Nat plain) p b = some (w', next)) : Reaches (inLoop g w' next.pc) :=
  h.step (.work b) hdue (step_body rfl hstep)

/-- Only the engine queue changes when something is enqueued to it. -/
theorem Backlog.of_put (h : Backlog w n) {x : Handle Nat} {m : Nat}
    (hitems : ∀ q, w.queues[idxEngine]? = some q → q.items = List.replicate n (.task 0) →
      q.limit = 65536 → (offer q true x).items = List.replicate m (.task 0)) :
    Backlog (w.put true idxEngine x) m := by
  obtain ⟨q, hq⟩ : ∃ q, w.queues[idxEngine]? = some q := by
    have hkind : (w.queues.map Queue.kind)[idxEngine]? = some .ring := by rw [h.kinds]; rfl
    rw [List.getElem?_map, Option.map_eq_some_iff] at hkind
    exact hkind.imp fun _ hq => hq.1
  have hput : (w.put true idxEngine x).queues[idxEngine]? = some (offer q true x) := by
    rw [getElem?_put, if_pos rfl, hq]
    rfl
  refine ⟨h.kinds.put true _ x, ?_, ?_, fun i hi => ?_, h.unset⟩
  · intro r hr
    rw [hput] at hr
    cases hr
    rw [limit_offer]
    exact h.limit q hq
  · rw [items_eq hput]
    exact hitems q hq (by rw [← items_eq hq, h.engine]) (h.limit q hq)
  · rw [Work.items, getElem?_put, if_neg (Ne.symm hi)]
    exact h.others i hi

/-- The engine queue takes tasks until it is full. -/
theorem Backlog.put (h : Backlog w n) (hroom : n < 65536) :
    Backlog (w.put true idxEngine (.task 0)) (n + 1) := by
  refine h.of_put fun q hq hitems hlimit => ?_
  rw [items_offer _ (accepts_of_lt (by rw [hitems, hlimit, List.length_replicate]; exact hroom))
    (h.kinds.ne_spsc (.inr (.inl rfl)) hq), hitems, ← List.replicate_succ']

/-- Then it takes nothing more. -/
theorem Backlog.put_full (h : Backlog w 65536) (x : Handle Nat) :
    Backlog (w.put true idxEngine x) 65536 := by
  refine h.of_put fun q hq hitems hlimit => ?_
  have hfull : accepts q true = false := by
    rw [accepts, Bool.and_eq_false_iff]
    refine .inr (decide_eq_false ?_)
    rw [hitems, hlimit, List.length_replicate]
    exact Nat.lt_irrefl _
  rw [items_offer_refused x hfull (h.kinds.ne_spsc (.inr (.inl rfl)) hq), hitems]

theorem Backlog.take (h : Backlog w n) (i max : Nat) :
    Backlog (w.take i max).2 (if i = idxEngine then n - max else n) := by
  obtain ⟨-, hrest⟩ := items_take w i max
  refine ⟨h.kinds.take i max, fun q hq => ?_, ?_, fun j hj => ?_, by rw [tls_take, h.unset]⟩
  · rw [getElem?_take] at hq
    split at hq
    next =>
      obtain ⟨r, hr, rfl⟩ := Option.map_eq_some_iff.mp hq
      rw [Queue.limit_tryDequeueBatch]
      exact h.limit r hr
    next => exact h.limit q hq
  · rw [hrest]
    split
    next hi => rw [hi, h.engine, List.drop_replicate]
    next => exact h.engine
  · rw [hrest, h.others j hj]
    split
    next hi => rw [hi, h.others j hj, List.drop_nil]
    next => rfl

/-- `drain_p0` finds nothing. -/
theorem Backlog.drain (h : Backlog w n) (second : Bool) :
    ∃ w', Backlog w' n ∧ w.step (config Nat plain) (.drain second) .go =
      some (w', afterDrain (config Nat plain) second) := by
  have hnone : (w.take idxAffine maxBatchSize).1 = [] := by
    rw [(items_take w _ _).1, h.others _ (by decide), List.take_nil]
  have htake : w.take idxAffine maxBatchSize = ([], (w.take idxAffine maxBatchSize).2) :=
    Prod.ext hnone rfl
  refine ⟨_, h.take idxAffine maxBatchSize, ?_⟩
  simp only [Work.step, Work.go]
  rw [show (config Nat plain).affineIdx = idxAffine from rfl, htake]

/-- What the policy is shown. -/
def shown (n : Nat) : List QueueSnapshot :=
  [⟨.critical, 0⟩, ⟨.high, 0⟩, ⟨.high, 0⟩, ⟨.medium, n⟩, ⟨.high, 0⟩]

theorem Backlog.snap (h : Backlog w n) {snaps : List QueueSnapshot} (hlen : snaps.length < 5) :
    w.step (config Nat plain) (.snapshot snaps) .go = some (w, .body (.snapshot (snaps ++
      [⟨(config Nat plain).priority snaps.length,
        if snaps.length = idxEngine then n else 0⟩]))) := by
  have hqueues : w.queues.length = 5 := by
    rw [← List.length_map Queue.kind, h.kinds]
    rfl
  have hq := List.getElem?_eq_getElem (hqueues ▸ hlen)
  have hcount : snapshotOf (config Nat plain) snaps.length w.queues[snaps.length] =
      ⟨(config Nat plain).priority snaps.length, if snaps.length = idxEngine then n else 0⟩ := by
    have hlength : w.queues[snaps.length].approxCount = (w.items snaps.length).length := by
      rw [items_eq hq, Queue.length_items]
    rw [snapshotOf, hlength]
    congr 1
    split
    next haffine =>
      rw [haffine]
      rfl
    next =>
      split
      next hengine => rw [hengine, h.engine, List.length_replicate]
      next hother => rw [h.others _ hother]; rfl
  simp only [Work.step, Work.go]
  rw [hq]
  dsimp only
  rw [hcount]

theorem Backlog.snaps (h : Backlog w n) (hr : Reaches (inLoop g w (.body (.snapshot [])))) :
    ∀ k ≤ 5, Reaches (inLoop g w (.body (.snapshot ((shown n).take k)))) := by
  intro k
  induction k with
  | zero => exact fun _ => hr
  | succ k ih =>
    intro hk
    have hlen : ((shown n).take k).length = k := by
      rw [List.length_take]
      exact Nat.min_eq_left (by show k ≤ 5; omega)
    have hnext := (ih (by omega)).body .go rfl (h.snap (by omega))
    have hshown : (shown n).take k ++ [⟨(config Nat plain).priority ((shown n).take k).length,
        if ((shown n).take k).length = idxEngine then n else 0⟩] = (shown n).take (k + 1) := by
      match k with
      | 0 | 1 | 2 | 3 | 4 => rfl
      | k + 5 => omega
    exact hshown ▸ hnext

/-- From the head of the loop to the policy's decision. -/
theorem Backlog.to_decision (h : Backlog w n) (hr : Reaches (inLoop g w .loopTest)) :
    ∃ w', Backlog w' n ∧ Reaches (inLoop g w' (.body (.snapshot (shown n)))) := by
  obtain ⟨w', h', hdrain⟩ := h.drain false
  have hbegin : Reaches (inLoop g w (.body (.drain false))) := hr.step .go rfl rfl
  exact ⟨w', h', h'.snaps (hbegin.body .go rfl hdrain) 5 (Nat.le_refl 5)⟩

theorem shown_pos {k : Nat} {snap : QueueSnapshot} (h : (shown n)[k]? = some snap)
    (hpos : 0 < snap.approxCount) : k = idxEngine ∧ snap.approxCount = n := by
  match k with
  | 0 | 1 | 2 | 4 =>
    cases h
    exact absurd hpos (Nat.lt_irrefl 0)
  | 3 =>
    cases h
    exact ⟨rfl, rfl⟩
  | k + 5 => cases h

/-- The policy chooses the engine queue, or lets the thread idle if that is empty. -/
theorem Backlog.decide (h : Backlog w n) : ∃ w', Backlog w' n ∧
    w.step (config Nat plain) (.snapshot (shown n)) (.decide ()) = some (w',
      if n = 0 then .idle else .body (.take idxEngine (min (min n 64) maxBatchSize))) := by
  have hall : ¬ (shown n).length < w.queues.length := by
    rw [← List.length_map Queue.kind, h.kinds]
    exact Nat.lt_irrefl 5
  have hstep : w.step (config Nat plain) (.snapshot (shown n)) (.decide ()) =
      some (w.decide (config Nat plain) () (shown n)) := if_neg hall
  refine ⟨{ w with policy := ((strictPriority 64).decide w.policy () (shown n)).2 },
    { h with }, hstep.trans ?_⟩
  rcases strictPriority_spec 64 w.policy (shown n) with
    ⟨hidle, hzero⟩ | ⟨hbusy, snap, hget, hpos, hbatch⟩
  · have hn : n = 0 := hzero ⟨.medium, n⟩ (by simp [shown])
    rw [decide_idle hidle, if_pos hn]
    rfl
  · obtain ⟨hidx, rfl⟩ := shown_pos hget hpos
    rw [decide_busy hbusy, if_neg (Nat.ne_of_gt hpos), ← hidx, ← hbatch]
    rfl

/-- A batch is taken from the engine queue. -/
theorem Backlog.takes (h : Backlog w n) {max : Nat} (hn : 0 < n) (hmax : 0 < max) :
    ∃ w', Backlog w' (n - max) ∧ w.step (config Nat plain) (.take idxEngine max) .go =
      some (w', .body (.batch (.chosen idxEngine) (List.replicate (min max n) (.task 0)))) := by
  obtain ⟨k, hk⟩ : ∃ k, min max n = k + 1 := Nat.exists_eq_add_one.mpr (by omega)
  have hsome : (w.take idxEngine max).1 = .task 0 :: List.replicate k (.task 0) := by
    rw [(items_take w _ _).1, h.engine, List.take_replicate, hk, List.replicate_succ]
  have htake : w.take idxEngine max =
      (.task 0 :: List.replicate k (.task 0), (w.take idxEngine max).2) :=
    Prod.ext hsome rfl
  have hleft := h.take idxEngine max
  refine ⟨_, hleft, ?_⟩
  simp only [Work.step, Work.go]
  rw [htake, hk, List.replicate_succ]

/-- The tasks of a batch are executed. -/
theorem Reaches.batch (i : Nat) : ∀ k : Nat,
    Reaches (inLoop g w (.body (.batch (.chosen i) (List.replicate k (.task 0))))) →
    Reaches (inLoop g w (.body (.batch (.chosen i) []))) := by
  intro k
  induction k with
  | zero => exact id
  | succ k ih =>
    intro h
    have hexec : Reaches (inLoop g w
        (.body (.exec (.chosen i) (.task 0) (List.replicate k (.task 0))))) :=
      h.body .go rfl rfl
    exact ih (hexec.body (.leave true .returns) rfl rfl)

/-- An iteration with tasks executes some of them. -/
theorem Backlog.round (h : Backlog w n) (hn : 0 < n) (hr : Reaches (inLoop g w .loopTest)) :
    ∃ w' m, m < n ∧ Backlog w' m ∧ Reaches (inLoop g w' .loopTest) := by
  obtain ⟨w₁, h₁, hr₁⟩ := h.to_decision hr
  obtain ⟨w₂, h₂, hdecide⟩ := h₁.decide
  rw [if_neg (Nat.ne_of_gt hn)] at hdecide
  have hr₂ := hr₁.body (.decide ()) rfl hdecide
  have hmax : 0 < min (min n 64) maxBatchSize := by rw [maxBatchSize]; omega
  obtain ⟨w₃, h₃, htakes⟩ := h₂.takes hn hmax
  have hr₃ := Reaches.batch idxEngine _ (hr₂.body .go rfl htakes)
  have hr₄ : Reaches (inLoop g w₃ (.body (.drain true))) := hr₃.body .go rfl rfl
  obtain ⟨w₄, h₄, hdrain⟩ := h₃.drain true
  exact ⟨w₄, _, by omega, h₄, hr₄.body .go rfl hdrain⟩

/-- The thread works off what is queued. -/
theorem Backlog.worked_off (n : Nat) : ∀ {w : Work (Handle Nat) StrictPriority}, Backlog w n →
    Reaches (inLoop g w .loopTest) → ∃ w', Backlog w' 0 ∧ Reaches (inLoop g w' .loopTest) := by
  induction n using Nat.strong_induction_on with
  | _ n ih =>
    intro w h hr
    rcases Nat.eq_zero_or_pos n with rfl | hn
    · exact ⟨w, h, hr⟩
    · obtain ⟨w', m, hm, h', hr'⟩ := h.round hn hr
      exact ih m hm h' hr'

/-- With empty queues the thread goes idle. -/
theorem Backlog.idles (h : Backlog w 0) (hr : Reaches (inLoop g w .loopTest)) :
    ∃ w', Backlog w' 0 ∧ Reaches (inLoop g w' (.idle .enterTest)) := by
  obtain ⟨w₁, h₁, hr₁⟩ := h.to_decision hr
  obtain ⟨w₂, h₂, hdecide⟩ := h₁.decide
  exact ⟨w₂, h₂, hr₁.body (.decide ()) rfl hdecide⟩

end Drain

/-! ## Falling asleep -/

/-- Nobody has notified the worker. -/
def quiet (level : Level) : Signals (Option Unit) := ⟨level, false, 0, 0, none⟩

section Ladder

variable {w : Work (Handle Nat) StrictPriority}

/-- `k` steps of the thread outside the iterations. -/
def goes : Nat → State (Handle Nat) StrictPriority Unit →
    Option (State (Handle Nat) StrictPriority Unit)
  | 0, s => some s
  | k + 1, s => (s.go (config Nat plain)).bind (goes k)

theorem Reaches.goes (k : Nat) : ∀ {s s' : State (Handle Nat) StrictPriority Unit}, Reaches s →
    OnlineWorker.goes k s = some s' → Reaches s' := by
  induction k with
  | zero =>
    intro s s' h hgo
    cases hgo
    exact h
  | succ k ih =>
    intro s s' h hgo
    obtain ⟨s₁, hstep, hgo⟩ := Option.bind_eq_some_iff.mp hgo
    exact ih (h.step .go rfl hstep) hgo

/-- The thread looks at the eventfd and finds nothing. -/
theorem Reaches.spinRead (h : Reaches (inLoop (quiet .spin) w (.idle (.spinRead 0)))) :
    ∀ i ≤ 100, Reaches (inLoop (quiet .spin) w (.idle (.spinRead i))) := by
  intro i
  induction i with
  | zero => exact fun _ => h
  | succ i ih =>
    intro hi
    have hlt : i < (config Nat plain).idle.spinIterations := hi
    refine (ih (by omega)).step .go rfl ?_
    simp [Scheduler.step, State.go, inLoop, Signals.idle, quiet, hlt]

theorem Reaches.spins (h : Reaches (inLoop (quiet .active) w (.idle .enterTest))) :
    Reaches (inLoop (quiet .yield) w .loopTest) := by
  have hbegin : Reaches (inLoop (quiet .spin) w (.idle (.spinRead 0))) := .goes 3 h rfl
  exact .goes 2 (hbegin.spinRead 100 (Nat.le_refl _)) rfl

theorem Reaches.yields (h : Reaches (inLoop (quiet .yield) w (.idle .enterTest))) :
    Reaches (inLoop (quiet .park) w .loopTest) :=
  .goes 9 h rfl

theorem Reaches.parks (h : Reaches (inLoop (quiet .park) w (.idle .enterTest))) :
    Reaches (inLoop (quiet .park) w (.idle (.parkBlocked 0))) :=
  .goes 7 h rfl

end Ladder

/-- The worker is started, and its thread takes the timer from the timer queue. -/
def toTimer : List (Act (Handle Nat) Unit Unit) := startUp ++ [.work .go, .go, .go] ++ iterate

theorem run_toTimer : (run (machine (config Nat plain)) Always toTimer []
      (init (config Nat plain) Unit queues)).isSome := by
  decide +kernel

theorem timer_runs : ∃ w, Backlog w 0 ∧
    Reaches (inLoop (quiet .active) w (.body (.exec (.chosen idxTimer) .timer []))) := by
  have hend : (Option.get _ run_toTimer).2.toState =
      inLoop (quiet .active) (Option.get _ run_toTimer).2.work
      (.body (.exec (.chosen idxTimer) .timer [])) :=
    State.ext rfl (by decide +kernel) (by decide +kernel) (by decide +kernel)
      (by decide +kernel) (funext fun () => by decide +kernel)
  have hpush : ∀ o, (Option.get _ run_toTimer).2.push o = none := by decide +kernel
  have hreached : (Option.get _ run_toTimer).2 = System.mk (inLoop (quiet .active)
      (Option.get _ run_toTimer).2.work (.body (.exec (.chosen idxTimer) .timer [])))
      fun _ => none := congrArg₂ System.mk hend (funext hpush)
  have hkinds : Kinds (Option.get _ run_toTimer).2.work := by
    show _ = _
    decide +kernel
  have hempty : ∀ i < 5, (Option.get _ run_toTimer).2.work.items i = [] := by decide +kernel
  refine ⟨_, ⟨hkinds, by decide +kernel, hempty _ (by decide), fun i _ => ?_,
    by decide +kernel⟩, _, hreached ▸ exec_run _ run_toTimer⟩
  rcases Nat.lt_or_ge i 5 with hi | hi
  · exact hempty i hi
  · refine items_eq_nil (List.getElem?_eq_none ?_)
    exact hi

/-- Meanwhile others fill the engine queue. -/
theorem engine_fills : ∀ n ≤ 65536, ∃ w, Backlog w n ∧
    Reaches (inLoop (quiet .active) w (.body (.exec (.chosen idxTimer) .timer []))) := by
  intro n
  induction n with
  | zero => exact fun _ => timer_runs
  | succ n ih =>
    intro hn
    obtain ⟨w, h, hr⟩ := ih (by omega)
    exact ⟨_, h.put hn, hr.submitEngine h⟩

/-- The timer yields to the full queue and is lost. -/
theorem timer_lost : ∃ w, Backlog w 65536 ∧ Reaches (inLoop (quiet .active) w .loopTest) := by
  obtain ⟨w, h, hr⟩ := engine_fills 65536 (Nat.le_refl _)
  have hidx : w.yieldIdx (config Nat plain) = idxEngine := by
    rw [Work.yieldIdx, h.unset]
    rfl
  have hleave : w.step (config Nat plain) (.exec (.chosen idxTimer) .timer [])
      (.leave true .yields) =
      some (w.put true idxEngine .timer, .body (.batch (.chosen idxTimer) [])) := by
    rw [← hidx]
    rfl
  have hdue : (inLoop (quiet .active) w (.body (.exec (.chosen idxTimer) .timer []))).due
      (config Nat plain) (.work (.leave true .yields)) = none := by
    rw [← h.due .timer, ← hidx]
    rfl
  have hend : Reaches (inLoop (quiet .active) (w.put true idxEngine .timer)
      (.body (.drain true))) := (hr.body _ hdue hleave).body .go rfl rfl
  obtain ⟨w', h', hdrain⟩ := (h.put_full .timer).drain true
  exact ⟨w', h', hend.body .go rfl hdrain⟩

/-- **A worker sleeps on submitted work.**  Others submit tasks to the engine queue until it is
    full; the timer yields and is dropped; the thread executes all tasks and goes to sleep.
    The next task is submitted, and the thread stays blocked. -/
theorem asleep_on_work :
    ∃ (t : List (Event (Handle Nat) Unit)) (s : System (Handle Nat) StrictPriority Unit),
      Exec (machine (config Nat plain)) Always (init (config Nat plain) Unit queues) t s ∧
      SleepsOnWork s.toState ∧ s.work.items idxEngine = [.task 0] := by
  obtain ⟨w₀, h₀, hr₀⟩ := timer_lost
  obtain ⟨w₁, h₁, hr₁⟩ := h₀.worked_off _ hr₀
  -- three idle rounds: spin, yield, park
  obtain ⟨w₂, h₂, hr₂⟩ := h₁.idles hr₁
  obtain ⟨w₃, h₃, hr₃⟩ := h₂.idles hr₂.spins
  obtain ⟨w₄, h₄, hr₄⟩ := h₃.idles hr₃.yields
  obtain ⟨t, hrun⟩ := hr₄.parks.submitEngine h₄
  have hitems := (h₄.put (by decide)).engine
  refine ⟨t, _, hrun, ⟨⟨0, rfl⟩, idxEngine, ?_, ?_⟩, hitems⟩
  · intro hnil
    exact nomatch hitems.symm.trans hnil
  · rintro ⟨a, hcall | ⟨x, hcall⟩⟩ <;> cases hcall

end OnlineWorker
