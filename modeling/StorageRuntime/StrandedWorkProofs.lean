import StorageRuntime.WorkStealingProofs

/-!
# WorkStealingExecutor — no work is stranded next to sleeping workers

A worker goes to sleep after it found its queues empty one after the other; a
submitter enqueues first and notifies afterwards.  The invariant follows an
item from its enqueue on: as long as a queue is not empty, somebody is still
going to raise the worker's generation (`Coming`), or the worker will look at
the queue again before it blocks for good (`Heed`).  For the global ring one
such worker is enough.

The generation is a 64-bit counter.  An increment that brings it back to the
value a worker waits to change does not wake that worker (`Unwrapped` excludes
it, and nothing else does).

**`no_stranded_work`**: before `stop()` no worker is blocked next to its own
work, and not all are blocked next to global work, unless a submitter has
still to finish its `notify()`.
-/

namespace WorkStealing

open Function Interleaving AdaptiveIdle WordArithmetic

variable {n : Nat} {Ext T : Type}

/-! ## The invariant -/

/-- Somebody is in `notify()` of worker `w`, and has still to raise the generation or not. -/
def Notifying (raises : Bool) (s : State n Ext T) (w : Fin n) : Prop :=
  ∃ a p k, s.call a = .notify w p k ∧ p.raises = raises

/-- Somebody is going to raise the generation of worker `w`. -/
def Coming (s : State n Ext T) (w : Fin n) : Prop := Notifying true s w

/-- Somebody has raised the generation of worker `w` and has still to wake it. -/
def Leaving (s : State n Ext T) (w : Fin n) : Prop := Notifying false s w

/-- A worker past the check of its own ring needs a signal; one that is not will look at the
    ring again anyway. -/
def Alert (g : Signals (Thread n Ext)) (leaving : Prop) : WorkerPc T → Prop
  | .globalCheck | .steal _ => g.pending = true
  | .idle p => Heeds g leaving p
  | _ => True

/-- Worker `w` will look at its own ring again before it blocks for good. -/
def Heed (s : State n Ext T) (w : Fin n) : Prop :=
  Alert (s.park w) (Leaving s w) (s.thread w)

/-- Somebody will look at the global ring. -/
def Announced (s : State n Ext T) : Prop :=
  (∃ a, s.call a = .fetchAdd) ∨ ∃ w, Coming s w ∨ Heed s w ∨ s.thread w = .globalCheck

/-- A caller holds the mutex where its place in `notify()` says so, and sets the flag before
    it raises the generation; only a worker enqueues without announcing, and to its own
    ring. -/
def CallOk (park : Fin n → Signals (Thread n Ext)) (a : Thread n Ext) : Call n T → Prop
  | .notify v p _ => (p.holds = true → (park v).mutex = some a) ∧
      (p = .generation → (park v).pending = true)
  | .enqueue q _ false => ∃ w, a = .worker w ∧ q = .localDeque w
  | _ => True

/-- A worker holds its mutex where its place in `enter_idle()` says so. -/
def ThreadOk (g : Signals (Thread n Ext)) (w : Fin n) : WorkerPc T → Prop
  | .idle p => p.holds = true → g.mutex = some (.worker w)
  | _ => True

/-- The generation that the worker waits to change. -/
def WorkerPc.captured : WorkerPc T → Option Nat
  | .idle p => p.captured
  | _ => none

/-- The next generation of worker `v` is not the one that the worker waits to change. -/
def NewGeneration (s : State n Ext T) (v : Fin n) : Prop :=
  (s.thread v).captured ≠ some (wadd (s.park v).generation 1)
deriving Decidable

/-- The worker has found its yield queue empty in this turn of the loop. -/
def WorkerPc.pastYield : WorkerPc T → Bool
  | .localCheck | .globalCheck | .steal _ | .idle _ => true
  | _ => false

/-- **The invariant.** -/
structure Inv (s : State n Ext T) : Prop where
  calls : ∀ a, CallOk s.park a (s.call a)
  threads : ∀ w, ThreadOk (s.park w) w (s.thread w)
  -- a worker's thread makes calls only inside an item
  inside : ∀ w, s.call (.worker w) ≠ .none → ∃ item, s.thread w = .executing item
  yields : ∀ w, (s.thread w).pastYield = true → s.yieldQueue w = []
  deques : ∀ w, s.localDeque w ≠ [] → Coming s w ∨ Heed s w
  entry : s.globalEntry ≠ [] → Announced s

theorem inv_init : Inv (init n Ext T) where
  calls _ := trivial
  threads _ := trivial
  inside _ h := absurd rfl h
  yields _ h := nomatch h
  deques _ h := absurd rfl h
  entry h := absurd rfl h

/-! ## Frame lemmas -/

section Frames

variable {s s' : State n Ext T}

theorem notifying_congr {r : Bool} (hcall : s'.call = s.call) (w : Fin n) :
    Notifying r s' w ↔ Notifying r s w := by
  rw [Notifying, Notifying, hcall]

/-- What `Alert` reads. -/
theorem alert_frame {g g' : Signals (Thread n Ext)} {l l' : Prop} {p : WorkerPc T}
    (h : Alert g l p) (hpend : g.pending = true → g'.pending = true)
    (hgen : g'.generation = g.generation) (hl : l → l') : Alert g' l' p := by
  cases p with
  | idle p => exact heeds_frame h hpend hgen hl
  | globalCheck | steal i => exact hpend h
  | _ => trivial

/-- Waking a worker keeps it alert, and then nobody else has to. -/
theorem alert_wake {g : Signals (Thread n Ext)} {l l' : Prop} {p : WorkerPc T}
    (h : Alert g l p) : Alert g l' p.wake := by
  cases p with
  | idle p => exact heeds_wake h
  | _ => exact h

/-- A change of one idle object concerns the calls that notify its worker. -/
theorem callOk_update {park : Fin n → Signals (Thread n Ext)} {a : Thread n Ext} {c : Call n T}
    {v : Fin n} {g : Signals (Thread n Ext)} (h : CallOk park a c)
    (hv : ∀ p k, c = .notify v p k → CallOk (update park v g) a c) :
    CallOk (update park v g) a c := by
  cases c with
  | notify u p k =>
    rcases eq_or_ne u v with rfl | hu
    · exact hv p k rfl
    · rw [CallOk, update_of_ne hu]
      exact h
  | enqueue q item ann => cases ann <;> exact h
  | _ => trivial

section Update

variable [DecidableEq Ext] {a : Thread n Ext} {c : Call n T}

/-- A notification in progress stays one when its caller stays in it. -/
theorem notifying_update {r : Bool} (hcall : s'.call = update s.call a c) {w : Fin n}
    (h : Notifying r s w) (ha : ∀ p k, s.call a = .notify w p k → p.raises = r →
      ∃ p' k', c = .notify w p' k' ∧ p'.raises = r) : Notifying r s' w := by
  obtain ⟨b, p, k, hb, hp⟩ := h
  rcases eq_or_ne b a with rfl | hba
  · obtain ⟨p', k', hc, hp'⟩ := ha p k hb hp
    exact ⟨b, p', k', by rw [hcall, update_self, hc], hp'⟩
  · exact ⟨b, p, k, by rw [hcall, update_of_ne hba, hb], hp⟩

end Update

end Frames

/-! ## Steps of workers -/

section Workers

variable {s s' : State n Ext T} {w : Fin n} {q : WorkerPc T} {g : Signals (Thread n Ext)}

/-- A step of worker `w` alone: it moves to `q`, its idle object to `g`, and the queues only
    lose items. -/
structure WorkerStep (s s' : State n Ext T) (w : Fin n) (q : WorkerPc T)
    (g : Signals (Thread n Ext)) : Prop where
  call : s'.call = s.call
  thread : s'.thread = update s.thread w q
  park : s'.park = update s.park w g
  yield : ∀ v, v ≠ w → s'.yieldQueue v = s.yieldQueue v
  deque : ∀ v, s'.localDeque v ≠ [] → s.localDeque v ≠ []
  entry : s'.globalEntry ≠ [] → s.globalEntry ≠ []

theorem WorkerStep.coming (hs : WorkerStep s s' w q g) {v : Fin n} :
    Coming s' v ↔ Coming s v := notifying_congr hs.call v

theorem WorkerStep.heed_self (hs : WorkerStep s s' w q g) :
    Heed s' w ↔ Alert g (Leaving s w) q := by
  have hl : Leaving s' w ↔ Leaving s w := notifying_congr hs.call w
  rw [Heed, hs.thread, hs.park, update_self, update_self, hl]

theorem WorkerStep.heed_other (hs : WorkerStep s s' w q g) {v : Fin n} (hv : v ≠ w) :
    Heed s' v ↔ Heed s v := by
  have hl : Leaving s' v ↔ Leaving s v := notifying_congr hs.call v
  rw [Heed, Heed, hs.thread, hs.park, update_of_ne hv, update_of_ne hv, hl]

/-- The invariant is kept if the worker's own place is in order and it stays alert for the
    queues that are not empty. -/
theorem Inv.worker (h : Inv s) (hs : WorkerStep s s' w q g)
    (hcalls : ∀ a p k, s.call a = .notify w p k → CallOk s'.park a (s.call a))
    (hok : ThreadOk g w q) (hinside : s.call (.worker w) ≠ .none → ∃ item, q = .executing item)
    (hpast : q.pastYield = true → s'.yieldQueue w = [])
    (hown : s'.localDeque w ≠ [] → Heed s w → Alert g (Leaving s w) q)
    (hglobal : s'.globalEntry ≠ [] → Heed s w ∨ s.thread w = .globalCheck →
      Alert g (Leaving s w) q ∨ q = .globalCheck) : Inv s' := by
  refine ⟨fun a => ?_, ?_, ?_, ?_, ?_, ?_⟩
  · rw [hs.call, hs.park]
    exact callOk_update (h.calls a) fun p k hc => hs.park ▸ hcalls a p k hc
  · rw [hs.thread, hs.park]
    exact forall_update₂ (P := fun v p g => ThreadOk g v p) h.threads hok
  · rw [hs.call, hs.thread]
    exact forall_update_of_ne
      (P := fun v p => s.call (.worker v) ≠ .none → ∃ item, p = WorkerPc.executing item)
      (fun v _ => h.inside v) hinside
  · rw [hs.thread]
    exact forall_update_of_ne (P := fun v p => WorkerPc.pastYield p = true → s'.yieldQueue v = [])
      (fun v hv hpv => (hs.yield v hv).trans (h.yields v hpv)) hpast
  · intro v hdv
    rcases h.deques v (hs.deque v hdv) with hc | hh
    · exact .inl (hs.coming.mpr hc)
    · rcases eq_or_ne v w with rfl | hv
      · exact .inr (hs.heed_self.mpr (hown hdv hh))
      · exact .inr ((hs.heed_other hv).mpr hh)
  · intro he
    rcases h.entry (hs.entry he) with ⟨a, ha⟩ | ⟨v, hc | hv⟩
    · exact .inl ⟨a, by rw [hs.call]; exact ha⟩
    · exact .inr ⟨v, .inl (hs.coming.mpr hc)⟩
    · rcases eq_or_ne v w with rfl | hvw
      · refine .inr ⟨v, .inr ?_⟩
        rw [hs.heed_self, hs.thread, update_self]
        exact hglobal he hv
      · refine .inr ⟨v, .inr ?_⟩
        rw [hs.heed_other hvw, hs.thread, update_of_ne hvw]
        exact hv

/-- Outside an item a worker's thread is in no call. -/
theorem Inv.not_calling (h : Inv s) {p : WorkerPc T} (hp : s.thread w = p)
    (hne : ∀ item, p ≠ .executing item) : s.call (.worker w) = .none := by
  by_contra hc
  obtain ⟨item, hi⟩ := h.inside w hc
  exact hne item (hp.symm.trans hi)

/-- A step that leaves the idle objects alone. -/
theorem Inv.loop (h : Inv s) (hs : WorkerStep s s' w q (s.park w)) (hok : ThreadOk (s.park w) w q)
    (hinside : s.call (.worker w) ≠ .none → ∃ item, q = .executing item)
    (hpast : q.pastYield = true → s'.yieldQueue w = [])
    (hown : s'.localDeque w ≠ [] → Heed s w → Alert (s.park w) (Leaving s w) q)
    (hglobal : s'.globalEntry ≠ [] → Heed s w ∨ s.thread w = .globalCheck →
      Alert (s.park w) (Leaving s w) q ∨ q = .globalCheck) : Inv s' := by
  refine h.worker hs (fun a p k _ => ?_) hok hinside hpast hown hglobal
  rw [hs.park, update_eq_self]
  exact h.calls a

/-- A worker that takes an item is awake again. -/
theorem Inv.takes (h : Inv s) {item : T} (hs : WorkerStep s s' w (.executing item) (s.park w)) :
    Inv s' :=
  h.loop hs trivial (fun _ => ⟨item, rfl⟩) nofun (fun _ _ => trivial) (fun _ _ => Or.inl trivial)

/-- Nothing changes but the worker's place. -/
theorem workerStep_setThread (s : State n Ext T) (w : Fin n) (q : WorkerPc T) :
    WorkerStep s (s.setThread w q) w q (s.park w) :=
  ⟨rfl, rfl, (update_eq_self ..).symm, fun _ _ => rfl, fun _ h => h, fun h => h⟩

/-- The worker is outside its loop or at the head of a turn: it will check all its queues
    before it idles. -/
def WorkerPc.fresh : WorkerPc T → Bool
  | .absent | .created | .loopTest | .yieldCheck | .exited => true
  | _ => false

/-- A worker that has all its checks before it is alert without any signal. -/
theorem Inv.settle (h : Inv s) (hnone : s.call (.worker w) = .none) (hq : q.fresh = true) :
    Inv (s.setThread w q) := by
  have halert : Alert (s.park w) (Leaving s w) q := by
    cases q <;> simp_all [WorkerPc.fresh, Alert]
  refine h.loop (workerStep_setThread s w q) ?_ (fun hc => absurd hnone hc) ?_
    (fun _ _ => halert) (fun _ _ => .inl halert)
  · cases q <;> simp_all [WorkerPc.fresh, ThreadOk]
  · intro hpast
    cases q <;> simp_all [WorkerPc.fresh, WorkerPc.pastYield]

/-- The invariant does not read the `running` flags. -/
theorem Inv.setRunning (h : Inv s) (r : Fin n → Bool) : Inv { s with running := r } :=
  { h with }

/-- Removing the oldest item of a ring only makes it shorter. -/
theorem deque_update_ne_nil {q : Fin n → List T} {v u : Fin n} {item : T} {rest : List T}
    (hv : q v = item :: rest) (hu : update q v rest u ≠ []) : q u ≠ [] := by
  rcases eq_or_ne u v with rfl | huv
  · rw [hv]
    exact List.cons_ne_nil _ _
  · rwa [update_of_ne huv] at hu

/-- A worker's step in `enter_idle()`. -/
theorem Inv.idles (h : Inv s) {p p' : IdlePc} (hp : s.thread w = .idle p)
    (hm : Moves (s.park w) (.worker w) p g p')
    (hs : WorkerStep s s' w (if p' = .returned then .loopTest else .idle p') g)
    (hqueue : s'.yieldQueue = s.yieldQueue) : Inv s' := by
  have hok := h.threads w
  rw [hp] at hok
  have hnone : s.call (.worker w) = .none := h.not_calling hp (by simp)
  have hheed : Heed s w ↔ Heeds (s.park w) (Leaving s w) p := by rw [Heed, hp]; rfl
  have halert : Heed s w →
      Alert g (Leaving s w) (if p' = .returned then .loopTest else .idle p' : WorkerPc T) := by
    intro hh
    split
    next => trivial
    next => exact hm.heeds (hheed.mp hh)
  refine h.worker hs ?_ ?_ (fun hc => absurd hnone hc) ?_ (fun _ => halert) ?_
  · intro a r k ha
    have hne : a ≠ .worker w := by
      rintro rfl
      exact nomatch hnone.symm.trans ha
    have hca := h.calls a
    rw [ha] at hca ⊢
    rw [CallOk, hs.park, update_self]
    refine ⟨fun hr => hm.mutex_other hok hne (hca.1 hr), ?_⟩
    rintro rfl
    exact hm.pending hok hne (hca.1 rfl) (hca.2 rfl)
  · split
    next => trivial
    next => exact hm.mutex_self hok
  · intro _
    rw [hqueue]
    exact h.yields w (by rw [hp]; rfl)
  · intro _ hor
    rcases hor with hh | hg
    · exact .inl (halert hh)
    · exact nomatch hp.symm.trans hg

theorem wake_wake (q : WorkerPc T) : q.wake.wake = q.wake := by
  cases q with
  | idle p => cases p <;> rfl
  | _ => rfl

theorem pastYield_wake (q : WorkerPc T) : q.wake.pastYield = q.pastYield := by
  cases q <;> rfl

theorem ThreadOk.wake (h : ThreadOk g w q) : ThreadOk g w q.wake := by
  cases q with
  | idle p => cases p <;> exact h
  | _ => trivial

/-- A worker is woken, by a notifier or spuriously. -/
theorem Inv.wakes (h : Inv s) (w : Fin n) : Inv (s.setThread w (s.thread w).wake) := by
  refine h.loop (workerStep_setThread s w _) (h.threads w).wake ?_ ?_ (fun _ => alert_wake) ?_
  · intro hc
    obtain ⟨item, hi⟩ := h.inside w hc
    exact ⟨item, by rw [hi]; rfl⟩
  · rw [pastYield_wake]
    exact h.yields w
  · rintro - (hh | hg)
    · exact .inl (alert_wake hh)
    · exact .inr (by rw [hg]; rfl)

/-- A worker that found its own ring empty moves on to a place where it needs the pending
    flag. -/
theorem Inv.presses (h : Inv s) {p : WorkerPc T} (hp : s.thread w = p) (hpast : p.pastYield = true)
    (hold : ∀ (g : Signals (Thread n Ext)) l, Alert g l p ↔ g.pending = true)
    (hnew : ∀ (g : Signals (Thread n Ext)) l, Alert g l q ↔ g.pending = true)
    (hok : ThreadOk (s.park w) w q) (hglobal : s.globalEntry ≠ [] → p ≠ .globalCheck) :
    Inv (s.setThread w q) := by
  have hnone : s.call (.worker w) = .none := by
    refine h.not_calling hp ?_
    rintro item rfl
    cases hpast
  have halert : Heed s w → Alert (s.park w) (Leaving s w) q := by
    intro hh
    rw [Heed, hp, hold] at hh
    exact (hnew _ _).mpr hh
  refine h.loop (workerStep_setThread s w q) hok (fun hc => absurd hnone hc)
    (fun _ => h.yields w (by rw [hp]; exact hpast)) (fun _ => halert) ?_
  rintro hne (hh | hg)
  · exact .inl (halert hh)
  · exact absurd (hp.symm.trans hg) (hglobal hne)

/-- **Every step of `worker_loop` keeps the invariant.** -/
theorem Inv.goWorker (h : Inv s) {cfg : Config n} {p : WorkerPc T} (hp : s.thread w = p)
    (hm : WorkerMove cfg s w p s') : Inv s' := by
  cases hm with
  | begins => exact (h.setRunning _).settle (h.not_calling hp (by simp)) rfl
  | enters _ | exits _ => exact h.settle (h.not_calling hp (by simp)) rfl
  | resumes hq =>
    exact h.takes ⟨rfl, rfl, (update_eq_self ..).symm,
      fun v hv => update_of_ne hv _ _, fun _ h => h, fun h => h⟩
  | pops hq | steals hq =>
    exact h.takes ⟨rfl, rfl, (update_eq_self ..).symm, fun _ _ => rfl,
      fun _ hu => deque_update_ne_nil hq hu, fun h => h⟩
  | pulls hq =>
    exact h.takes ⟨rfl, rfl, (update_eq_self ..).symm, fun _ _ => rfl,
      fun _ h => h, fun _ => by rw [hq]; exact List.cons_ne_nil _ _⟩
  | noYield hq =>
    exact h.loop (workerStep_setThread s w .localCheck) trivial
      (fun hc => absurd (h.not_calling hp (by simp)) hc) (fun _ => hq)
      (fun _ _ => trivial) (fun _ _ => .inl trivial)
  | noLocal hq =>
    -- the worker's own ring was empty at this moment
    exact h.loop (workerStep_setThread s w .globalCheck) trivial
      (fun hc => absurd (h.not_calling hp (by simp)) hc)
      (fun _ => h.yields w (by rw [hp]; rfl)) (fun hne => absurd hq hne)
      (fun _ _ => .inr rfl)
  | noGlobal hq =>
    exact h.presses hp rfl (fun _ _ => Iff.rfl) (fun _ _ => Iff.rfl) trivial
      (fun hne => absurd hq hne)
  | misses i =>
    exact h.presses hp rfl (fun _ _ => Iff.rfl) (fun _ _ => Iff.rfl) trivial (fun _ => nofun)
  | gives i _ =>
    exact h.presses hp rfl (fun _ _ => Iff.rfl) (fun _ _ => Iff.rfl) nofun (fun _ => nofun)
  | idles hidle =>
    exact h.idles hp (idle_moves hidle)
      ⟨rfl, rfl, rfl, fun _ _ => rfl, fun _ h => h, fun h => h⟩ rfl

end Workers

/-! ## Steps of calls -/

section Calls

variable {s s' : State n Ext T} {a : Thread n Ext} {c : Call n T}

/-- A thread that is in a call is outside the executor or inside an item. -/
theorem Inv.in_item (h : Inv s) (ha : s.call a ≠ .none) :
    ∀ w, a = .worker w → ∃ item, s.thread w = .executing item := by
  rintro w rfl
  exact h.inside w ha

/-- A thread may call the executor only outside of calls, a worker only inside an item. -/
theorem free_spec (hf : s.free a = true) :
    s.call a = .none ∧ ∀ w, a = .worker w → ∃ item, s.thread w = .executing item := by
  unfold State.free at hf
  split at hf
  next e hc => exact ⟨hc, fun w hw => nomatch hw⟩
  next v hc =>
    refine ⟨hc, ?_⟩
    rintro w ⟨rfl⟩
    split at hf
    next item hi => exact ⟨item, hi⟩
    next => cases hf
  next => cases hf

variable [DecidableEq Ext]

/-- A step of the call of thread `a` alone: the call moves to `c`, and the workers and their
    yield queues stay. -/
structure CallStep (s s' : State n Ext T) (a : Thread n Ext) (c : Call n T) : Prop where
  call : s'.call = update s.call a c
  thread : s'.thread = s.thread
  yield : s'.yieldQueue = s.yieldQueue

/-- The invariant is kept if notifications that were due stay due or are heeded, and a new
    item is announced. -/
theorem Inv.called (h : Inv s) (hs : CallStep s s' a c)
    (hinside : c ≠ .none → ∀ w, a = .worker w → ∃ item, s.thread w = .executing item)
    (hself : CallOk s'.park a c) (hothers : ∀ b, b ≠ a → CallOk s'.park b (s.call b))
    (hthreads : ∀ w, ThreadOk (s'.park w) w (s.thread w))
    (hcoming : ∀ w, Coming s w → Coming s' w ∨ Heed s' w) (hheed : ∀ w, Heed s w → Heed s' w)
    (hdeque : ∀ w, s'.localDeque w ≠ [] → s.localDeque w ≠ [] ∨ Coming s' w ∨ Heed s' w)
    (hentry : s'.globalEntry ≠ [] → s.globalEntry ≠ [] ∨ Announced s')
    (hfetch : s.call a = .fetchAdd → Announced s') : Inv s' := by
  refine ⟨?_, by rw [hs.thread]; exact hthreads, ?_,
    by rw [hs.thread, hs.yield]; exact h.yields, ?_, ?_⟩
  · rw [hs.call]
    exact forall_update_of_ne (P := fun b c => CallOk s'.park b c) hothers hself
  · rw [hs.call, hs.thread]
    exact fun w hw => forall_update_of_ne (P := fun b c => c ≠ Call.none →
      ∀ w, b = Thread.worker w → ∃ item, s.thread w = .executing item)
      (fun b _ => h.in_item) hinside (.worker w) hw w rfl
  · intro w hw
    rcases hdeque w hw with hold | hnew
    · rcases h.deques w hold with hc | hh
      · exact hcoming w hc
      · exact .inr (hheed w hh)
    · exact hnew
  · intro he
    rcases hentry he with hold | hnew
    · rcases h.entry hold with ⟨b, hb⟩ | ⟨w, hc | hh | hg⟩
      · rcases eq_or_ne b a with rfl | hba
        · exact hfetch hb
        · exact .inl ⟨b, by rw [hs.call, update_of_ne hba]; exact hb⟩
      · rcases hcoming w hc with hc' | hh'
        · exact .inr ⟨w, .inl hc'⟩
        · exact .inr ⟨w, .inr (.inl hh')⟩
      · exact .inr ⟨w, .inr (.inl (hheed w hh))⟩
      · exact .inr ⟨w, .inr (.inr (by rw [hs.thread]; exact hg))⟩
    · exact hnew

/-- A step of a call that is not in `notify()`: the idle objects stay too. -/
theorem Inv.plain (h : Inv s) (hs : CallStep s s' a c) (hpark : s'.park = s.park)
    (hplain : ∀ v p k, s.call a ≠ .notify v p k)
    (hinside : ∀ w, a = .worker w → ∃ item, s.thread w = .executing item)
    (hself : CallOk s.park a c)
    (hdeque : ∀ w, s'.localDeque w ≠ [] → s.localDeque w ≠ [] ∨ Coming s' w ∨ Heed s' w)
    (hentry : s'.globalEntry ≠ [] → s.globalEntry ≠ [] ∨ Announced s')
    (hfetch : s.call a = .fetchAdd → Announced s') : Inv s' := by
  have hnotifying : ∀ {r w}, Notifying r s w → Notifying r s' w := fun hn =>
    notifying_update hs.call hn (fun p k hp => absurd hp (hplain _ p k))
  refine h.called hs (fun _ => hinside) ?_ ?_ ?_ (fun w hc => .inl (hnotifying hc)) ?_
    hdeque hentry hfetch
  · rw [hpark]
    exact hself
  · intro b _
    rw [hpark]
    exact h.calls b
  · intro w
    rw [hpark]
    exact h.threads w
  · intro w hh
    rw [Heed, hs.thread, hpark]
    exact alert_frame hh (fun hp => hp) rfl hnotifying

/-- The calls of the life cycle. -/
def Call.lifecycle : Call n T → Bool
  | .startRunning _ | .startThread _ | .stopRunning _ | .joinThread _ => true
  | _ => false

/-- A change of the call alone. -/
theorem Inv.setCall (h : Inv s) (hplain : ∀ v p k, s.call a ≠ .notify v p k)
    (hnofetch : s.call a ≠ .fetchAdd)
    (hinside : ∀ w, a = .worker w → ∃ item, s.thread w = .executing item)
    (hself : CallOk s.park a c) : Inv (s.setCall a c) :=
  h.plain ⟨rfl, rfl, rfl⟩ rfl hplain hinside hself (fun _ hw => Or.inl hw)
    (fun he => Or.inl he) (fun hf => absurd hf hnofetch)

/-- A call of the life cycle goes on. -/
theorem Inv.proceed (h : Inv s) {c₀ : Call n T} (ha : s.call a = c₀)
    (hlife : c₀.lifecycle = true) (hself : CallOk s.park a c) : Inv (s.setCall a c) := by
  have hne : ∀ c' : Call n T, c'.lifecycle ≠ true → s.call a ≠ c' := by
    rintro _ hno rfl
    exact hno (ha ▸ hlife)
  exact h.setCall (fun v p k => hne _ nofun) (hne _ nofun) (h.in_item (hne _ nofun)) hself

/-! ## Steps of `notify()` -/

section Notify

variable {v : Fin n} {p p' : NotifyPc} {k : Option Nat} {g : Signals (Thread n Ext)}

/-- A step of `notify()` of worker `v`. -/
structure NotifyStep (s s' : State n Ext T) (a : Thread n Ext) (v : Fin n) (c : Call n T)
    (g : Signals (Thread n Ext)) : Prop extends CallStep s s' a c where
  park : s'.park = update s.park v g
  deque : s'.localDeque = s.localDeque
  entry : s'.globalEntry = s.globalEntry

/-- What the others know about worker `v` survives, since nobody takes the mutex from its
    owner or clears the flag. -/
theorem Inv.notify_frame (h : Inv s) (hs : NotifyStep s s' a v c g) (ha : s.call a = .notify v p k)
    (hmutex : ∀ b, b ≠ a → (s.park v).mutex = some b → g.mutex = some b)
    (hpend : (s.park v).pending = true → g.pending = true) :
    (∀ b, b ≠ a → CallOk s'.park b (s.call b)) ∧ ∀ w, ThreadOk (s'.park w) w (s.thread w) := by
  rw [hs.park]
  refine ⟨fun b hba => callOk_update (h.calls b) fun r j hc => ?_,
    forall_update_of_ne (P := fun w g => ThreadOk g w (s.thread w)) (fun w _ => h.threads w) ?_⟩
  · have hb := h.calls b
    rw [hc] at hb ⊢
    rw [CallOk, update_self]
    exact ⟨fun hr => hmutex b hba (hb.1 hr), fun hr => hpend (hb.2 hr)⟩
  · have hv := h.threads v
    cases hp : s.thread v with
    | idle r =>
      rw [hp] at hv
      have hne : Thread.worker v ≠ a := by
        rintro rfl
        exact nomatch (h.not_calling hp (by simp)).symm.trans ha
      exact fun hr => hmutex _ hne (hv hr)
    | _ => trivial

/-- The invariant after a step of `notify()`, if whoever was due to raise the generation of
    `v` still is, or the worker heeds it. -/
theorem Inv.notified (h : Inv s) (hs : NotifyStep s s' a v c g) (ha : s.call a = .notify v p k)
    (hmutex : ∀ b, b ≠ a → (s.park v).mutex = some b → g.mutex = some b)
    (hpend : (s.park v).pending = true → g.pending = true) (hself : CallOk s'.park a c)
    (hcoming : Coming s v → Coming s' v ∨ Heed s' v) (hheed : Heed s v → Heed s' v) : Inv s' := by
  obtain ⟨hothers, hthreads⟩ := h.notify_frame hs ha hmutex hpend
  have hnotifying : ∀ {r w}, w ≠ v → Notifying r s w → Notifying r s' w := by
    intro r w hwv hn
    refine notifying_update hs.call hn (fun p' k' hp => ?_)
    obtain ⟨rfl, -, -⟩ := Call.notify.inj (ha.symm.trans hp)
    exact absurd rfl hwv
  refine h.called hs.toCallStep (fun _ => h.in_item (by rw [ha]; nofun)) hself hothers hthreads
    ?_ ?_ (fun w hw => .inl (by rw [← hs.deque]; exact hw))
    (fun he => .inl (by rw [← hs.entry]; exact he)) (fun hf => nomatch ha.symm.trans hf)
  · intro w hc
    rcases eq_or_ne w v with rfl | hwv
    · exact hcoming hc
    · exact .inl (hnotifying hwv hc)
  · intro w hh
    rcases eq_or_ne w v with rfl | hwv
    · exact hheed hh
    · rw [Heed, hs.thread, hs.park, update_of_ne hwv]
      exact alert_frame hh (fun hp => hp) rfl (hnotifying hwv)

/-- A stage that does not touch the generation. -/
theorem Inv.stage (h : Inv s) (hs : NotifyStep s s' a v (.notify v p' k) g)
    (ha : s.call a = .notify v p k)
    (hmutex : ∀ b, b ≠ a → (s.park v).mutex = some b → g.mutex = some b)
    (hpend : (s.park v).pending = true → g.pending = true)
    (hgen : g.generation = (s.park v).generation) (hr : p'.raises = p.raises)
    (hself : (p'.holds = true → g.mutex = some a) ∧ (p' = .generation → g.pending = true)) :
    Inv s' := by
  have hnotifying : ∀ {r}, Notifying r s v → Notifying r s' v := by
    intro r hn
    refine notifying_update hs.call hn (fun q k' hq hqr => ⟨p', k, rfl, ?_⟩)
    obtain ⟨-, rfl, -⟩ := Call.notify.inj (ha.symm.trans hq)
    exact hr.trans hqr
  refine h.notified hs ha hmutex hpend ?_ (fun hc => .inl (hnotifying hc)) ?_
  · rw [CallOk, hs.park, update_self]
    exact hself
  · intro hh
    rw [Heed, hs.thread, hs.park, update_self]
    exact alert_frame hh hpend hgen hnotifying

/-- The stage that raises the generation: the worker heeds it, wherever it is, unless the
    counter has come back to what the worker waits to change. -/
theorem Inv.raise (h : Inv s) (hs : NotifyStep s s' a v (.notify v .unlock k)
      { s.park v with generation := wadd (s.park v).generation 1 })
    (ha : s.call a = .notify v .generation k) (hnew : NewGeneration s v) : Inv s' := by
  have hca := h.calls a
  rw [ha] at hca
  have hmine : (s.park v).mutex = some a := hca.1 rfl
  have hleave : Leaving s' v :=
    ⟨a, .unlock, k, by rw [hs.call, update_self], rfl⟩
  have hheed : Heed s' v := by
    rw [Heed, hs.thread, hs.park, update_self]
    cases hp : s.thread v with
    | idle r =>
      have hv := h.threads v
      rw [hp] at hv
      -- the worker is in `enter_idle()`, so it is not the notifier, which has the mutex
      have hfree : r.holds = false := by
        by_contra hr
        have hown := hv (by simpa using hr)
        obtain rfl : Thread.worker v = a := Option.some.inj (hown.symm.trans hmine)
        exact nomatch (h.not_calling hp (by simp)).symm.trans ha
      rw [NewGeneration, hp] at hnew
      exact heeds_raised (hca.2 rfl) hfree hnew hleave
    | globalCheck | steal i => exact hca.2 rfl
    | _ => trivial
  refine h.notified hs ha (fun _ _ hb => hb) (fun hp => hp) ?_
    (fun _ => .inr hheed) (fun _ => hheed)
  rw [CallOk, hs.park, update_self]
  exact ⟨fun _ => hmine, nofun⟩

/-- The last stage: the worker has just been woken. -/
theorem Inv.leave (h : Inv s) (hs : NotifyStep s s' a v (afterNotify k) (s.park v))
    (ha : s.call a = .notify v .notifyOne k) (hwoken : (s.thread v).wake = s.thread v) :
    Inv s' := by
  refine h.notified hs ha (fun _ _ hb => hb) (fun hp => hp) ?_ ?_ ?_
  · cases k <;> trivial
  · intro hc
    refine .inl (notifying_update hs.call hc (fun q j hq hr => ?_))
    obtain ⟨-, rfl, -⟩ := Call.notify.inj (ha.symm.trans hq)
    cases hr
  · intro hh
    rw [Heed, hs.thread, hs.park, update_self, ← hwoken]
    exact alert_wake hh

/-- The stages of `notify()` keep the invariant. -/
theorem Inv.goStage (h : Inv s) (ha : s.call a = .notify v p k)
    (hn : (s.park v).notify a p = some (g, some p')) (hnew : p = .generation → NewGeneration s v) :
    Inv ({ s with park := update s.park v g }.setCall a (.notify v p' k)) := by
  have hok : NotifyOk (s.park v) a p := by
    have hca := h.calls a
    rwa [ha] at hca
  obtain ⟨hself, hmutex, hpend, hraised⟩ := notify_stage hn hok
  rcases hraised with ⟨rfl, rfl, rfl⟩ | ⟨hr, hgen⟩
  · exact h.raise ⟨⟨rfl, rfl, rfl⟩, rfl, rfl, rfl⟩ ha (hnew rfl)
  · exact h.stage ⟨⟨rfl, rfl, rfl⟩, rfl, rfl, rfl⟩ ha hmutex hpend hgen hr hself

/-- The return from `notify()` keeps the invariant. -/
theorem Inv.goWake (h : Inv s) (ha : s.call a = .notify v .notifyOne k) :
    Inv ((s.setThread v (s.thread v).wake).setCall a (afterNotify k)) := by
  have hwoken : ((s.setThread v (s.thread v).wake).thread v).wake =
      (s.setThread v (s.thread v).wake).thread v := by
    show (update s.thread v (s.thread v).wake v).wake =
      update s.thread v (s.thread v).wake v
    rw [update_self, wake_wake]
  exact (h.wakes v).leave ⟨⟨rfl, rfl, rfl⟩, (update_eq_self ..).symm, rfl, rfl⟩ ha hwoken

end Notify

/-- A submission's enqueue keeps the invariant: the item is announced, or the worker is the
    submitter. -/
theorem Inv.goEnqueue (h : Inv s) {q : Queue n} {item : T} {announce : Bool} (room : Bool)
    (ha : s.call a = .enqueue q item announce) :
    Inv ((s.enqueue room item q).setCall a (afterEnqueue q announce)) := by
  have hca := h.calls a
  rw [ha] at hca
  have hplain : ∀ v p k, s.call a ≠ .notify v p k := by rw [ha]; nofun
  have hnofetch : s.call a ≠ .fetchAdd := by rw [ha]; nofun
  have hin := h.in_item (a := a) (by rw [ha]; nofun)
  cases announce with
  | false =>
    obtain ⟨w, rfl, rfl⟩ := hca
    obtain ⟨item', hw⟩ := hin w rfl
    refine h.plain ⟨rfl, rfl, rfl⟩ rfl hplain hin (by trivial) ?_ (fun he => .inl he)
      (fun hf => absurd hf hnofetch)
    intro u hu
    rcases eq_or_ne u w with rfl | huw
    · refine .inr (.inr ?_)
      show Alert (s.park u) _ (s.thread u)
      rw [hw]
      trivial
    · exact .inl fun hnil => hu ((update_of_ne huw _ _).trans hnil)
  | true =>
    cases q with
    | localDeque v =>
      refine h.plain ⟨rfl, rfl, rfl⟩ rfl hplain hin ⟨nofun, nofun⟩ ?_
        (fun he => .inl he) (fun hf => absurd hf hnofetch)
      intro u hu
      rcases eq_or_ne u v with rfl | huv
      · exact .inr (.inl ⟨a, .lock, none, update_self .., rfl⟩)
      · exact .inl fun hnil => hu ((update_of_ne huv _ _).trans hnil)
    | globalEntry =>
      exact h.plain ⟨rfl, rfl, rfl⟩ rfl hplain hin trivial (fun _ hu => .inl hu)
        (fun _ => .inr (.inl ⟨a, update_self ..⟩))
        (fun hf => absurd hf hnofetch)

/-- **Every step of a call keeps the invariant.** -/
theorem Inv.goCall (h : Inv s) {s₁ : State n Ext T} {c₀ : Call n T} (ha : s.call a = c₀)
    (hm : CallMove s a c₀ s₁ c)
    (hnew : ∀ v k, c₀ = .notify v .generation k → NewGeneration s v) : Inv (s₁.setCall a c) := by
  cases hm with
  | enqueued q item announce room => exact h.goEnqueue room ha
  | stage hn =>
    refine h.goStage ha hn ?_
    rintro rfl
    exact hnew _ _ rfl
  | woken v k => exact h.goWake ha
  | chosen v =>
    refine h.plain ⟨rfl, rfl, rfl⟩ rfl (by rw [ha]; nofun) (h.in_item (by rw [ha]; nofun))
      ⟨nofun, nofun⟩ (fun _ hw => .inl hw) (fun he => .inl he) (fun _ => ?_)
    exact .inr ⟨v, .inl ⟨a, .lock, none, update_self .., rfl⟩⟩
  | startStore v => exact (h.setRunning _).proceed ha rfl trivial
  | stopStore v => exact (h.setRunning _).proceed ha rfl ⟨nofun, nofun⟩
  | startCreate hv | joined hv =>
    exact (h.settle (h.not_calling hv (by simp)) rfl).proceed ha rfl trivial
  | startDone _ | stopDone _ | joinSkip _ | joinDone _ => exact h.proceed ha rfl trivial

end Calls

/-! ## Whole runs -/

/-- What a call begins with is in order. -/
theorem callOk_begins {act : Act n Ext T} {a : Thread n Ext} {c : Call n T}
    (h : Begins act a c) (park : Fin n → Signals (Thread n Ext)) : CallOk park a c := by
  cases h with
  | add w item => exact ⟨w, rfl, rfl⟩
  | _ => trivial

/-- The call is not part of a `stop()`. -/
def Call.unstopped : Call n T → Prop
  | .stopRunning _ | .notify _ _ (some _) => False
  | _ => True

/-- The run is before `stop()`. -/
def NoStop (_ : List (Event n Ext)) (_ : State n Ext T) : Act n Ext T → Prop
  | .stop _ => False
  | _ => True

instance (t : List (Event n Ext)) (s : State n Ext T) (act : Act n Ext T) :
    Decidable (NoStop t s act) :=
  match act with
  | .stop .. => isFalse id
  | .add .. | .addToWorker .. | .yield .. | .finish .. | .start .. | .join .. | .goCall ..
  | .goWorker .. | .wake .. => isTrue trivial

/-- The worker whose generation the action increments. -/
def State.raising (s : State n Ext T) : Act n Ext T → Option (Fin n)
  | .goCall a _ _ =>
    match s.call a with
    | .notify v .generation _ => some v
    | _ => none
  | _ => none

/-- The run is before `stop()`, and no increment brings the generation of a worker back to
    the value that the worker waits to change. -/
def Unwrapped (t : List (Event n Ext)) (s : State n Ext T) (act : Act n Ext T) : Prop :=
  NoStop t s act ∧ ∀ v ∈ s.raising act, NewGeneration s v
deriving Decidable

/-- The steps of calls that are not part of a `stop()` do not begin one. -/
theorem unstopped_move {s : State n Ext T} {a : Thread n Ext} {s₁ : State n Ext T} {c₀ c : Call n T}
    (hm : CallMove s a c₀ s₁ c) (h : c₀.unstopped) : s₁.call = s.call ∧ c.unstopped := by
  cases hm with
  | enqueued q item announce room =>
    constructor
    · cases q <;> rfl
    · cases announce <;> cases q <;> trivial
  | stage _ =>
    next k _ _ =>
    cases k with
    | none => exact ⟨rfl, trivial⟩
    | some k => exact h.elim
  | woken v k =>
    cases k with
    | none => exact ⟨rfl, trivial⟩
    | some k => exact h.elim
  | stopStore v => exact h.elim
  | _ => exact ⟨rfl, trivial⟩

section Runs

variable [DecidableEq Ext] {cfg : Config n} {s s' : State n Ext T}

theorem Inv.step (h : Inv s) {act : Act n Ext T} (hm : StepMove cfg s act s')
    (hnew : ∀ v ∈ s.raising act, NewGeneration s v) : Inv s' := by
  cases hm with
  | begins hb hf =>
    obtain ⟨hnone, hin⟩ := free_spec hf
    exact h.setCall (by rw [hnone]; nofun) (by rw [hnone]; nofun) hin (callOk_begins hb _)
  | ignored => exact h
  | yields w item hf =>
    obtain ⟨item', hw⟩ := (free_spec hf).2 w rfl
    refine { h with yields := ?_ }
    intro v hv
    have hvw : v ≠ w := by
      rintro rfl
      have hv' : (s.thread v).pastYield = true := hv
      rw [hw] at hv'
      cases hv'
    exact (update_of_ne hvw _ _).trans (h.yields v hv)
  | finishes w hf => exact h.settle (free_spec hf).1 rfl
  | calls room counter hm =>
    refine h.goCall rfl hm (fun v k hc => hnew v ?_)
    simp [State.raising, hc]
  | works hm => exact h.goWorker rfl hm
  | wakes w => exact h.wakes w

/-- Before `stop()` no call is part of one. -/
theorem unstopped_step {act : Act n Ext T} {t : List (Event n Ext)} (hno : NoStop t s act)
    (hm : StepMove cfg s act s') (h : ∀ a, (s.call a).unstopped) : ∀ a, (s'.call a).unstopped := by
  cases hm with
  | begins hb hf =>
    refine forall_update (P := fun _ c => Call.unstopped c) h ?_
    cases hb with
    | stop a => exact hno.elim
    | _ => trivial
  | calls room counter hm =>
    obtain ⟨hcall, hc⟩ := unstopped_move hm (h _)
    refine forall_update (P := fun _ c => Call.unstopped c) ?_ hc
    rw [hcall]
    exact h
  | works hm =>
    rw [hm.call]
    exact h
  | ignored | yields | finishes | wakes => exact h

/-- The worker is blocked in its condition variable. -/
def Blocked (s : State n Ext T) (w : Fin n) : Prop := ∃ g, s.thread w = .idle (.parkBlocked g)

/-- A thread is between the enqueue of a submission and the end of its `notify()` of
    worker `v`. -/
def Submitting (s : State n Ext T) (v : Fin n) : Prop := ∃ a p, s.call a = .notify v p none

/-- No work lies next to sleeping workers: a blocked worker has an empty yield queue, and an
    empty ring unless a submitter is still notifying it; and if all workers are blocked the
    global ring is empty, unless a submitter has still to finish its `notify()`. -/
def NothingStranded (s : State n Ext T) : Prop :=
  (∀ w, Blocked s w → s.yieldQueue w = [] ∧ (s.localDeque w ≠ [] → Submitting s w)) ∧
  ((∀ w, Blocked s w) → s.globalEntry ≠ [] → (∃ a, s.call a = .fetchAdd) ∨ ∃ v, Submitting s v)

omit [DecidableEq Ext] in
theorem Inv.nothing_stranded (h : Inv s) (hun : ∀ a, (s.call a).unstopped) : NothingStranded s := by
  have hsubmitting : ∀ {r v}, Notifying r s v → Submitting s v := by
    rintro r v ⟨a, p, k, ha, -⟩
    have hk := hun a
    rw [ha] at hk
    cases k with
    | none => exact ⟨a, p, ha⟩
    | some k => exact hk.elim
  have hblocked : ∀ {w}, Blocked s w → Heed s w → Submitting s w := by
    rintro w ⟨g, hg⟩ hh
    rw [Heed, hg] at hh
    exact hsubmitting hh.2
  constructor
  · intro w hw
    obtain ⟨g, hg⟩ := id hw
    refine ⟨h.yields w (by rw [hg]; rfl), fun hne => ?_⟩
    rcases h.deques w hne with hc | hh
    · exact hsubmitting hc
    · exact hblocked hw hh
  · intro hall hne
    rcases h.entry hne with hf | ⟨w, hc | hh | hg⟩
    · exact .inl hf
    · exact .inr ⟨w, hsubmitting hc⟩
    · exact .inr ⟨w, hblocked (hall w) hh⟩
    · obtain ⟨g, hb⟩ := hall w
      exact nomatch hb.symm.trans hg

/-- The invariant holds in every run before `stop()` whose counters do not come round. -/
theorem inv_exec {t : List (Event n Ext)} (hrun : Exec (machine cfg) Unwrapped (init n Ext T) t s) :
    Inv s ∧ ∀ a, (s.call a).unstopped := by
  refine hrun.invariant (fun _ s => Inv s ∧ ∀ a, (s.call a).unstopped)
    ⟨inv_init, fun _ => trivial⟩ ?_
  rintro t s act s' ⟨h, hun⟩ ⟨hno, hnew⟩ hstep
  have hm := step_moves hstep
  exact ⟨h.step hm hnew, unstopped_step hno hm hun⟩

/-- **No work is stranded**, before `stop()`, for every number of workers and every
    interleaving in which no counter comes round. -/
theorem no_stranded_work (cfg : Config n) {t : List (Event n Ext)}
    (hrun : Exec (machine cfg) Unwrapped (init n Ext T) t s) : NothingStranded s := by
  obtain ⟨h, hun⟩ := inv_exec hrun
  exact h.nothing_stranded hun

end Runs

/-- The executor is started and its worker spins, yields and goes to sleep. -/
def fallAsleep : List (Act 1 Unit Nat) :=
  .start (.external ()) :: List.replicate 3 (.goCall (.external ()) true 0) ++
    List.replicate 137 (.goWorker ⟨0, Nat.one_pos⟩)

/-- The worker sleeps while an external submission sits in the global ring, and the submitter
    has incremented the generation and has still to wake it. -/
theorem submitter_between_enqueue_and_notify : ∃ (t : List (Event 1 Unit)) (s : State 1 Unit Nat),
      Exec (machine soloConfig) Unwrapped (init 1 Unit Nat) t s ∧ (∀ w, Blocked s w) ∧
      s.globalEntry = [7] ∧ ((∃ a, s.call a = .fetchAdd) ∨ ∃ v, Submitting s v) := by
  have hrun : Exec (machine soloConfig) Unwrapped (init 1 Unit Nat) _ _ :=
    exec_run (fallAsleep ++ .add (.external ()) 7 ::
      List.replicate 7 (.goCall (.external ()) true 0))
  refine ⟨_, _, hrun, ?_, by decide +kernel, (no_stranded_work soloConfig hrun).2 ?_
    (by decide +kernel)⟩
  all_goals exact fun w => ⟨0, by revert w; decide +kernel⟩

end WorkStealing
