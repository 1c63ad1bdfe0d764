import StorageRuntime.IoBufferProofs
import StorageRuntime.LibaioProofs
import StorageRuntime.SpdkProofs

/-!
# The IO backends — what the three of them have in common

io_uring, libaio and SPDK implement one interface: `submit` takes a request and `poll`
reports completions.  This module compares them on two promises of that interface.

* **`polls_report_once`**: what is reported by `poll`.  libaio reports every completion
  once.  io_uring does if no completion is consumed inside `submit`, and SPDK if all that
  is processed by one call fits.  Otherwise completions are missing from `out`
  (`polls_lose_completions`).
* **`unsupported_answered`**: what becomes of a request that is neither a read nor a
  write.  SPDK answers it with -EINVAL; io_uring answers it with -ENOBUFS if it finds no
  entry for it.  Otherwise io_uring does once more what the recycled entry did before,
  and libaio never answers (`unsupported_repeats_or_hangs`).
-/

namespace IoUring

open Interleaving Answering RingBuffer
open scoped List

/-! ## What poll reports -/

/-- What the kernel has completed, newest first. -/
def completions (t : List Event) : List IOCompletion :=
  t.filterMap fun
    | .completed e res => some ⟨e.userData, res⟩
    | _ => none

/-- What the kernel has ready. -/
def Ring.ready (r : Ring) : List IOCompletion := r.cq.map fun c => ⟨c.userData, c.res⟩

/-- What a running call of `poll` has written to `out`. -/
def Pc.out : Pc → Option (List IOCompletion)
  | .polling _ out => some out
  | _ => none

/-- A register for what is written to `out`, apart from errors of polling: by the calls that
    have returned, and by the one that is running. -/
def written (b : List IOCompletion × List IOCompletion) (s : State) :
    List IOCompletion × List IOCompletion :=
  match s.pc.out with
  | some out => (b.1, out)
  | none => (b.1 ++ b.2, [])

/-- The thread is about to consume a completion inside `submit`. -/
def State.drains (s : State) : Bool :=
  match s.pc with
  | .draining attempts _ _ _ => attempts < drainLimit s.queueDepth
  | _ => false

/-- No completion is consumed inside `submit`. -/
def Undrained (_ : List Event) (s : State) (a : Act) : Prop := a = .go → s.drains = false
deriving Decidable

section Reports

variable {t : List Event} {s s' : State} {a : Act} {o : Option Event}
  {b : List IOCompletion × List IOCompletion}

/-- Indices of `pending_` are given out once. -/
def Numbered (t : List Event) (s : State) : Prop :=
  Tickets s.submitCount (s.ring.held.map Sqe.userData) ((completions t).map IOCompletion.userData)

theorem completions_answer (cqe : Cqe) : completions (note t (s.answer cqe)) = completions t := by
  rw [State.answer]
  split
  · cases (s.job cqe.userData).invokeCallback ⟨cqe.userData, cqe.res⟩ with
    | none | some c => rfl
  · rfl

theorem completions_called (c : Option Call) :
    completions (note t (c.map .called)) = completions t := by
  cases c with
  | none => rfl
  | some c => rfl

theorem Numbered.move (h : Numbered t s) (hinv : Inv t s) {a : Act} (hm : Move s a o s') :
    Numbered (note t o) s' := by
  cases hm with
  | @fills job todo flushing slot ring hpc hget =>
    let sqe : Sqe :=
      { (ring.sqes slot).prep job.request with userData := s.submitCount, owner := job.serial }
    obtain ⟨-, hqueued, -, -, hinFlight, -⟩ := hinv.ring.getSqe hget sqe
    have hheld : (ring.write slot sqe).held ~ sqe :: s.ring.held := by
      have hflight : (ring.write slot sqe).inFlight = s.ring.inFlight := hinFlight
      rw [Ring.held, hqueued, hflight, List.append_assoc]
      exact List.perm_middle
    exact Tickets.move (Tickets.give h) (hheld.map Sqe.userData)
  | takes htake =>
    obtain ⟨-, hheld, -⟩ := hinv.ring.take htake
    exact Tickets.move h (hheld.map Sqe.userData)
  | releases hrel =>
    obtain ⟨-, hheld, -⟩ := hinv.ring.release hrel
    exact Tickets.move h (.of_eq (congrArg (List.map Sqe.userData) hheld))
  | completes hget =>
    exact Tickets.comeBack (Tickets.move h ((held_complete hget).symm.map Sqe.userData))
  | submits hring | returns _ hring => rcases hring with rfl | ⟨rfl, -⟩ <;> exact h
  | drains _ _ | reports _ _ | aborts _ _ _ =>
    show Tickets _ _ ((completions _).map _)
    rw [completions_answer]
    exact h
  | givesUp _ =>
    show Tickets _ _ ((completions _).map _)
    rw [completions_called]
    exact h
  | _ => exact h

/-- What has been written to `out` and what is ready is what has been completed. -/
structure Reporting (t : List Event) (s : State) (b : List IOCompletion × List IOCompletion) :
    Prop where
  running : b.2 = s.pc.out.getD []
  account : b.1 ++ b.2 ++ s.ring.ready ~ completions t

theorem running_written : (written b s').2 = s'.pc.out.getD [] := by
  rw [written]
  split
  next hout => rw [hout]; rfl
  next hout => rw [hout]; rfl

/-- A step that writes nothing to `out`. -/
theorem Reporting.quiet (h : Reporting t s b) {t' : List Event}
    (hout : s'.pc.out = s.pc.out ∨ s'.pc.out = none ∨ s'.pc.out = some [] ∧ s.pc.out = none)
    (hready : s'.ring.ready = s.ring.ready) (hdone : completions t' = completions t) :
    Reporting t' s' (written b s') := by
  refine ⟨running_written, ?_⟩
  have hall : (written b s').1 ++ (written b s').2 = b.1 ++ b.2 := by
    rw [written]
    split
    next out hsome =>
      rcases hout with hsame | hnone | ⟨hnil, hidle⟩
      · rw [h.running, ← hsame, hsome]
        rfl
      · rw [hsome] at hnone
        cases hnone
      · rw [hsome] at hnil
        cases hnil
        rw [h.running, hidle]
        rfl
    next => exact List.append_nil _
  rw [hall, hready, hdone]
  exact h.account

theorem Reporting.step (h : Reporting t s b) (hinv : Inv t s) (hc : Undrained t s a)
    (hs : IoUring.step s a = some s') : Reporting (note t (event s a)) s' (written b s') := by
  have hmove := step_moves hs
  generalize event s a = o at hmove ⊢
  cases hmove with
  | hands _ | flushes _ | full _ | waits _ | retries _ | ends _ =>
    exact h.quiet (.inr (.inl rfl)) rfl rfl
  | buffers _ | stays | ages _ | configures => exact h.quiet (.inl rfl) rfl rfl
  | submits hring => exact h.quiet (.inl rfl) (by rcases hring with rfl | ⟨rfl, -⟩ <;> rfl) rfl
  | polls hpc => exact h.quiet (.inr (.inr ⟨rfl, hpc ▸ rfl⟩)) rfl rfl
  | fills _ hget =>
    obtain ⟨-, -, -, -, -, hcq⟩ := hinv.ring.getSqe hget {}
    refine h.quiet (.inr (.inl rfl)) ?_ rfl
    exact congrArg (List.map fun c => IOCompletion.mk c.userData c.res) hcq
  | returns _ hring =>
    exact h.quiet (.inr (.inl rfl)) (by rcases hring with rfl | ⟨rfl, -⟩ <;> rfl) rfl
  | drains hpc _ hlt =>
    have hfalse := hc rfl
    rw [State.drains, hpc] at hfalse
    exact absurd hlt (of_decide_eq_false hfalse)
  | givesUp _ => exact h.quiet (.inr (.inl rfl)) rfl (completions_called _)
  | @reports max out cqe rest hpc hcq =>
    refine ⟨running_written, ?_⟩
    have hrunning : b.2 = out := by
      rw [h.running, hpc]
      rfl
    have haccount := h.account
    rw [hrunning, Ring.ready, hcq] at haccount
    rw [completions_answer]
    refine .trans (.of_eq ?_) haccount
    show b.1 ++ (out ++ [_]) ++ s.ring.cq.tail.map _ = _
    rw [hcq, List.tail_cons, List.map_cons, List.append_assoc, List.append_assoc, List.append_assoc]
    rfl
  | aborts _ _ _ => exact h.quiet (.inr (.inl rfl)) rfl (completions_answer _)
  | takes htake =>
    obtain ⟨-, -, hcq, -⟩ := hinv.ring.take htake
    exact h.quiet (.inl rfl) (congrArg (List.map _) hcq) rfl
  | releases hrel =>
    obtain ⟨-, -, hcq, -⟩ := hinv.ring.release hrel
    exact h.quiet (.inl rfl) (congrArg (List.map _) hcq) rfl
  | @completes i res sqe _ =>
    refine ⟨running_written, ?_⟩
    have hall : (written b s).1 ++ (written b s).2 = b.1 ++ b.2 := by
      rw [written]
      split
      next out hsome => rw [h.running, hsome]; rfl
      next => exact List.append_nil _
    show (written b s).1 ++ (written b s).2 ++ (s.ring.cq ++ [_]).map _ ~ _ :: completions t
    rw [hall, List.map_append, ← List.append_assoc]
    exact (List.perm_append_singleton _ _).trans (h.account.cons _)

/-- **Polling reports every completion once**, if no completion is consumed inside
    `submit`. -/
theorem ioUring_reports {cfg : Config} {x : State × List IOCompletion × List IOCompletion}
    (h : Exec (machine.watch written) (fun t x a => Undrained t x.1 a) (init cfg, [], []) t x) :
    ReportsOnce IOCompletion.userData (completions t) x.1.ring.ready (x.2.1 ++ x.2.2) := by
  have hall : Inv t x.1 ∧ Numbered t x.1 ∧ Reporting t x.1 x.2 := by
    have hnumbered : Numbered [] (init cfg) := Tickets.nil 0
    have hreporting : Reporting [] (init cfg) ([], []) := ⟨rfl, List.Perm.refl _⟩
    refine h.invariant (fun t x => Inv t x.1 ∧ Numbered t x.1 ∧ Reporting t x.1 x.2)
      ⟨inv_init cfg, hnumbered, hreporting⟩ ?_
    rintro t x a x' ⟨hinv, hnumbered, hreporting⟩ hc hs
    obtain ⟨s', hs', rfl⟩ := Option.map_eq_some_iff.mp hs
    exact ⟨hinv.step hs', hnumbered.move hinv (step_moves hs'), hreporting.step hinv hc hs'⟩
  obtain ⟨-, hnumbered, hreporting⟩ := hall
  exact reportsOnce_of_perm hreporting.account (Tickets.nodup_back hnumbered)

/-- A running call has written at most `max` entries. -/
def Bounded (s : State) : Prop := ∀ max out, s.pc = .polling max out → out.length ≤ max

theorem bounded_of_out (hpc : s.pc.out = none) : Bounded s := by
  intro max out hpolling
  rw [hpolling] at hpc
  cases hpc

theorem Bounded.move (h : Bounded s) (hm : Move s a o s') : Bounded s' := by
  cases hm with
  | buffers _ | stays | ages _ | configures | submits _ | takes _ | releases _ | completes _ =>
    exact h
  | polls _ =>
    rintro max out ⟨⟩
    exact Nat.zero_le _
  | reports _ _ hlt =>
    rintro max out ⟨⟩
    rw [List.length_append]
    exact hlt
  | _ => exact bounded_of_out rfl

theorem bounded_of_exec {cfg : Config} {C : List Event → State → Act → Prop}
    (h : Exec machine C (init cfg) t s) : Bounded s := by
  refine h.invariant (fun _ s => Bounded s) (bounded_of_out rfl) ?_
  intro t s a s' hbounded _ hs
  exact hbounded.move (step_moves hs)

theorem answer_ne_polled (cqe : Cqe) (out : List IOCompletion) :
    s.answer cqe ≠ some (.polled out) := by
  intro hanswer
  rw [State.answer] at hanswer
  split at hanswer
  · obtain ⟨c, -, hc⟩ := Option.map_eq_some_iff.mp hanswer
    cases hc
  · cases hanswer

/-- **A call returns at most `max` entries**, an error of polling included. -/
theorem polled_le_max {cfg : Config} {C : List Event → State → Act → Prop}
    (h : Exec machine C (init cfg) t s) (hs : step s a = some s') {out : List IOCompletion}
    (he : event s a = some (.polled out)) :
    ∃ max sofar, s.pc = .polling max sofar ∧ out.length ≤ max := by
  have hmove := step_moves hs
  generalize event s a = o at hmove he
  cases hmove with
  | ends hpc hle =>
    cases he
    exact ⟨_, _, hpc, hle (bounded_of_exec h _ _ hpc)⟩
  | drains | reports | aborts => exact absurd he (answer_ne_polled _ _)
  | givesUp _ =>
    obtain ⟨c, -, hc⟩ := Option.map_eq_some_iff.mp he
    cases hc
  | _ => cases he

end Reports

/-! ## Requests that get no entry -/

/-- The callbacks that have been called. -/
def calls (t : List Event) : List Call :=
  t.filterMap fun
    | .called c => some c
    | _ => none

/-- Request `k` is no longer waiting to be prepared, and was not prepared. -/
def State.GivenUp (s : State) (k : Nat) : Prop :=
  k ∉ s.prepared ∧ k ∉ (s.pc.carried ++ s.buffered).map Job.serial
deriving Decidable

section GivenUp

variable {t : List Event} {s s' : State} {o : Option Event} {k : Nat} {r : IORequest}

theorem mem_calls {c : Call} : c ∈ calls t ↔ .called c ∈ t := by
  refine ⟨fun hc => ?_, fun hc => List.mem_filterMap.mpr ⟨_, hc, rfl⟩⟩
  obtain ⟨e, he, hcall⟩ := List.mem_filterMap.mp hc
  cases e with
  | called c => cases hcall; exact he
  | completed sqe res | polled out => cases hcall

theorem answered_eq : answered t = (calls t).map Call.serial := by
  rw [answered, calls, List.map_filterMap]
  refine congrArg (List.filterMap · t) (funext fun e => ?_)
  cases e with
  | called c | completed sqe res | polled out => rfl

theorem length_calls : ((calls t).filter (·.serial = k)).length = (answered t).count k := by
  rw [answered_eq, List.count, List.countP_map, ← List.countP_eq_length_filter]
  rfl

/-- Entries that the kernel has completed belong to requests that were prepared. -/
def CompletedOwned (t : List Event) (s : State) : Prop :=
  ∀ e res, .completed e res ∈ t → Owned s e

theorem CompletedOwned.move (h : CompletedOwned t s) (hinv : Inv t s) {a : Act}
    (hm : Move s a o s') : CompletedOwned (note t o) s' := by
  have hcalled : ∀ {c : Option Call}, CompletedOwned (note t (c.map .called)) s := by
    intro c e res hmem
    cases c with
    | none => exact h e res hmem
    | some c =>
      rcases List.mem_cons.mp hmem with heq | hmem
      · cases heq
      · exact h e res hmem
  have hanswer : ∀ {cqe : Cqe}, CompletedOwned (note t (s.answer cqe)) s := by
    intro cqe
    rw [State.answer]
    split
    · exact hcalled
    · exact h
  cases hm with
  | @fills job todo flushing slot ring _ _ =>
    intro e res hmem
    exact Owned.gotSqe (s := { s with ring := ring, pc := .submitting todo flushing })
      (h e res hmem) slot job
  | drains _ _ | reports _ _ | aborts _ _ _ => exact hanswer
  | givesUp _ => exact hcalled
  | ends _ =>
    intro e res hmem
    rcases List.mem_cons.mp hmem with heq | hmem
    · cases heq
    · exact h e res hmem
  | @completes i result sqe hget =>
    intro e res hmem
    rcases List.mem_cons.mp hmem with heq | hmem
    · cases heq
      exact hinv.entries sqe ((held_complete hget).mem_iff.mpr List.mem_cons_self)
    · exact h e res hmem
  | _ => exact h

theorem mem_prepared {idx : Nat} (hlt : idx < s.submitCount) : (s.job idx).serial ∈ s.prepared :=
  List.mem_map_of_mem (List.mem_range.mpr hlt)

/-- **A request that got no entry is answered once**, with -ENOBUFS, and the kernel has
    completed nothing for it. -/
theorem givenUp_answered {cfg : Config} {C : List Event → State → Act → Prop}
    (h : Exec machine C (init cfg) t s) (hr : s.handed[k]? = some r) (hk : s.GivenUp k) :
    (r.callbackFn ≠ none → ((calls t).filter (·.serial = k)).length = 1) ∧
      (∀ c ∈ calls t, c.serial = k → c.comp.result = -enobufs) ∧
      ∀ e res, .completed e res ∈ t → e.owner ≠ k := by
  obtain ⟨hprepared, hunprepared⟩ := hk
  have hall : Inv t s ∧ CompletedOwned t s := by
    refine h.invariant (fun t s => Inv t s ∧ CompletedOwned t s)
      ⟨inv_init cfg, fun e res hmem => absurd hmem List.not_mem_nil⟩ ?_
    rintro t s a s' ⟨hinv, howned⟩ - hs
    exact ⟨hinv.step hs, howned.move hinv (step_moves hs)⟩
  obtain ⟨hinv, howned⟩ := hall
  have hnone : ∀ e res, .completed e res ∈ t → e.owner ≠ k := by
    rintro e res hmem rfl
    obtain ⟨hlt, howner, -⟩ := howned e res hmem
    rw [howner] at hprepared
    exact hprepared (mem_prepared hlt)
  refine ⟨fun hfn => ?_, fun c hc hserial => ?_, hnone⟩
  · have hnot : k ∉ s.waiting.map Job.serial := by
      rw [State.waiting, List.map_append]
      intro hmem
      rcases List.mem_append.mp hmem with hkey | hrest
      · obtain ⟨job, hjob, rfl⟩ := List.mem_map.mp hkey
        obtain ⟨i, hi, rfl⟩ := List.mem_map.mp hjob
        exact hprepared (mem_prepared (hinv.key_lt hi))
      · exact hunprepared hrest
    have honce := hinv.account.once k ⟨r, hr, hfn⟩
    rw [List.count_eq_zero_of_not_mem hnot] at honce
    rw [length_calls]
    exact honce
  · obtain ⟨r', -, -, -, hres⟩ := hinv.account.calls c (mem_calls.mp hc)
    rcases hres with hres | ⟨e, hmem, howner, -⟩
    · exact hres
    · exact absurd (howner.trans hserial) (hnone e _ hmem)

end GivenUp

end IoUring

namespace IoBackend

open Interleaving Answering
open IoUring (IORequest IOCompletion Call)

/-! ## The comparison -/

/-- **Polling reports every completion once**, and at most `max` in a call: with libaio in
    every run; with io_uring if no completion is consumed inside `submit`; with SPDK if all
    that is processed by one call of `poll` fits into the staging array and into `out`, and
    nothing is processed when the call fails. -/
theorem polls_report_once (cfg : IoUring.Config) (queueDepth : Nat) (spdkCfg : Spdk.Config) :
    (∀ t x, Exec (IoUring.machine.watch IoUring.written)
        (fun t x a => IoUring.Undrained t x.1 a) (IoUring.init cfg, [], []) t x →
      ReportsOnce IOCompletion.userData (IoUring.completions t) x.1.ring.ready (x.2.1 ++ x.2.2) ∧
        ∀ a s' out, IoUring.step x.1 a = some s' →
          IoUring.event x.1 a = some (.polled out) →
          ∃ max sofar, x.1.pc = .polling max sofar ∧ out.length ≤ max) ∧
    (∀ t s, Exec Libaio.machine Always (Libaio.init queueDepth) t s →
      ReportsOnce IOCompletion.userData (Libaio.completed t) s.events (Polling.reported t) ∧
        ∀ a s' e max out, Libaio.step s a = some s' → Libaio.event s a = some e →
          e.returned = some (max, out) → 1 ≤ max → out.length ≤ max) ∧
    ∀ t s, Exec Spdk.machine Spdk.Fits (Spdk.init spdkCfg) t s →
      ReportsOnce IOCompletion.userData (Spdk.completions t s) s.waiting (Polling.reported t) ∧
        ∀ a s' e max out, Spdk.step s a = some s' → Spdk.event s a = some e →
          e.returned = some (max, out) → 1 ≤ max → out.length ≤ max := by
  refine ⟨?_, ?_, ?_⟩
  · intro t x h
    refine ⟨IoUring.ioUring_reports h, ?_⟩
    intro a s' out hs he
    exact IoUring.polled_le_max h.unwatch hs he
  · intro t s h
    refine ⟨Libaio.libaio_reports h, ?_⟩
    intro a s' e max out hs he hreturned hmax
    exact (he ▸ Libaio.poll_bounded hs).le_max hreturned hmax
  · intro t s h
    refine ⟨Spdk.spdk_reports h, ?_⟩
    intro a s' e max out hs he hreturned hmax
    exact (he ▸ Spdk.poll_bounded hs).le_max hreturned hmax

/-- Two requests, completed in the other order and polled one at a time. -/
def reversed : List IoUring.Act :=
  [.submit { fd := 3, len := 512 }, .go, .go, .submit { fd := 4, len := 64 }, .go, .go, .take,
    .take, .complete 1 64, .complete 0 512, .poll 1, .go, .go, .poll 1, .go, .go]

/-- So on all backends. -/
theorem polls_report_once_reversed :
    (∃ t x, Exec (IoUring.machine.watch IoUring.written) (fun t x a => IoUring.Undrained t x.1 a)
        (IoUring.init ⟨2, 2, {}⟩, [], []) t x ∧
      x.2.1 ++ x.2.2 = [⟨1, 64⟩, ⟨0, 512⟩] ∧
      ReportsOnce IOCompletion.userData (IoUring.completions t) x.1.ring.ready
        (x.2.1 ++ x.2.2)) ∧
    (∃ t s, Exec Libaio.machine Always (Libaio.init 4) t s ∧
      Polling.reported t = [⟨1, 64⟩, ⟨0, 512⟩] ∧
      ReportsOnce IOCompletion.userData (Libaio.completed t) s.events (Polling.reported t)) ∧
    ∃ t s, Exec Spdk.machine Spdk.Fits (Spdk.init ⟨4, 512⟩) t s ∧
      Polling.reported t = [⟨1, 1024⟩, ⟨0, 512⟩] ∧
      ReportsOnce IOCompletion.userData (Spdk.completions t s) s.waiting (Polling.reported t) := by
  obtain ⟨honUring, honLibaio, honSpdk⟩ := polls_report_once ⟨2, 2, {}⟩ 4 ⟨4, 512⟩
  have hlibaio : Exec Libaio.machine Always (Libaio.init 4) _ _ :=
    exec_run [.submit { fd := 3, len := 512 } 1, .submit { fd := 4, len := 64 } 1, .complete 1 64,
      .complete 0 512, .poll 1 1, .poll 1 1]
  have hspdk : Exec Spdk.machine Spdk.Fits (Spdk.init ⟨4, 512⟩) _ _ :=
    exec_run [.submit { len := 512 } 0, .submit { len := 1024 } 0, .complete 1 false,
      .complete 0 false, .poll 1 1, .poll 1 1]
  have hexec : Exec (IoUring.machine.watch IoUring.written)
      (fun t x a => IoUring.Undrained t x.1 a) (IoUring.init ⟨2, 2, {}⟩, [], []) _ _ :=
    exec_run reversed
  exact ⟨⟨_, _, hexec, by decide +kernel, (honUring _ _ hexec).1⟩,
    ⟨_, _, hlibaio, by decide +kernel, (honLibaio _ _ hlibaio).1⟩,
    _, _, hspdk, by decide +kernel, (honSpdk _ _ hspdk).1⟩

/-- io_uring: the second `submit` finds the ring full and consumes the completion of the first
    request, which no poll reports.  SPDK: two completions are processed for an `out` of one. -/
theorem polls_lose_completions : (∃ t x, Exec (IoUring.machine.watch IoUring.written) Always
        (IoUring.init ⟨1, 1, {}⟩, [], []) t x ∧
      x.1.Quiet ∧ IoUring.completions t = [⟨1, 64⟩, ⟨0, 512⟩] ∧
      x.2.1 ++ x.2.2 = [⟨1, 64⟩]) ∧
    ∃ t s, Exec Spdk.machine Always (Spdk.init ⟨4, 512⟩) t s ∧ s.inFlight = [] ∧ s.cq = [] ∧
      Spdk.completions t s = [⟨1, 512⟩, ⟨0, 512⟩] ∧ Polling.reported t = [⟨0, 512⟩] := by
  have huring : Exec (IoUring.machine.watch IoUring.written) Always
      (IoUring.init ⟨1, 1, {}⟩, [], []) _ _ :=
    exec_run [.submit { fd := 3, len := 512 }, .go, .go, .submit { fd := 4, len := 64 }, .go, .take,
      .release, .complete 0 512, .go, .go, .go, .take, .complete 0 64, .poll 8, .go,
      .peekFails (-11)]
  have hspdk : Exec Spdk.machine Always (Spdk.init ⟨4, 512⟩) _ _ :=
    exec_run [.submit { len := 512 } 0, .submit { len := 512 } 0, .complete 0 false,
      .complete 0 false, .poll 1 2, .poll 1 0]
  exact ⟨⟨_, _, huring, by decide +kernel⟩, _, _, hspdk, by decide +kernel⟩

/-- The callback of request `k` has been called once, if there is one, and only with negative
    results. -/
def Refused (calls : List Call) (req : IORequest) (k : Nat) : Prop :=
  (req.callbackFn ≠ none → (calls.filter (·.serial = k)).length = 1) ∧
    ∀ c ∈ calls, c.serial = k → c.comp.result < 0

/-- **Unsupported operations are refused** by SPDK, and by io_uring if it finds no entry for
    the request: one callback with a negative result, and nothing is done by the device or
    the kernel for this request. -/
theorem unsupported_answered (spdkCfg : Spdk.Config) (cfg : IoUring.Config) :
    (∀ t s, Exec Spdk.machine Always (Spdk.init spdkCfg) t s →
      ∀ k < s.submitCount, ¬ (s.request k).op.Supported →
        Refused (Polling.calls t) (s.request k) k ∧
          ∀ cmd isError, .completed cmd isError ∈ t → cmd.arg ≠ k) ∧
    ∀ t s, Exec IoUring.machine Always (IoUring.init cfg) t s →
      ∀ k r, s.handed[k]? = some r → ¬ r.op.Supported → s.GivenUp k →
        Refused (IoUring.calls t) r k ∧ ∀ e res, .completed e res ∈ t → e.owner ≠ k := by
  refine ⟨?_, ?_⟩
  · intro t s h k hk hop
    obtain ⟨hcalls, hdevice⟩ := Spdk.unsupported_refused h hk hop
    refine ⟨⟨fun hfn => ?_, fun c hc hserial => ?_⟩, hdevice⟩
    · obtain ⟨fn, hsome⟩ := Option.ne_none_iff_exists'.mp hfn
      rw [hcalls, Polling.Requests.callback, hsome]
      rfl
    · have hmem : c ∈ (Polling.calls t).filter (·.serial = k) :=
        List.mem_filter.mpr ⟨hc, decide_eq_true hserial⟩
      rw [hcalls, Option.mem_toList] at hmem
      obtain ⟨fn, -, rfl⟩ := Option.map_eq_some_iff.mp hmem
      exact (by decide : -Spdk.einval < 0)
  · intro t s h k r hr _ hk
    obtain ⟨honce, hresult, hkernel⟩ := IoUring.givenUp_answered h hr hk
    refine ⟨⟨honce, fun c hc hserial => ?_⟩, hkernel⟩
    rw [hresult c hc hserial]
    exact (by decide : -IoUring.enobufs < 0)

/-- A trim request behind a read: SPDK carries out the read, and the kernel does not take it, so
    that io_uring finds no entry for the trim. -/
theorem unsupported_answered_trim :
    (∃ t s, Exec Spdk.machine Always (Spdk.init ⟨4, 512⟩) t s ∧
      s.request 1 = { op := .kTrim, callbackFn := some 1 } ∧
      Refused (Polling.calls t) (s.request 1) 1 ∧
      ∀ cmd isError, .completed cmd isError ∈ t → cmd.arg ≠ 1) ∧
    ∃ t s, Exec IoUring.machine Always (IoUring.init ⟨1, 1, {}⟩) t s ∧
      s.handed[1]? = some { op := .kTrim, callbackFn := some 1 } ∧
      Refused (IoUring.calls t) { op := .kTrim, callbackFn := some 1 } 1 ∧
      ∀ e res, .completed e res ∈ t → e.owner ≠ 1 := by
  have hspdk : Exec Spdk.machine Always (Spdk.init ⟨4, 512⟩) _ _ :=
    exec_run [.submit { len := 512, callbackFn := some 1 } 0,
      .submit { op := .kTrim, callbackFn := some 1 } 0, .complete 0 false, .poll 8 1]
  have huring : Exec IoUring.machine Always (IoUring.init ⟨1, 1, {}⟩) _ _ :=
    exec_run [.submit { len := 512, callbackFn := some 1 }, .go, .go,
      .submit { op := .kTrim, callbackFn := some 1 }, .go, .waitFails, .go, .waitFails, .go, .go]
  obtain ⟨hfirst, hsecond⟩ := unsupported_answered ⟨4, 512⟩ ⟨1, 1, {}⟩
  have htrim := hsecond _ _ huring 1 { op := .kTrim, callbackFn := some 1 } (by decide +kernel)
    (by decide) (by decide +kernel)
  exact ⟨⟨_, _, hspdk, by decide +kernel,
    hfirst _ _ hspdk 1 (by decide +kernel) (by decide +kernel)⟩,
    _, _, huring, by decide +kernel, htrim⟩

/-- io_uring: the entry of a write is used again for a flush, so the write is done once more
    and the flush is answered with its result.  libaio: a flush is not answered, and nothing
    is left that could answer it. -/
theorem unsupported_repeats_or_hangs :
    (∃ t s e c, Exec IoUring.machine Always (IoUring.init ⟨1, 1, {}⟩) t s ∧ s.Quiet ∧
      s.handed[1]? = some { op := .kFlush, callbackFn := some 1 } ∧
      .completed e 512 ∈ t ∧ e.owner = 1 ∧ e.opcode = .write ∧ e.fd = 3 ∧ e.off = 4096 ∧
      c ∈ IoUring.calls t ∧ c.serial = 1 ∧ c.comp.result = 512) ∧
    ∃ t s, Exec Libaio.machine Always (Libaio.init 4) t s ∧
      s.submitCount = 1 ∧ s.request 0 = { op := .kFlush, callbackFn := some 1 } ∧
      Polling.calls t = [] ∧ s.inFlight = [] ∧ s.events = [] := by
  have huring : Exec IoUring.machine Always (IoUring.init ⟨1, 1, {}⟩) _ _ :=
    exec_run [.submit { op := .kWrite, fd := 3, offset := 4096, len := 512 }, .go, .go, .take,
      .release, .complete 0 512, .poll 8, .go, .peekFails (-11),
      .submit { op := .kFlush, callbackFn := some 1 }, .go, .go, .take, .release, .complete 0 512,
      .poll 8, .go, .peekFails (-11)]
  have hlibaio : Exec Libaio.machine Always (Libaio.init 4) _ _ :=
    exec_run [.submit { op := .kFlush, callbackFn := some 1 } 1, .poll 8 0]
  refine ⟨⟨_, _, ⟨.write, 3, 4096, 0, 512, 1, 1⟩, ⟨1, 1, 0, ⟨1, 512⟩⟩, huring, ?_⟩,
    _, _, hlibaio, ?_⟩
  · decide +kernel
  · decide +kernel

end IoBackend
