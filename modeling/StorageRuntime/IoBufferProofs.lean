import StorageRuntime.IoCompletionProofs

/-!
# IOUringBackend — the buffer of small batches

A batch that is smaller than `min_batch_depth` waits in the buffer until `flush_pending`
finds enough requests or one that is old enough.  `submit`, and a batch that is large
enough, do not look at the buffer.

* **`prepared_in_order`**: as long as nothing is submitted past a buffer that is not
  empty, requests are prepared on the ring in the order in which they were handed to the
  backend.  Otherwise they are not (`submit_overtakes_buffered`).
* **`buffered_wait_bounded`**: a buffered request leaves the buffer after at most
  `max(1, M)` calls of `flush_pending`, where `M` is the largest `max_age_iterations` in
  force meanwhile, if `min_batch_depth` is not 0 at these calls.  If it is 0,
  `flush_pending` returns at once and the request stays (`passthrough_strands_buffered`).
-/

namespace IoUring

open Interleaving

/-! ## The order of preparation -/

/-- The numbers of the requests prepared on the ring, in the order of preparation. -/
def State.prepared (s : State) : List Nat :=
  (List.range s.submitCount).map fun idx => (s.job idx).serial

/-- Behind them, those in the hands of the thread and those in the buffer. -/
def State.order (s : State) : List Nat :=
  s.prepared ++ (s.pc.carried ++ s.buffered).map Job.serial

/-- Numbers only grow, and the next one is larger still. -/
def Ordered (s : State) : Prop :=
  s.order.Pairwise (· < ·) ∧ ∀ n ∈ s.order, n < s.handed.length

/-- Nothing is submitted past a buffer that is not empty. -/
def InTurn (_ : List Event) (s : State) (a : Act) : Prop :=
  a.direct s = true → a.requests ≠ [] → s.incoming = []
deriving Decidable

section Order

variable {s s' : State} {a : Act} {o : Option Event}

theorem Ordered.sublist (h : Ordered s) (hsub : s'.order.Sublist s.order)
    (hsame : s'.handed = s.handed) : Ordered s' := by
  refine ⟨h.1.sublist hsub, fun n hn => ?_⟩
  rw [hsame]
  exact h.2 n (hsub.subset hn)

theorem Ordered.congr (h : Ordered s) (horder : s'.order = s.order)
    (hsame : s'.handed = s.handed) : Ordered s' := by
  refine h.sublist ?_ hsame
  rw [horder]

/-- The requests that are handed over get the next numbers. -/
theorem Ordered.join (h : Ordered s) (reqs : List IORequest)
    (horder : s'.order = s.order ++ List.range' s.handed.length reqs.length)
    (hhanded : s'.handed = s.handed ++ reqs) : Ordered s' := by
  rw [Ordered, horder, hhanded, List.length_append]
  refine ⟨List.pairwise_append.mpr ⟨h.1, List.pairwise_lt_range', ?_⟩, ?_⟩
  · intro n hn k hk
    exact Nat.lt_of_lt_of_le (h.2 n hn) (List.mem_range'_1.mp hk).1
  · intro n hn
    rcases List.mem_append.mp hn with hn | hn
    · exact Nat.lt_of_lt_of_le (h.2 n hn) (Nat.le_add_right ..)
    · exact (List.mem_range'_1.mp hn).2

theorem prepared_gotSqe (slot : Nat) (job : Job) :
    (s.gotSqe slot job).prepared = s.prepared ++ [job.serial] := by
  have hcount : (s.gotSqe slot job).submitCount = s.submitCount + 1 := rfl
  rw [State.prepared, hcount, List.range_succ, List.map_append, List.map_singleton, job_gotSqe,
    if_pos rfl, State.prepared]
  congr 1
  refine List.map_congr_left fun idx hidx => ?_
  rw [job_gotSqe, if_neg (Nat.ne_of_lt (List.mem_range.mp hidx))]

theorem order_idle (hpc : s.pc = .idle) :
    s.order = s.prepared ++ (s.incoming.map fun e => e.job).map Job.serial := by
  rw [State.order, State.buffered, hpc]
  rfl

/-- A jump of the thread that keeps what it carries. -/
theorem Ordered.jump (h : Ordered s) {pc : Pc} {ring : Ring} {pendingSqeCount : Nat}
    (hcarried : pc.carried.Sublist s.pc.carried) (hflushing : pc.flushing = s.pc.flushing) :
    Ordered { s with pc := pc, ring := ring, pendingSqeCount := pendingSqeCount } := by
  refine h.sublist ?_ rfl
  have hbuffered : { s with pc := pc, ring := ring, pendingSqeCount := pendingSqeCount }.buffered =
      s.buffered := by
    rw [State.buffered, State.buffered, hflushing]
  rw [State.order, State.order, hbuffered]
  exact ((hcarried.append_right _).map _).append_left _

theorem Ordered.step {t : List Event} (h : Ordered s) (hc : InTurn t s a)
    (hs : IoUring.step s a = some s') : Ordered s' := by
  have hm := step_moves hs
  generalize event s a = o at hm
  cases hm with
  | hands hdirect hpc =>
    refine h.join a.requests ?_ rfl
    rw [order_idle hpc, ← map_serial_number]
    show s.prepared ++ (s.number a.requests ++ s.incoming.map fun e => e.job).map _ = _
    -- either nothing is handed over, or there is nothing to go past
    rcases eq_or_ne a.requests [] with hnil | hne
    · rw [hnil, show s.number [] = [] from rfl]
      exact (List.append_nil _).symm
    · rw [hc hdirect hne]
      simp only [List.map_nil, List.append_nil]
  | @buffers reqs hpc _ =>
    refine h.join reqs ?_ rfl
    rw [order_idle hpc, order_idle (by exact hpc), ← map_serial_number, List.append_assoc,
      ← List.map_append]
    refine congrArg (fun l : List Job => s.prepared ++ l.map Job.serial) ?_
    rw [List.map_append, map_job_fresh]
  | stays | configures | submits _ | takes _ | releases _ | completes _ => exact h
  | ages hpc =>
    refine h.congr ?_ rfl
    rw [order_idle hpc, order_idle (by exact hpc)]
    exact congrArg (fun l => s.prepared ++ l.map Job.serial) map_job_aged
  | flushes hpc =>
    refine h.congr ?_ rfl
    rw [order_idle hpc, ← map_job_aged]
    exact congrArg (fun l => s.prepared ++ l.map Job.serial) (List.append_nil _)
  | polls hpc | full hpc _ | drains hpc _ | waits hpc | retries hpc | reports hpc _
  | aborts hpc _ _ | ends hpc => exact h.jump (hpc ▸ List.Sublist.refl _) (hpc ▸ rfl)
  | @fills job todo flushing slot ring hpc hget =>
    refine h.congr ?_ rfl
    rw [State.order, prepared_gotSqe, State.order, hpc.carried_eq, List.append_assoc]
    have hbuffered : ({ s with ring := ring, pc := .submitting todo flushing }.gotSqe slot
        job).buffered = s.buffered := by
      rw [State.buffered, State.buffered, hpc.flushing_eq]
      rfl
    rw [hbuffered]
    rfl
  | @returns flushing ring hpc _ =>
    refine h.congr ?_ rfl
    rw [order_idle rfl, State.order, State.buffered, hpc]
    cases flushing with
    | false | true => rfl
  | givesUp hpc => exact h.jump (hpc ▸ List.sublist_cons_self ..) (hpc ▸ rfl)

theorem ordered_of_exec {cfg : Config} {t : List Event}
    (h : Exec machine InTurn (init cfg) t s) : Ordered s := by
  have hinit : Ordered (init cfg) := ⟨List.Pairwise.nil, fun n hn => absurd hn List.not_mem_nil⟩
  refine h.invariant (fun _ s => Ordered s) hinit ?_
  intro t s a s' hordered hc hs
  exact hordered.step hc hs

end Order

/-- **Submission order.**  If nothing is submitted past a buffer that is not empty, requests
    are prepared in the order in which they were handed over, and every request in the buffer
    was handed over after all that are prepared. -/
theorem prepared_in_order (cfg : Config) {t : List Event} {s : State}
    (h : Exec machine InTurn (init cfg) t s) :
    s.prepared.Pairwise (· < ·) ∧ ∀ n ∈ s.prepared, ∀ job ∈ s.buffered, n < job.serial := by
  obtain ⟨horder, -⟩ := ordered_of_exec h
  obtain ⟨hprepared, -, hbehind⟩ := List.pairwise_append.mp horder
  refine ⟨hprepared, fun n hn job hjob => ?_⟩
  exact hbehind n hn _ (List.mem_map_of_mem (List.mem_append_right _ hjob))

/-- Two requests wait in the buffer, are flushed with a third, and a fourth follows. -/
def inTurn : List Act :=
  [.submitBatch [{ fd := 3 }], .submitBatch [{ fd := 4 }], .flushPending,
    .submitBatch [{ fd := 5 }], .flushPending, .go, .go, .go, .go, .submit { fd := 6 }, .go, .go]

theorem prepared_in_order_flushed : ∃ t s,
    Exec machine InTurn (init ⟨8, 8, ⟨3, 9⟩⟩) t s ∧ s.prepared = [0, 1, 2, 3] ∧
      s.prepared.Pairwise (· < ·) := by
  have hexec : Exec machine InTurn (init ⟨8, 8, ⟨3, 9⟩⟩) _ _ := exec_run inTurn
  exact ⟨_, _, hexec, by decide +kernel, (prepared_in_order _ hexec).1⟩

/-- A request that is handed over second is prepared first: the other waits in the buffer. -/
theorem submit_overtakes_buffered : ∃ t s,
    Exec machine Always (init ⟨8, 8, ⟨2, 3⟩⟩) t s ∧ s.handed.length = 2 ∧ s.prepared = [1] ∧
      s.buffered.map Job.serial = [0] := by
  have hexec : Exec machine Always (init ⟨8, 8, ⟨2, 3⟩⟩) _ _ :=
    exec_run [.submitBatch [{ fd := 3 }], .submit { fd := 4 }, .go, .go]
  exact ⟨_, _, hexec, by decide +kernel⟩

/-! ## How long a request is buffered -/

/-- The entries of the buffer; `flush_pending` clears it when it has submitted them. -/
def State.entries (s : State) : List BufferEntry := if s.pc.flushing then [] else s.incoming

theorem buffered_eq (s : State) : s.buffered = s.entries.map fun e => e.job := by
  rw [State.buffered, State.entries]
  split <;> rfl

/-- `flush_pending` is called with a buffer that is in use. -/
def Buffering (_ : List Event) (s : State) (a : Act) : Prop :=
  a = .flushPending → s.bufCfg.minBatchDepth ≠ 0
deriving Decidable

/-- The largest `max_age_iterations` in force from `cfg` on. -/
def largestAge (cfg : BufferConfig) (as : List Act) : Nat :=
  as.foldl (fun m a => match a with
    | .setBufferConfig cfg => max m cfg.maxAgeIterations
    | _ => m) cfg.maxAgeIterations

/-- What holds of a request that was in the buffer at the beginning, when the calls `done`
    have been made: as long as it is there it has aged with each flush and is not too old. -/
structure Waits (cfg : BufferConfig) (job : Job) (done : List Act) (s : State) : Prop where
  known : job.serial < s.handed.length
  limit : s.bufCfg.maxAgeIterations ≤ largestAge cfg done
  young : ∀ e ∈ s.entries, e.job = job →
    done.count .flushPending ≤ e.age ∧ done.count .flushPending < max 1 (largestAge cfg done)

section Waits

variable {s s' : State} {a : Act} {o : Option Event} {cfg cfg' : BufferConfig} {job : Job}
  {done : List Act}

theorem largestAge_append (a : Act) : largestAge cfg done ≤ largestAge cfg (done ++ [a]) := by
  rw [largestAge, largestAge, List.foldl_append, List.foldl_cons, List.foldl_nil]
  split
  · exact Nat.le_max_left ..
  · exact Nat.le_refl _

theorem le_largestAge_configure :
    cfg'.maxAgeIterations ≤ largestAge cfg (done ++ [.setBufferConfig cfg']) := by
  rw [largestAge, List.foldl_append, List.foldl_cons, List.foldl_nil]
  exact Nat.le_max_right ..

/-- A call other than `flush_pending` is not counted. -/
theorem count_append_of_ne (h : a ≠ .flushPending) :
    (done ++ [a]).count .flushPending = done.count .flushPending := by
  have hzero : [a].count .flushPending = 0 :=
    List.count_eq_zero_of_not_mem fun hmem => h (List.mem_singleton.mp hmem).symm
  rw [List.count_append, hzero, Nat.add_zero]

/-- Entries that stay keep their age or grow older; others are of other requests. -/
theorem Waits.keep (h : Waits cfg job done s) (hne : a ≠ .flushPending)
    (hhanded : s.handed.length ≤ s'.handed.length)
    (hlimit : s'.bufCfg.maxAgeIterations ≤ largestAge cfg (done ++ [a]))
    (hentries : ∀ e ∈ s'.entries, e.job = job →
      ∃ e' ∈ s.entries, e'.job = job ∧ e'.age ≤ e.age) : Waits cfg job (done ++ [a]) s' := by
  refine ⟨Nat.lt_of_lt_of_le h.known hhanded, hlimit, ?_⟩
  intro e he hjob
  obtain ⟨e', he', hjob', hage⟩ := hentries e he hjob
  obtain ⟨hcount, hlt⟩ := h.young e' he' hjob'
  have hmono : largestAge cfg done ≤ largestAge cfg (done ++ [a]) := largestAge_append a
  rw [count_append_of_ne hne]
  exact ⟨Nat.le_trans hcount hage, by omega⟩

theorem entries_idle (hpc : s.pc = .idle) : s.entries = s.incoming := by
  rw [State.entries, hpc]
  rfl

/-- What is handed over is added, and only `set_buffer_config` configures. -/
theorem Move.frame (hm : Move s a o s') : s.handed.length ≤ s'.handed.length ∧
    (s'.bufCfg = s.bufCfg ∨ a = .setBufferConfig s'.bufCfg) := by
  cases hm with
  | hands _ _ | buffers _ _ =>
    refine ⟨?_, .inl rfl⟩
    rw [List.length_append]
    exact Nat.le_add_right ..
  | configures => exact ⟨Nat.le_refl _, .inr rfl⟩
  | _ => exact ⟨Nat.le_refl _, .inl rfl⟩

/-- A step leaves entries as they are, ages them or takes them away, or adds requests that
    are handed over. -/
theorem Move.entries (hm : Move s a o s') : ∀ e ∈ s'.entries,
    (∃ e' ∈ s.entries, e'.job = e.job ∧ e'.age ≤ e.age) ∨ e.job ∈ s.number a.requests := by
  have hkeep : ∀ {l : List BufferEntry}, l ⊆ s.entries → ∀ e ∈ l,
      (∃ e' ∈ s.entries, e'.job = e.job ∧ e'.age ≤ e.age) ∨ e.job ∈ s.number a.requests := by
    intro l hl e he
    exact .inl ⟨e, hl he, rfl, Nat.le_refl _⟩
  have hjump : ∀ {pc : Pc}, pc.flushing = s.pc.flushing →
      (if pc.flushing then [] else s.incoming) ⊆ s.entries := by
    intro pc hflushing
    rw [hflushing]
    exact .refl _
  cases hm with
  | hands _ hpc | polls hpc | full hpc _ | drains hpc _ | givesUp hpc | waits hpc
  | retries hpc | reports hpc _ | aborts hpc _ _ | ends hpc => exact hkeep (hjump (hpc ▸ rfl))
  | buffers hpc _ =>
    intro e he
    rw [entries_idle (by exact hpc)] at he
    rcases List.mem_append.mp he with hold | hnew
    · exact .inl ⟨e, entries_idle hpc ▸ hold, rfl, Nat.le_refl _⟩
    · obtain ⟨j, hj, rfl⟩ := List.mem_map.mp hnew
      exact .inr hj
  | stays | configures | submits _ | takes _ | releases _ | completes _ => exact hkeep (.refl _)
  | ages hpc =>
    intro e he
    rw [entries_idle (by exact hpc)] at he
    obtain ⟨e', he', rfl⟩ := List.mem_map.mp he
    exact .inl ⟨e', entries_idle hpc ▸ he', rfl, Nat.le_succ _⟩
  | flushes hpc => exact fun e he => absurd he List.not_mem_nil
  | fills hpc _ => exact hkeep (hjump hpc.flushing_eq.symm)
  | returns hpc _ =>
    refine hkeep ?_
    rw [entries_idle rfl, State.entries, hpc]
    exact .refl _

/-- `flush_pending` in use: either all entries leave, or all are one older and younger than
    the limit in force. -/
theorem Waits.flush (h : Waits cfg job done s) (hdepth : s.bufCfg.minBatchDepth ≠ 0)
    (hs : step s .flushPending = some s') : Waits cfg job (done ++ [.flushPending]) s' := by
  rw [step, Option.ite_none_right_eq_some] at hs
  obtain ⟨hpc, hs⟩ := hs
  rw [if_neg hdepth] at hs
  have hlimit : s.bufCfg.maxAgeIterations ≤ largestAge cfg (done ++ [.flushPending]) :=
    Nat.le_trans h.limit (largestAge_append _)
  split at hs
  next hdue =>
    cases hs
    exact ⟨h.known, hlimit, fun e he => absurd he List.not_mem_nil⟩
  next hdue =>
    cases hs
    refine ⟨h.known, hlimit, ?_⟩
    intro e he hjob
    rw [entries_idle (by exact hpc)] at he
    have hage : e.age < s.bufCfg.maxAgeIterations := by
      rw [State.flushDue, Bool.or_eq_true, not_or, List.any_eq_true] at hdue
      by_contra hold
      exact hdue.2 ⟨e, he, decide_eq_true (Nat.le_of_not_lt hold)⟩
    obtain ⟨e', he', rfl⟩ := List.mem_map.mp he
    obtain ⟨hcount, -⟩ := h.young e' (entries_idle hpc ▸ he') hjob
    rw [List.count_append, List.count_singleton_self]
    dsimp only at hage ⊢
    omega

theorem Waits.step {t : List Event} (h : Waits cfg job done s) (hc : Buffering t s a)
    (hs : IoUring.step s a = some s') : Waits cfg job (done ++ [a]) s' := by
  rcases eq_or_ne a .flushPending with rfl | hne
  · exact h.flush (hc rfl) hs
  have hm := step_moves hs
  obtain ⟨hhanded, hcfg⟩ := hm.frame
  refine h.keep hne hhanded ?_ fun e he hjob => ?_
  · rcases hcfg with hsame | rfl
    · rw [hsame]
      exact Nat.le_trans h.limit (largestAge_append a)
    · exact le_largestAge_configure
  · rcases hm.entries e he with ⟨e', he', hjob', hage⟩ | hnew
    · exact ⟨e', he', hjob'.trans hjob, hage⟩
    · -- what comes in has a number that was not given before
      rw [hjob] at hnew
      exact absurd h.known (Nat.not_lt.mpr (known_of_mem_number hnew).1)

end Waits

/-- **A bounded wait.**  A request in the buffer has left it after at most `max(1, M)`
    further calls of `flush_pending`, where `M` is the largest `max_age_iterations` in force
    meanwhile, if `min_batch_depth` is not 0 at these calls. -/
theorem buffered_wait_bounded (config : Config) {t t' : List Event} {s s' : State}
    (h : Exec machine Always (init config) t s) {job : Job} (hjob : job ∈ s.buffered)
    (as : List Act) (hrun : run machine Buffering as t s = some (t', s'))
    (hcount : max 1 (largestAge s.bufCfg as) ≤ as.count .flushPending) :
    job ∉ s'.buffered := by
  have hknown : job.serial < s.handed.length := by
    refine (inv_of_exec h).account.serial_lt ?_
    exact List.mem_append_right _ (List.mem_append_right _ hjob)
  have hstart : Waits s.bufCfg job [] s := by
    refine ⟨hknown, Nat.le_refl _, fun e _ _ => ⟨Nat.zero_le _, ?_⟩⟩
    exact Nat.lt_of_lt_of_le Nat.zero_lt_one (Nat.le_max_left ..)
  have hend : Waits s.bufCfg job as s' := by
    refine run_invariant (Waits s.bufCfg job) ?_ as [] hstart hrun
    intro done t s a s' hwaits hc hs
    exact hwaits.step hc hs
  intro hstill
  rw [buffered_eq] at hstill
  obtain ⟨e, he, hsame⟩ := List.mem_map.mp hstill
  obtain ⟨-, hlt⟩ := hend.young e he hsame
  exact absurd hcount (Nat.not_le.mpr hlt)

/-- A request was buffered under one limit, which is lowered: it leaves at the third flush. -/
def lowered : List Act :=
  [.flushPending, .setBufferConfig ⟨4, 3⟩, .flushPending, .flushPending, .go, .go, .flushPending,
    .flushPending]

theorem buffered_wait_bounded_lowered : ∃ t s t' s' job,
    Exec machine Always (init ⟨8, 8, ⟨4, 5⟩⟩) t s ∧ job ∈ s.buffered ∧
      run machine Buffering lowered t s = some (t', s') ∧ job ∉ s'.buffered := by
  have hexec : Exec machine Always (init ⟨8, 8, ⟨4, 5⟩⟩) _ _ :=
    exec_run [.submitBatch [{ fd := 3 }]]
  refine ⟨_, _, _, _, Job.mk { fd := 3 } 0, hexec, by decide +kernel,
    (Option.some_get (by decide +kernel)).symm, ?_⟩
  exact buffered_wait_bounded _ hexec (by decide +kernel) lowered
    (Option.some_get (by decide +kernel)).symm (by decide +kernel)

/-- The buffer is switched to pass-through.  The limit was and is 1, but the request is still
    there after four flushes. -/
theorem passthrough_strands_buffered : ∃ t s t' s' job,
    Exec machine Always (init ⟨8, 8, ⟨2, 1⟩⟩) t s ∧ job ∈ s.buffered ∧
      run machine Always [.setBufferConfig ⟨0, 1⟩, .flushPending, .flushPending, .flushPending,
        .flushPending] t s = some (t', s') ∧ s'.pc = .idle ∧ job ∈ s'.buffered := by
  have hexec : Exec machine Always (init ⟨8, 8, ⟨2, 1⟩⟩) _ _ :=
    exec_run [.submitBatch [{ fd := 3 }]]
  exact ⟨_, _, _, _, Job.mk { fd := 3 } 0, hexec, by decide +kernel,
    (Option.some_get (by decide +kernel)).symm, by decide +kernel⟩

end IoUring
