import StorageRuntime.IoUringProofs
import StorageRuntime.OnceEachProofs

/-!
# IOUringBackend — every request is completed once

A request waits in one place at a time: in the buffer, in the hands of the thread, or as
an index of `pending_` that an entry of the ring or a completion carries.

* **`requests_complete_once`**: for every sequence of calls, every queue depth, every
  buffer configuration and whatever the kernel does with the entries it takes, the
  callback of a request is called at most once, with the request's own context and with
  -ENOBUFS or what the kernel returned for the entry of this request; when the buffer is
  empty and all completions have been consumed, it has been called once.
-/

namespace IoUring

open Interleaving RingBuffer Table Answering
open scoped List

/-! ## Where a request waits -/

/-- The entries that the kernel has not taken. -/
def Ring.queued (r : Ring) : List Sqe := window r.entries r.sqes r.taken (r.sqeTail - r.taken)

/-- The entries that have not been completed. -/
def Ring.held (r : Ring) : List Sqe := r.queued ++ r.inFlight

/-- The indices of `pending_` that have been given away and not come back. -/
def Ring.keys (r : Ring) : List Nat := r.held.map Sqe.userData ++ r.cq.map Cqe.userData

/-- The requests in the hands of the thread. -/
def Pc.carried : Pc → List Job
  | .submitting todo _ => todo
  | .draining _ job todo _ => job :: todo
  | .retrying _ job todo _ => job :: todo
  | _ => []

def Pc.flushing : Pc → Bool
  | .submitting _ flushing => flushing
  | .draining _ _ _ flushing => flushing
  | .retrying _ _ _ flushing => flushing
  | _ => false

/-- The requests in the buffer; `flush_pending` takes them all and clears it at the end. -/
def State.buffered (s : State) : List Job :=
  if s.pc.flushing then [] else s.incoming.map fun e => e.job

def State.waiting (s : State) : List Job :=
  s.ring.keys.map s.job ++ (s.pc.carried ++ s.buffered)

theorem waiting_idle {s : State} (hpc : s.pc = .idle) :
    s.waiting = s.ring.keys.map s.job ++ s.incoming.map fun e => e.job := by
  rw [State.waiting, State.buffered, hpc]
  rfl

theorem map_job_fresh (jobs : List Job) :
    ((jobs.map fun job => BufferEntry.mk job 0).map fun e => e.job) = jobs := by
  rw [List.map_map]
  exact List.map_id jobs

/-- Growing old does not change the requests. -/
theorem map_job_aged {s : State} : (s.aged.map fun e => e.job) = s.incoming.map fun e => e.job := by
  rw [State.aged, List.map_map]
  rfl

/-! ## The account -/

/-- The numbers of the requests whose callbacks have been called. -/
def answered (t : List Event) : List Nat :=
  t.filterMap fun
    | .called c => some c.serial
    | _ => none

/-- Number `k` is a request with a callback. -/
def Wants (handed : List IORequest) (k : Nat) : Prop :=
  ∃ r, handed[k]? = some r ∧ r.callbackFn ≠ none

/-- The entry asks for what a read or write request asks for. -/
def Sqe.Serves (e : Sqe) (req : IORequest) : Prop :=
  (req.op = .kRead → e = e.prepRw .read req) ∧ (req.op = .kWrite → e = e.prepRw .write req)

/-- What the kernel returned for an entry that was prepared for the request. -/
def KernelResult (t : List Event) (serial : Nat) (req : IORequest) (res : Int) : Prop :=
  ∃ e, .completed e res ∈ t ∧ e.owner = serial ∧ e.Serves req

/-- The call is one that the request asked for, with its own result. -/
def Answers (t : List Event) (c : Call) (req : IORequest) : Prop :=
  req.callbackFn = some c.fn ∧ c.ctx = req.callbackCtx ∧
    (c.comp.result = -enobufs ∨ KernelResult t c.serial req c.comp.result)

/-- What the callbacks called so far and the requests still waiting amount to. -/
structure Account (t : List Event) (handed : List IORequest) (waiting : List Job) : Prop where
  known : ∀ j ∈ waiting, handed[j.serial]? = some j.request
  calls : ∀ c, .called c ∈ t → ∃ r, handed[c.serial]? = some r ∧ Answers t c r
  once : OnceEach (Wants handed) (answered t) (waiting.map Job.serial)

section Account

variable {t : List Event} {e : Event} {o : Option Event} {handed reqs : List IORequest}
  {waiting waiting' : List Job} {j : Job} {comp : IOCompletion} {c : Call} {r : IORequest}
  {k : Nat} {res : Int}

theorem KernelResult.later (h : KernelResult t k r res) : KernelResult (e :: t) k r res := by
  obtain ⟨sqe, hmem, hsqe⟩ := h
  exact ⟨sqe, List.mem_cons_of_mem e hmem, hsqe⟩

theorem Answers.later (h : Answers t c r) : Answers (e :: t) c r := by
  obtain ⟨hfn, hctx, hres⟩ := h
  exact ⟨hfn, hctx, hres.imp_right KernelResult.later⟩

theorem Account.move (h : Account t handed waiting) (hp : waiting' ~ waiting) :
    Account t handed waiting' where
  known := fun j hj => h.known j (hp.mem_iff.mp hj)
  calls := h.calls
  once := h.once.move (hp.map Job.serial)

/-- Nothing is called. -/
theorem Account.note_of_ne (h : Account t handed waiting) (ho : ∀ c, o ≠ some (.called c)) :
    Account (note t o) handed waiting := by
  cases o with
  | none => exact h
  | some e =>
    refine ⟨h.known, ?_, ?_⟩
    · intro c hc
      rcases List.mem_cons.mp hc with heq | hmem
      · exact absurd (congrArg some heq.symm) (ho c)
      · obtain ⟨r, hr, hans⟩ := h.calls c hmem
        exact ⟨r, hr, hans.later⟩
    · have hsame : answered (e :: t) = answered t := by
        cases e with
        | called c => exact absurd rfl (ho c)
        | completed sqe res | polled out => rfl
      show OnceEach _ (answered (e :: t)) _
      rw [hsame]
      exact h.once

/-- A waiting request is answered: its callback is called, if it has one. -/
theorem Account.answer (h : Account t handed waiting) (hp : waiting ~ j :: waiting')
    (hres : comp.result = -enobufs ∨ KernelResult t j.serial j.request comp.result) :
    Account (note t ((j.invokeCallback comp).map .called)) handed waiting' := by
  have hj : handed[j.serial]? = some j.request := h.known j (hp.mem_iff.mpr List.mem_cons_self)
  have hknown : ∀ i ∈ waiting', handed[i.serial]? = some i.request :=
    fun i hi => h.known i (hp.mem_iff.mpr (List.mem_cons_of_mem j hi))
  have hserials : waiting.map Job.serial ~ j.serial :: waiting'.map Job.serial := hp.map Job.serial
  cases hfn : j.request.callbackFn with
  | none =>
    rw [Job.invokeCallback, hfn]
    refine ⟨hknown, h.calls, h.once.discard hserials ?_⟩
    rintro ⟨r, hr, hwants⟩
    rw [hj] at hr
    cases hr
    exact hwants hfn
  | some fn =>
    rw [Job.invokeCallback, hfn]
    refine ⟨hknown, ?_, h.once.answer hserials⟩
    intro c hc
    rcases List.mem_cons.mp hc with heq | hmem
    · cases heq
      exact ⟨j.request, hj, hfn, rfl, hres.imp_right KernelResult.later⟩
    · obtain ⟨r, hr, hans⟩ := h.calls c hmem
      exact ⟨r, hr, hans.later⟩

theorem Account.serial_lt (h : Account t handed waiting) (hj : j ∈ waiting) :
    j.serial < handed.length := by
  obtain ⟨hlt, -⟩ := List.getElem?_eq_some_iff.mp (h.known j hj)
  exact hlt

theorem Account.wants_of_answered (h : Account t handed waiting) (hk : k ∈ answered t) :
    Wants handed k := by
  obtain ⟨e, he, heq⟩ := List.mem_filterMap.mp hk
  cases e with
  | called c =>
    cases heq
    obtain ⟨r, hr, hfn, -⟩ := h.calls c he
    exact ⟨r, hr, hfn ▸ nofun⟩
  | completed sqe res | polled out => cases heq

/-- No callback is called twice. -/
theorem Account.count_le_one (h : Account t handed waiting) (k : Nat) :
    (answered t).count k ≤ 1 := by
  by_cases hmem : k ∈ answered t
  · exact h.once.le_one (h.wants_of_answered hmem)
  · rw [List.count_eq_zero_of_not_mem hmem]
    exact Nat.zero_le 1

theorem Wants.lt (h : Wants handed k) : k < handed.length := by
  obtain ⟨r, hr, -⟩ := h
  obtain ⟨hlt, -⟩ := List.getElem?_eq_some_iff.mp hr
  exact hlt

end Account

/-! ## Numbering -/

section Number

variable {s : State} {reqs : List IORequest} {j : Job}

theorem map_serial_number :
    (s.number reqs).map Job.serial = List.range' s.handed.length reqs.length := by
  rw [State.number, List.map_map]
  exact List.zipIdx_map_snd ..

theorem known_of_mem_number (hj : j ∈ s.number reqs) :
    s.handed.length ≤ j.serial ∧ (s.handed ++ reqs)[j.serial]? = some j.request := by
  obtain ⟨p, hp, rfl⟩ := List.mem_map.mp hj
  obtain ⟨hle, hget⟩ := List.mk_mem_zipIdx_iff_le_and_getElem?_sub.mp hp
  exact ⟨hle, by rw [List.getElem?_append_right hle]; exact hget⟩

/-- Requests that are handed to the backend wait. -/
theorem Account.join {t : List Event} {waiting : List Job} (h : Account t s.handed waiting)
    (reqs : List IORequest) : Account t (s.handed ++ reqs) (waiting ++ s.number reqs) := by
  have hold : ∀ {k : Nat} {r : IORequest}, s.handed[k]? = some r →
      (s.handed ++ reqs)[k]? = some r := by
    intro k r hr
    obtain ⟨hlt, -⟩ := List.getElem?_eq_some_iff.mp hr
    rw [List.getElem?_append_left hlt]
    exact hr
  refine ⟨?_, ?_, ?_⟩
  · intro j hj
    rcases List.mem_append.mp hj with hj | hj
    · exact hold (h.known j hj)
    · exact (known_of_mem_number hj).2
  · intro c hc
    obtain ⟨r, hr, hans⟩ := h.calls c hc
    exact ⟨r, hold hr, hans⟩
  · rw [List.map_append, map_serial_number]
    refine h.once.join (List.nodup_range' ..) ?_ ?_
    · intro k hk
      have hle : s.handed.length ≤ k := (List.mem_range'_1.mp hk).1
      refine ⟨fun hmem => ?_, fun hmem => ?_⟩
      · exact absurd (h.wants_of_answered hmem).lt (Nat.not_lt.mpr hle)
      · obtain ⟨j, hj, rfl⟩ := List.mem_map.mp hmem
        exact absurd (h.serial_lt hj) (Nat.not_lt.mpr hle)
    · rintro k ⟨r, hr, hwants⟩ hk
      obtain ⟨hlt, -⟩ := List.getElem?_eq_some_iff.mp hr
      rw [List.length_append] at hlt
      have hold : k < s.handed.length := by
        by_contra hge
        exact hk (List.mem_range'_1.mpr ⟨by omega, hlt⟩)
      rw [List.getElem?_append_left hold] at hr
      exact ⟨r, hr, hwants⟩

end Number

/-! ## The ring -/

/-- The four positions are in order, and no slot is used twice. -/
structure Ring.Ok (r : Ring) : Prop where
  head : r.khead ≤ r.taken
  body : r.taken ≤ r.ktail
  tail : r.ktail ≤ r.sqeTail
  room : r.sqeTail ≤ r.khead + r.entries

section Ring

variable {r r' : Ring} {slot i : Nat} {e : Sqe} {res : Int}

/-- An entry is prepared: it is the last of the queue. -/
theorem Ring.Ok.getSqe (h : r.Ok) (hget : r.getSqe = some (slot, r')) (e : Sqe) :
    (r'.write slot e).Ok ∧ (r'.write slot e).queued = r.queued ++ [e] ∧
      r'.sqeTail = r.sqeTail + 1 ∧ r'.ktail = r.ktail ∧ r'.inFlight = r.inFlight ∧
      r'.cq = r.cq := by
  obtain ⟨hroom, heq⟩ := Option.ite_none_right_eq_some.mp hget
  cases heq
  have hhead := h.head
  have hbody := h.body
  have htail := h.tail
  refine ⟨⟨hhead, hbody, Nat.le_succ_of_le htail, ?_⟩, ?_, rfl, rfl, rfl, rfl⟩
  · show r.sqeTail + 1 ≤ r.khead + r.entries
    omega
  · have hlast : r.taken + (r.sqeTail - r.taken) = r.sqeTail := by omega
    have hlen : r.sqeTail + 1 - r.taken = r.sqeTail - r.taken + 1 := by omega
    have hpush : window r.entries
        (Function.update r.sqes ((r.taken + (r.sqeTail - r.taken)) % r.entries) e) r.taken
        (r.sqeTail - r.taken + 1) = r.queued ++ [e] := window_push (by omega) e
    rw [hlast] at hpush
    show window r.entries (Function.update r.sqes (r.sqeTail % r.entries) e) r.taken
      (r.sqeTail + 1 - r.taken) = _
    rw [hlen]
    exact hpush

theorem Ring.Ok.submit (h : r.Ok) : r.submit.Ok :=
  ⟨h.head, Nat.le_trans h.body h.tail, Nat.le_refl _, h.room⟩

/-- The kernel takes an entry: it is held as before. -/
theorem Ring.Ok.take (h : r.Ok) (htake : r.take = some r') :
    r'.Ok ∧ r'.held ~ r.held ∧ r'.cq = r.cq ∧ r'.sqeTail = r.sqeTail ∧ r'.ktail = r.ktail := by
  obtain ⟨hlt, rfl⟩ := Option.ite_some_none_eq_some.mp htake
  have htail := h.tail
  refine ⟨⟨Nat.le_succ_of_le h.head, hlt, htail, h.room⟩, ?_, rfl, rfl, rfl⟩
  have hlen : r.sqeTail - r.taken = r.sqeTail - (r.taken + 1) + 1 := by omega
  have hqueued : r.queued = r.sqes (r.taken % r.entries) ::
      window r.entries r.sqes (r.taken + 1) (r.sqeTail - (r.taken + 1)) := by
    rw [Ring.queued, hlen, window_cons]
  rw [Ring.held, Ring.held, hqueued]
  rw [← List.append_assoc]
  exact List.perm_append_singleton _ _

theorem Ring.Ok.release (h : r.Ok) (hrel : r.release = some r') :
    r'.Ok ∧ r'.held = r.held ∧ r'.cq = r.cq ∧ r'.sqeTail = r.sqeTail ∧ r'.ktail = r.ktail := by
  obtain ⟨hlt, rfl⟩ := Option.ite_some_none_eq_some.mp hrel
  have hroom := h.room
  refine ⟨⟨hlt, h.body, h.tail, ?_⟩, rfl, rfl, rfl, rfl⟩
  show r.sqeTail ≤ r.khead + 1 + r.entries
  omega

/-- The kernel completes an entry. -/
theorem held_complete (hget : r.inFlight[i]? = some e) :
    r.held ~ e :: (r.queued ++ r.inFlight.eraseIdx i) := by
  obtain ⟨hlt, rfl⟩ := List.getElem?_eq_some_iff.mp hget
  have hp : r.inFlight[i] :: r.inFlight.eraseIdx i ~ r.inFlight :=
    List.getElem_cons_eraseIdx_perm hlt
  exact (hp.symm.append_left r.queued).trans List.perm_middle

end Ring

/-! ## The invariant -/

/-- Between the accesses of a call that submits, entries may be prepared and not submitted. -/
def Pc.Rests : Pc → Prop
  | .idle => True
  | .polling _ _ => True
  | _ => False

/-- The entry belongs to the request that its index stands for. -/
def Owned (s : State) (e : Sqe) : Prop :=
  e.userData < s.submitCount ∧ e.owner = (s.job e.userData).serial ∧
    e.Serves (s.job e.userData).request

structure Inv (t : List Event) (s : State) : Prop where
  ring : s.ring.Ok
  size : s.submitCount ≤ s.pending.length
  entries : ∀ e ∈ s.ring.held, Owned s e
  cqes : ∀ c ∈ s.ring.cq, ∃ e, .completed e c.res ∈ t ∧ e.userData = c.userData ∧ Owned s e
  account : Account t s.handed s.waiting
  count : s.pendingSqeCount = s.ring.sqeTail - s.ring.ktail
  rests : s.pc.Rests → s.pendingSqeCount = 0
  runs : s.pc ≠ .aborted

theorem inv_init (cfg : Config) : Inv [] (init cfg) where
  ring := ⟨Nat.le_refl 0, Nat.le_refl 0, Nat.le_refl 0, Nat.zero_le _⟩
  size := Nat.zero_le _
  entries := fun _ he => absurd he List.not_mem_nil
  cqes := fun _ hc => absurd hc List.not_mem_nil
  account := ⟨fun _ hj => absurd hj List.not_mem_nil, fun _ hc => absurd hc List.not_mem_nil,
    fun _ ⟨_, hr, _⟩ => nomatch hr⟩
  count := rfl
  rests := fun _ => rfl
  runs := nofun

section Steps

variable {t : List Event} {s : State} {o : Option Event}

variable {pc : Pc} {flushing : Bool} {todo : List Job} {job : Job}

/-- What does not touch the ring. -/
theorem Inv.thread (h : Inv t s) {incoming : List BufferEntry} {bufCfg : BufferConfig}
    {handed : List IORequest} (hrests : pc.Rests → s.pendingSqeCount = 0) (hruns : pc ≠ .aborted)
    (hacc : Account (note t o) handed
      { s with pc := pc, incoming := incoming, bufCfg := bufCfg, handed := handed }.waiting) :
    Inv (note t o)
      { s with pc := pc, incoming := incoming, bufCfg := bufCfg, handed := handed } where
  ring := h.ring
  size := h.size
  entries := h.entries
  cqes := by
    intro c hc
    obtain ⟨e, hmem, hown⟩ := h.cqes c hc
    exact ⟨e, mem_note hmem, hown⟩
  account := hacc
  count := h.count
  rests := hrests
  runs := hruns

/-- The case of a step that shows nothing and moves no request. -/
theorem Inv.jump (h : Inv t s) (hcarried : pc.carried = s.pc.carried)
    (hflushing : pc.flushing = s.pc.flushing) (hrests : pc.Rests → s.pendingSqeCount = 0)
    (hruns : pc ≠ .aborted) : Inv t { s with pc := pc } := by
  refine h.thread (o := none) hrests hruns (h.account.move (.of_eq ?_))
  simp only [State.waiting, State.buffered, hcarried, hflushing]
  rfl

/-- The entries prepared so far are submitted. -/
theorem Inv.submit (h : Inv t s) :
    Inv t { s with ring := s.ring.submit, pendingSqeCount := 0 } where
  ring := h.ring.submit
  size := h.size
  entries := h.entries
  cqes := h.cqes
  account := h.account
  count := (Nat.sub_self _).symm
  rests := fun _ => rfl
  runs := h.runs

/-- `flush_submissions` submits them; when there are none it changes nothing. -/
theorem Inv.submits (h : Inv t s) {ring : Ring} (hring : s.Submits ring) :
    Inv t { s with ring := ring, pendingSqeCount := 0 } := by
  rcases hring with rfl | ⟨rfl, hzero⟩
  · exact h.submit
  · rw [← hzero]
    exact h

/-- The kernel takes an entry or gives a slot back. -/
theorem Inv.kernel (h : Inv t s) {ring : Ring} (hok : ring.Ok) (hheld : ring.held ~ s.ring.held)
    (hcq : ring.cq = s.ring.cq) (hsqe : ring.sqeTail = s.ring.sqeTail)
    (hktail : ring.ktail = s.ring.ktail) : Inv t { s with ring := ring } where
  ring := hok
  size := h.size
  entries := fun e he => h.entries e (hheld.mem_iff.mp he)
  cqes := fun c hc => h.cqes c (hcq ▸ hc)
  account := by
    have hkeys : ring.keys ~ s.ring.keys := by
      rw [Ring.keys, Ring.keys, hcq]
      exact (hheld.map Sqe.userData).append_right _
    exact h.account.move ((hkeys.map s.job).append_right _)
  count := by
    rw [hsqe, hktail]
    exact h.count
  rests := h.rests
  runs := h.runs

/-- The kernel completes an entry. -/
theorem Inv.complete (h : Inv t s) {i : Nat} {sqe : Sqe} (hget : s.ring.inFlight[i]? = some sqe)
    (res : Int) : Inv (.completed sqe res :: t) { s with ring :=
        { s.ring with
          inFlight := s.ring.inFlight.eraseIdx i
          cq := s.ring.cq ++ [⟨sqe.userData, res⟩] } } where
  ring := ⟨h.ring.head, h.ring.body, h.ring.tail, h.ring.room⟩
  size := h.size
  entries := fun e he => h.entries e ((held_complete hget).mem_iff.mpr (List.mem_cons_of_mem _ he))
  cqes := by
    intro c hc
    rcases List.mem_append.mp hc with hc | hc
    · obtain ⟨e, hmem, hown⟩ := h.cqes c hc
      exact ⟨e, List.mem_cons_of_mem _ hmem, hown⟩
    · cases List.mem_singleton.mp hc
      have hsqe := h.entries sqe ((held_complete hget).mem_iff.mpr List.mem_cons_self)
      exact ⟨sqe, List.mem_cons_self, rfl, hsqe⟩
  account := by
    have hkeys : Ring.keys { s.ring with
        inFlight := s.ring.inFlight.eraseIdx i
        cq := s.ring.cq ++ [⟨sqe.userData, res⟩] } ~ s.ring.keys := by
      have hheld := (held_complete hget).map Sqe.userData
      refine .trans ?_ (hheld.append_right _).symm
      show _ ++ (s.ring.cq ++ [Cqe.mk sqe.userData res]).map Cqe.userData ~ _
      rw [List.map_append, ← List.append_assoc]
      exact List.perm_append_singleton _ _
    refine (h.account.note_of_ne (o := some (.completed sqe res)) nofun).move ?_
    exact (hkeys.map s.job).append_right _
  count := h.count
  rests := h.rests
  runs := h.runs

/-- A completion is consumed: it names a request, whose callback is called. -/
theorem Inv.consume (h : Inv t s) {cqe : Cqe} {rest : List Cqe} (hcq : s.ring.cq = cqe :: rest)
    (hcarried : pc.carried = s.pc.carried) (hflushing : pc.flushing = s.pc.flushing)
    (hrests : pc.Rests → s.pendingSqeCount = 0) (hruns : pc ≠ .aborted) :
    Inv (note t (s.answer cqe)) { s with ring := s.ring.seen, pc := pc } := by
  obtain ⟨e, hmem, hkey, hlt, howner, hserves⟩ := h.cqes cqe (hcq ▸ List.mem_cons_self)
  rw [hkey] at hlt howner hserves
  have hwaiting : s.waiting ~ s.job cqe.userData ::
      { s with ring := s.ring.seen, pc := pc }.waiting := by
    have hkeys : s.ring.keys ~ cqe.userData :: s.ring.seen.keys := by
      rw [Ring.keys, Ring.keys, Ring.seen, hcq]
      exact List.perm_middle
    have hbuffered : { s with ring := s.ring.seen, pc := pc }.buffered = s.buffered := by
      rw [State.buffered, State.buffered, hflushing]
    show _ ~ s.job cqe.userData :: (s.ring.seen.keys.map s.job ++ (pc.carried ++ _))
    rw [hcarried, hbuffered]
    exact (hkeys.map s.job).append_right _
  refine
    { ring := ⟨h.ring.head, h.ring.body, h.ring.tail, h.ring.room⟩
      size := h.size
      entries := h.entries
      cqes := ?_
      account := ?_
      count := h.count
      rests := hrests
      runs := hruns }
  · intro c hc
    obtain ⟨e, hmem, hown⟩ := h.cqes c (List.mem_of_mem_tail hc)
    exact ⟨e, mem_note hmem, hown⟩
  · rw [State.answer, if_pos (Nat.lt_of_lt_of_le hlt h.size)]
    exact h.account.answer hwaiting (.inr ⟨e, hmem, howner, hserves⟩)

theorem Inv.key_lt (h : Inv t s) {i : Nat} (hi : i ∈ s.ring.keys) : i < s.submitCount := by
  rcases List.mem_append.mp hi with hi | hi
  · obtain ⟨e, he, rfl⟩ := List.mem_map.mp hi
    exact (h.entries e he).1
  · obtain ⟨c, hc, rfl⟩ := List.mem_map.mp hi
    obtain ⟨e, -, hkey, hlt, -⟩ := h.cqes c hc
    exact hkey ▸ hlt

theorem Pc.Asks.carried_eq (h : pc.Asks job todo flushing) : pc.carried = job :: todo := by
  cases h with
  | first => rfl
  | again => rfl

theorem Pc.Asks.flushing_eq (h : pc.Asks job todo flushing) : pc.flushing = flushing := by
  cases h with
  | first => rfl
  | again => rfl

/-- The entry that `got_sqe` fills serves the request. -/
theorem serves_prep (sqe : Sqe) (req : IORequest) (idx owner : Nat) :
    { sqe.prep req with userData := idx, owner := owner }.Serves req := by
  refine ⟨fun hop => ?_, fun hop => ?_⟩
  · rw [Sqe.prep, hop]
    rfl
  · rw [Sqe.prep, hop]
    rfl

theorem job_gotSqe (slot : Nat) (job : Job) (idx : Nat) :
    (s.gotSqe slot job).job idx = if idx = s.submitCount then job else s.job idx :=
  getD_set_grown (by omega)

theorem size_gotSqe (slot : Nat) (job : Job) : s.submitCount < (s.gotSqe slot job).pending.length :=
  lt_length_grown (by omega)

/-- Old indices stand for the same requests. -/
theorem Owned.gotSqe {e : Sqe} (h : Owned s e) (slot : Nat) (job : Job) :
    Owned (s.gotSqe slot job) e := by
  obtain ⟨hlt, howner, hserves⟩ := h
  rw [Owned, job_gotSqe, if_neg (Nat.ne_of_lt hlt)]
  exact ⟨Nat.lt_succ_of_lt hlt, howner, hserves⟩

/-- A request gets an entry. -/
theorem Inv.fill (h : Inv t s) {slot : Nat} {ring : Ring} (hpc : s.pc.Asks job todo flushing)
    (hget : s.ring.getSqe = some (slot, ring)) :
    Inv t ({ s with ring := ring, pc := .submitting todo flushing }.gotSqe slot job) := by
  let s₁ : State := { s with ring := ring, pc := .submitting todo flushing }
  let sqe : Sqe :=
    { (ring.sqes slot).prep job.request with userData := s.submitCount, owner := job.serial }
  obtain ⟨hok, hqueued, hsqeTail, hktail, hinFlight, hcq⟩ := h.ring.getSqe hget sqe
  have hheld : (ring.write slot sqe).held ~ sqe :: s.ring.held := by
    have hflight : (ring.write slot sqe).inFlight = s.ring.inFlight := hinFlight
    rw [Ring.held, hqueued, hflight, List.append_assoc]
    exact List.perm_middle
  have hnew : (s₁.gotSqe slot job).job s.submitCount = job := by
    rw [job_gotSqe]
    exact if_pos rfl
  have hold : ∀ i ∈ s.ring.keys, (s₁.gotSqe slot job).job i = s.job i := by
    intro i hi
    rw [job_gotSqe]
    exact if_neg (Nat.ne_of_lt (h.key_lt hi))
  refine
    { ring := hok
      size := size_gotSqe (s := s₁) slot job
      entries := ?_
      cqes := ?_
      account := ?_
      count := ?_
      rests := nofun
      runs := nofun }
  · intro e he
    rcases List.mem_cons.mp (hheld.mem_iff.mp he) with rfl | hmem
    · refine ⟨Nat.lt_succ_self _, ?_, ?_⟩
      · exact congrArg Job.serial hnew.symm
      · exact congrArg Job.request hnew ▸ serves_prep (ring.sqes slot) job.request _ _
    · exact Owned.gotSqe (s := s₁) (h.entries e hmem) slot job
  · intro c hc
    obtain ⟨e, hmem, hkey, hown⟩ := h.cqes c (hcq ▸ hc)
    exact ⟨e, hmem, hkey, Owned.gotSqe (s := s₁) hown slot job⟩
  · have hkeys : (ring.write slot sqe).keys ~ s.submitCount :: s.ring.keys := by
      have hseen : (ring.write slot sqe).cq = s.ring.cq := hcq
      rw [Ring.keys, hseen]
      exact (hheld.map Sqe.userData).append_right _
    have hjobs : (ring.write slot sqe).keys.map (s₁.gotSqe slot job).job ~
        job :: s.ring.keys.map s.job := by
      refine (hkeys.map _).trans (.of_eq ?_)
      rw [List.map_cons, hnew, List.map_congr_left hold]
    have hbuffered : (s₁.gotSqe slot job).buffered = s.buffered := by
      rw [State.buffered, State.buffered, hpc.flushing_eq]
      rfl
    refine h.account.move ?_
    rw [State.waiting, hbuffered, State.waiting, hpc.carried_eq]
    exact (hjobs.append_right _).trans List.perm_middle.symm
  · show s.pendingSqeCount + 1 = ring.sqeTail - ring.ktail
    have hcount := h.count
    have htail := h.ring.tail
    omega

end Steps

variable {s : State} {t : List Event}

theorem Inv.step {s' : State} {a : Act} (h : Inv t s) (hs : IoUring.step s a = some s') :
    Inv (note t (event s a)) s' := by
  have hmove := step_moves hs
  generalize event s a = o at hmove ⊢
  cases hmove with
  | hands _ hpc =>
    refine h.thread (o := none) nofun nofun ((h.account.join a.requests).move ?_)
    rw [waiting_idle hpc, List.append_assoc]
    exact List.perm_append_comm.append_left _
  | @buffers reqs hpc _ =>
    refine h.thread (o := none) (fun _ => h.rests (hpc ▸ trivial)) h.runs
      ((h.account.join reqs).move (.of_eq ?_))
    refine (waiting_idle (by exact hpc)).trans ?_
    rw [waiting_idle hpc, List.append_assoc, List.map_append, map_job_fresh]
    rfl
  | stays => exact h
  | ages hpc =>
    refine h.thread (o := none) h.rests h.runs (h.account.move (.of_eq ?_))
    refine (waiting_idle (by exact hpc)).trans ?_
    rw [waiting_idle hpc]
    exact congrArg (_ ++ ·) map_job_aged
  | flushes hpc =>
    refine h.thread (o := none) nofun nofun (h.account.move (.of_eq ?_))
    rw [waiting_idle hpc, ← map_job_aged]
    exact congrArg (_ ++ ·) (List.append_nil _)
  | submits hring => exact h.submits hring
  | configures => exact h.thread (o := none) h.rests h.runs h.account
  | polls hpc => exact h.jump (hpc ▸ rfl) (hpc ▸ rfl) (fun _ => h.rests (hpc ▸ trivial)) nofun
  | fills hpc hget => exact h.fill hpc hget
  | full hpc => exact h.submit.jump (hpc ▸ rfl) (hpc ▸ rfl) nofun nofun
  | @returns flushing ring hpc hring =>
    refine (h.submits hring).thread (o := none) (fun _ => rfl) nofun
      ((h.submits hring).account.move (.of_eq ?_))
    rw [State.waiting, State.waiting, State.buffered, State.buffered, hpc]
    cases flushing with
    | false | true => rfl
  | drains hpc hcq => exact h.consume hcq (hpc ▸ rfl) (hpc ▸ rfl) nofun nofun
  | @givesUp attempts job todo flushing hpc =>
    refine h.thread nofun nofun (h.account.answer ?_ (.inl rfl))
    rw [State.waiting, State.waiting, State.buffered, State.buffered, hpc]
    exact List.perm_middle
  | waits hpc | retries hpc => exact h.jump (hpc ▸ rfl) (hpc ▸ rfl) nofun nofun
  | reports hpc hcq =>
    exact h.consume hcq (hpc ▸ rfl) (hpc ▸ rfl) (fun _ => h.rests (hpc ▸ trivial)) nofun
  | @aborts max out cqe rest hpc hcq hidx =>
    obtain ⟨e, -, hkey, hlt, -⟩ := h.cqes cqe (hcq ▸ List.mem_cons_self)
    exact absurd (Nat.lt_of_lt_of_le (hkey ▸ hlt) h.size) hidx
  | @ends _ max out out' hpc =>
    have hacc := h.account.note_of_ne (o := some (.polled out')) nofun
    refine h.thread (fun _ => h.rests (hpc ▸ trivial)) nofun (hacc.move (.of_eq ?_))
    rw [State.waiting, State.waiting, State.buffered, State.buffered, hpc]
    rfl
  | takes htake =>
    obtain ⟨hok, hheld, hcq, hsqe, hktail⟩ := h.ring.take htake
    exact h.kernel hok hheld hcq hsqe hktail
  | releases hrel =>
    obtain ⟨hok, hheld, hcq, hsqe, hktail⟩ := h.ring.release hrel
    exact h.kernel hok (.of_eq hheld) hcq hsqe hktail
  | completes hget => exact h.complete hget _

theorem inv_of_exec {cfg : Config} {C : List Event → State → Act → Prop}
    (h : Exec machine C (init cfg) t s) : Inv t s := by
  refine h.invariant Inv (inv_init cfg) ?_
  intro t s a s' hinv _ hs
  exact hinv.step hs

/-! ## The result -/

/-- Between two calls, the buffer is empty, the kernel has taken and completed all that was
    submitted to it, and all completions have been consumed. -/
def State.Quiet (s : State) : Prop :=
  s.pc = .idle ∧ s.incoming = [] ∧ s.ring.taken = s.ring.ktail ∧ s.ring.inFlight = [] ∧
    s.ring.cq = []
deriving Decidable

/-- Nothing waits then: all that was prepared has been submitted. -/
theorem Inv.waiting_eq_nil (h : Inv t s) (hq : s.Quiet) : s.waiting = [] := by
  obtain ⟨hpc, hincoming, htaken, hinFlight, hcq⟩ := hq
  have hzero : s.pendingSqeCount = 0 := h.rests (hpc ▸ trivial)
  have hcount := h.count
  have hlen : s.ring.sqeTail - s.ring.taken = 0 := by omega
  rw [waiting_idle hpc, hincoming, Ring.keys, Ring.held, Ring.queued, hlen, hinFlight, hcq]
  rfl

/-- **io_uring requests complete once.**  Each callback is called at most once, and only with
    the context of its request and -ENOBUFS or the result that the kernel returned for the
    entry of this request; when all is quiet, each has been called. -/
theorem requests_complete_once (cfg : Config) {t : List Event} {s : State}
    (h : Exec machine Always (init cfg) t s) :
    (∀ k, (answered t).count k ≤ 1) ∧
      (∀ c, .called c ∈ t → ∃ r, s.handed[c.serial]? = some r ∧ Answers t c r) ∧
      (s.Quiet → ∀ k r, s.handed[k]? = some r → r.callbackFn ≠ none →
        (answered t).count k = 1) := by
  have hinv := inv_of_exec h
  refine ⟨?_, hinv.account.calls, ?_⟩
  · exact hinv.account.count_le_one
  · intro hquiet k r hr hfn
    have honce := hinv.account.once
    rw [hinv.waiting_eq_nil hquiet] at honce
    exact honce.eq_one ⟨r, hr, hfn⟩

/-- A ring with one entry.  The second request finds it full; the completion of the first is
    consumed meanwhile, but its slot is not given back in time.  The third waits in the buffer
    for a round. -/
def fullRing : List Act :=
  [.submit { fd := 3, len := 512, callbackFn := some 1, callbackCtx := 10 }, .go, .go,
    .submit { fd := 4, len := 512, callbackFn := some 1, callbackCtx := 11 }, .go,
    .take, .complete 0 512, .go, .go, .waitFails, .go, .go, .go,
    .setBufferConfig ⟨2, 1⟩,
    .submitBatch [{ op := .kWrite, fd := 5, len := 64, callbackFn := some 1, callbackCtx := 12 }],
    .flushPending, .release, .go, .go, .take, .complete 0 (-5), .poll 8, .go, .peekFails (-11)]

theorem full_ring_completes : ∃ t s, Exec machine Always (init ⟨1, 1, {}⟩) t s ∧
    s.Quiet ∧ s.handed.length = 3 ∧
    t.filterMap (fun | .called c => some (c.ctx, c.comp.result) | _ => none) =
      [(12, -5), (11, -105), (10, 512)] ∧
    (∀ k, (answered t).count k ≤ 1) ∧
    (∀ c, .called c ∈ t → ∃ r, s.handed[c.serial]? = some r ∧ Answers t c r) ∧
    (∀ k r, s.handed[k]? = some r → r.callbackFn ≠ none → (answered t).count k = 1) := by
  have hexec : Exec machine Always (init ⟨1, 1, {}⟩) _ _ := exec_run fullRing
  obtain ⟨honce, hcalls, hquiet⟩ := requests_complete_once ⟨1, 1, {}⟩ hexec
  exact ⟨_, _, hexec, by decide +kernel, by decide +kernel, by decide +kernel, honce, hcalls,
    hquiet (by decide +kernel)⟩

end IoUring
