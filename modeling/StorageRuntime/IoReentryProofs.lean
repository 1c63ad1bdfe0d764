import StorageRuntime.IoBufferProofs

/-!
# IOUringBackend — callbacks that submit

A callback runs inside `poll` or `submit_impl`, before `io_uring_cqe_seen`, and may itself
call `submit` and `submit_batch`; these may run further callbacks.  The calls that wait
for a callback to return are a stack of frames over one backend.

* **`nested_calls_break`**: a nested `submit` that finds the ring full takes the very
  completion whose callback is running, and calls the callback again; and what a nested
  `submit_batch` puts into the buffer while `flush_pending` is under way is cleared with
  the buffer and never submitted.
* **`nested_calls_kept`**: if every submission inside the callback of a completion finds a
  free entry, and nothing is put into the buffer while `flush_pending` is under way, then
  for every nesting of the calls no callback is called twice, and each request is prepared
  on the ring, refused with -ENOBUFS, in the hands of a call, or in the buffer.

The stack is seen as one call that holds the requests of all its frames (`Nested.view`),
for which the invariants of the backend without nesting apply.
-/

namespace IoUring

open Interleaving RingBuffer Table Answering
open scoped List

/-! ## Calls inside callbacks -/

/-- A call that waits for a callback to return: where it goes on, and whether it is yet to
    mark the completion as seen that the callback was called with. -/
structure Frame where
  pc : Pc
  delivers : Bool
deriving DecidableEq, Repr

/-- The backend with the innermost call, and the calls around it, the inner ones first; while
    a callback runs and makes no call, `now.pc` is `idle`.  `refused` are the numbers of the
    requests for which `submit_impl` has given up. -/
structure Nested where
  now : State
  stack : List Frame
  refused : List Nat

def Nested.init (cfg : Config) : Nested := ⟨IoUring.init cfg, [], []⟩

/-- The call goes on at `pc`. -/
def Nested.at (n : Nested) (pc : Pc) : Nested := { n with now := { n.now with pc := pc } }

/-- A completion is taken from the head of the queue: its callback runs, if there is one, and
    then it is marked as seen. -/
def Nested.deliver (n : Nested) (cqe : Cqe) (pc : Pc) : Nested :=
  match n.now.answer cqe with
  | some _ => { n.at .idle with stack := ⟨pc, true⟩ :: n.stack }
  | none => { n with now := { n.now with ring := n.now.ring.seen, pc := pc } }

/-- `submit_impl` gives up. -/
def Nested.refuse (n : Nested) (job : Job) (pc : Pc) : Nested :=
  match job.request.callbackFn with
  | some _ =>
    { n.at .idle with
      stack := ⟨pc, false⟩ :: n.stack
      refused := n.refused ++ [job.serial] }
  | none => { n.at pc with refused := n.refused ++ [job.serial] }

/-- What the thread does next in the innermost call. -/
def Nested.go (n : Nested) : Option Nested :=
  match n.now.pc with
  | .draining attempts job todo flushing =>
    if attempts < drainLimit n.now.queueDepth then
      match n.now.ring.cq with
      | [] => none
      | cqe :: _ => some (n.deliver cqe (.retrying attempts job todo flushing))
    else some (n.refuse job (.submitting todo flushing))
  | .polling max out =>
    if out.length < max then
      match n.now.ring.cq with
      | [] => none
      | cqe :: _ =>
        if cqe.userData < n.now.pending.length then
          some (n.deliver cqe (.polling max (out ++ [⟨cqe.userData, cqe.res⟩])))
        else some (n.at .aborted)
    else some (n.at .idle)
  | _ => (stepGo n.now).map fun s => { n with now := s }

/-- The callback returns.  When the completion has been marked as seen meanwhile and there is
    no other, the head of the queue passes its tail; the model ends there. -/
def Nested.back (n : Nested) : Option Nested :=
  match n.stack with
  | [] => none
  | f :: rest =>
    if f.delivers = true then
      match n.now.ring.cq with
      | [] => some { n.at .aborted with stack := rest }
      | _ :: _ =>
        some { n with
          now := { n.now with ring := n.now.ring.seen, pc := f.pc }
          stack := rest }
    else some { n.at f.pc with stack := rest }

/-- The calls that callbacks do not make. -/
def Act.outer : Act → Bool
  | .flushPending | .flushSubmissions | .setBufferConfig _ | .poll _ => true
  | _ => false

inductive NestedAct where
  | act (a : Act)
  /-- The running callback returns. -/
  | ret
deriving DecidableEq, Repr

def Nested.step (n : Nested) : NestedAct → Option Nested
  | .act .go => n.go
  | .act a =>
    if a.outer = true ∧ n.stack ≠ [] then none
    else (IoUring.step n.now a).map fun s => { n with now := s }
  | .ret => if n.now.pc = .idle then n.back else none

def Nested.event (n : Nested) : NestedAct → Option Event
  | .act a => IoUring.event n.now a
  | .ret => none

def nestedMachine : Machine Nested NestedAct Event := ⟨Nested.step, Nested.event⟩

/-! ## The condition -/

/-- The callback of a completion is running. -/
def Nested.delivering (n : Nested) : Bool := n.stack.any Frame.delivers

/-- The running calls, the inner ones first. -/
def Nested.calls (n : Nested) : List Pc := n.now.pc :: n.stack.map Frame.pc

/-- One of them is a `flush_pending` that goes through the buffer. -/
def Nested.flushing (n : Nested) : Bool := n.calls.any Pc.flushing

/-- The thread asks for an entry and the ring has none. -/
def Nested.findsFull (n : Nested) : NestedAct → Bool
  | .act .go =>
    match n.now.pc with
    | .submitting (_ :: _) _ => n.now.ring.getSqe.isNone
    | _ => false
  | _ => false

/-- Requests are put into the buffer. -/
def Nested.buffers (n : Nested) : NestedAct → Bool
  | .act (.submitBatch requests) => decide (requests.length < n.now.bufCfg.minBatchDepth)
  | _ => false

/-- Submissions inside the callback of a completion find a free entry, and nothing is put
    into the buffer while `flush_pending` goes through it. -/
def Gentle (_ : List Event) (n : Nested) (a : NestedAct) : Prop :=
  (n.delivering = true → n.findsFull a = false) ∧ (n.flushing = true → n.buffers a = false)
deriving Decidable

/-! ## The stack as one call -/

/-- The requests in the hands of the running calls. -/
def Nested.carried (n : Nested) : List Job := n.calls.flatMap Pc.carried

/-- A completion whose callback is running counts as seen. -/
def Nested.shown (n : Nested) (r : Ring) : Ring :=
  { r with cq := if n.delivering = true then r.cq.tail else r.cq }

/-- The backend with one call that holds what all the calls hold. -/
def Nested.view (n : Nested) : State :=
  { n.now with ring := n.shown n.now.ring, pc := .submitting n.carried n.flushing }

/-- The requests that are prepared, in the hands of a call or in the buffer, or refused. -/
def Nested.placed (n : Nested) : List Nat := n.view.order ++ n.refused

/-- A call in which no completion is waited for. -/
def Pc.Direct : Pc → Prop
  | .idle => True
  | .submitting _ _ => True
  | _ => False

/-- A call in which the next completion is waited for. -/
def Pc.Waits : Pc → Prop
  | .draining _ _ _ _ => True
  | .polling _ _ => True
  | _ => False

variable {n n' : Nested} {r r' : Ring}

/-- A step of the innermost call other than `go`. -/
theorem act_nests {a : Act} (ha : a ≠ .go) (hs : n.step (.act a) = some n') :
    ∃ s, IoUring.step n.now a = some s ∧ n' = { n with now := s } ∧
      (a.outer = true → n.stack = []) := by
  have hstep : (if a.outer = true ∧ n.stack ≠ [] then none
      else (IoUring.step n.now a).map fun s => { n with now := s }) = some n' := by
    cases a with
    | go => exact absurd rfl ha
    | _ => exact hs
  rw [Option.ite_none_left_eq_some] at hstep
  obtain ⟨houter, hstep⟩ := hstep
  obtain ⟨s, hs, heq⟩ := Option.map_eq_some_iff.mp hstep
  refine ⟨s, hs, heq.symm, fun hout => ?_⟩
  by_contra hne
  exact houter ⟨hout, hne⟩

/-! ## The invariant -/

/-- The callback of a completion runs in the innermost frame only, and makes no call that
    waits for completions. -/
structure Sound (t : List Event) (n : Nested) : Prop where
  inv : Inv t n.view
  placed : n.placed ~ List.range n.now.handed.length
  alone : ∀ f ∈ n.stack.tail, f.delivers = false
  direct : n.delivering = true → n.now.pc.Direct ∧ n.now.ring.cq ≠ []

theorem sound_init (cfg : Config) : Sound [] (Nested.init cfg) where
  inv := by
    refine (inv_init cfg).jump rfl rfl ?_ ?_
    · exact fun hr => hr.elim
    · rintro ⟨⟩
  placed := List.Perm.refl _
  alone := fun _ hf => absurd hf List.not_mem_nil
  direct := by rintro ⟨⟩

-- That a completion counts as seen does not touch the entries.

theorem shown_take (h : r.take = some r') : (n.shown r).take = some (n.shown r') := by
  obtain ⟨hlt, rfl⟩ := Option.ite_some_none_eq_some.mp h
  exact if_pos hlt

theorem shown_release (h : r.release = some r') : (n.shown r).release = some (n.shown r') := by
  obtain ⟨hlt, rfl⟩ := Option.ite_some_none_eq_some.mp h
  exact if_pos hlt

theorem shown_getSqe {slot : Nat} (h : r.getSqe = some (slot, r')) :
    (n.shown r).getSqe = some (slot, n.shown r') := by
  obtain ⟨hroom, heq⟩ := Option.ite_none_right_eq_some.mp h
  cases heq
  exact if_pos hroom

/-- A new completion comes behind the one whose callback is running. -/
theorem shown_complete {inFlight : List Sqe} {cqe : Cqe} (h : n.delivering = true → r.cq ≠ []) :
    n.shown { r with inFlight := inFlight, cq := r.cq ++ [cqe] } =
      { n.shown r with inFlight := inFlight, cq := (n.shown r).cq ++ [cqe] } := by
  simp only [Nested.shown]
  split
  next hd => rw [List.tail_append_of_ne_nil (h hd)]
  next => rfl

section Sound

variable {t : List Event} {n : Nested} {o : Option Event}

/-- A call that waits for completions is not inside the callback of one. -/
theorem Sound.not_delivering (h : Sound t n) (hpc : n.stack = [] ∨ ¬ n.now.pc.Direct) :
    n.delivering = false := by
  rcases hpc with hnil | hpc
  · rw [Nested.delivering, hnil]
    rfl
  · rw [Bool.eq_false_iff]
    exact fun hd => hpc (h.direct hd).1

theorem Sound.not_delivering_of (h : Sound t n) {p : Pc} (hpc : n.now.pc = p) (hp : ¬ p.Direct) :
    n.delivering = false := h.not_delivering (.inr (hpc ▸ hp))

theorem view_of_delivering (h : n.delivering = true) : n.view =
    { n.now with ring := n.now.ring.seen, pc := .submitting n.carried n.flushing } := by
  rw [Nested.view, Nested.shown, if_pos h]
  rfl

theorem view_of_not_delivering (h : n.delivering = false) : n.view =
    { n.now with pc := .submitting n.carried n.flushing } := by
  rw [Nested.view, Nested.shown, h]
  rfl

/-- The requests in the buffer that no `flush_pending` has taken. -/
theorem buffered_view : n.view.buffered =
    if n.flushing then [] else n.now.incoming.map fun e => e.job := rfl

theorem buffered_of_false (h : n.flushing = false) :
    n.view.buffered = n.now.incoming.map fun e => e.job := by
  rw [buffered_view, h]
  rfl

theorem waiting_view : n.view.waiting =
    n.view.ring.keys.map n.now.job ++ (n.carried ++ n.view.buffered) := rfl

theorem placed_eq : n.placed =
    n.now.prepared ++ (n.carried ++ n.view.buffered).map Job.serial ++ n.refused := rfl

/-- Whoever holds no requests holds those of the calls around it only. -/
theorem carried_of_nil (h : n.now.pc.carried = []) :
    n.carried = (n.stack.map Frame.pc).flatMap Pc.carried := by
  show n.now.pc.carried ++ _ = _
  rw [h]
  rfl

theorem flushing_of_false (h : n.now.pc.flushing = false) :
    n.flushing = (n.stack.map Frame.pc).any Pc.flushing := by
  show (n.now.pc.flushing || _) = _
  rw [h]
  rfl

/-- The numbers of new requests follow those given out. -/
theorem range_handed (reqs : List IORequest) : List.range (n.now.handed ++ reqs).length =
      List.range n.now.handed.length ++ (n.now.number reqs).map Job.serial := by
  have happend := List.range'_append_1 (s := 0) (m := n.now.handed.length) (n := reqs.length)
  rw [Nat.zero_add] at happend
  rw [map_serial_number, List.length_append, List.range_eq_range', List.range_eq_range', happend]

variable {n' : Nested} {incoming : List BufferEntry} {pc : Pc} {flushing : Bool} {ring : Ring}

/-- What does not touch the ring. -/
theorem Sound.thread (h : Sound t n) {bufCfg : BufferConfig} {handed : List IORequest}
    (hn : n' = { n with now :=
      { n.now with pc := pc, incoming := incoming, bufCfg := bufCfg, handed := handed } })
    (hacc : Account (note t o) handed n'.view.waiting)
    (hplaced : n'.placed ~ List.range handed.length)
    (hdirect : n.delivering = true → pc.Direct) : Sound (note t o) n' := by
  subst hn
  refine ⟨h.inv.thread (fun hr => hr.elim) (by rintro ⟨⟩) hacc, hplaced, h.alone, ?_⟩
  exact fun hd => ⟨hdirect hd, (h.direct hd).2⟩

/-- Requests are handed over: they join those that wait, and get the next numbers. -/
theorem Sound.join (h : Sound t n) (reqs : List IORequest) (hn : n' = { n with now :=
      { n.now with pc := pc, incoming := incoming, handed := n.now.handed ++ reqs } })
    (hperm : n'.carried ++ n'.view.buffered ~ n.carried ++ n.view.buffered ++ n.now.number reqs)
    (hdirect : pc.Direct) : Sound t n' := by
  refine h.thread (o := none) hn ((h.inv.account.join reqs).move ?_) ?_ fun _ => hdirect
  · subst hn
    rw [waiting_view, waiting_view, List.append_assoc]
    exact hperm.append_left _
  · rw [range_handed, placed_eq]
    have hsame : n'.now.prepared = n.now.prepared ∧ n'.refused = n.refused := by
      subst hn
      exact ⟨rfl, rfl⟩
    rw [hsame.1, hsame.2]
    have hserials : (n'.carried ++ n'.view.buffered).map Job.serial ~
        (n.carried ++ n.view.buffered).map Job.serial ++ (n.now.number reqs).map Job.serial :=
      (hperm.map Job.serial).trans (.of_eq List.map_append)
    calc n.now.prepared ++ (n'.carried ++ n'.view.buffered).map Job.serial ++ n.refused
        ~ n.now.prepared ++ ((n.carried ++ n.view.buffered).map Job.serial ++
            (n.now.number reqs).map Job.serial) ++ n.refused :=
          (hserials.append_left _).append_right _
      _ ~ n.placed ++ (n.now.number reqs).map Job.serial := by
          rw [placed_eq, ← List.append_assoc, List.append_assoc _ _ n.refused,
            List.append_assoc _ n.refused]
          exact List.perm_append_comm.append_left _
      _ ~ _ := h.placed.append_right _

theorem Sound.hands (h : Sound t n) (hpc : n.now.pc = .idle) (reqs : List IORequest) :
    Sound t { n with now := { n.now with
      handed := n.now.handed ++ reqs
      pc := .submitting (n.now.number reqs) false } } := by
  have hidle : n.now.pc.carried = [] ∧ n.now.pc.flushing = false := by
    rw [hpc]
    exact ⟨rfl, rfl⟩
  refine h.join reqs rfl ?_ trivial
  have hbuffered : Nested.flushing { n with now := { n.now with
      handed := n.now.handed ++ reqs
      pc := .submitting (n.now.number reqs) false } } = n.flushing := by
    rw [flushing_of_false hidle.2]
    exact flushing_of_false rfl
  rw [buffered_view, hbuffered, ← buffered_view, carried_of_nil hidle.1]
  show n.now.number reqs ++ _ ++ _ ~ _
  rw [List.append_assoc]
  exact List.perm_append_comm

/-- Outside `flush_pending`, requests join the buffer. -/
theorem Sound.buffers (h : Sound t n) (hpc : n.now.pc = .idle) (hflushing : n.flushing = false)
    (reqs : List IORequest) :
    Sound t { n with now := { n.now with
      handed := n.now.handed ++ reqs
      incoming := n.now.incoming ++ (n.now.number reqs).map fun job => ⟨job, 0⟩ } } := by
  refine h.join reqs rfl (.of_eq ?_) (hpc ▸ trivial)
  have hbuffered : (Nested.view { n with now := { n.now with
      handed := n.now.handed ++ reqs
      incoming := n.now.incoming ++ (n.now.number reqs).map fun job => ⟨job, 0⟩ } }).buffered =
      n.view.buffered ++ n.now.number reqs := by
    refine (buffered_of_false (by exact hflushing)).trans ?_
    rw [buffered_of_false hflushing, List.map_append, map_job_fresh]
  rw [hbuffered, List.append_assoc]
  rfl

/-- The requests change hands. -/
theorem Sound.move (h : Sound t n) (bufCfg : BufferConfig)
    (hn : n' = { n with now := { n.now with pc := pc, incoming := incoming, bufCfg := bufCfg } })
    (hperm : n'.carried ++ n'.view.buffered ~ n.carried ++ n.view.buffered)
    (hcalled : ∀ c, o ≠ some (.called c))
    (hdirect : n.delivering = true → pc.Direct) : Sound (note t o) n' := by
  refine h.thread hn ((h.inv.account.note_of_ne hcalled).move ?_) ?_ hdirect
  · subst hn
    exact hperm.append_left _
  · subst hn
    exact (((hperm.map _).append_left _).append_right _).trans h.placed

theorem Sound.flushes (h : Sound t n) (hpc : n.now.pc = .idle) (hstack : n.stack = []) :
    Sound t { n with now := { n.now with
      incoming := n.now.aged
      pc := .submitting (n.now.aged.map fun e => e.job) true } } := by
  refine h.move (o := none) n.now.bufCfg rfl (.of_eq ?_) (by rintro c ⟨⟩) fun _ => trivial
  rw [buffered_view, buffered_view, Nested.carried, Nested.carried, Nested.flushing,
    Nested.flushing, Nested.calls, Nested.calls, hpc, hstack]
  show (n.now.aged.map fun e => e.job) ++ [] ++ [] = [] ++ _
  rw [List.append_nil, List.append_nil, map_job_aged]
  rfl

theorem Sound.ages (h : Sound t n) :
    Sound t { n with now := { n.now with incoming := n.now.aged } } := by
  refine h.move (o := none) n.now.bufCfg rfl (.of_eq ?_) (by rintro c ⟨⟩)
    fun hd => (h.direct hd).1
  exact congrArg (fun l => n.carried ++ if n.flushing then [] else l) map_job_aged

theorem Sound.configures (h : Sound t n) {cfg : BufferConfig} :
    Sound t { n with now := { n.now with bufCfg := cfg } } :=
  h.move (o := none) cfg rfl (.refl _) (by rintro c ⟨⟩) fun hd => (h.direct hd).1

/-- A call goes on with what it holds. -/
theorem Sound.jump (h : Sound t n) {p : Pc} (hpc : n.now.pc = p)
    (hcalled : ∀ c, o ≠ some (.called c)) (hfree : n.delivering = false)
    (hcarried : pc.carried = p.carried) (hflushing : pc.flushing = p.flushing) :
    Sound (note t o) (n.at pc) := by
  subst hpc
  refine h.move n.now.bufCfg rfl (.of_eq ?_) hcalled ?_
  · have hcarry : (n.at pc).carried = n.carried := congrArg (· ++ _) hcarried
    have hflush : (n.at pc).flushing = n.flushing := congrArg (· || _) hflushing
    rw [buffered_view, buffered_view, hcarry, hflush]
    rfl
  · rw [hfree]
    rintro ⟨⟩

/-- The entries prepared so far are submitted. -/
theorem Sound.submit (h : Sound t n) :
    Sound t { n with now := { n.now with ring := n.now.ring.submit, pendingSqeCount := 0 } } := by
  exact ⟨h.inv.submit, h.placed, h.alone, h.direct⟩

theorem Sound.submits (h : Sound t n) (hring : n.now.Submits ring) :
    Sound t { n with now := { n.now with ring := ring, pendingSqeCount := 0 } } := by
  rcases hring with rfl | ⟨rfl, hzero⟩
  · exact h.submit
  · rw [← hzero]
    exact h

theorem Sound.returns (h : Sound t n) (hpc : n.now.pc = .submitting [] flushing) :
    Sound t { n with now := { n.now with
      incoming := if flushing then [] else n.now.incoming
      pc := .idle } } := by
  have hcarried : n.now.pc.carried = [] := by rw [hpc]; rfl
  have hflush : n.now.pc.flushing = flushing := by rw [hpc]; rfl
  refine h.move (o := none) n.now.bufCfg rfl (.of_eq ?_) (by rintro c ⟨⟩) fun _ => trivial
  rw [carried_of_nil hcarried, carried_of_nil rfl]
  refine congrArg (_ ++ ·) ?_
  cases flushing with
  | false =>
    have hsame : (n.at .idle).flushing = n.flushing :=
      Eq.trans (flushing_of_false (n := n.at .idle) rfl) (flushing_of_false hflush).symm
    rw [buffered_view, buffered_view, ← hsame]
    rfl
  | true =>
    -- the buffer had been taken, and now it is empty
    have htrue : n.flushing = true := by
      rw [Nested.flushing, Nested.calls, List.any_cons, hflush]
      rfl
    rw [buffered_view, buffered_view, htrue]
    exact ite_self []

/-- A request gets an entry. -/
theorem Sound.fill (h : Sound t n) {job : Job} {todo : List Job} {slot : Nat}
    (hpc : n.now.pc.Asks job todo flushing) (hget : n.now.ring.getSqe = some (slot, ring)) :
    Sound t { n with now :=
      { n.now with ring := ring, pc := .submitting todo flushing }.gotSqe slot job } := by
  let below := (n.stack.map Frame.pc).flatMap Pc.carried
  generalize hn : ({ n with now :=
    { n.now with ring := ring, pc := .submitting todo flushing }.gotSqe slot job } : Nested) = n'
  have hcarried : n.carried = job :: (todo ++ below) := congrArg (· ++ below) hpc.carried_eq
  have hcarried' : n'.carried = todo ++ below := by rw [← hn]; rfl
  have hflushing : n'.flushing = n.flushing := by
    rw [← hn]
    exact congrArg (· || _) hpc.flushing_eq.symm
  have hview : n'.view = { n.view with
      ring := n.shown ring
      pc := .submitting (todo ++ below) n.flushing }.gotSqe slot job := by
    rw [Nested.view, hcarried', hflushing, ← hn]
    rfl
  have hasks : n.view.pc.Asks job (todo ++ below) n.flushing := by
    show (Pc.submitting n.carried n.flushing).Asks _ _ _
    rw [hcarried]
    exact .first
  refine ⟨?_, ?_, ?_, ?_⟩
  · rw [hview]
    exact h.inv.fill hasks (shown_getSqe hget)
  · have hprepared : n'.now.prepared = n.now.prepared ++ [job.serial] := by
      rw [← hn]
      exact prepared_gotSqe slot job
    have hbuffered : n'.view.buffered = n.view.buffered := by
      rw [buffered_view, buffered_view, hflushing, ← hn]
      rfl
    have hplaced : n'.placed = n.placed := by
      rw [placed_eq, placed_eq, hprepared, hcarried', hcarried, hbuffered,
        show n'.refused = n.refused by rw [← hn], List.append_assoc n.now.prepared]
      rfl
    rw [hplaced, ← hn]
    exact h.placed
  · rw [← hn]
    exact h.alone
  · rw [← hn]
    intro hd
    obtain ⟨-, heq⟩ := Option.ite_none_right_eq_some.mp hget
    cases heq
    exact ⟨trivial, (h.direct hd).2⟩

/-- The calls hold the same after the innermost one has moved to a frame around a callback. -/
theorem calls_eq (hcarried : pc.carried = n.now.pc.carried)
    (hflushing : pc.flushing = n.now.pc.flushing) :
    Pc.submitting (pc.carried ++ (n.stack.map Frame.pc).flatMap Pc.carried)
      (pc.flushing || (n.stack.map Frame.pc).any Pc.flushing) =
      .submitting n.carried n.flushing := by
  rw [hcarried, hflushing]
  rfl

/-- No frame is inside the callback of a completion. -/
theorem delivers_of_mem (hd : n.delivering = false) {f : Frame} (hf : f ∈ n.stack) :
    f.delivers = false := by
  rw [Nested.delivering, List.any_eq_false] at hd
  exact Bool.eq_false_iff.mpr (hd f hf)

/-- A completion is taken, outside the callback of another. -/
theorem Sound.deliver (h : Sound t n) {p : Pc} {cqe : Cqe} {rest : List Cqe}
    (hpc : n.now.pc = p) (hp : ¬ p.Direct) (hcq : n.now.ring.cq = cqe :: rest)
    (hcarried : pc.carried = p.carried) (hflushing : pc.flushing = p.flushing) :
    Sound (note t (n.now.answer cqe)) (n.deliver cqe pc) := by
  have hd : n.delivering = false := h.not_delivering_of hpc hp
  subst hpc
  have hview : n.view.ring = n.now.ring := by rw [view_of_not_delivering hd]
  have hcalls := congrArg (fun p => ({ n.now with ring := n.now.ring.seen, pc := p } : State))
    (calls_eq hcarried hflushing)
  have hinv : Inv (note t (n.view.answer cqe)) { n.view with ring := n.view.ring.seen } :=
    h.inv.consume (hview ▸ hcq) rfl rfl (fun hr => hr.elim) (by rintro ⟨⟩)
  rw [hview] at hinv
  rw [Nested.deliver]
  cases hans : n.now.answer cqe with
  | some e =>
    rw [show n.view.answer cqe = some e from hans] at hinv
    have hnext := (view_of_delivering (n := { n.at .idle with stack := ⟨pc, true⟩ :: n.stack })
      rfl).trans hcalls
    refine ⟨hnext ▸ hinv, ?_, fun f hf => delivers_of_mem hd hf, fun _ => ⟨trivial, ?_⟩⟩
    · rw [Nested.placed, hnext]
      exact h.placed
    · show n.now.ring.cq ≠ []
      rw [hcq]
      rintro ⟨⟩
  | none =>
    rw [show n.view.answer cqe = none from hans] at hinv
    have hnext := (view_of_not_delivering
      (n := { n with now := { n.now with ring := n.now.ring.seen, pc := pc } }) hd).trans hcalls
    refine ⟨hnext ▸ hinv, ?_, h.alone, ?_⟩
    · rw [Nested.placed, hnext]
      exact h.placed
    · exact fun hd' => absurd (hd.symm.trans hd') (by rintro ⟨⟩)

/-- `submit_impl` gives up on a request. -/
theorem Sound.refuse (h : Sound t n) {attempts : Nat} {job : Job} {todo : List Job}
    (hpc : n.now.pc = .draining attempts job todo flushing) :
    Sound (note t ((job.invokeCallback ⟨0, -enobufs⟩).map .called))
      (n.refuse job (.submitting todo flushing)) := by
  let below := (n.stack.map Frame.pc).flatMap Pc.carried
  have hd : n.delivering = false := h.not_delivering_of hpc id
  have hcarried : n.carried = job :: (todo ++ below) := by
    rw [Nested.carried, Nested.calls, hpc]
    rfl
  have hflushing : (flushing || (n.stack.map Frame.pc).any Pc.flushing) = n.flushing := by
    rw [Nested.flushing, Nested.calls, hpc]
    rfl
  have hview : (n.refuse job (.submitting todo flushing)).view =
      { n.view with pc := .submitting (todo ++ below) n.flushing } := by
    rw [view_of_not_delivering hd, Nested.refuse, ← hflushing]
    split <;> exact view_of_not_delivering hd
  have hnow : (n.refuse job (.submitting todo flushing)).refused = n.refused ++ [job.serial] ∧
      (n.refuse job (.submitting todo flushing)).now.handed = n.now.handed ∧
      (n.refuse job (.submitting todo flushing)).delivering = n.delivering := by
    rw [Nested.refuse]
    split <;> exact ⟨rfl, rfl, rfl⟩
  refine ⟨?_, ?_, ?_, ?_⟩
  · rw [hview]
    refine h.inv.thread (fun hr => hr.elim) (by rintro ⟨⟩) (h.inv.account.answer ?_ (.inl rfl))
    rw [waiting_view, hcarried]
    exact List.perm_middle
  · rw [Nested.placed, hview, hnow.1, hnow.2.1]
    refine .trans ?_ h.placed
    rw [placed_eq, hcarried]
    show n.now.prepared ++ (todo ++ below ++ n.view.buffered).map Job.serial ++ _ ~
      n.now.prepared ++ (job.serial :: (todo ++ below ++ n.view.buffered).map Job.serial) ++ _
    generalize (todo ++ below ++ n.view.buffered).map Job.serial = serials
    rw [List.append_assoc, List.append_assoc, ← List.append_assoc serials]
    exact (List.perm_append_singleton _ _).append_left _
  · rw [Nested.refuse]
    split
    next => exact fun f hf => delivers_of_mem hd hf
    next => exact h.alone
  · rw [hnow.2.2, hd]
    rintro ⟨⟩

/-- A callback returns. -/
theorem Sound.back (h : Sound t n) (hpc : n.now.pc = .idle) (hback : n.back = some n') :
    Sound t n' := by
  rw [Nested.back] at hback
  split at hback
  next => cases hback
  next f rest hstack =>
    have hrest : rest.any Frame.delivers = false := by
      rw [List.any_eq_false]
      intro g hg
      rw [h.alone g (by rw [hstack]; exact hg)]
      rintro ⟨⟩
    have hcalls : Pc.submitting n.carried n.flushing =
        .submitting ((f.pc :: rest.map Frame.pc).flatMap Pc.carried)
          ((f.pc :: rest.map Frame.pc).any Pc.flushing) := by
      rw [Nested.carried, Nested.flushing, Nested.calls, hpc, hstack]
      rfl
    have hdelivering : n.delivering = f.delivers := by
      rw [Nested.delivering, hstack, List.any_cons, hrest, Bool.or_false]
    -- the calls hold the same, and the completion now is marked as seen
    have hsame : n'.view = n.view ∧ n'.refused = n.refused ∧ n'.now.handed = n.now.handed ∧
        n'.stack = rest := by
      split at hback
      next hdel =>
        rw [hdel] at hdelivering
        split at hback
        next hcq => exact absurd hcq (h.direct hdelivering).2
        next =>
          cases hback
          refine ⟨?_, rfl, rfl, rfl⟩
          rw [view_of_delivering hdelivering, hcalls]
          exact view_of_not_delivering hrest
      next hdel =>
        rw [Bool.eq_false_iff.mpr hdel] at hdelivering
        cases hback
        refine ⟨?_, rfl, rfl, rfl⟩
        rw [view_of_not_delivering hdelivering, hcalls]
        exact view_of_not_delivering hrest
    obtain ⟨hview, hrefused, hhanded, hstack'⟩ := hsame
    refine ⟨hview ▸ h.inv, ?_, ?_, ?_⟩
    · rw [Nested.placed, hview, hrefused, hhanded]
      exact h.placed
    · intro g hg
      rw [hstack'] at hg
      exact h.alone g (by rw [hstack]; exact List.mem_of_mem_tail hg)
    · rw [Nested.delivering, hstack', hrest]
      rintro ⟨⟩

/-- The kernel takes an entry or gives a slot back. -/
theorem Sound.kernel (h : Sound t n) (hok : (n.shown ring).Ok)
    (hheld : (n.shown ring).held ~ n.view.ring.held)
    (hcq : (n.shown ring).cq = n.view.ring.cq)
    (hsqe : (n.shown ring).sqeTail = n.view.ring.sqeTail)
    (hktail : (n.shown ring).ktail = n.view.ring.ktail) (hsame : ring.cq = n.now.ring.cq) :
    Sound t { n with now := { n.now with ring := ring } } := by
  refine ⟨h.inv.kernel hok hheld hcq hsqe hktail, h.placed, h.alone, fun hd => ?_⟩
  obtain ⟨hpc, hne⟩ := h.direct hd
  exact ⟨hpc, hsame ▸ hne⟩

theorem Sound.takes (h : Sound t n) (htake : n.now.ring.take = some ring) :
    Sound t { n with now := { n.now with ring := ring } } := by
  obtain ⟨hok, hheld, hcq, hsqe, hktail⟩ := h.inv.ring.take (shown_take htake)
  refine h.kernel hok hheld hcq hsqe hktail ?_
  obtain ⟨-, rfl⟩ := Option.ite_some_none_eq_some.mp htake
  rfl

theorem Sound.releases (h : Sound t n) (hrel : n.now.ring.release = some ring) :
    Sound t { n with now := { n.now with ring := ring } } := by
  obtain ⟨hok, hheld, hcq, hsqe, hktail⟩ := h.inv.ring.release (shown_release hrel)
  refine h.kernel hok (.of_eq hheld) hcq hsqe hktail ?_
  obtain ⟨-, rfl⟩ := Option.ite_some_none_eq_some.mp hrel
  rfl

/-- The kernel completes an entry. -/
theorem Sound.complete (h : Sound t n) {i : Nat} {sqe : Sqe}
    (hget : n.now.ring.inFlight[i]? = some sqe) (res : Int) : Sound (.completed sqe res :: t)
      { n with now := { n.now with ring :=
        { n.now.ring with
          inFlight := n.now.ring.inFlight.eraseIdx i
          cq := n.now.ring.cq ++ [⟨sqe.userData, res⟩] } } } := by
  have hinv := h.inv.complete (s := n.view) hget res
  refine ⟨?_, h.placed, h.alone, fun hd => ⟨(h.direct hd).1, ?_⟩⟩
  · refine Eq.mpr (congrArg (fun r => Inv _ { n.view with ring := r }) ?_) hinv
    exact shown_complete fun hd => (h.direct hd).2
  · exact List.append_ne_nil_of_right_ne_nil _ (by rintro ⟨⟩)

end Sound

/-- A step of the backend as without nesting. -/
theorem Sound.plain {t : List Event} {n : Nested} {a : Act} {o : Option Event} {s : State}
    (h : Sound t n) (hm : Move n.now a o s) (hwaits : a = .go → ¬ n.now.pc.Waits)
    (houter : a.outer = true → n.stack = []) (hc : Gentle t n (.act a)) :
    Sound (note t o) { n with now := s } := by
  obtain ⟨hroom, hbuffers⟩ := hc
  cases hm with
  | hands _ hpc => exact h.hands hpc _
  | @buffers reqs hpc hlt =>
    refine h.buffers hpc (Bool.eq_false_iff.mpr fun hf => ?_) reqs
    exact absurd (hbuffers hf) (by rw [Nested.buffers, decide_eq_true hlt]; rintro ⟨⟩)
  | stays => exact h
  | ages hpc => exact h.ages
  | flushes hpc => exact h.flushes hpc (houter rfl)
  | submits hring => exact h.submits hring
  | configures => exact h.configures
  | polls hpc =>
    exact h.jump (o := none) hpc (by rintro c ⟨⟩) (h.not_delivering (.inl (houter rfl))) rfl rfl
  | fills hpc hget => exact h.fill hpc hget
  | @full job todo flushing hpc hget =>
    have hfree : n.delivering = false := by
      refine Bool.eq_false_iff.mpr fun hd => absurd (hroom hd) ?_
      rw [Nested.findsFull, hpc]
      rw [hget]
      rintro ⟨⟩
    exact h.submit.jump (o := none) hpc (by rintro c ⟨⟩) hfree rfl rfl
  | returns hpc hring => exact (h.returns hpc).submits hring
  | waits hpc | retries hpc =>
    exact h.jump (o := none) hpc (by rintro c ⟨⟩) (h.not_delivering_of hpc id) rfl rfl
  | ends hpc => exact h.jump hpc (by rintro c ⟨⟩) (h.not_delivering_of hpc id) rfl rfl
  | drains hpc _ | givesUp hpc | reports hpc _ | aborts hpc _ _ =>
    exact absurd (hpc ▸ trivial) (hwaits rfl)
  | takes htake => exact h.takes htake
  | releases hrel => exact h.releases hrel
  | completes hget => exact h.complete hget _

/-- What the thread does next in the innermost call: as long as no completion is waited for, a
    step of the backend without nesting. -/
theorem Sound.go {t : List Event} {n n' : Nested} (h : Sound t n) (hc : Gentle t n (.act .go))
    (hs : n.go = some n') : Sound (note t (eventGo n.now)) n' := by
  have hplain : ¬ n.now.pc.Waits → (stepGo n.now).map (fun s => { n with now := s }) = some n' →
      Sound (note t (eventGo n.now)) n' := by
    intro hwaits hs
    obtain ⟨s, hgo, rfl⟩ := Option.map_eq_some_iff.mp hs
    exact h.plain (stepGo_moves hgo) (fun _ => hwaits) (by rintro ⟨⟩) hc
  rw [Nested.go] at hs
  rw [eventGo] at hplain ⊢
  generalize hpc : n.now.pc = p at hs hplain ⊢
  cases p with
  | idle | aborted | submitting todo flushing | retrying attempts job todo flushing =>
    exact hplain id hs
  | draining attempts job todo flushing =>
    simp only at hs ⊢
    split at hs
    next hlt =>
      rw [if_pos hlt]
      split at hs
      next => cases hs
      next cqe rest hcq =>
        cases hs
        rw [hcq]
        exact h.deliver hpc id hcq rfl rfl
    next hlt =>
      rw [if_neg hlt]
      cases hs
      exact h.refuse hpc
  | polling max out =>
    simp only at hs ⊢
    split at hs
    next hlt =>
      rw [if_pos hlt]
      split at hs
      next => cases hs
      next cqe rest hcq =>
        have hinv := h.inv
        rw [view_of_not_delivering (h.not_delivering_of hpc id)] at hinv
        obtain ⟨e, -, hkey, hused, -⟩ := hinv.cqes cqe (by rw [hcq]; exact List.mem_cons_self)
        rw [if_pos (Nat.lt_of_lt_of_le (hkey ▸ hused) hinv.size)] at hs
        cases hs
        rw [hcq]
        exact h.deliver hpc id hcq rfl rfl
    next hlt =>
      rw [if_neg hlt]
      cases hs
      exact h.jump hpc (by rintro c ⟨⟩) (h.not_delivering_of hpc id) rfl rfl

theorem Sound.step {t : List Event} {n n' : Nested} {a : NestedAct} (h : Sound t n)
    (hc : Gentle t n a) (hs : n.step a = some n') : Sound (note t (n.event a)) n' := by
  cases a with
  | ret =>
    rw [Nested.step, Option.ite_none_right_eq_some] at hs
    exact h.back hs.1 hs.2
  | act a =>
    by_cases ha : a = .go
    · subst ha
      exact h.go hc hs
    · obtain ⟨s, hnow, rfl, houter⟩ := act_nests ha hs
      exact h.plain (step_moves hnow) (fun hgo => absurd hgo ha) houter hc

theorem sound_of_exec {cfg : Config} {t : List Event} {n : Nested}
    (h : Exec nestedMachine Gentle (Nested.init cfg) t n) : Sound t n := by
  refine h.invariant Sound (sound_init cfg) ?_
  intro t n a n' hsound hc hs
  exact hsound.step hc hs

/-! ## The results -/

/-- **Callbacks that submit.**  If submissions inside the callback of a completion find a free
    entry, and nothing is put into the buffer while `flush_pending` goes through it, then for
    every nesting of the calls no callback is called twice, each is called with what its own
    request is to get, and each request handed over is in one place: prepared on the ring, in
    the hands of a running call, in the buffer, or refused with -ENOBUFS. -/
theorem nested_calls_kept (cfg : Config) {t : List Event} {n : Nested}
    (h : Exec nestedMachine Gentle (Nested.init cfg) t n) :
    (∀ k, (answered t).count k ≤ 1) ∧
      (∀ c, .called c ∈ t → ∃ r, n.now.handed[c.serial]? = some r ∧ Answers t c r) ∧
      n.placed ~ List.range n.now.handed.length := by
  have hsound := sound_of_exec h
  exact ⟨hsound.inv.account.count_le_one, hsound.inv.account.calls, hsound.placed⟩

/-- A ring with two entries.  The callback of request 0 submits request 1 and puts request 2
    into the buffer.  Request 3 finds the ring full and is refused; its callback submits
    request 4, which waits for the completion of 1 and gets an entry. -/
def nestedCalls : List NestedAct :=
  [.act (.submit { fd := 3, callbackFn := some 1, callbackCtx := 10 }), .act .go, .act .go,
    .act .take, .act (.complete 0 512), .act (.poll 8), .act .go,
    .act (.submit { fd := 4, callbackFn := some 1, callbackCtx := 11 }), .act .go, .act .go,
    .act (.submitBatch [{ fd := 5 }]), .ret, .act (.peekFails (-11)),
    .act (.submit { fd := 6, callbackFn := some 1, callbackCtx := 13 }), .act .go,
    .act .waitFails, .act .go, .act .waitFails, .act .go, .act .go,
    .act (.submit { fd := 7, callbackFn := some 1, callbackCtx := 14 }), .act .go,
    .act .take, .act (.complete 0 64), .act .go, .ret, .act .release, .act .go, .act .go,
    .ret, .act .go]

theorem nested_calls_kept_twice_deep : ∃ t n,
    Exec nestedMachine Gentle (Nested.init ⟨1, 2, ⟨2, 3⟩⟩) t n ∧
    t.filterMap (fun | .called c => some (c.ctx, c.comp.result) | _ => none) =
      [(11, 64), (13, -105), (10, 512)] ∧
    n.now.prepared = [0, 1, 4] ∧ n.refused = [3] ∧ n.placed ~ [0, 1, 2, 3, 4] ∧
    (∀ k, (answered t).count k ≤ 1) ∧
    (∀ c, .called c ∈ t → ∃ r, n.now.handed[c.serial]? = some r ∧ Answers t c r) := by
  have hexec : Exec nestedMachine Gentle (Nested.init ⟨1, 2, ⟨2, 3⟩⟩) _ _ :=
    exec_run nestedCalls
  obtain ⟨honce, hcalls, hplaced⟩ := nested_calls_kept ⟨1, 2, ⟨2, 3⟩⟩ hexec
  exact ⟨_, _, hexec, by decide +kernel, by decide +kernel, by decide +kernel, hplaced, honce,
    hcalls⟩

/-- The ring has one entry, whose slot has not been given back when its completion is polled.
    The callback submits: `submit_impl` finds the ring full and takes the same completion. -/
def submitInCallback : List NestedAct :=
  [.act (.submit { fd := 3, callbackFn := some 1 }), .act .go, .act .go,
    .act .take, .act (.complete 0 512), .act (.poll 8), .act .go,
    .act (.submit { fd := 4, callbackFn := some 1 }), .act .go, .act .go]

/-- `flush_pending` goes through a buffer of three requests and finds the ring full.  The
    callback of the completion that it takes puts a fourth into the buffer, for which there is
    room without moving it.  At the end the buffer is cleared. -/
def bufferInCallback : List NestedAct :=
  [.act (.submit { fd := 3, callbackFn := some 1 }), .act .go, .act .go,
    .act .take, .act (.complete 0 512),
    .act (.submitBatch [{ fd := 4 }, { fd := 5 }, { fd := 6 }]), .act .flushPending,
    .act .go, .act .go, .act (.submitBatch [{ fd := 7 }]), .ret, .act .release, .act .go,
    .act .go, .act .take, .act .release, .act .waitFails, .act .go,
    .act .go, .act .take, .act .release, .act .waitFails, .act .go, .act .go]

/-- **Callbacks that submit break the backend.**  A completion is delivered twice to the same
    callback; and a request accepted inside a callback, number 4, is neither in the buffer nor
    submitted when all calls have returned. -/
theorem nested_calls_break : (∃ t n, Exec nestedMachine Always (Nested.init ⟨1, 1, {}⟩) t n ∧
      t.count (.completed ⟨.read, 3, 0, 0, 0, 0, 0⟩ 512) = 1 ∧
      t.count (.called ⟨0, 1, 0, ⟨0, 512⟩⟩) = 2) ∧
    (∃ t n, Exec nestedMachine Always (Nested.init ⟨1, 1, ⟨4, 1⟩⟩) t n ∧
      n.now.pc = .idle ∧ n.stack = [] ∧ n.now.handed.length = 5 ∧ n.now.incoming = [] ∧
      n.now.prepared = [0, 1, 2, 3] ∧ n.refused = []) := by
  have htwice : Exec nestedMachine Always (Nested.init ⟨1, 1, {}⟩) _ _ :=
    exec_run submitInCallback
  have hlost : Exec nestedMachine Always (Nested.init ⟨1, 1, ⟨4, 1⟩⟩) _ _ :=
    exec_run bufferInCallback
  refine ⟨⟨_, _, htwice, by decide +kernel⟩, _, _, hlost, ?_⟩
  decide +kernel

end IoUring
