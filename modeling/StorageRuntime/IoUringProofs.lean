import StorageRuntime.InterleavingProofs
import StorageRuntime.RingBufferProofs
import StorageRuntime.TableProofs

/-!
# IOUringBackend — submitting requests and consuming their completions

The model of `io/io_uring_backend.cc`: `submit`, `submit_batch`, `flush_pending`,
`flush_submissions`, `set_buffer_config` and `poll`, with the loop of `submit_impl` that
consumes completions while the ring is full.  One thread makes the calls; between any two
of its accesses to the ring the kernel takes submitted entries, gives their slots back and
posts completions, in any order and with any result.

A request handed to the backend gets a number that the code does not have; an entry of the
ring is marked with the number of the request it was prepared for.  Callbacks do not call
back into the backend.
-/

namespace IoUring

open Interleaving RingBuffer Table

/-! ## Requests -/

inductive Op where
  | kRead
  | kWrite
  | kFlush
  | kTrim
deriving DecidableEq, Repr

/-- A read or a write. -/
def Op.Supported (op : Op) : Prop := op = .kRead ∨ op = .kWrite
deriving Decidable

structure IOCompletion where
  userData : Nat := 0
  result : Int := 0
deriving DecidableEq, Repr

/-- Pointers are numbers; `callbackFn` can be null. -/
structure IORequest where
  op : Op := .kRead
  fd : Int := -1
  offset : Nat := 0
  buf : Nat := 0
  len : Nat := 0
  callbackFn : Option Nat := none
  callbackCtx : Nat := 0
deriving DecidableEq, Repr

/-- A request and its number. -/
structure Job where
  request : IORequest := {}
  serial : Nat := 0
deriving DecidableEq, Repr

/-- What a callback is called with, and for which request. -/
structure Call where
  serial : Nat
  fn : Nat
  ctx : Nat
  comp : IOCompletion
deriving DecidableEq, Repr

/-- The callback is called unless it is null. -/
def Job.invokeCallback (job : Job) (comp : IOCompletion) : Option Call :=
  job.request.callbackFn.map fun fn => ⟨job.serial, fn, job.request.callbackCtx, comp⟩

def eagain : Int := 11

def enobufs : Int := 105

/-! ## The ring -/

inductive Opcode where
  | nop
  | read
  | write
deriving DecidableEq, Repr

structure Sqe where
  opcode : Opcode := .nop
  fd : Int := 0
  off : Nat := 0
  addr : Nat := 0
  len : Nat := 0
  userData : Nat := 0
  owner : Nat := 0
deriving DecidableEq, Repr

structure Cqe where
  userData : Nat
  res : Int
deriving DecidableEq, Repr

/-- Positions only grow; position `i` is in slot `i % entries`.  The kernel has taken the
    entries before `taken` but has told so only for those before `khead`. -/
structure Ring where
  entries : Nat
  sqes : Nat → Sqe
  khead : Nat
  taken : Nat
  ktail : Nat
  sqeTail : Nat
  inFlight : List Sqe
  cq : List Cqe

def Ring.empty (entries : Nat) : Ring := ⟨entries, fun _ => {}, 0, 0, 0, 0, [], []⟩

/-- `io_uring_get_sqe`: a slot, with whatever it held before. -/
def Ring.getSqe (r : Ring) : Option (Nat × Ring) :=
  if r.sqeTail - r.khead < r.entries then
    some (r.sqeTail % r.entries, { r with sqeTail := r.sqeTail + 1 })
  else none

/-- `io_uring_submit`. -/
def Ring.submit (r : Ring) : Ring := { r with ktail := r.sqeTail }

def Ring.write (r : Ring) (slot : Nat) (sqe : Sqe) : Ring :=
  { r with sqes := Function.update r.sqes slot sqe }

/-- `io_uring_cqe_seen` for the first completion. -/
def Ring.seen (r : Ring) : Ring := { r with cq := r.cq.tail }

/-- The kernel takes the next entry. -/
def Ring.take (r : Ring) : Option Ring :=
  if r.taken < r.ktail then
    some { r with taken := r.taken + 1, inFlight := r.inFlight ++ [r.sqes (r.taken % r.entries)] }
  else none

/-- The kernel gives a slot back. -/
def Ring.release (r : Ring) : Option Ring :=
  if r.khead < r.taken then some { r with khead := r.khead + 1 } else none

/-- The kernel completes one of the entries it has taken. -/
def Ring.complete (r : Ring) (i : Nat) (res : Int) : Option Ring :=
  r.inFlight[i]?.map fun sqe =>
    { r with inFlight := r.inFlight.eraseIdx i, cq := r.cq ++ [⟨sqe.userData, res⟩] }

/-! ## The backend -/

structure BufferConfig where
  minBatchDepth : Nat := 0
  maxAgeIterations : Nat := 3
deriving DecidableEq, Repr

structure BufferEntry where
  job : Job
  age : Nat
deriving DecidableEq, Repr

/-- Where the thread is.  `submitting`, `draining` and `retrying` carry the requests that the
    call still has to give to `submit_impl`, and whether the call is `flush_pending`. -/
inductive Pc where
  | idle
  | submitting (todo : List Job) (flushing : Bool)
  /-- At the head of the loop that waits for completions, with `job` in hand. -/
  | draining (attempts : Nat) (job : Job) (todo : List Job) (flushing : Bool)
  /-- At the end of its body. -/
  | retrying (attempts : Nat) (job : Job) (todo : List Job) (flushing : Bool)
  | polling (max : Nat) (out : List IOCompletion)
  /-- The assertion of `poll` has failed. -/
  | aborted
deriving DecidableEq, Repr

/-- `handed` are the requests handed to the backend so far; the number of a request is its
    place there. -/
structure State where
  queueDepth : Nat
  ring : Ring
  pending : List Job
  incoming : List BufferEntry
  bufCfg : BufferConfig
  submitCount : Nat
  pendingSqeCount : Nat
  pc : Pc
  handed : List IORequest

/-- The kernel chooses the size of the ring. -/
structure Config where
  queueDepth : Nat
  entries : Nat
  bufCfg : BufferConfig := {}

def init (cfg : Config) : State where
  queueDepth := cfg.queueDepth
  ring := Ring.empty cfg.entries
  pending := List.replicate (cfg.queueDepth * 2) {}
  incoming := []
  bufCfg := cfg.bufCfg
  submitCount := 0
  pendingSqeCount := 0
  pc := .idle
  handed := []

/-- `pending_[idx]`. -/
def State.job (s : State) (idx : Nat) : Job := s.pending.getD idx {}

/-- The requests with the next numbers. -/
def State.number (s : State) (reqs : List IORequest) : List Job :=
  (reqs.zipIdx s.handed.length).map fun p => ⟨p.1, p.2⟩

/-- `(int)(queue_depth_ * 2)`, as the bound of a loop. -/
def drainLimit (queueDepth : Nat) : Nat := ((queueDepth * 2 : Nat) : Int).bmod (2 ^ 32) |>.toNat

/-- `io_uring_prep_read` and `io_uring_prep_write`; the length of an entry has 32 bits. -/
def Sqe.prepRw (sqe : Sqe) (opcode : Opcode) (req : IORequest) : Sqe :=
  { sqe with
    opcode := opcode, fd := req.fd, off := req.offset, addr := req.buf, len := req.len % 2 ^ 32 }

/-- The switch of `submit_impl`. -/
def Sqe.prep (sqe : Sqe) (req : IORequest) : Sqe :=
  match req.op with
  | .kRead => sqe.prepRw .read req
  | .kWrite => sqe.prepRw .write req
  | .kFlush => sqe
  | .kTrim => sqe

/-- `submit_impl` from `got_sqe` on. -/
def State.gotSqe (s : State) (slot : Nat) (job : Job) : State :=
  let idx := s.submitCount
  let pending :=
    if idx < s.pending.length then s.pending
    else resize s.pending (max (s.pending.length * 2) (idx + 1)) {}
  let sqe := (s.ring.sqes slot).prep job.request
  { s with
    submitCount := idx + 1
    pending := pending.set idx job
    ring := s.ring.write slot { sqe with userData := idx, owner := job.serial }
    pendingSqeCount := s.pendingSqeCount + 1 }

def State.flushSubmissions (s : State) : State :=
  if 0 < s.pendingSqeCount then { s with ring := s.ring.submit, pendingSqeCount := 0 } else s

/-- The buffer after the first loop of `flush_pending`. -/
def State.aged (s : State) : List BufferEntry :=
  s.incoming.map fun e => { e with age := e.age + 1 }

/-- `go` of `flush_pending`. -/
def State.flushDue (s : State) : Bool :=
  decide (s.bufCfg.minBatchDepth ≤ s.aged.length) ||
    s.aged.any fun e => decide (s.bufCfg.maxAgeIterations ≤ e.age)

/-! ## Steps -/

inductive Act where
  | submit (req : IORequest)
  | submitBatch (requests : List IORequest)
  | flushPending
  | flushSubmissions
  | setBufferConfig (cfg : BufferConfig)
  | poll (max : Nat)
  /-- The thread goes on with its call. -/
  | go
  /-- `io_uring_wait_cqe` gives no completion. -/
  | waitFails
  /-- `io_uring_peek_cqe` returns an error. -/
  | peekFails (ret : Int)
  | take
  | release
  | complete (i : Nat) (res : Int)
deriving DecidableEq, Repr

inductive Event where
  | called (c : Call)
  /-- The kernel completes an entry. -/
  | completed (sqe : Sqe) (res : Int)
  /-- `poll` returns. -/
  | polled (out : List IOCompletion)
deriving DecidableEq, Repr

/-- `out` when `io_uring_peek_cqe` has returned `ret`. -/
def pollError (out : List IOCompletion) (ret : Int) : List IOCompletion :=
  if ret = -eagain then out else out ++ [⟨0, ret⟩]

/-- What the thread does next. -/
def stepGo (s : State) : Option State :=
  match s.pc with
  | .idle => none
  | .submitting [] flushing =>
    some { s with
      incoming := if flushing then [] else s.incoming
      pc := .idle }.flushSubmissions
  | .submitting (job :: todo) flushing =>
    match s.ring.getSqe with
    | some (slot, ring) =>
      some ({ s with ring := ring, pc := .submitting todo flushing }.gotSqe slot job)
    | none =>
      some { s with
        ring := s.ring.submit
        pendingSqeCount := 0
        pc := .draining 0 job todo flushing }
  | .draining attempts job todo flushing =>
    if attempts < drainLimit s.queueDepth then
      match s.ring.cq with
      | [] => none
      | _ :: _ => some { s with ring := s.ring.seen, pc := .retrying attempts job todo flushing }
    else some { s with pc := .submitting todo flushing }
  | .retrying attempts job todo flushing =>
    match s.ring.getSqe with
    | some (slot, ring) =>
      some ({ s with ring := ring, pc := .submitting todo flushing }.gotSqe slot job)
    | none => some { s with pc := .draining (attempts + 1) job todo flushing }
  | .polling max out =>
    if out.length < max then
      match s.ring.cq with
      | [] => none
      | cqe :: _ =>
        if cqe.userData < s.pending.length then
          some { s with
            ring := s.ring.seen
            pc := .polling max (out ++ [⟨cqe.userData, cqe.res⟩]) }
        else some { s with pc := .aborted }
    else some { s with pc := .idle }
  | .aborted => none

def step (s : State) : Act → Option State
  | .submit req =>
    if s.pc = .idle then
      some { s with
        handed := s.handed ++ [req]
        pc := .submitting (s.number [req]) false }
    else none
  | .submitBatch requests =>
    if s.pc = .idle then
      if s.bufCfg.minBatchDepth ≤ requests.length then
        some { s with
          handed := s.handed ++ requests
          pc := .submitting (s.number requests) false }
      else
        some { s with
          handed := s.handed ++ requests
          incoming := s.incoming ++ (s.number requests).map fun job => ⟨job, 0⟩ }
    else none
  | .flushPending =>
    if s.pc = .idle then
      if s.bufCfg.minBatchDepth = 0 then some s
      else if s.flushDue then
        some { s with
          incoming := s.aged
          pc := .submitting (s.aged.map fun e => e.job) true }
      else some { s with incoming := s.aged }
    else none
  | .flushSubmissions => if s.pc = .idle then some s.flushSubmissions else none
  | .setBufferConfig cfg => if s.pc = .idle then some { s with bufCfg := cfg } else none
  | .poll max => if s.pc = .idle then some { s with pc := .polling max [] } else none
  | .go => stepGo s
  | .waitFails =>
    match s.pc with
    | .draining attempts job todo flushing =>
      if attempts < drainLimit s.queueDepth then
        some { s with pc := .retrying attempts job todo flushing }
      else none
    | _ => none
  | .peekFails ret =>
    match s.pc with
    | .polling max out => if out.length < max ∧ ret < 0 then some { s with pc := .idle } else none
    | _ => none
  | .take => s.ring.take.map fun ring => { s with ring := ring }
  | .release => s.ring.release.map fun ring => { s with ring := ring }
  | .complete i res => (s.ring.complete i res).map fun ring => { s with ring := ring }

/-- The callback of the request that a completion names. -/
def State.answer (s : State) (cqe : Cqe) : Option Event :=
  if cqe.userData < s.pending.length then
    ((s.job cqe.userData).invokeCallback ⟨cqe.userData, cqe.res⟩).map .called
  else none

def eventGo (s : State) : Option Event :=
  match s.pc with
  | .draining attempts job _ _ =>
    if attempts < drainLimit s.queueDepth then s.ring.cq.head?.bind s.answer
    else (job.invokeCallback ⟨0, -enobufs⟩).map .called
  | .polling max out =>
    if out.length < max then s.ring.cq.head?.bind s.answer else some (.polled out)
  | _ => none

def event (s : State) : Act → Option Event
  | .go => eventGo s
  | .peekFails ret =>
    match s.pc with
    | .polling _ out => some (.polled (pollError out ret))
    | _ => none
  | .complete i res => s.ring.inFlight[i]?.map fun sqe => .completed sqe res
  | _ => none

def machine : Machine State Act Event := ⟨step, event⟩

/-! ## What a step can do -/

/-- The thread asks for an entry for `job`. -/
inductive Pc.Asks (job : Job) (todo : List Job) (flushing : Bool) : Pc → Prop where
  | first : Asks job todo flushing (.submitting (job :: todo) flushing)
  | again {attempts : Nat} : Asks job todo flushing (.retrying attempts job todo flushing)

/-- The requests that a call hands over. -/
def Act.requests : Act → List IORequest
  | .submit req => [req]
  | .submitBatch requests => requests
  | _ => []

/-- The call goes past the buffer. -/
def Act.direct (s : State) : Act → Bool
  | .submit _ => true
  | .submitBatch requests => s.bufCfg.minBatchDepth ≤ requests.length
  | _ => false

/-- The ring after `flush_submissions`, which leaves it alone when there is nothing to submit. -/
def State.Submits (s : State) (ring : Ring) : Prop :=
  ring = s.ring.submit ∨ ring = s.ring ∧ s.pendingSqeCount = 0

theorem flushSubmissions_eq (s : State) : ∃ ring, s.Submits ring ∧
    s.flushSubmissions = { s with ring := ring, pendingSqeCount := 0 } := by
  rw [State.flushSubmissions]
  split
  · exact ⟨_, .inl rfl, rfl⟩
  · rename_i hpos
    have hzero := Nat.eq_zero_of_not_pos hpos
    exact ⟨_, .inr ⟨rfl, hzero⟩, by rw [← hzero]⟩

/-- The steps, by what they do to the state and what they show. -/
inductive Move (s : State) : Act → Option Event → State → Prop where
  | hands {a : Act} : a.direct s = true → s.pc = .idle → Move s a none
      { s with handed := s.handed ++ a.requests, pc := .submitting (s.number a.requests) false }
  | buffers {reqs : List IORequest} : s.pc = .idle → reqs.length < s.bufCfg.minBatchDepth →
      Move s (.submitBatch reqs) none { s with
        handed := s.handed ++ reqs
        incoming := s.incoming ++ (s.number reqs).map fun job => ⟨job, 0⟩ }
  | stays : Move s .flushPending none s
  | ages : s.pc = .idle → Move s .flushPending none { s with incoming := s.aged }
  | flushes : s.pc = .idle → Move s .flushPending none
      { s with incoming := s.aged, pc := .submitting (s.aged.map fun e => e.job) true }
  | submits {ring : Ring} : s.Submits ring →
      Move s .flushSubmissions none { s with ring := ring, pendingSqeCount := 0 }
  | configures {cfg : BufferConfig} : Move s (.setBufferConfig cfg) none { s with bufCfg := cfg }
  | polls {max : Nat} : s.pc = .idle → Move s (.poll max) none { s with pc := .polling max [] }
  | fills {job : Job} {todo : List Job} {flushing : Bool} {slot : Nat} {ring : Ring} :
      s.pc.Asks job todo flushing → s.ring.getSqe = some (slot, ring) → Move s .go none
        ({ s with ring := ring, pc := .submitting todo flushing }.gotSqe slot job)
  | full {job : Job} {todo : List Job} {flushing : Bool} :
      s.pc = .submitting (job :: todo) flushing → s.ring.getSqe = none → Move s .go none { s with
          ring := s.ring.submit
          pendingSqeCount := 0
          pc := .draining 0 job todo flushing }
  | returns {flushing : Bool} {ring : Ring} : s.pc = .submitting [] flushing → s.Submits ring →
      Move s .go none { s with
        incoming := if flushing then [] else s.incoming
        pc := .idle
        ring := ring
        pendingSqeCount := 0 }
  | drains {attempts : Nat} {job : Job} {todo : List Job} {flushing : Bool} {cqe : Cqe}
      {rest : List Cqe} : s.pc = .draining attempts job todo flushing → s.ring.cq = cqe :: rest →
      attempts < drainLimit s.queueDepth → Move s .go (s.answer cqe)
        { s with ring := s.ring.seen, pc := .retrying attempts job todo flushing }
  | givesUp {attempts : Nat} {job : Job} {todo : List Job} {flushing : Bool} :
      s.pc = .draining attempts job todo flushing →
      Move s .go ((job.invokeCallback ⟨0, -enobufs⟩).map .called)
        { s with pc := .submitting todo flushing }
  | waits {attempts : Nat} {job : Job} {todo : List Job} {flushing : Bool} :
      s.pc = .draining attempts job todo flushing →
      Move s .waitFails none { s with pc := .retrying attempts job todo flushing }
  | retries {attempts : Nat} {job : Job} {todo : List Job} {flushing : Bool} :
      s.pc = .retrying attempts job todo flushing →
      Move s .go none { s with pc := .draining (attempts + 1) job todo flushing }
  | reports {max : Nat} {out : List IOCompletion} {cqe : Cqe} {rest : List Cqe} :
      s.pc = .polling max out → s.ring.cq = cqe :: rest → out.length < max →
      Move s .go (s.answer cqe)
        { s with ring := s.ring.seen, pc := .polling max (out ++ [⟨cqe.userData, cqe.res⟩]) }
  | aborts {max : Nat} {out : List IOCompletion} {cqe : Cqe} {rest : List Cqe} :
      s.pc = .polling max out → s.ring.cq = cqe :: rest → ¬ cqe.userData < s.pending.length →
      Move s .go (s.answer cqe) { s with pc := .aborted }
  | ends {a : Act} {max : Nat} {out out' : List IOCompletion} : s.pc = .polling max out →
      (out.length ≤ max → out'.length ≤ max) → Move s a (some (.polled out')) { s with pc := .idle }
  | takes {ring : Ring} : s.ring.take = some ring → Move s .take none { s with ring := ring }
  | releases {ring : Ring} : s.ring.release = some ring →
      Move s .release none { s with ring := ring }
  | completes {i : Nat} {res : Int} {sqe : Sqe} : s.ring.inFlight[i]? = some sqe →
      Move s (.complete i res) (some (.completed sqe res)) { s with ring :=
          { s.ring with
            inFlight := s.ring.inFlight.eraseIdx i
            cq := s.ring.cq ++ [⟨sqe.userData, res⟩] } }

theorem stepGo_moves {s s' : State} (hs : stepGo s = some s') : Move s .go (eventGo s) s' := by
  rw [stepGo] at hs
  rw [eventGo]
  generalize hpc : s.pc = p at hs ⊢
  cases p with
  | idle | aborted => cases hs
  | submitting todo flushing =>
    cases todo with
    | nil =>
      cases hs
      obtain ⟨ring, hring, heq⟩ := flushSubmissions_eq _
      rw [heq]
      exact .returns hpc hring
    | cons job todo =>
      simp only at hs
      split at hs
      · rename_i hsqe
        cases hs
        exact .fills (hpc ▸ .first) hsqe
      · rename_i hsqe
        cases hs
        exact .full hpc hsqe
  | draining attempts job todo flushing =>
    simp only at hs ⊢
    split at hs
    · rename_i hlt
      rw [if_pos hlt]
      split at hs
      · cases hs
      · rename_i cqe rest hcq
        cases hs
        rw [hcq]
        exact .drains hpc hcq hlt
    · rename_i hlt
      rw [if_neg hlt]
      cases hs
      exact .givesUp hpc
  | retrying attempts job todo flushing =>
    simp only at hs
    split at hs
    · rename_i hsqe
      cases hs
      exact .fills (hpc ▸ .again) hsqe
    · cases hs; exact .retries hpc
  | polling max out =>
    simp only at hs ⊢
    split at hs
    · rename_i hlt
      rw [if_pos hlt]
      split at hs
      · cases hs
      · rename_i cqe rest hcq
        rw [hcq]
        split at hs
        · cases hs; exact .reports hpc hcq hlt
        · rename_i hidx
          cases hs
          exact .aborts hpc hcq hidx
    · rename_i hlt
      rw [if_neg hlt]
      cases hs
      exact .ends hpc id

theorem step_moves {s s' : State} {a : Act} (hs : step s a = some s') :
    Move s a (event s a) s' := by
  cases a with
  | submit req =>
    obtain ⟨hpc, rfl⟩ := Option.ite_some_none_eq_some.mp hs
    exact .hands (a := .submit req) rfl hpc
  | submitBatch requests =>
    rw [step, Option.ite_none_right_eq_some] at hs
    obtain ⟨hpc, hs⟩ := hs
    split at hs
    · rename_i hlong
      cases hs
      exact .hands (a := .submitBatch requests) (decide_eq_true hlong) hpc
    · rename_i hlt
      cases hs
      exact .buffers hpc (Nat.not_le.mp hlt)
  | flushPending =>
    rw [step, Option.ite_none_right_eq_some] at hs
    obtain ⟨hpc, hs⟩ := hs
    split at hs
    · cases hs; exact .stays
    · split at hs
      · cases hs; exact .flushes hpc
      · cases hs; exact .ages hpc
  | flushSubmissions =>
    obtain ⟨-, rfl⟩ := Option.ite_some_none_eq_some.mp hs
    obtain ⟨ring, hring, heq⟩ := flushSubmissions_eq s
    rw [heq]
    exact .submits hring
  | setBufferConfig cfg =>
    obtain ⟨-, rfl⟩ := Option.ite_some_none_eq_some.mp hs
    exact .configures
  | poll max =>
    obtain ⟨hpc, rfl⟩ := Option.ite_some_none_eq_some.mp hs
    exact .polls hpc
  | go => exact stepGo_moves hs
  | waitFails =>
    rw [step] at hs
    split at hs
    · rename_i hpc
      obtain ⟨-, rfl⟩ := Option.ite_some_none_eq_some.mp hs
      exact .waits hpc
    · cases hs
  | peekFails ret =>
    rw [step] at hs
    split at hs
    · rename_i hpc
      obtain ⟨⟨hlt, -⟩, rfl⟩ := Option.ite_some_none_eq_some.mp hs
      rw [event, hpc]
      refine .ends hpc fun hle => ?_
      rw [pollError]
      split
      · exact hle
      · rw [List.length_append]
        exact hlt
    · cases hs
  | take =>
    obtain ⟨ring, hring, rfl⟩ := Option.map_eq_some_iff.mp hs
    exact .takes hring
  | release =>
    obtain ⟨ring, hring, rfl⟩ := Option.map_eq_some_iff.mp hs
    exact .releases hring
  | complete i res =>
    obtain ⟨ring, hring, rfl⟩ := Option.map_eq_some_iff.mp hs
    obtain ⟨sqe, hsqe, rfl⟩ := Option.map_eq_some_iff.mp hring
    rw [event, hsqe]
    exact .completes hsqe

end IoUring
