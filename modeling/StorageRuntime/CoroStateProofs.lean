import StorageRuntime.BatonJoinProofs
import StorageRuntime.LifetimeProofs

/-!
# coro_state — who deletes it

The model of the state that `coro_create` allocates (`runtime/coro_api.h`).  Its body, which
runs on a worker, stores the return value and `done`, posts the baton and reads `detached`;
the creator's side joins the coroutine (`coro_join_awaiter`) or detaches it (`coro_detach`).
Each access to the state is a step.  The baton is the one of `AffinityBaton`, used as in
`BatonJoin`; a joiner that is resumed can run at once.

* **`state_deleted_once`**: the state is deleted exactly once and not accessed afterwards, if
  a joiner comes to `await_resume` after the body has read `detached`, and the two steps of
  `coro_detach` do not enclose or follow the store of `done` before the body has read
  `detached`.
* **`state_used_after_delete`**: otherwise it is used after its deletion, or deleted twice.
-/

namespace CoroState

open Interleaving BatonJoin ThreadAffinity Lifetime

/-! ## The machine -/

/-- Where the body of the coroutine is. -/
inductive BodyPc where
  | store
  | markDone
  | posting
  | readDetached
  | delete
  | ended
deriving DecidableEq

/-- Where the other side is: in `co_await coro_join(c)`, or in `coro_detach(c)`. -/
inductive OtherPc (V : Type) where
  | join
  | awaiting
  /-- `await_resume` has read the return value, about to delete. -/
  | joinDelete (ret : Option V)
  | joined (ret : Option V)
  | detach
  /-- `detached` is set, about to load `done`. -/
  | loadDone
  | detachDelete
  /-- `coro_detach` has returned, with or without deleting. -/
  | detached (deleted : Bool)
deriving DecidableEq

structure State (V : Type) where
  retval : Option V
  done : Bool
  detached : Bool
  baton : Baton Unit
  memory : Ledger
  body : BodyPc
  other : OtherPc V

variable {V : Type}

def init (other : OtherPc V) : State V :=
  ⟨none, false, false, AffinityBaton.init, .alive, .store, other⟩

inductive Act where
  | goBody
  | goOther (n : WaiterNode) (spurious : Bool)
deriving DecidableEq

/-- A step of `post()`.  The exchange is an access to the baton; the node that is read after it
    is in the frame of the joiner. -/
def State.post (s : State V) (b : Baton Unit) : State V :=
  { s with
    baton := b
    memory := if s.baton.pc (.task ()) = .exchange .post then s.memory.access else s.memory
    body := if b.pc (.task ()) = .idle then .readDetached else .posting }

def State.goBody (value : V) (s : State V) : Option (State V) :=
  match s.body with
  | .store => some { s with retval := some value, memory := s.memory.access, body := .markDone }
  | .markDone =>
    (AffinityBaton.step s.baton (Call.post ()).act).map fun b =>
      { s with done := true, memory := s.memory.access, baton := b, body := .posting }
  | .posting => (AffinityBaton.step s.baton (Call.goTask ()).act).map s.post
  | .readDetached =>
    some { s with
      memory := s.memory.access
      body := if s.detached = true then .delete else .ended }
  | .delete => some { s with memory := s.memory.free, body := .ended }
  | .ended => none

/-- A step of `co_await`.  When the baton lets the joiner go, `await_resume` reads the return
    value. -/
def State.await (s : State V) (b : Baton Unit) : State V :=
  { s with
    baton := b
    memory := s.memory.access
    other := if b.pc .waiter = .idle then .joinDelete s.retval else .awaiting }

def State.goOther (s : State V) (n : WaiterNode) (spurious : Bool) : Option (State V) :=
  match s.other with
  | .join =>
    (AffinityBaton.step s.baton (Call.act .await)).map fun b =>
      { s with baton := b, other := .awaiting }
  | .awaiting => (AffinityBaton.step s.baton (Call.goWaiter n spurious).act).map s.await
  | .joinDelete ret => some { s with memory := s.memory.free, other := .joined ret }
  | .detach => some { s with detached := true, memory := s.memory.access, other := .loadDone }
  | .loadDone =>
    some { s with
      memory := s.memory.access
      other := if s.done = true then .detachDelete else .detached false }
  | .detachDelete => some { s with memory := s.memory.free, other := .detached true }
  | .joined _ | .detached _ => none

def step (value : V) (s : State V) : Act → Option (State V)
  | .goBody => s.goBody value
  | .goOther n spurious => s.goOther n spurious

def machine (value : V) : Machine (State V) Act Empty := ⟨step value, fun _ _ => none⟩

/-- The body has read `detached`. -/
def BodyPc.past : BodyPc → Bool
  | .delete | .ended => true
  | _ => false

/-- The hand-over: the body does not store `done` between the two accesses of `coro_detach`, which
    do not come between the store of `done` and the read of `detached`; and the joiner runs
    `await_resume` after that read. -/
def Handover (_ : List Empty) (s : State V) : Act → Prop
  | .goBody => s.body = .markDone → s.other ≠ .loadDone
  | .goOther _ _ =>
    (s.other = .detach → s.body ≠ .posting ∧ s.body ≠ .readDetached) ∧
    (s.other = .awaiting → s.baton.pc .waiter = .awaitResume .plain → s.body.past = true)

instance [DecidableEq V] (t : List Empty) (s : State V) (a : Act) : Decidable (Handover t s a) :=
  match a with
  | .goBody => inferInstanceAs (Decidable (_ = _ → _ ≠ _))
  | .goOther .. => inferInstanceAs (Decidable ((_ = _ → _ ≠ _ ∧ _ ≠ _) ∧ (_ = _ → _ = _ → _ = _)))

/-! ## The invariant -/

/-- Who is responsible for the state, by where the other side is. -/
def OtherOk (body : BodyPc) (detached : Bool) (memory : Ledger) : OtherPc V → Prop
  | .join | .awaiting | .detach => detached = false ∧ memory = .alive ∧ body ≠ .delete
  | .joinDelete _ | .detachDelete => body = .ended ∧ memory = .alive
  | .joined _ | .detached true => body = .ended ∧ memory = .freed
  | .loadDone => detached = true ∧ memory = .alive ∧
      (body = .store ∨ body = .markDone ∨ body = .ended)
  -- the body will find `detached` set, and delete
  | .detached false => detached = true ∧ memory = if body = .ended then .freed else .alive

structure Inv (s : State V) : Prop where
  joined : Joined s.baton
  busy : s.body = .posting ↔ (view s.baton).poster () ≠ .out
  posted : s.body = .readDetached ∨ s.body.past = true ∨ (view s.baton).poster () = .leaving →
    (view s.baton).posted = true
  done : s.done = true ↔ s.body ≠ .store ∧ s.body ≠ .markDone
  inside : s.other = .awaiting ↔ (view s.baton).waiter ≠ .out
  other : OtherOk s.body s.detached s.memory s.other

theorem inv_init {other : OtherPc V} (h : other = .join ∨ other = .detach) : Inv (init other) where
  joined := joined_init
  busy := iff_of_false nofun fun hne => hne rfl
  posted := by
    rintro (h | h | h)
    · cases h
    · cases h
    · cases h
  done := iff_of_false nofun fun h => h.1 rfl
  inside := by
    refine iff_of_false (fun hawait => ?_) fun hne => hne rfl
    rcases h with rfl | rfl <;> cases hawait
  other := by
    rcases h with rfl | rfl <;> exact ⟨rfl, rfl, nofun⟩

section Steps

variable {s s' : State V} {value : V} {t : List Empty}

/-- Where the other side can be until the body has ended: before `detached`, between its two
    accesses, or gone, the state being left to the body. -/
inductive Running (body : BodyPc) : Bool → Ledger → OtherPc V → Prop where
  | undecided {o : OtherPc V} : o = .join ∨ o = .awaiting ∨ o = .detach → body ≠ .delete →
      Running body false .alive o
  | loads : body = .store ∨ body = .markDone → Running body true .alive .loadDone
  | left : Running body true .alive (.detached false)

variable {o other : OtherPc V} {memory : Ledger} {detached spurious : Bool} {body : BodyPc}
  {b : Baton Unit} {n : WaiterNode}

theorem OtherOk.running (h : OtherOk body detached memory o) (hbody : body ≠ .ended) :
    Running body detached memory o := by
  cases o with
  | join =>
    obtain ⟨rfl, rfl, hdelete⟩ := h
    exact .undecided (.inl rfl) hdelete
  | awaiting =>
    obtain ⟨rfl, rfl, hdelete⟩ := h
    exact .undecided (.inr (.inl rfl)) hdelete
  | detach =>
    obtain ⟨rfl, rfl, hdelete⟩ := h
    exact .undecided (.inr (.inr rfl)) hdelete
  | loadDone =>
    obtain ⟨rfl, rfl, hstore | hmark | hended⟩ := h
    · exact .loads (.inl hstore)
    · exact .loads (.inr hmark)
    · exact absurd hended hbody
  | joinDelete ret | joined ret | detachDelete => exact absurd h.1 hbody
  | detached deleted =>
    cases deleted with
    | true => exact absurd h.1 hbody
    | false =>
      obtain ⟨rfl, hmemory⟩ := h
      rw [if_neg hbody] at hmemory
      subst hmemory
      exact .left

theorem otherOk_of_undecided (ho : o = .join ∨ o = .awaiting ∨ o = .detach)
    (hdelete : body ≠ .delete) : OtherOk body false .alive o := by
  rcases ho with rfl | rfl | rfl <;> exact ⟨rfl, rfl, hdelete⟩

/-- Until the body has ended the state is there. -/
theorem OtherOk.alive (h : OtherOk body detached memory o) (hbody : body ≠ .ended) :
    memory = .alive := by
  cases h.running hbody with
  | undecided _ _ | loads _ | left => rfl

/-- The body goes on, without reading `detached`. -/
theorem OtherOk.goes {body' : BodyPc} (h : OtherOk body detached memory o) (hbody : body ≠ .ended)
    (hended : body' ≠ .ended) (hdelete : body' ≠ .delete)
    (hload : o = .loadDone → body' = .markDone) : OtherOk body' detached memory o := by
  cases h.running hbody with
  | undecided ho _ => exact otherOk_of_undecided ho hdelete
  | loads _ => exact ⟨rfl, rfl, .inr (.inl (hload rfl))⟩
  | left => exact ⟨rfl, (if_neg hended).symm⟩

/-- Between the store of `done` and the read of `detached` nobody is in `coro_detach`. -/
theorem OtherOk.not_loadDone (h : OtherOk body detached memory o)
    (hbody : body = .posting ∨ body = .readDetached) : o ≠ .loadDone := by
  rintro rfl
  rcases hbody with rfl | rfl <;> exact nomatch h.2.2

theorem Inv.posts (h : Inv s) (hp : s.body = .posting)
    (hb : AffinityBaton.step s.baton (Call.goTask ()).act = some b) : Inv (s.post b) := by
  have hbody : s.body ≠ .ended := by rw [hp]; nofun
  have halive := h.other.alive hbody
  have hload := h.other.not_loadDone (.inl hp)
  have hmemory : (s.post b).memory = .alive := by
    simp only [State.post, halive, access_alive, ite_self]
  obtain ⟨hjoined, hview⟩ := joined_step h.joined (.goTask ()) hb
  have hidle := (hjoined.poster ()).idle_iff
  have hother : OtherOk (s.post b).body s.detached (s.post b).memory s.other := by
    rw [hmemory, ← halive]
    refine h.other.goes hbody ?_ ?_ fun heq => absurd heq hload
    · simp only [State.post]
      split <;> nofun
    · simp only [State.post]
      split <;> nofun
  have hdone : s.done = true ↔ (s.post b).body ≠ .store ∧ (s.post b).body ≠ .markDone := by
    refine iff_of_true (h.done.mpr (by rw [hp]; exact ⟨nofun, nofun⟩)) ?_
    simp only [State.post]
    split <;> exact ⟨nofun, nofun⟩
  -- past its exchange the body finds the baton posted
  have hposted : (view b).posted = true ∧ (s.other = .awaiting ↔ (view b).waiter ≠ .out) := by
    have hsuspended := h.joined.of_waking (i := ())
    have hwas := h.posted
    have hinside := h.inside
    generalize view b = v' at hview
    generalize signals (AffinityBaton.event s.baton (Call.goTask ()).act) = o at hview
    generalize view s.baton = v at hview hsuspended hwas hinside
    cases hview with
    | claims _ _ _ | posts _ _ => exact ⟨rfl, hinside⟩
    | reads hwaking => exact ⟨(hsuspended hwaking).2, hinside⟩
    | wakes hwaking hsusp =>
      refine ⟨(hsuspended hwaking).2, iff_of_true (hinside.mpr ?_) nofun⟩
      rw [hsusp]
      nofun
    | leaves hleaving => exact ⟨hwas (.inr (.inr hleaving)), hinside⟩
  refine ⟨hjoined, ?_, fun _ => hposted.1, hdone, hposted.2, hother⟩
  show (if b.pc (.task ()) = .idle then BodyPc.readDetached else .posting) = .posting ↔ _
  by_cases hout : b.pc (.task ()) = .idle
  · rw [if_pos hout]
    exact iff_of_false nofun fun hne => hne (hidle.mp hout)
  · rw [if_neg hout]
    exact iff_of_true rfl fun heq => hout (hidle.mpr heq)

/-- The body goes on without the baton. -/
theorem Inv.bodyGoes (h : Inv s) (retval : Option V) (hp : s.body ≠ .posting)
    (hp' : body ≠ .posting)
    (hposted : body = .readDetached ∨ body.past = true → (view s.baton).posted = true)
    (hdone : s.done = true ↔ body ≠ .store ∧ body ≠ .markDone)
    (hother : OtherOk body s.detached memory s.other) :
    Inv { s with retval := retval, memory := memory, body := body } := by
  have hout : (view s.baton).poster () = .out := by
    by_contra hne
    exact hp (h.busy.mpr hne)
  refine ⟨h.joined, iff_of_false hp' fun hne => hne hout, ?_, hdone, h.inside, hother⟩
  rintro (hread | hpast | hleaving)
  · exact hposted (.inl hread)
  · exact hposted (.inr hpast)
  · exact nomatch hout.symm.trans hleaving

/-- The store of `done` and the call of `post()`. -/
theorem Inv.marks (h : Inv s) (hp : s.body = .markDone) (hload : s.other ≠ .loadDone)
    (hb : AffinityBaton.step s.baton (Call.post ()).act = some b) :
    Inv { s with done := true, memory := s.memory.access, baton := b, body := .posting } := by
  have hbody : s.body ≠ .ended := by rw [hp]; rintro ⟨⟩
  have halive := h.other.alive hbody
  obtain ⟨hjoined, hview⟩ := joined_step h.joined (.post ()) hb
  have hother : OtherOk .posting s.detached s.memory s.other :=
    h.other.goes hbody (by rintro ⟨⟩) (by rintro ⟨⟩) fun heq => absurd heq hload
  rw [halive] at hother
  have hparts : (view b).poster () = .exchanging ∧ (view b).waiter = (view s.baton).waiter := by
    generalize view b = v' at hview
    cases hview with
    | @post i _ => exact ⟨by simp [View.setPoster, Subsingleton.elim () i], rfl⟩
  refine ⟨hjoined, iff_of_true rfl ?_, ?_, iff_of_true rfl ⟨by rintro ⟨⟩, by rintro ⟨⟩⟩, ?_, ?_⟩
  · rw [hparts.1]
    rintro ⟨⟩
  · rintro (hread | hpast | hleaving)
    · cases hread
    · cases hpast
    · cases hparts.1.symm.trans hleaving
  · rw [hparts.2]
    exact h.inside
  · rw [halive]
    exact hother

/-- The body reads `detached`: the other side has left the state to it, or will take it. -/
theorem OtherOk.reads (h : OtherOk .readDetached detached memory o) :
    OtherOk (if detached = true then .delete else .ended) detached memory o := by
  cases h.running (by rintro ⟨⟩) with
  | undecided ho _ => exact otherOk_of_undecided ho (by rintro ⟨⟩)
  | loads _ => exact absurd rfl (h.not_loadDone (.inr rfl))
  | left => exact ⟨rfl, rfl⟩

/-- The body deletes: the other side has left it the state. -/
theorem OtherOk.deletes (h : OtherOk .delete detached memory o) :
    OtherOk .ended detached memory.free o := by
  cases h.running (by rintro ⟨⟩) with
  | undecided _ hdelete => exact absurd rfl hdelete
  | loads hbody =>
    rcases hbody with hstore | hmark
    · cases hstore
    · cases hmark
  | left => exact ⟨rfl, rfl⟩

theorem Inv.goBody (h : Inv s) (hc : Handover t s .goBody) (hs : s.goBody value = some s') :
    Inv s' := by
  simp only [State.goBody] at hs
  split at hs <;> rename_i hp
  · cases hs
    have hbody : s.body ≠ .ended := by rw [hp]; nofun
    have halive := h.other.alive hbody
    refine h.bodyGoes _ (by rw [hp]; nofun) nofun ?_ ?_ ?_
    · rintro (hread | hpast)
      · cases hread
      · cases hpast
    · refine h.done.trans (iff_of_false (fun hne => hne.1 hp) fun hne => hne.2 rfl)
    · rw [halive, access_alive, ← halive]
      exact h.other.goes hbody nofun nofun fun _ => rfl
  · obtain ⟨b, hb, rfl⟩ := Option.map_eq_some_iff.mp hs
    exact h.marks hp (hc hp) hb
  · obtain ⟨b, hb, rfl⟩ := Option.map_eq_some_iff.mp hs
    exact h.posts hp hb
  · cases hs
    have halive := h.other.alive (by rw [hp]; nofun)
    have hother := h.other
    rw [hp] at hother
    refine h.bodyGoes _ (by rw [hp]; nofun) ?_ (fun _ => h.posted (.inl hp)) ?_ ?_
    · split <;> nofun
    · refine h.done.trans (iff_of_true (by rw [hp]; exact ⟨nofun, nofun⟩) ?_)
      split <;> exact ⟨nofun, nofun⟩
    · rw [halive, access_alive, ← halive]
      exact hother.reads
  · cases hs
    have hother := h.other
    rw [hp] at hother
    refine h.bodyGoes _ (by rw [hp]; nofun) nofun
      (fun _ => h.posted (.inr (.inl (by rw [hp]; rfl)))) ?_ hother.deletes
    exact h.done.trans (iff_of_true (by rw [hp]; exact ⟨nofun, nofun⟩) ⟨nofun, nofun⟩)
  · cases hs

/-- The other side goes on without the baton. -/
theorem Inv.otherGoes (h : Inv s) (ho : s.other ≠ .awaiting) (ho' : other ≠ .awaiting)
    (hother : OtherOk s.body detached memory other) :
    Inv { s with detached := detached, memory := memory, other := other } := by
  have hout : (view s.baton).waiter = .out := by
    by_contra hne
    exact ho (h.inside.mpr hne)
  exact ⟨h.joined, h.busy, h.posted, h.done, iff_of_false ho' fun hne => hne hout, hother⟩

/-- The joiner goes on in the baton. -/
theorem Inv.joinerGoes (h : Inv s) (hjoined : Joined b)
    (hposter : (view b).poster = (view s.baton).poster)
    (hposted : (view b).posted = (view s.baton).posted)
    (hinside : other = .awaiting ↔ (view b).waiter ≠ .out)
    (hother : OtherOk s.body s.detached memory other) :
    Inv { s with baton := b, memory := memory, other := other } where
  joined := hjoined
  busy := by rw [hposter]; exact h.busy
  posted := by rw [hposter, hposted]; exact h.posted
  done := h.done
  inside := hinside
  other := hother

/-- The steps of the waiter leave the rest of the view alone; it goes out only when woken. -/
theorem view_goWaiter {v v' : View Unit} {o : Bool} (h : View.Step v (.goWaiter n spurious) o v') :
    v'.poster = v.poster ∧ v'.posted = v.posted ∧ (v'.waiter = .out → v.waiter = .woken) := by
  cases h with
  | asks hask => exact ⟨rfl, rfl, fun hout => nomatch hask.symm.trans hout⟩
  | suspends _ _ | passes _ _ => exact ⟨rfl, rfl, nofun⟩
  | returns hwoken => exact ⟨rfl, rfl, fun _ => hwoken⟩

theorem Inv.awaits (h : Inv s) (ho : s.other = .awaiting)
    (hresume : s.baton.pc .waiter = .awaitResume .plain → s.body.past = true)
    (hb : AffinityBaton.step s.baton (Call.goWaiter n spurious).act = some b) :
    Inv (s.await b) := by
  have hother := h.other
  rw [ho] at hother
  obtain ⟨hdetached, hmemory, hdelete⟩ := hother
  obtain ⟨hjoined, hview⟩ := joined_step h.joined (.goWaiter n spurious) hb
  obtain ⟨hposter, hposted, hwoken⟩ := view_goWaiter hview
  have hidle : b.pc .waiter = .idle ↔ (view b).waiter = .out := hjoined.waiter.idle_iff
  have haccess : s.memory.access = .alive := by rw [hmemory]; rfl
  refine h.joinerGoes hjoined hposter hposted ?_ ?_
  · by_cases hout : b.pc .waiter = .idle
    · rw [if_pos hout]
      exact iff_of_false nofun fun hne => hne (hidle.mp hout)
    · rw [if_neg hout]
      exact iff_of_true rfl fun heq => hout (hidle.mpr heq)
  · by_cases hout : b.pc .waiter = .idle
    · rw [if_pos hout]
      refine ⟨?_, haccess⟩
      -- the joiner was woken, so the body is past its last access
      have hphase : waiterPhase (s.baton.pc .waiter) = .woken := hwoken (hidle.mp hout)
      have hpast : s.body.past = true := by
        have hawaits := h.joined.waiter
        generalize s.baton.pc .waiter = p at hawaits hphase hresume
        cases hawaits with
        | awaitResume => exact hresume rfl
        | _ => cases hphase
      cases hbody : s.body with
      | ended => rfl
      | delete => exact absurd hbody hdelete
      | _ => rw [hbody] at hpast; cases hpast
    · rw [if_neg hout]
      exact ⟨hdetached, haccess, hdelete⟩

theorem Inv.goOther (h : Inv s) (hc : Handover t s (.goOther n spurious))
    (hs : s.goOther n spurious = some s') : Inv s' := by
  have hother := h.other
  simp only [State.goOther] at hs
  split at hs <;> rename_i ho <;> rw [ho] at hother
  · obtain ⟨b, hb, rfl⟩ := Option.map_eq_some_iff.mp hs
    obtain ⟨hjoined, hview⟩ := joined_step h.joined .await hb
    have hparts : (view b).poster = (view s.baton).poster ∧
        (view b).posted = (view s.baton).posted ∧ (view b).waiter = .asking := by
      generalize view b = v' at hview
      cases hview with
      | await _ => exact ⟨rfl, rfl, rfl⟩
    refine h.joinerGoes hjoined hparts.1 hparts.2.1 (iff_of_true rfl ?_) hother
    rw [hparts.2.2]
    nofun
  · obtain ⟨b, hb, rfl⟩ := Option.map_eq_some_iff.mp hs
    exact h.awaits ho (hc.2 ho) hb
  · cases hs
    obtain ⟨hbody, hmemory⟩ := hother
    refine h.otherGoes (by rw [ho]; nofun) nofun ⟨hbody, ?_⟩
    rw [hmemory]
    rfl
  · cases hs
    obtain ⟨-, hmemory, hdelete⟩ := hother
    refine h.otherGoes (by rw [ho]; nofun) nofun ⟨rfl, ?_, ?_⟩
    · rw [hmemory]
      rfl
    · obtain ⟨hposting, hread⟩ := hc.1 ho
      cases hbody : s.body with
      | store => exact .inl rfl
      | markDone => exact .inr (.inl rfl)
      | ended => exact .inr (.inr rfl)
      | posting => exact absurd hbody hposting
      | readDetached => exact absurd hbody hread
      | delete => exact absurd hbody hdelete
  · cases hs
    obtain ⟨hdetached, hmemory, hbody⟩ := hother
    refine h.otherGoes (by rw [ho]; nofun) ?_ ?_
    · split <;> nofun
    · rw [hmemory]
      split
      · rename_i hdone
        obtain ⟨hstore, hmark⟩ := h.done.mp hdone
        rcases hbody with hbody | hbody | hbody
        · exact absurd hbody hstore
        · exact absurd hbody hmark
        · exact ⟨hbody, rfl⟩
      · rename_i hdone
        refine ⟨hdetached, ?_⟩
        rw [if_neg]
        · rfl
        · intro hended
          exact hdone (h.done.mpr (by rw [hended]; exact ⟨nofun, nofun⟩))
  · cases hs
    obtain ⟨hbody, hmemory⟩ := hother
    refine h.otherGoes (by rw [ho]; nofun) nofun ⟨hbody, ?_⟩
    rw [hmemory]
    rfl
  · cases hs
  · cases hs

theorem inv_exec (hother : other = .join ∨ other = .detach)
    (h : Exec (machine value) Handover (init other) t s) : Inv s :=
  h.invariant (fun _ s => Inv s) (inv_init hother) fun t s a s' hinv hc hs => by
    cases a with
    | goBody => exact hinv.goBody hc hs
    | goOther n spurious => exact hinv.goOther hc hs

/-! ## Progress -/

/-- A body that has not ended can go on, or `coro_detach` can. -/
theorem Inv.body_progress (h : Inv s) (hbody : s.body ≠ .ended) :
    ∃ a, Handover t s a ∧ (step value s a).isSome = true := by
  by_cases hload : s.body = .markDone ∧ s.other = .loadDone
  · refine ⟨.goOther ⟨0, .null⟩ false, ⟨fun heq => ?_, fun heq => ?_⟩, ?_⟩
    · exact nomatch hload.2.symm.trans heq
    · exact nomatch hload.2.symm.trans heq
    · simp [step, State.goOther, hload.2]
  · refine ⟨.goBody, fun hmark heq => hload ⟨hmark, heq⟩, ?_⟩
    cases hp : s.body with
    | ended => exact absurd hp hbody
    | store | readDetached | delete => simp [step, State.goBody, hp]
    | markDone =>
      have hout : (view s.baton).poster () = .out := by
        by_contra hne
        exact nomatch hp.symm.trans (h.busy.mpr hne)
      have hidle : s.baton.pc (.task ()) = .idle := (h.joined.poster ()).idle_iff.mpr hout
      simp [step, State.goBody, hp, Call.act, AffinityBaton.step, AffinityBaton.State.begin, hidle]
    | posting =>
      simp only [step, State.goBody, hp, Option.isSome_map]
      exact h.joined.task_runs (h.busy.mp hp)

/-- When the body has ended the other side can go on, unless it is through. -/
theorem Inv.other_progress (h : Inv s) (hbody : s.body = .ended)
    (hmemory : s.memory ≠ .freed) : ∃ a, Handover t s a ∧ (step value s a).isSome = true := by
  have hpast : s.body.past = true := by rw [hbody]; rfl
  have hc : ∀ n spurious, Handover t s (.goOther n spurious) := fun n spurious =>
    ⟨fun _ => by rw [hbody]; exact ⟨by rintro ⟨⟩, by rintro ⟨⟩⟩, fun _ _ => hpast⟩
  have hother := h.other
  refine ⟨.goOther ⟨0, .null⟩ false, hc _ _, ?_⟩
  cases ho : s.other with
  | join =>
    have hout : (view s.baton).waiter = .out := by
      by_contra hne
      cases ho.symm.trans (h.inside.mpr hne)
    have hidle : s.baton.pc .waiter = .idle := h.joined.waiter.idle_iff.mpr hout
    simp [step, State.goOther, ho, Call.act, AffinityBaton.step, AffinityBaton.State.begin, hidle]
  | awaiting =>
    simp only [step, State.goOther, ho, Option.isSome_map]
    refine h.joined.waiter_runs (h.inside.mp ho) (fun hsusp => ?_) _ _
    -- the body has left `post()`, so it has woken the joiner
    obtain ⟨i, hi⟩ := h.joined.waking hsusp (h.posted (.inr (.inl hpast)))
    cases hbody.symm.trans (h.busy.mpr (by rw [hi]; rintro ⟨⟩))
  | joinDelete ret | detach | loadDone | detachDelete => simp [step, State.goOther, ho]
  | joined ret =>
    rw [ho] at hother
    exact absurd hother.2 hmemory
  | detached deleted =>
    rw [ho] at hother
    cases deleted with
    | true => exact absurd hother.2 hmemory
    | false =>
      have := hother.2
      rw [if_pos hbody] at this
      exact absurd this hmemory

/-- A ledger of the invariant is one of the two good ones. -/
theorem Inv.memory_eq (h : Inv s) : s.memory = .alive ∨ s.memory = .freed := by
  by_cases hbody : s.body = .ended
  · have hother := h.other
    generalize ho : s.other = p at hother ⊢
    cases p with
    | join | awaiting | detach | loadDone => exact .inl hother.2.1
    | joinDelete ret | detachDelete => exact .inl hother.2
    | joined ret => exact .inr hother.2
    | detached deleted =>
      cases deleted with
      | true => exact .inr hother.2
      | false =>
        have := hother.2
        rw [if_pos hbody] at this
        exact .inr this
  · exact .inl (h.other.alive hbody)

/-- **The state is deleted once.**  In every interleaving of the body with one `coro_join` or one
    `coro_detach` that keeps to the hand-over, the state is not accessed after its deletion and
    not deleted twice, and when nothing can happen any more it has been deleted. -/
theorem state_deleted_once {other : OtherPc V} (hother : other = .join ∨ other = .detach)
    (h : Exec (machine value) Handover (init other) t s) :
    s.memory.Sound ∧ ((∀ a, Handover t s a → step value s a = none) → s.memory = .freed) := by
  have hinv := inv_exec hother h
  refine ⟨sound_of_alive_or_freed hinv.memory_eq, fun hstuck => ?_⟩
  by_contra hmemory
  obtain ⟨a, hc, ha⟩ : ∃ a, Handover t s a ∧ (step value s a).isSome = true := by
    by_cases hbody : s.body = .ended
    · exact hinv.other_progress hbody hmemory
    · exact hinv.body_progress hbody
  rw [hstuck a hc] at ha
  cases ha

end Steps

/-! ## In and out of order -/

/-- The joiner's steps need no particular worker here. -/
def goJoiner : Act := .goOther ⟨0, .online 0⟩ false

/-- The joiner suspends, the body resumes it and reads `detached`, and the joiner deletes. -/
theorem joined_state_deleted : ∃ t, ∃ s : State Nat,
    Exec (machine 7) Handover (init .join) t s ∧ s.other = .joined (some 7) ∧
    s.memory.Sound ∧ ((∀ a, Handover t s a → step 7 s a = none) → s.memory = .freed) := by
  have hexec : Exec (machine 7) Handover (init .join : State Nat) _ _ :=
    exec_run (List.replicate 4 goJoiner ++ List.replicate 7 .goBody ++ List.replicate 2 goJoiner)
  exact ⟨_, _, hexec, by decide +kernel, state_deleted_once (.inl rfl) hexec⟩

/-- **The state is used after its deletion.**  A joiner that finds the baton posted deletes the
    state before the body reads `detached`.  A `coro_detach` between the store of
    `done` and the exchange deletes the baton that is about to be posted.  A `coro_detach`
    around the read of `detached` deletes what the body deletes. -/
theorem state_used_after_delete :
    (∃ t, ∃ s : State Nat, Exec (machine 7) Always (init .join) t s ∧ s.memory.frees = 1 ∧
      s.memory.misused = true ∧ s.body = .ended) ∧
    (∃ t, ∃ s : State Nat, Exec (machine 7) Always (init .detach) t s ∧ s.memory.frees = 1 ∧
      s.memory.misused = true ∧ s.body = .posting) ∧
    (∃ t, ∃ s : State Nat, Exec (machine 7) Always (init .detach) t s ∧ s.memory.frees = 2) := by
  have hjoin : Exec (machine 7) Always (init .join : State Nat) _ _ :=
    exec_run (List.replicate 3 .goBody ++ List.replicate 4 goJoiner ++ List.replicate 2 .goBody)
  have hdetach : Exec (machine 7) Always (init .detach : State Nat) _ _ :=
    exec_run (List.replicate 2 .goBody ++ List.replicate 3 goJoiner ++ [.goBody])
  have htwice : Exec (machine 7) Always (init .detach : State Nat) _ _ :=
    exec_run (List.replicate 4 .goBody ++ List.replicate 2 goJoiner ++ List.replicate 2 .goBody ++
      [goJoiner])
  exact ⟨⟨_, _, hjoin, by decide +kernel⟩, ⟨_, _, hdetach, by decide +kernel⟩,
    ⟨_, _, htwice, by decide +kernel⟩⟩

end CoroState
