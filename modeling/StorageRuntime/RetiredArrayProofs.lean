import StorageRuntime.ChaseLevDequeProofs
import Mathlib.Data.Fintype.Basic

/-!
# ChaseLevDeque — arrays that `push` has deleted

The model of the deque lets a thief read an array that was replaced.  In the source
`push` deletes it: `array_.store(new_ptr)`, then `delete old`, then it goes on with the
new array.  `Retiring` is the deque with that step.

* **`no_thief_dangles`**: if no thief is between its load of `array_` and its `take` when
  `push` deletes that array, no thief ever holds a deleted array.
* `paused_thief_dangles`: the source has nothing that makes `push` wait for such a thief.
-/

namespace ChaseLev

open Function Interleaving

variable {Θ T : Type}

/-- The array that the owner's next step stores in `array_`. -/
def OwnerPc.published : OwnerPc T → Option Nat
  | .pushPublish _ _ a => some a
  | _ => none

/-- The array that a thief has loaded and not yet read. -/
def ThiefPc.holds : ThiefPc T → Option Nat
  | .take _ a => some a
  | _ => none

/-- The deque, the array `old` that a push has replaced and is about to delete, and the
    deleted ones. -/
structure Retiring (Θ T : Type) where
  deque : State Θ T
  old : Option Nat
  deleted : List Nat

variable [Inhabited T] [DecidableEq Θ]

def Retiring.new (Θ T : Type) [Inhabited T] (capacity : Nat) : Retiring Θ T :=
  ⟨init Θ T capacity, none, []⟩

def Retiring.step (s : Retiring Θ T) : Act Θ T → Option (Retiring Θ T)
  | .goOwner =>
    match s.old with
    -- `delete old`
    | some a => some { s with old := none, deleted := a :: s.deleted }
    | none => s.deque.goOwner.map
        (⟨·, s.deque.owner.published.map fun _ => s.deque.array, s.deleted⟩)
  | act => (ChaseLev.step s.deque act).map (⟨·, s.old, s.deleted⟩)

def Retiring.event (s : Retiring Θ T) : Act Θ T → Option (Event T)
  | .goOwner =>
    match s.old with
    | some _ => none
    | none => s.deque.ownerEvent
  | act => ChaseLev.event s.deque act

def retiring : Machine (Retiring Θ T) (Act Θ T) (Event T) := ⟨Retiring.step, Retiring.event⟩

/-- Some thief is about to read a deleted array. -/
def Retiring.Dangling (s : Retiring Θ T) : Prop :=
  ∃ θ a, (s.deque.thief θ).holds = some a ∧ a ∈ s.deleted

/-- No thief is about to read the array that the step deletes. -/
def Unread (_ : List (Event T)) (s : Retiring Θ T) : Act Θ T → Prop
  | .goOwner => s.old = none ∨ ∀ θ, (s.deque.thief θ).holds ≠ s.old
  | _ => True

instance [Fintype Θ] (t : List (Event T)) (s : Retiring Θ T) : ∀ act, Decidable (Unread t s act)
  | .goOwner =>
    inferInstanceAs (Decidable (s.old = none ∨ ∀ θ, (s.deque.thief θ).holds ≠ s.old))
  | .push _ | .pop | .steal _ | .goThief _ => inferInstanceAs (Decidable True)

/-! ## Which arrays are live -/

/-- The arrays in use are not deleted, and are not those that will be deleted next. -/
structure Live (s : Retiring Θ T) : Prop where
  known : s.deque.array < s.deque.allocated
  current : s.deque.array ∉ s.deleted
  past : ∀ a ∈ s.deleted, a < s.deque.allocated
  fresh : ∀ a, s.deque.owner.published = some a →
    a < s.deque.allocated ∧ a ≠ s.deque.array ∧ a ∉ s.deleted
  old : ∀ a, s.old = some a →
    a < s.deque.allocated ∧ a ≠ s.deque.array ∧ s.deque.owner.published = none
  thief : ∀ θ a, (s.deque.thief θ).holds = some a → a ∉ s.deleted

/-- What a step of the owner does to the arrays: nothing, a new one that is not yet
    published, or its publication. -/
inductive ArrayMove (s s' : State Θ T) : Prop where
  | keeps (harray : s'.array = s.array) (halloc : s'.allocated = s.allocated)
      (hpub : s.owner.published = none) (hpub' : s'.owner.published = none)
  | grows (harray : s'.array = s.array) (halloc : s'.allocated = s.allocated + 1)
      (hpub : s.owner.published = none) (hpub' : s'.owner.published = some s.allocated)
  | publishes (hpub : s.owner.published = some s'.array) (halloc : s'.allocated = s.allocated)
      (hpub' : s'.owner.published = none)

section Steps

variable {s s' : Retiring Θ T} {d : State Θ T}

omit [DecidableEq Θ] in
theorem OwnerMove.arrays {s s' : State Θ T} {o : Option (Event T)} (h : OwnerMove s o s') :
    s'.thief = s.thief ∧ ArrayMove s s' := by
  cases h with
  | grow hp => exact ⟨rfl, .grows rfl rfl (by rw [hp]; rfl) rfl⟩
  | publish hp => exact ⟨rfl, .publishes (by rw [hp]; rfl) rfl rfl⟩
  | pushBottom hp | pushTop hp | pushFull hp | pushFits hp | store hp | pushed hp | popBottom hp
  | popArray hp | popStore hp | popSome hp | popEmpty hp | popLast hp | popped hp | won hp
  | lost hp | wonDone hp | lostDone hp => exact ⟨rfl, .keeps rfl rfl (by rw [hp]; rfl) rfl⟩

omit [Inhabited T] [DecidableEq Θ] in
theorem Live.owner (h : Live s) (hthief : d.thief = s.deque.thief) (hm : ArrayMove s.deque d) :
    Live ⟨d, s.deque.owner.published.map fun _ => s.deque.array, s.deleted⟩ := by
  have hthiefs : ∀ θ a, (d.thief θ).holds = some a → a ∉ s.deleted := hthief ▸ h.thief
  have hknown := h.known
  cases hm with
  | keeps harray halloc hpub hpub' =>
    rw [hpub]
    have hlt : d.array < d.allocated := by omega
    exact ⟨hlt, harray ▸ h.current, halloc ▸ h.past, by rw [hpub']; nofun, nofun, hthiefs⟩
  | grows harray halloc hpub hpub' =>
    rw [hpub]
    have hlt : d.array < s.deque.allocated := by omega
    refine ⟨halloc ▸ Nat.lt_succ_of_lt hlt, harray ▸ h.current, fun a ha => ?_, fun a ha => ?_,
      nofun, hthiefs⟩
    · exact halloc ▸ Nat.lt_succ_of_lt (h.past a ha)
    · obtain rfl : s.deque.allocated = a := Option.some.inj (hpub'.symm.trans ha)
      exact ⟨halloc ▸ Nat.lt_succ_self _, hlt.ne', fun hdel => Nat.lt_irrefl _ (h.past _ hdel)⟩
  | publishes hpub halloc hpub' =>
    obtain ⟨hlt, hne, hdel⟩ := h.fresh _ hpub
    rw [hpub]
    refine ⟨halloc ▸ hlt, hdel, halloc ▸ h.past, by rw [hpub']; nofun, fun a ha => ?_, hthiefs⟩
    obtain rfl := Option.some.inj ha
    exact ⟨halloc ▸ hknown, hne.symm, hpub'⟩

omit [Inhabited T] [DecidableEq Θ] in
theorem Live.delete (h : Live s) {a : Nat} (hold : s.old = some a)
    (hunread : ∀ θ, (s.deque.thief θ).holds ≠ s.old) :
    Live { s with old := none, deleted := a :: s.deleted } := by
  obtain ⟨hlt, hne, hpub⟩ := h.old a hold
  refine ⟨h.known, ?_, ?_, fun b hb => ?_, nofun, fun θ b hb => ?_⟩
  · exact fun hmem => (List.mem_cons.mp hmem).elim hne.symm h.current
  · exact List.forall_mem_cons.mpr ⟨hlt, h.past⟩
  · exact nomatch hpub.symm.trans hb
  · exact fun hmem => (List.mem_cons.mp hmem).elim
      (fun hba => hunread θ (by rw [hb, hba, hold])) (h.thief θ b hb)

omit [Inhabited T] in
/-- A thief gets no other array than the current one. -/
theorem Live.thiefGoes (h : Live s) (θ : Θ) {p : ThiefPc T} {top : Int}
    (hp : ∀ a, p.holds = some a → a = s.deque.array) :
    Live ⟨{ s.deque with top := top }.setThief θ p, s.old, s.deleted⟩ :=
  { h with
    thief := forall_update (P := fun _ p => ∀ a, ThiefPc.holds p = some a → a ∉ s.deleted) h.thief
      fun a ha => hp a ha ▸ h.current }

theorem Live.step (h : Live s) {t : List (Event T)} {act : Act Θ T} (hc : Unread t s act)
    (hs : s.step act = some s') : Live s' := by
  cases act with
  | goOwner =>
    simp only [Retiring.step] at hs
    split at hs
    next a hold =>
      cases hs
      exact h.delete hold (hc.resolve_left (by rw [hold]; nofun))
    next hold =>
      obtain ⟨d, hd, rfl⟩ := Option.map_eq_some_iff.mp hs
      obtain ⟨hthief, hm⟩ := (owner_moves hd).arrays
      exact h.owner hthief hm
  | push item | pop =>
    obtain ⟨d, hd, rfl⟩ := Option.map_eq_some_iff.mp hs
    simp only [ChaseLev.step] at hd
    split at hd <;> cases hd
    exact { h with fresh := nofun, old := fun a ha => ⟨(h.old a ha).1, (h.old a ha).2.1, rfl⟩ }
  | steal θ =>
    obtain ⟨d, hd, rfl⟩ := Option.map_eq_some_iff.mp hs
    simp only [ChaseLev.step] at hd
    split at hd <;> cases hd
    exact h.thiefGoes θ nofun
  | goThief θ =>
    obtain ⟨d, hd, rfl⟩ := Option.map_eq_some_iff.mp hs
    have hm := thief_moves hd
    generalize s.deque.thiefEvent θ = o at hm
    cases hm with
    | array _ => exact h.thiefGoes θ fun a ha => (Option.some.inj ha).symm
    | top _ | some _ _ | take _ | stolen _ _ | none => exact h.thiefGoes θ nofun

end Steps

/-! ## Runs -/

/-- With its deletions left out, a run is one of the deque: same calls, same results. -/
theorem exec_deque {C : List (Event T) → Retiring Θ T → Act Θ T → Prop} {s₀ s : Retiring Θ T}
    {t : List (Event T)} (h : Exec retiring C s₀ t s) :
    Exec machine Always s₀.deque t s.deque := by
  refine h.invariant (fun t s => Exec machine Always s₀.deque t s.deque) .start ?_
  intro t s act s' ih _ hs
  cases act with
  | goOwner =>
    rw [Machine.record_eq_note]
    cases hold : s.old with
    | some a =>
      simp only [retiring, Retiring.step, Retiring.event, hold] at hs ⊢
      cases hs
      exact ih
    | none =>
      simp only [retiring, Retiring.step, Retiring.event, hold] at hs ⊢
      obtain ⟨d, hd, rfl⟩ := Option.map_eq_some_iff.mp hs
      exact machine.record_eq_note s.deque .goOwner t ▸ ih.step Act.goOwner trivial hd
  | push item =>
    obtain ⟨d, hd, rfl⟩ := Option.map_eq_some_iff.mp hs
    exact ih.step (Act.push item) trivial hd
  | pop =>
    obtain ⟨d, hd, rfl⟩ := Option.map_eq_some_iff.mp hs
    exact ih.step Act.pop trivial hd
  | steal θ =>
    obtain ⟨d, hd, rfl⟩ := Option.map_eq_some_iff.mp hs
    exact ih.step (Act.steal θ) trivial hd
  | goThief θ =>
    obtain ⟨d, hd, rfl⟩ := Option.map_eq_some_iff.mp hs
    exact ih.step (Act.goThief θ) trivial hd

/-- **No thief reads a deleted array**, whatever its capacity and however often it grows, if
    `push` deletes no array that a thief has loaded and not yet read. -/
theorem no_thief_dangles {capacity : Nat} {t : List (Event T)} {s : Retiring Θ T}
    (h : Exec retiring Unread (Retiring.new Θ T capacity) t s) : ¬ s.Dangling := by
  have hlive : Live s := h.invariant (fun _ s => Live s)
    ⟨Nat.one_pos, List.not_mem_nil, by rintro _ ⟨⟩, by rintro _ ⟨⟩, by rintro _ ⟨⟩,
      by rintro _ _ ⟨⟩⟩
    fun t s act s' hi hc hs => hi.step hc hs
  rintro ⟨θ, a, hholds, hdel⟩
  exact hlive.thief θ a hholds hdel

/-- The array of capacity 1 grows and is deleted; then a thief loads the new one. -/
theorem late_thief_reads : ∃ t s, Exec retiring Unread (Retiring.new Unit Nat 1) t s ∧
    s.deleted = [0] ∧ (s.deque.thief ()).holds = some 1 ∧ ¬ s.Dangling := by
  have hexec : Exec retiring Unread (Retiring.new Unit Nat 1) _ _ := exec_run
    (.push 10 :: List.replicate 5 .goOwner ++ .push 20 :: List.replicate 8 .goOwner ++
      .steal () :: List.replicate 3 (.goThief ()))
  exact ⟨_, _, hexec, by decide +kernel, by decide +kernel, no_thief_dangles hexec⟩

/-- **A thief that pauses before its `take`** still holds the array when the owner's next
    push has replaced and deleted it. -/
theorem paused_thief_dangles : ∃ t s, Exec retiring Always (Retiring.new Unit Nat 1) t s ∧
    s.Dangling := by
  have hexec : Exec retiring Always (Retiring.new Unit Nat 1) _ _ := exec_run
    (.push 10 :: List.replicate 5 .goOwner ++ .steal () :: List.replicate 3 (.goThief ()) ++
      .push 20 :: List.replicate 6 .goOwner)
  exact ⟨_, _, hexec, (), 0, by decide +kernel⟩

end ChaseLev
