import StorageRuntime.InterleavingProofs
import StorageRuntime.TableProofs

/-!
# Shared rings — which ring a new backend attaches to

`io/io_uring_backend.cc`: the backends of one `sq_poll_group` share the work queue of
the group's primary.  The static map `group_ring_fds_` remembers the primary's ring fd:
the constructor enters -1 for a group that has no entry, sets up the ring, and then
enters the fd; the destructor erases the entry that holds its fd.

Which fd the kernel gives to a ring is part of the label; it may be any that no live
ring has, so also one that a destroyed ring had.

**`entry_of_live_primary`**: as long as no primary fails to be set up, every entry is the
ring fd of a live backend that was built as the primary of that group.
**`failed_primary_stays`**: if a primary does fail, its -1 is never removed, so every
later backend of the group attaches to fd -1 (`secondary_attaches_to_placeholder`).
-/

namespace RingGroup

open Interleaving Table

/-- An `IOUringBackend` that was built and not yet destroyed. -/
structure Backend where
  ringFd : Int
  /-- `sq_poll_group`; negative for a ring of its own. -/
  sqPollGroup : Int
  /-- `IORING_SETUP_ATTACH_WQ` with this `wq_fd`. -/
  attached : Option Int
deriving DecidableEq

structure State where
  groupRingFds : List (Int × Int)
  live : List Backend
deriving DecidableEq

def init : State := ⟨[], []⟩

inductive Act where
  /-- A constructor; the ring's fd, or `none` if `io_uring_queue_init_params` fails. -/
  | construct (sqPollGroup : Int) (ringFd : Option Nat)
  /-- The destructor of the backend with this ring. -/
  | destroy (ringFd : Int)

/-- The `wq_fd` the constructor finds for the group, if there is an entry. -/
def State.wqFd (s : State) (group : Int) : Option Int :=
  if 0 ≤ group then s.groupRingFds.lookup group else none

/-- The constructor is about to build the primary of the group. -/
def State.buildsPrimary (s : State) (group : Int) : Bool :=
  0 ≤ group && s.wqFd group = none

/-- The placeholder is entered before the ring is set up. -/
def State.reserve (s : State) (group : Int) : State :=
  if s.buildsPrimary group then { s with groupRingFds := assign s.groupRingFds group (-1) } else s

/-- The rest of the constructor, once the ring is set up; `attached` and `primary` are what
    it found at its beginning. -/
def State.finish (s : State) (group : Int) (attached : Option Int) (primary : Bool) (fd : Int) :
    State where
  groupRingFds := if primary then assign s.groupRingFds group fd else s.groupRingFds
  live := ⟨fd, group, attached⟩ :: s.live

/-- `~IOUringBackend`: the loop erases one entry that holds the fd. -/
def State.destruct (s : State) (fd : Int) : State where
  groupRingFds := s.groupRingFds.eraseP fun e => e.2 = fd
  live := s.live.filter fun b => b.ringFd ≠ fd

def step (s : State) : Act → Option State
  | .construct group none => some (s.reserve group)
  | .construct group (some fd) =>
    if s.live.any (·.ringFd = fd) then none
    else some ((s.reserve group).finish group (s.wqFd group) (s.buildsPrimary group) fd)
  | .destroy fd => if s.live.any (·.ringFd = fd) then some (s.destruct fd) else none

/-- A constructor shows which fd it attaches to. -/
def event (s : State) : Act → Option Int
  | .construct group _ => s.wqFd group
  | .destroy _ => none

def machine : Machine State Act Int where
  step := step
  event := event

/-! ## What a step can do -/

/-- The steps. -/
inductive Move (s : State) : Act → State → Prop where
  /-- A primary that is set up. -/
  | leads {group : Int} {fd : Nat} : 0 ≤ group → s.groupRingFds.lookup group = none →
      (∀ b ∈ s.live, b.ringFd ≠ fd) →
      Move s (.construct group (some fd))
        ⟨assign s.groupRingFds group fd, ⟨fd, group, none⟩ :: s.live⟩
  /-- A secondary, or a ring of its own, that is set up. -/
  | joins {group : Int} {fd : Nat} {attached : Option Int} : s.wqFd group = attached →
      s.buildsPrimary group = false → (∀ b ∈ s.live, b.ringFd ≠ fd) →
      Move s (.construct group (some fd)) { s with live := ⟨fd, group, attached⟩ :: s.live }
  /-- A primary whose ring is not set up. -/
  | spoils {group : Int} : s.buildsPrimary group = true → s.groupRingFds.lookup group = none →
      Move s (.construct group none) { s with groupRingFds := assign s.groupRingFds group (-1) }
  /-- Any other backend whose ring is not set up. -/
  | fails {group : Int} : s.buildsPrimary group = false → Move s (.construct group none) s
  | dies {b : Backend} : b ∈ s.live → Move s (.destroy b.ringFd) (s.destruct b.ringFd)

theorem State.buildsPrimary_iff {s : State} {group : Int} :
    s.buildsPrimary group = true ↔ 0 ≤ group ∧ s.groupRingFds.lookup group = none := by
  rw [buildsPrimary, wqFd, Bool.and_eq_true, decide_eq_true_iff, decide_eq_true_iff]
  refine and_congr_right fun hgroup => ?_
  rw [if_pos hgroup]

theorem step_moves {s s' : State} {a : Act} (h : step s a = some s') : Move s a s' := by
  cases a with
  | construct group ringFd =>
    cases hp : s.buildsPrimary group with
    | false =>
      have hreserve : s.reserve group = s := by
        rw [State.reserve, hp]
        rfl
      cases ringFd with
      | none =>
        rw [step, hreserve] at h
        cases h
        exact .fails hp
      | some fd =>
        rw [step, hreserve] at h
        split at h
        next => cases h
        next hfree =>
          cases h
          rw [State.finish, hp]
          exact .joins rfl hp (by simpa using hfree)
    | true =>
      obtain ⟨hgroup, hnone⟩ := State.buildsPrimary_iff.mp hp
      have hreserve : s.reserve group =
          { s with groupRingFds := assign s.groupRingFds group (-1) } := by
        rw [State.reserve, hp]
        rfl
      cases ringFd with
      | none =>
        rw [step, hreserve] at h
        cases h
        exact .spoils hp hnone
      | some fd =>
        rw [step, hreserve] at h
        split at h
        next => cases h
        next hfree =>
          cases h
          rw [State.finish, hp, if_pos rfl, assign_assign, State.wqFd, if_pos hgroup, hnone]
          exact .leads hgroup hnone (by simpa using hfree)
  | destroy fd =>
    rw [step] at h
    split at h
    next hlive =>
      cases h
      obtain ⟨b, hb, hfd⟩ := List.any_eq_true.mp hlive
      obtain rfl := of_decide_eq_true hfd
      exact .dies hb
    next => cases h

/-! ## The entries belong to live primaries -/

/-- The entry is the ring fd of a live backend that was built as the group's primary. -/
def State.Held (s : State) (e : Int × Int) : Prop :=
  ∃ b ∈ s.live, b.ringFd = e.2 ∧ b.sqPollGroup = e.1 ∧ b.attached = none

/-- No constructor of a primary fails. -/
def PrimariesSetUp (_ : List Int) (s : State) : Act → Prop
  | .construct group none => s.buildsPrimary group = false
  | _ => True

instance (t : List Int) (s : State) (a : Act) : Decidable (PrimariesSetUp t s a) :=
  match a with
  | .construct _ none => inferInstanceAs (Decidable (_ = false))
  | .construct _ (some _) | .destroy .. => isTrue trivial

structure Inv (s : State) : Prop where
  keyed : Keyed s.groupRingFds
  held : ∀ e ∈ s.groupRingFds, s.Held e
  unique : (s.live.map Backend.ringFd).Nodup

/-- Live rings have different fds. -/
theorem Inv.eq_of_ringFd {s : State} (h : Inv s) {b b' : Backend} (hb : b ∈ s.live)
    (hb' : b' ∈ s.live) (heq : b.ringFd = b'.ringFd) : b = b' :=
  List.inj_on_of_nodup_map h.unique hb hb' heq

/-- The destructor leaves no entry with its fd. -/
theorem Inv.ne_of_mem_destruct {s : State} (h : Inv s) {fd : Int} {e : Int × Int}
    (he : e ∈ (s.destruct fd).groupRingFds) : e.2 ≠ fd := by
  have hkeys : s.groupRingFds.Pairwise fun e e' => e.1 ≠ e'.1 := List.pairwise_map.mp h.keyed
  -- two entries with one fd would be held by one backend, so they would have one key
  have hone : s.groupRingFds.Pairwise fun e e' => ¬(e.2 = fd ∧ e'.2 = fd) := by
    refine hkeys.imp_of_mem fun {e e'} he he' hne hfds => hne ?_
    obtain ⟨b, hb, hfd, hgroup, -⟩ := h.held e he
    obtain ⟨b', hb', hfd', hgroup', -⟩ := h.held e' he'
    have heq : b = b' := h.eq_of_ringFd hb hb' (by rw [hfd, hfd', hfds.1, hfds.2])
    rw [← hgroup, ← hgroup', heq]
  exact fun hfd => not_of_mem_eraseP (by simpa using hone) he (decide_eq_true hfd)

theorem Inv.step {t : List Int} {s s' : State} {a : Act} (h : Inv s) (hc : PrimariesSetUp t s a)
    (hs : RingGroup.step s a = some s') : Inv s' := by
  cases step_moves hs with
  | leads hgroup hnone hfree =>
    refine ⟨h.keyed.assign _ _, ?_, ?_⟩
    · rintro ⟨g, v⟩ he
      rcases mem_assign.mp he with ⟨rfl, rfl⟩ | ⟨-, hold⟩
      · exact ⟨_, List.mem_cons_self, rfl, rfl, rfl⟩
      · obtain ⟨b, hb, hrest⟩ := h.held _ hold
        exact ⟨b, List.mem_cons_of_mem _ hb, hrest⟩
    · refine List.nodup_cons.mpr ⟨fun hmem => ?_, h.unique⟩
      obtain ⟨b, hb, hfd⟩ := List.mem_map.mp hmem
      exact hfree b hb hfd
  | joins _ _ hfree =>
    refine ⟨h.keyed, ?_, ?_⟩
    · intro e he
      obtain ⟨b, hb, hrest⟩ := h.held e he
      exact ⟨b, List.mem_cons_of_mem _ hb, hrest⟩
    · refine List.nodup_cons.mpr ⟨fun hmem => ?_, h.unique⟩
      obtain ⟨b, hb, hfd⟩ := List.mem_map.mp hmem
      exact hfree b hb hfd
  | spoils hprimary _ =>
    rw [PrimariesSetUp, hprimary] at hc
    cases hc
  | fails _ => exact h
  | @dies b _ =>
    refine ⟨?_, ?_, ?_⟩
    · exact List.Nodup.sublist (List.eraseP_sublist.map Prod.fst) h.keyed
    · intro e he
      obtain ⟨b', hb', hfd, hrest⟩ := h.held e (List.mem_of_mem_eraseP he)
      refine ⟨b', List.mem_filter.mpr ⟨hb', ?_⟩, hfd, hrest⟩
      rw [hfd]
      exact decide_eq_true (h.ne_of_mem_destruct he)
    · exact List.Nodup.sublist (List.filter_sublist.map Backend.ringFd) h.unique

theorem inv_init : Inv init where
  keyed := List.nodup_nil
  held := fun _ he => absurd he List.not_mem_nil
  unique := List.nodup_nil

theorem inv_of_exec {t : List Int} {s : State} (h : Exec machine PrimariesSetUp init t s) :
    Inv s := by
  refine h.invariant (fun _ s => Inv s) inv_init ?_
  intro t s a s' hinv hc hs
  exact hinv.step hc hs

/-- **Entries belong to live primaries.**  As long as no primary fails to be set up, every
    entry is the ring fd of a live backend that was built as that group's primary, and so is
    the fd that a new backend attaches to. -/
theorem entry_of_live_primary {t : List Int} {s : State}
    (h : Exec machine PrimariesSetUp init t s) :
    (∀ e ∈ s.groupRingFds, s.Held e) ∧ ∀ group fd, s.wqFd group = some fd → s.Held (group, fd) := by
  have hinv := inv_of_exec h
  refine ⟨hinv.held, fun group fd hfd => hinv.held _ ?_⟩
  rw [State.wqFd] at hfd
  split at hfd
  next => exact hinv.keyed.lookup_eq_some.mp hfd
  next => cases hfd

/-- A primary and a secondary in group 0; the primary dies, a new one takes its fd. -/
theorem entry_of_live_primary_reused_fd : ∃ t s, Exec machine PrimariesSetUp init t s ∧
      s = ⟨[(0, 5)], [⟨5, 0, none⟩, ⟨6, 0, some 5⟩]⟩ ∧ (∀ e ∈ s.groupRingFds, s.Held e) := by
  have hexec : Exec machine PrimariesSetUp init _ _ :=
    exec_run [.construct 0 (some 5), .construct 0 (some 6), .destroy 5, .construct 0 (some 5)]
  exact ⟨_, _, hexec, by decide +kernel, (entry_of_live_primary hexec).1⟩

/-! ## A primary that fails -/

/-- **A failed primary stays.**  The placeholder of a group is in no step removed or
    overwritten, whatever is built or destroyed, and the next backend of the group attaches
    to it. -/
theorem failed_primary_stays {s₀ : State} {group : Int} (hkeyed : Keyed s₀.groupRingFds)
    (hfds : ∀ b ∈ s₀.live, 0 ≤ b.ringFd) (hspoilt : (group, -1) ∈ s₀.groupRingFds)
    {t : List Int} {s : State} (h : Exec machine Always s₀ t s) :
    (group, -1) ∈ s.groupRingFds ∧ (0 ≤ group → s.wqFd group = some (-1)) := by
  suffices hall : Keyed s.groupRingFds ∧ (∀ b ∈ s.live, 0 ≤ b.ringFd) ∧
      (group, -1) ∈ s.groupRingFds by
    refine ⟨hall.2.2, fun hgroup => ?_⟩
    rw [State.wqFd, if_pos hgroup]
    exact hall.1.lookup_eq_some.mpr hall.2.2
  refine h.invariant (fun _ s => Keyed s.groupRingFds ∧ (∀ b ∈ s.live, 0 ≤ b.ringFd) ∧
    (group, -1) ∈ s.groupRingFds) ⟨hkeyed, hfds, hspoilt⟩ ?_
  rintro t s a s' ⟨hkeyed, hfds, hspoilt⟩ - hs
  have hother : ∀ {g : Int}, s.groupRingFds.lookup g = none → group ≠ g := by
    rintro g hnone rfl
    rw [hkeyed.lookup_eq_some.mpr hspoilt] at hnone
    cases hnone
  cases step_moves hs with
  | leads _ hnone _ =>
    refine ⟨hkeyed.assign _ _, ?_, mem_assign.mpr (.inr ⟨hother hnone, hspoilt⟩)⟩
    exact List.forall_mem_cons.mpr ⟨Int.natCast_nonneg _, hfds⟩
  | joins _ _ _ => exact ⟨hkeyed, List.forall_mem_cons.mpr ⟨Int.natCast_nonneg _, hfds⟩, hspoilt⟩
  | spoils _ hnone => exact ⟨hkeyed.assign _ _, hfds, mem_assign.mpr (.inr ⟨hother hnone, hspoilt⟩)⟩
  | fails _ => exact ⟨hkeyed, hfds, hspoilt⟩
  | @dies b hb =>
    refine ⟨List.Nodup.sublist (List.eraseP_sublist.map Prod.fst) hkeyed, ?_, ?_⟩
    · intro b' hb'
      exact hfds b' (List.mem_of_mem_filter hb')
    · refine (List.mem_eraseP_of_neg ?_).mpr hspoilt
      have hpos := hfds b hb
      simp only [decide_eq_true_eq]
      omega

/-- A backend of the group comes and goes, and so do a failing one and one of another group; the
    next one of the group attaches to the placeholder. -/
theorem placeholder_stays : ∃ t s, Exec machine Always ⟨[(0, -1)], []⟩ t s ∧
    t = [-1, -1, -1] ∧ s.live.map (fun b => (b.ringFd, b.attached)) = [(7, some (-1)), (6, none)] ∧
    (0, -1) ∈ s.groupRingFds ∧ s.wqFd 0 = some (-1) := by
  have hexec : Exec machine Always ⟨[(0, -1)], []⟩ _ _ :=
    exec_run [.construct 0 (some 5), .construct 1 (some 6), .construct 0 none, .destroy 5,
      .construct 0 (some 7)]
  have hspoilt : (0, -1) ∈ (⟨[(0, -1)], []⟩ : State).groupRingFds := by decide
  obtain ⟨hstays, hattaches⟩ := failed_primary_stays (by simp [Keyed]) (by decide) hspoilt hexec
  exact ⟨_, _, hexec, by decide +kernel, by decide +kernel, hstays, hattaches (by decide)⟩

/-- The primary of group 0 fails; the next backend of the group attaches to fd -1. -/
theorem secondary_attaches_to_placeholder :
    ∃ t s, Exec machine Always init t s ∧ (0, -1) ∈ s.groupRingFds ∧ ¬ s.Held (0, -1) ∧
      t = [-1] ∧ ∃ b ∈ s.live, b.attached = some (-1) := by
  have hexec : Exec machine Always init _ _ :=
    exec_run [.construct 0 none, .construct 0 (some 5)]
  refine ⟨_, _, hexec, by decide +kernel, ?_, by decide +kernel, ?_⟩
  · rintro ⟨b, hb, hfd, -⟩
    revert b
    decide +kernel
  · exact ⟨⟨5, 0, some (-1)⟩, by decide +kernel, rfl⟩

end RingGroup
