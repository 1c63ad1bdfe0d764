import Mathlib.Data.List.Perm.Basic
import Mathlib.Data.List.Nodup

/-!
# Every job is answered once

Jobs wait in some places of a system (buffers, tables, rings) and are answered.  What
counts is only which jobs wait, not where: `OnceEach jobs answered waiting` says that each
job stands once in one of the two lists.  Moving a job from one place to another is a
permutation of the waiting ones (`OnceEach.move`), answering takes one away
(`OnceEach.answer`), and new jobs join (`OnceEach.join`).

Where jobs are known by numbers that are given out one after the other, `Tickets` says
that no number stands twice among those that are out and those that have come back.
-/

namespace Answering

open scoped List

variable {ι : Type} [DecidableEq ι] {jobs jobs' : ι → Prop} {answered waiting waiting' new : List ι}
  {k : ι}

/-- Each job has been answered once, or waits in one place. -/
def OnceEach (jobs : ι → Prop) (answered waiting : List ι) : Prop :=
  ∀ k, jobs k → answered.count k + waiting.count k = 1

theorem OnceEach.le_one (h : OnceEach jobs answered waiting) (hk : jobs k) :
    answered.count k ≤ 1 := by
  have := h k hk
  omega

/-- When nothing waits, each job has been answered. -/
theorem OnceEach.eq_one (h : OnceEach jobs answered []) (hk : jobs k) : answered.count k = 1 :=
  h k hk

theorem OnceEach.move (h : OnceEach jobs answered waiting) (hp : waiting' ~ waiting) :
    OnceEach jobs answered waiting' := by
  intro k hk
  rw [hp.count_eq]
  exact h k hk

theorem OnceEach.answer (h : OnceEach jobs answered waiting) (hp : waiting ~ k :: waiting') :
    OnceEach jobs (k :: answered) waiting' := by
  intro i hi
  have hone := h i hi
  rw [hp.count_eq, List.count_cons] at hone
  rw [List.count_cons]
  omega

/-- One that is not counted as a job is taken away. -/
theorem OnceEach.discard (h : OnceEach jobs answered waiting) (hp : waiting ~ k :: waiting')
    (hk : ¬ jobs k) : OnceEach jobs answered waiting' := by
  intro i hi
  have hne : k ≠ i := fun heq => hk (heq ▸ hi)
  have hone := h i hi
  rw [hp.count_eq, List.count_cons_of_ne hne] at hone
  exact hone

/-- New jobs, each once, that have not been seen before. -/
theorem OnceEach.join (h : OnceEach jobs answered waiting) (hnew : new.Nodup)
    (hfresh : ∀ k ∈ new, k ∉ answered ∧ k ∉ waiting)
    (hjobs : ∀ k, jobs' k → k ∉ new → jobs k) : OnceEach jobs' answered (waiting ++ new) := by
  intro k hk
  rw [List.count_append]
  by_cases hmem : k ∈ new
  · obtain ⟨ha, hw⟩ := hfresh k hmem
    rw [List.count_eq_zero_of_not_mem ha, List.count_eq_zero_of_not_mem hw,
      List.count_eq_one_of_mem hnew hmem]
  · rw [List.count_eq_zero_of_not_mem hmem]
    exact h k (hjobs k hk hmem)

/-! ## Numbers that are given out once -/

/-- The numbers that are out and those that have come back are below the next one, and none
    stands twice. -/
structure Tickets (next : Nat) (out back : List Nat) : Prop where
  nodup : (out ++ back).Nodup
  lt : ∀ i ∈ out ++ back, i < next

section Tickets

variable {next i : Nat} {out out' back : List Nat}

theorem Tickets.nil (next : Nat) : Tickets next [] [] :=
  ⟨List.nodup_nil, fun _ hi => absurd hi List.not_mem_nil⟩

theorem Tickets.move (h : Tickets next out back) (hp : out' ~ out) : Tickets next out' back where
  nodup := (hp.append_right back).nodup_iff.mpr h.nodup
  lt := fun i hi => h.lt i ((hp.append_right back).mem_iff.mp hi)

/-- A number is not used. -/
theorem Tickets.skip (h : Tickets next out back) : Tickets (next + 1) out back :=
  ⟨h.nodup, fun i hi => Nat.lt_succ_of_lt (h.lt i hi)⟩

theorem Tickets.give (h : Tickets next out back) : Tickets (next + 1) (next :: out) back := by
  refine ⟨List.nodup_cons.mpr ⟨fun hmem => ?_, h.nodup⟩, ?_⟩
  · exact absurd (h.lt next hmem) (Nat.lt_irrefl next)
  · intro i hi
    rcases List.mem_cons.mp hi with rfl | hi
    · exact Nat.lt_succ_self i
    · exact Nat.lt_succ_of_lt (h.lt i hi)

theorem Tickets.comeBack (h : Tickets next (i :: out) back) : Tickets next out (i :: back) := by
  have hp : out ++ i :: back ~ i :: out ++ back := List.perm_middle
  exact ⟨hp.nodup_iff.mpr h.nodup, fun j hj => h.lt j (hp.mem_iff.mp hj)⟩

theorem Tickets.nodup_back (h : Tickets next out back) : back.Nodup :=
  (List.nodup_append.mp h.nodup).2.1

end Tickets

/-- Only what has come back is reported, and what does not wait to be reported has been,
    once. -/
def ReportsOnce {γ : Type} (key : γ → ι) (back waiting reported : List γ) : Prop :=
  (∀ c ∈ reported, c ∈ back) ∧
    ∀ c ∈ back, c ∉ waiting → c ∈ reported ∧ (reported.map key).count (key c) = 1

theorem reportsOnce_of_perm {γ : Type} {key : γ → ι} {reported waiting back : List γ}
    (hp : reported ++ waiting ~ back) (hn : (back.map key).Nodup) :
    ReportsOnce key back waiting reported := by
  refine ⟨fun c hc => hp.mem_iff.mp (List.mem_append_left _ hc), fun c hc hw => ?_⟩
  have hmem : c ∈ reported := by
    rcases List.mem_append.mp (hp.mem_iff.mpr hc) with hr | hwait
    · exact hr
    · exact absurd hwait hw
  have hnodup : (reported.map key ++ waiting.map key).Nodup := by
    rw [← List.map_append]
    exact (hp.map key).nodup_iff.mpr hn
  exact ⟨hmem, List.count_eq_one_of_mem (List.nodup_append.mp hnodup).1 (List.mem_map_of_mem hmem)⟩

end Answering
