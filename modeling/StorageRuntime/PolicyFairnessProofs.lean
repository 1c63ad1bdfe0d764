import Mathlib.Algebra.Order.Field.Rat
import Mathlib.Tactic.Linarith
import Mathlib.Tactic.Ring
import StorageRuntime.SchedulingPolicyProofs

/-!
# The scheduling policies — how often a queue with work is chosen

One decision serves a non-empty queue if there is one.  Here are sequences of
decisions, with a fixed number of queues and snapshots that change in any way.

* **`roundRobin_starves_nobody`**: the round robin policy chooses a queue that stays
  non-empty once in `n` decisions, and between two choices of it every other queue that
  stays non-empty exactly once.
* **`strictPriority_fair`**: so does the strict policy inside a priority, as long as it
  decides for this priority; another one in between resets its cursor.
* **`weightedFair_fair`**: while two queues stay non-empty, what the weighted policy grants
  them differs by no more than a batch each, in proportion to the weights, if their
  virtual times were no further apart in the beginning.
-/

namespace Scheduler

variable {P E : Type}

/-- What the policy decides in a sequence of calls. -/
def Policy.decisions (p : Policy P E) : P → List (E × List QueueSnapshot) → List ScheduleDecision
  | _, [] => []
  | st, call :: calls =>
    (p.decide st call.1 call.2).1 :: p.decisions (p.decide st call.1 call.2).2 calls

/-- Queue `q` is shown as non-empty. -/
def Shows (q : Nat) (snaps : List QueueSnapshot) : Prop :=
  ∃ snap, snaps[q]? = some snap ∧ 0 < snap.approxCount

/-- The decision is to serve queue `q`. -/
def ScheduleDecision.Chooses (q : Nat) (d : ScheduleDecision) : Prop :=
  d.idle = false ∧ d.queueIndex = q
deriving Decidable

/-! ## Round robin -/

open CyclicSearch

/-- A queue that is shown as non-empty is one that the search can stop at. -/
theorem Shows.stops {n q : Nat} {snaps : List QueueSnapshot} (h : Shows q snaps)
    (hlen : snaps.length = n) : Stops QueueSnapshot.busy n q snaps := by
  obtain ⟨snap, hget, hpos⟩ := h
  exact ⟨hlen, snap, hget, QueueSnapshot.busy_iff.mpr hpos⟩

/-- The round robin policy goes from one non-empty queue to the next. -/
theorem roundRobin_visits (maxBatch n q : Nat) :
    ∀ (calls : List (Unit × List QueueSnapshot)) (cursor : Nat),
      (∀ call ∈ calls, call.2.length = n ∧ Shows q call.2) →
      (∀ d ∈ (roundRobin maxBatch).decisions cursor calls, d.idle = false) ∧
      ((roundRobin maxBatch).decisions cursor calls).map ScheduleDecision.queueIndex =
        visits QueueSnapshot.busy cursor (calls.map Prod.snd) := by
  intro calls
  induction calls with
  | nil =>
    intro cursor _
    refine ⟨?_, rfl⟩
    intro d hd
    cases hd
  | cons call calls ih =>
    intro cursor hcalls
    obtain ⟨hlen, hshows⟩ := hcalls call List.mem_cons_self
    obtain ⟨idx, snap, hfind, -, hvisits⟩ :=
      (hshows.stops hlen).visits_cons cursor (calls.map Prod.snd)
    have hne : call.2.length ≠ 0 := by
      obtain ⟨first, hget, -⟩ := hshows
      have := (List.getElem?_eq_some_iff.mp hget).1
      omega
    have hdecide : (roundRobin maxBatch).decide cursor call.1 call.2 =
        (⟨idx, min snap.approxCount maxBatch, false⟩, idx) := by
      simp only [roundRobin, if_neg hne, hfind]
    obtain ⟨hbusy, hmap⟩ := ih idx fun c hc => hcalls c (List.mem_cons_of_mem call hc)
    rw [Policy.decisions, hdecide]
    constructor
    · intro d hd
      rcases List.mem_cons.mp hd with rfl | hd
      · rfl
      · exact hbusy d hd
    · rw [List.map_cons, List.map_cons, hvisits, hmap]

/-- The cursor stays at the queue that was chosen. -/
theorem roundRobin_cursor {maxBatch cursor : Nat} {call : Unit × List QueueSnapshot}
    (h : ((roundRobin maxBatch).decide cursor call.1 call.2).1.idle = false) :
    ((roundRobin maxBatch).decide cursor call.1 call.2).2 =
      ((roundRobin maxBatch).decide cursor call.1 call.2).1.queueIndex := by
  simp only [roundRobin] at h ⊢
  split at h
  next => cases h
  next hne =>
    rw [if_neg hne]
    split at h
    next => rfl
    next => cases h

/-- Counting choices is counting positions, where nothing is idle. -/
theorem countP_chooses {ds : List ScheduleDecision} (hbusy : ∀ d ∈ ds, d.idle = false) (r : Nat) :
    ds.countP (fun d => d.Chooses r) = (ds.map ScheduleDecision.queueIndex).count r := by
  rw [List.count, List.countP_map]
  refine List.countP_congr ?_
  intro d hd
  simp [ScheduleDecision.Chooses, hbusy d hd]

/-- A queue that is non-empty at `n` decisions is chosen. -/
theorem roundRobin_chosen {maxBatch n cursor q : Nat} (hq : q < n)
    {calls : List (Unit × List QueueSnapshot)} (hlen : calls.length = n)
    (hcalls : ∀ call ∈ calls, call.2.length = n ∧ Shows q call.2) :
    ∃ d ∈ (roundRobin maxBatch).decisions cursor calls, d.Chooses q := by
  obtain ⟨hbusy, hmap⟩ := roundRobin_visits maxBatch n q calls cursor hcalls
  obtain ⟨D, hahead⟩ := exists_ahead cursor hq
  have hmem : q ∈ visits QueueSnapshot.busy cursor (calls.map Prod.snd) := by
    refine mem_visits _ cursor D hahead ?_ ?_
    · rw [List.length_map, hlen]
      exact hahead.le
    · intro snaps hsnaps
      obtain ⟨call, hcall, rfl⟩ := List.mem_map.mp hsnaps
      exact (hcalls call hcall).2.stops (hcalls call hcall).1
  rw [← hmap] at hmem
  obtain ⟨d, hd, hidx⟩ := List.mem_map.mp hmem
  exact ⟨d, hd, hbusy d hd, hidx⟩

/-- From a choice of `q`, which leaves the cursor there, to the next. -/
theorem roundRobin_once {maxBatch n q r : Nat} (hq : q < n) (hr : r < n) (hrq : r ≠ q)
    {calls : List (Unit × List QueueSnapshot)} {ds : List ScheduleDecision} {d₁ : ScheduleDecision}
    (hcalls : ∀ call ∈ calls, call.2.length = n ∧ Shows q call.2 ∧ Shows r call.2)
    (hds : (roundRobin maxBatch).decisions q calls = ds ++ [d₁])
    (hmid : ∀ d ∈ ds, ¬ d.Chooses q) (h₁ : d₁.Chooses q) :
    ds.countP (fun d => d.Chooses r) = 1 := by
  obtain ⟨hbusy, hmap⟩ := roundRobin_visits maxBatch n q calls q
    fun call hcall => ⟨(hcalls call hcall).1, (hcalls call hcall).2.1⟩
  rw [hds] at hbusy hmap
  rw [List.map_append, List.map_singleton, h₁.2] at hmap
  have hbusyMid : ∀ d ∈ ds, d.idle = false := fun d hd => hbusy d (List.mem_append_left [d₁] hd)
  have hnot : q ∉ ds.map ScheduleDecision.queueIndex := by
    intro hmem
    obtain ⟨d, hd, hdq⟩ := List.mem_map.mp hmem
    exact hmid d hd ⟨hbusyMid d hd, hdq⟩
  have hstops : ∀ snaps ∈ calls.map Prod.snd, Stops QueueSnapshot.busy n q snaps ∧
      Stops QueueSnapshot.busy n r snaps := by
    intro snaps hsnaps
    obtain ⟨call, hcall, rfl⟩ := List.mem_map.mp hsnaps
    obtain ⟨hlen, hsq, hsr⟩ := hcalls call hcall
    exact ⟨hsq.stops hlen, hsr.stops hlen⟩
  -- `q` is a whole round away, and `r` less
  obtain ⟨Dr, hDr⟩ := exists_ahead q hr
  have hlt : Dr < n := by
    refine Nat.lt_of_le_of_ne hDr.le ?_
    rintro rfl
    exact hrq (hDr.lands.symm.trans (ahead_self hq).lands)
  rw [countP_chooses hbusyMid,
    count_visits hrq _ q n Dr _ (ahead_self hq) hDr hstops hmap.symm hnot, if_pos hlt]

/-- **The round robin policy starves nobody.**  For every number of queues, every cursor and
    every sequence of snapshots: a queue that is non-empty at `n` consecutive decisions is
    chosen by one of them, and between two successive choices of a queue that stays non-empty
    every other queue that stays non-empty is chosen exactly once. -/
theorem roundRobin_starves_nobody (maxBatch n cursor q : Nat) (hq : q < n) :
    (∀ calls : List (Unit × List QueueSnapshot), calls.length = n →
      (∀ call ∈ calls, call.2.length = n ∧ Shows q call.2) →
      ∃ d ∈ (roundRobin maxBatch).decisions cursor calls, d.Chooses q) ∧
    (∀ (calls : List (Unit × List QueueSnapshot)) (r : Nat) (d₀ d₁ : ScheduleDecision)
        (ds : List ScheduleDecision), r ≠ q →
      (∀ call ∈ calls, call.2.length = n ∧ Shows q call.2 ∧ Shows r call.2) →
      (roundRobin maxBatch).decisions cursor calls = d₀ :: (ds ++ [d₁]) →
      d₀.Chooses q → (∀ d ∈ ds, ¬ d.Chooses q) → d₁.Chooses q →
      ds.countP (fun d => d.Chooses r) = 1) := by
  constructor
  · intro calls hlen hcalls
    exact roundRobin_chosen hq hlen hcalls
  · intro calls r d₀ d₁ ds hrq hcalls hds h₀ hmid h₁
    cases calls with
    | nil => cases hds
    | cons call calls =>
      obtain ⟨hlen, hsq, snap, hget, -⟩ := hcalls call List.mem_cons_self
      have hr : r < n := hlen ▸ (List.getElem?_eq_some_iff.mp hget).1
      obtain ⟨hfirst, hrest⟩ := List.cons.inj hds
      -- the decision that chooses `q` leaves the cursor there
      have hcursor := roundRobin_cursor (hfirst ▸ h₀.1)
      rw [hcursor, hfirst, h₀.2] at hrest
      exact roundRobin_once hq hr hrq
        (fun c hc => hcalls c (List.mem_cons_of_mem call hc)) hrest hmid h₁

/-- Three queues, of which the second is chosen, then the third and the first, and then the
    second again. -/
theorem roundRobin_three : ∃ d₀ d₁ d₂ d₃ : ScheduleDecision,
      (roundRobin 64).decisions 0 (List.replicate 4 ((), List.replicate 3 ⟨.low, 5⟩)) =
        [d₀, d₁, d₂, d₃] ∧ d₀.Chooses 1 ∧ d₃.Chooses 1 ∧
      [d₁, d₂].countP (fun d => d.Chooses 2) = 1 := by
  refine ⟨_, _, _, _, rfl, by decide, by decide, ?_⟩
  refine (roundRobin_starves_nobody 64 3 0 1 (by decide)).2
    (List.replicate 4 ((), List.replicate 3 ⟨.low, 5⟩)) 2 _ _ [_, _] (by decide) ?_ rfl
    (by decide) (by decide) (by decide)
  intro call hcall
  rw [List.eq_of_mem_replicate hcall]
  exact ⟨rfl, ⟨_, rfl, by decide⟩, ⟨_, rfl, by decide⟩⟩

/-! ## Strict priority -/

open StrictPriority

/-- Where the policy begins to search when it decides for this priority. -/
def StrictPriority.cursor (st : StrictPriority) (prio : Priority) : Nat :=
  if st.lastPrio = some prio then st.lastIdx else 0

/-- A decision for a priority is the next one of the search for it, and leaves the cursor
    there. -/
theorem choose_level {maxBatch : Nat} {snaps : List QueueSnapshot} {snap : QueueSnapshot} :
    ∀ (prios : List Priority) (st : StrictPriority),
      (choose maxBatch snaps prios st).1.idle = false →
      snaps[(choose maxBatch snaps prios st).1.queueIndex]? = some snap →
      find (wants snap.priority) snaps (st.cursor snap.priority) =
          some ((choose maxBatch snaps prios st).1.queueIndex, snap) ∧
        (choose maxBatch snaps prios st).2.cursor snap.priority =
          (choose maxBatch snaps prios st).1.queueIndex := by
  intro prios
  induction prios with
  | nil =>
    intro st hidle
    cases hidle
  | cons prio prios ih =>
    intro st
    rw [choose]
    split
    next => exact ih st
    next hcount =>
      dsimp only
      split
      next hnone => exact absurd hnone (find_wants_ne_none _ hcount)
      next idx found hfound =>
        intro _ hget
        obtain ⟨hget', hprio, -⟩ := find_wants hfound
        obtain rfl : found = snap := Option.some.inj (hget'.symm.trans hget)
        rw [hprio]
        exact ⟨hfound, if_pos rfl⟩

theorem strictPriority_next {maxBatch : Nat} {snaps : List QueueSnapshot} {snap : QueueSnapshot}
    {st : StrictPriority} (hidle : ((strictPriority maxBatch).decide st () snaps).1.idle = false)
    (hget : snaps[((strictPriority maxBatch).decide st () snaps).1.queueIndex]? = some snap) :
    find (wants snap.priority) snaps (st.cursor snap.priority) =
        some (((strictPriority maxBatch).decide st () snaps).1.queueIndex, snap) ∧
      ((strictPriority maxBatch).decide st () snaps).2.cursor snap.priority =
        ((strictPriority maxBatch).decide st () snaps).1.queueIndex := by
  have hne : snaps.length ≠ 0 := by
    have := (List.getElem?_eq_some_iff.mp hget).1
    omega
  have hdecide : (strictPriority maxBatch).decide st () snaps =
      choose maxBatch snaps [.critical, .high, .medium, .low] st := if_neg hne
  rw [hdecide] at hidle hget ⊢
  exact choose_level _ st hidle hget

/-- While it decides for one priority, the strict policy goes from one non-empty queue of this
    priority to the next. -/
theorem strictPriority_visits {maxBatch : Nat} {prios : List Priority} {level : Priority} :
    ∀ (calls : List (Unit × List QueueSnapshot)) (st : StrictPriority),
      (∀ call ∈ calls, call.2.map QueueSnapshot.priority = prios) →
      (∀ d ∈ (strictPriority maxBatch).decisions st calls,
        d.idle = false ∧ prios[d.queueIndex]? = some level) →
      ((strictPriority maxBatch).decisions st calls).map ScheduleDecision.queueIndex =
        visits (wants level) (st.cursor level) (calls.map Prod.snd) := by
  intro calls
  induction calls with
  | nil => intro st _ _; rfl
  | cons call calls ih =>
    intro st hcalls hlevel
    rw [Policy.decisions] at hlevel ⊢
    obtain ⟨hidle, hat⟩ := hlevel _ List.mem_cons_self
    rw [← hcalls call List.mem_cons_self, List.getElem?_map] at hat
    obtain ⟨snap, hget, rfl⟩ := Option.map_eq_some_iff.mp hat
    obtain ⟨hfind, hcursor⟩ := strictPriority_next hidle hget
    have hrest := ih _ (fun c hc => hcalls c (List.mem_cons_of_mem call hc))
      (fun d hd => hlevel d (List.mem_cons_of_mem _ hd))
    rw [List.map_cons, List.map_cons, visits, hfind, hrest, hcursor]

/-- **The strict policy is fair inside a priority, while it decides for it.**  For every list
    of `n` queues, every state of the policy and every sequence of snapshots: if queue `q` is
    non-empty at `n` decisions in a row that are all for its priority, one of them chooses
    it. -/
theorem strictPriority_fair (maxBatch : Nat) (st : StrictPriority) (prios : List Priority)
    {q : Nat} {level : Priority} (hq : prios[q]? = some level)
    (calls : List (Unit × List QueueSnapshot)) (hlen : calls.length = prios.length)
    (hcalls : ∀ call ∈ calls, call.2.map QueueSnapshot.priority = prios ∧ Shows q call.2)
    (hlevel : ∀ d ∈ (strictPriority maxBatch).decisions st calls,
      d.idle = false ∧ prios[d.queueIndex]? = some level) :
    ∃ d ∈ (strictPriority maxBatch).decisions st calls, d.Chooses q := by
  have hmap := strictPriority_visits calls st (fun call hcall => (hcalls call hcall).1) hlevel
  have hlt : q < prios.length := (List.getElem?_eq_some_iff.mp hq).1
  obtain ⟨D, hahead⟩ := exists_ahead (st.cursor level) hlt
  have hmem : q ∈ visits (wants level) (st.cursor level) (calls.map Prod.snd) := by
    refine mem_visits _ _ D hahead ?_ ?_
    · rw [List.length_map, hlen]
      exact hahead.le
    · intro snaps hsnaps
      obtain ⟨call, hcall, rfl⟩ := List.mem_map.mp hsnaps
      obtain ⟨hprios, snap, hget, hpos⟩ := hcalls call hcall
      have hprio : snap.priority = level := by
        rw [← hprios, List.getElem?_map, hget] at hq
        exact Option.some.inj hq
      exact ⟨by rw [← hprios, List.length_map], snap, hget, wants_iff.mpr ⟨hprio, hpos⟩⟩
  rw [← hmap] at hmem
  obtain ⟨d, hd, hidx⟩ := List.mem_map.mp hmem
  exact ⟨d, hd, (hlevel d hd).1, hidx⟩

/-- One queue of high and two of low priority; the first is shown with `n` items. -/
def twoLow (n : Nat) : Unit × List QueueSnapshot := ((), [⟨.high, n⟩, ⟨.low, 5⟩, ⟨.low, 5⟩])

/-- While the first queue is empty, the third is chosen. -/
theorem strictPriority_fair_low :
    ∃ d ∈ (strictPriority 64).decisions ⟨none, 0⟩ (List.replicate 3 (twoLow 0)), d.Chooses 2 := by
  refine strictPriority_fair 64 ⟨none, 0⟩ [.high, .low, .low] rfl _ rfl ?_ (by decide)
  intro call hcall
  rw [List.eq_of_mem_replicate hcall]
  exact ⟨rfl, ⟨_, rfl, by decide⟩⟩

/-- **A decision for another priority resets the cursor.**  When the first queue is non-empty
    every other time, the third one is never chosen: each of the decisions for its priority
    chooses the second, of which there are as many as there are queues. -/
theorem strictPriority_resets : (strictPriority 64).decisions ⟨none, 0⟩
        [twoLow 1, twoLow 0, twoLow 1, twoLow 0, twoLow 1, twoLow 0] =
      [⟨0, 1, false⟩, ⟨1, 5, false⟩, ⟨0, 1, false⟩, ⟨1, 5, false⟩, ⟨0, 1, false⟩, ⟨1, 5, false⟩] ∧
    (∀ n, Shows 2 (twoLow n).2) ∧
    ¬ ∃ d ∈ (strictPriority 64).decisions ⟨none, 0⟩
        [twoLow 1, twoLow 0, twoLow 1, twoLow 0, twoLow 1, twoLow 0], d.Chooses 2 := by
  refine ⟨by decide, ?_, by decide⟩
  intro n
  exact ⟨_, rfl, by decide⟩

/-! ## Weighted fair -/

/-- Doubles read as rational numbers. -/
def rationals : Doubles ℚ where
  zero := 0
  one := 1
  ofNat := fun n => n
  add := (· + ·)
  div := (· / ·)
  lt a b := decide (a < b)

namespace WeightedFair

variable {n : Nat} (st : WeightedFair ℚ)

/-- The virtual time of queue `i`, of `n`, at the next decision. -/
def time (n i : Nat) : ℚ := (st.fit rationals n).virtualTime.getD i 0

/-- Its weight. -/
def weight (n i : Nat) : ℚ := (st.fit rationals n).weights.getD i 1

theorem length_fit : (st.fit rationals n).virtualTime.length = n ∧
    (st.fit rationals n).weights.length = n := by
  constructor
  · simp only [fit]
    split
    next => exact List.length_replicate
    next h => exact not_not.mp h
  · simp only [fit]
    split
    next => exact List.length_replicate
    next h => exact not_not.mp h

/-- With the right lengths nothing is filled anew. -/
theorem fit_eq {st : WeightedFair ℚ} (ht : st.virtualTime.length = n)
    (hw : st.weights.length = n) : st.fit rationals n = st := by
  simp only [fit, ht, hw, ne_eq, not_true, if_false]

theorem weight_pos (hw : ∀ w ∈ st.weights, 0 < w) (n i : Nat) : 0 < st.weight n i := by
  have hall : ∀ w ∈ (st.fit rationals n).weights, 0 < w := by
    simp only [fit]
    split
    next =>
      intro w hmem
      rw [List.eq_of_mem_replicate hmem]
      exact one_pos
    next => exact hw
  rw [weight, List.getD_eq_getElem?_getD]
  cases hget : (st.fit rationals n).weights[i]? with
  | none => exact one_pos
  | some w => exact hall w (List.mem_of_getElem? hget)

/-- The queue found so far has the least virtual time of the non-empty ones seen. -/
def Least (st : WeightedFair ℚ) (seen : List (QueueSnapshot × Nat)) :
    Option (Nat × QueueSnapshot) → Prop
  | none => ∀ next ∈ seen, next.1.approxCount = 0
  | some b => ∀ next ∈ seen, 0 < next.1.approxCount →
      st.virtualTime.getD b.1 0 ≤ st.virtualTime.getD next.2 0

theorem Least.better {st : WeightedFair ℚ} {seen : List (QueueSnapshot × Nat)}
    {best : Option (Nat × QueueSnapshot)} (next : QueueSnapshot × Nat) (h : st.Least seen best) :
    st.Least (seen ++ [next]) (better rationals st best next) := by
  rw [WeightedFair.better.eq_def]
  split
  next hbusy =>
    cases best with
    | none =>
      refine List.forall_mem_append.mpr ⟨fun other hseen hpos => ?_, ?_⟩
      · exact absurd (h other hseen) (Nat.ne_of_gt hpos)
      · exact List.forall_mem_singleton.mpr fun _ => le_rfl
    | some b =>
      dsimp only
      split
      next hless =>
        -- the new one is before the best, which is before the others
        have hlt : st.virtualTime.getD next.2 0 < st.virtualTime.getD b.1 0 :=
          of_decide_eq_true hless
        refine List.forall_mem_append.mpr ⟨fun other hseen hpos => ?_, ?_⟩
        · exact le_trans (le_of_lt hlt) (h other hseen hpos)
        · exact List.forall_mem_singleton.mpr fun _ => le_rfl
      next hnot =>
        have hle : st.virtualTime.getD b.1 0 ≤ st.virtualTime.getD next.2 0 :=
          not_lt.mp fun hlt => hnot (decide_eq_true hlt)
        exact List.forall_mem_append.mpr ⟨h, List.forall_mem_singleton.mpr fun _ => hle⟩
  next hempty =>
    cases best with
    | none =>
      refine List.forall_mem_append.mpr ⟨h, List.forall_mem_singleton.mpr ?_⟩
      exact Nat.eq_zero_of_not_pos hempty
    | some b =>
      refine List.forall_mem_append.mpr ⟨h, List.forall_mem_singleton.mpr ?_⟩
      exact fun hpos => absurd hpos hempty

theorem Least.foldl {st : WeightedFair ℚ} {seen : List (QueueSnapshot × Nat)}
    {best : Option (Nat × QueueSnapshot)} (rest : List (QueueSnapshot × Nat))
    (h : st.Least seen best) :
    st.Least (seen ++ rest) (rest.foldl (WeightedFair.better rationals st) best) := by
  induction rest generalizing seen best with
  | nil => rwa [List.append_nil]
  | cons next rest ih =>
    have htail := ih (h.better next)
    rwa [List.append_assoc] at htail

/-- **The policy chooses a non-empty queue with the least virtual time.** -/
theorem best_least {snaps : List QueueSnapshot} {idx k : Nat} {snap : QueueSnapshot}
    (hbest : best rationals st snaps = some (idx, snap)) (hk : Shows k snaps) :
    st.virtualTime.getD idx 0 ≤ st.virtualTime.getD k 0 := by
  have hnone : st.Least [] none := by
    intro next hnext
    cases hnext
  have hleast : st.Least snaps.zipIdx (best rationals st snaps) := hnone.foldl snaps.zipIdx
  rw [hbest] at hleast
  obtain ⟨shown, hget, hpos⟩ := hk
  exact hleast (shown, k) (List.mem_zipIdx_iff_getElem?.mpr hget) hpos

theorem fit_charge (idx batch : Nat) :
    ((st.fit rationals n).charge rationals idx batch).fit rationals n =
      (st.fit rationals n).charge rationals idx batch := by
  obtain ⟨htime, hweights⟩ := length_fit (n := n) st
  refine fit_eq ?_ hweights
  rw [charge, List.length_set]
  exact htime

/-- After queue `idx` is charged. -/
theorem time_charge {idx : Nat} (hidx : idx < n) (batch k : Nat) :
    ((st.fit rationals n).charge rationals idx batch).time n k =
      st.time n k + ((if idx = k then batch else 0 : Nat) : ℚ) / st.weight n k := by
  rw [time, fit_charge, charge]
  rw [List.getD_eq_getElem?_getD, List.getElem?_set]
  by_cases hk : idx = k
  · subst hk
    rw [if_pos rfl, if_pos rfl, if_pos (by rw [(length_fit st).1]; exact hidx)]
    rfl
  · rw [if_neg hk, if_neg hk, Nat.cast_zero, zero_div, add_zero, ← List.getD_eq_getElem?_getD]
    rfl

theorem weight_charge (idx batch k : Nat) :
    ((st.fit rationals n).charge rationals idx batch).weight n k = st.weight n k := by
  rw [weight, fit_charge]
  rfl

end WeightedFair

/-- How many items the decisions grant to queue `i`. -/
def granted (i : Nat) : List ScheduleDecision → Nat
  | [] => 0
  | d :: ds => (if d.Chooses i then d.batchSize else 0) + granted i ds

open WeightedFair in
/-- What a decision is, where a queue is non-empty. -/
theorem weightedFair_next (weights : List ℚ) (maxBatch : Nat) (st : WeightedFair ℚ)
    {snaps : List QueueSnapshot} {n i : Nat} (hlen : snaps.length = n) (hi : Shows i snaps) :
    ∃ idx batch, idx < n ∧ batch ≤ maxBatch ∧
      (weightedFair rationals weights maxBatch).decide st () snaps =
        (⟨idx, batch, false⟩, (st.fit rationals n).charge rationals idx batch) ∧
      ∀ k, Shows k snaps → st.time n idx ≤ st.time n k := by
  subst hlen
  have hfound := best_found rationals (st.fit rationals snaps.length) snaps
  cases hbest : best rationals (st.fit rationals snaps.length) snaps with
  | none =>
    rw [hbest] at hfound
    obtain ⟨shown, hget, hpos⟩ := hi
    have hzero := hfound (shown, i) (List.mem_zipIdx_iff_getElem?.mpr hget)
    exact absurd hzero (Nat.ne_of_gt hpos)
  | some found =>
    obtain ⟨idx, snap⟩ := found
    rw [hbest] at hfound
    refine ⟨idx, min snap.approxCount maxBatch, (List.getElem?_eq_some_iff.mp hfound.1).1,
      Nat.min_le_right _ _, ?_, ?_⟩
    · simp only [weightedFair, hbest]
    · intro k hk
      exact best_least (st.fit rationals snaps.length) hbest hk

/-- How far the virtual times of two queues may be apart: a batch of the one that is ahead. -/
def InWindow (maxBatch : Nat) (wi wj lag : ℚ) : Prop :=
  -(maxBatch / wj) ≤ lag ∧ lag ≤ maxBatch / wi

/-- Only a queue that is not ahead is served, with at most a batch. -/
theorem InWindow.serve {maxBatch batch : Nat} {wi wj lag : ℚ} (h : InWindow maxBatch wi wj lag)
    (hwi : 0 < wi) (hbatch : batch ≤ maxBatch) (hbehind : lag ≤ 0) :
    InWindow maxBatch wi wj (lag + batch / wi) := by
  have hpos : (0 : ℚ) ≤ batch / wi := div_nonneg (Nat.cast_nonneg batch) (le_of_lt hwi)
  have hle : (batch : ℚ) / wi ≤ maxBatch / wi :=
    div_le_div_of_nonneg_right (Nat.cast_le.mpr hbatch) (le_of_lt hwi)
  constructor
  · linarith [h.1]
  · linarith

/-- The same seen from the other queue. -/
theorem InWindow.neg {maxBatch : Nat} {wi wj lag : ℚ} (h : InWindow maxBatch wi wj lag) :
    InWindow maxBatch wj wi (-lag) :=
  ⟨neg_le_neg h.2, by linarith [h.1]⟩

/-- **The lag of two queues that stay non-empty.**  The decisions move the difference of their
    virtual times by what they grant, and keep it in the window. -/
theorem weightedFair_lag (weights : List ℚ) (maxBatch : Nat) {n i j : Nat} (hij : i ≠ j)
    {wi wj : ℚ} (hwi : 0 < wi) (hwj : 0 < wj) :
    ∀ (calls : List (Unit × List QueueSnapshot)) (st : WeightedFair ℚ),
      st.weight n i = wi → st.weight n j = wj →
      (∀ call ∈ calls, call.2.length = n ∧ Shows i call.2 ∧ Shows j call.2) →
      InWindow maxBatch wi wj (st.time n i - st.time n j) →
      InWindow maxBatch wi wj (st.time n i - st.time n j +
        (granted i ((weightedFair rationals weights maxBatch).decisions st calls) / wi -
          granted j ((weightedFair rationals weights maxBatch).decisions st calls) / wj)) := by
  intro calls
  induction calls with
  | nil =>
    intro st _ _ _ hwindow
    simp only [Policy.decisions, granted, Nat.cast_zero, zero_div, sub_zero, add_zero]
    exact hwindow
  | cons call calls ih =>
    intro st hi hj hcalls hwindow
    obtain ⟨hlen, hsi, hsj⟩ := hcalls call List.mem_cons_self
    obtain ⟨idx, batch, hidx, hbatch, hdecide, hleast⟩ :=
      weightedFair_next weights maxBatch st hlen hsi
    have htail := ih ((st.fit rationals n).charge rationals idx batch)
      ((st.weight_charge idx batch i).trans hi) ((st.weight_charge idx batch j).trans hj)
      fun c hc => hcalls c (List.mem_cons_of_mem call hc)
    rw [st.time_charge hidx batch i, st.time_charge hidx batch j, hi, hj] at htail
    have hwindow' : InWindow maxBatch wi wj (st.time n i +
        ((if idx = i then batch else 0 : Nat) : ℚ) / wi - (st.time n j +
        ((if idx = j then batch else 0 : Nat) : ℚ) / wj)) := by
      by_cases hii : idx = i
      · subst hii
        have hbehind : st.time n idx - st.time n j ≤ 0 := sub_nonpos.mpr (hleast j hsj)
        rw [if_pos rfl, if_neg hij, Nat.cast_zero, zero_div, add_zero, add_sub_right_comm]
        exact hwindow.serve hwi hbatch hbehind
      · rw [if_neg hii, Nat.cast_zero, zero_div, add_zero]
        by_cases hjj : idx = j
        · subst hjj
          have hbehind : -(st.time n i - st.time n idx) ≤ 0 :=
            neg_nonpos.mpr (sub_nonneg.mpr (hleast i hsi))
          rw [if_pos rfl, ← sub_sub]
          have hserved := (hwindow.neg.serve hwj hbatch hbehind).neg
          rwa [neg_add, neg_neg, ← sub_eq_add_neg] at hserved
        · rw [if_neg hjj, Nat.cast_zero, zero_div, add_zero]
          exact hwindow
    have hend := htail hwindow'
    rw [Policy.decisions, hdecide]
    simp only [granted, ScheduleDecision.Chooses, true_and, Nat.cast_add, add_div]
    convert hend using 1
    ring

/-- **The weighted policy is fair while two queues stay non-empty**, with weights above zero
    and exact virtual times: from every state in which their virtual times differ by no more
    than a batch of the one ahead, over every sequence of decisions at which both are
    non-empty, what they are granted, each divided by its weight, differs by at most
    `max_batch / w_i + max_batch / w_j`. -/
theorem weightedFair_fair (weights : List ℚ) (maxBatch n : Nat) (st : WeightedFair ℚ)
    (hw : ∀ w ∈ st.weights, 0 < w) (i j : Nat) (calls : List (Unit × List QueueSnapshot))
    (hcalls : ∀ call ∈ calls, call.2.length = n ∧ Shows i call.2 ∧ Shows j call.2)
    (hstart : InWindow maxBatch (st.weight n i) (st.weight n j) (st.time n i - st.time n j)) :
    |(granted i ((weightedFair rationals weights maxBatch).decisions st calls) / st.weight n i -
        granted j ((weightedFair rationals weights maxBatch).decisions st calls) /
          st.weight n j : ℚ)| ≤
      maxBatch / st.weight n i + maxBatch / st.weight n j := by
  have hwi := st.weight_pos hw n i
  have hwj := st.weight_pos hw n j
  by_cases hij : i = j
  · subst hij
    rw [sub_self, abs_zero]
    have hpos : (0 : ℚ) ≤ maxBatch / st.weight n i :=
      div_nonneg (Nat.cast_nonneg maxBatch) (le_of_lt hwi)
    exact add_nonneg hpos hpos
  · obtain ⟨hlow, hhigh⟩ := weightedFair_lag weights maxBatch hij hwi hwj calls st rfl rfl hcalls
      hstart
    rw [abs_le]
    constructor
    · linarith [hstart.2]
    · linarith [hstart.1]

/-- Two queues with these counts. -/
def twoQueues (a b : Nat) : Unit × List QueueSnapshot := ((), [⟨.low, a⟩, ⟨.low, b⟩])

/-- From the beginning, with weights 1 and 2. -/
theorem weightedFair_fair_fresh :
    |(granted 1 ((weightedFair rationals [1, 2] 64).decisions ⟨[], [1, 2]⟩
          (List.replicate 3 (twoQueues 64 64))) /
        WeightedFair.weight ⟨[], [1, 2]⟩ 2 1 -
      granted 0 ((weightedFair rationals [1, 2] 64).decisions ⟨[], [1, 2]⟩
          (List.replicate 3 (twoQueues 64 64))) /
        WeightedFair.weight ⟨[], [1, 2]⟩ 2 0 : ℚ)| ≤
      (64 : Nat) / WeightedFair.weight ⟨[], [1, 2]⟩ 2 1 +
        (64 : Nat) / WeightedFair.weight ⟨[], [1, 2]⟩ 2 0 := by
  refine weightedFair_fair [1, 2] 64 2 ⟨[], [1, 2]⟩ (by decide +kernel) 1 0 _ ?_
    ⟨by decide +kernel, by decide +kernel⟩
  intro call hcall
  rw [List.eq_of_mem_replicate hcall]
  exact ⟨rfl, ⟨_, rfl, by decide⟩, ⟨_, rfl, by decide⟩⟩

/-- **A queue that was idle is behind.**  With equal weights and batches of one item, the first
    queue is served three times while the second is empty; then both are non-empty, and three
    decisions in a row serve the second, where the bound allows two. -/
theorem weightedFair_idle_queue : ∃ (st : WeightedFair ℚ) (ds : List ScheduleDecision),
      st = (weightedFair rationals [1, 1] 1).after (List.replicate 3 (twoQueues 9 0)) ∧
      ds = (weightedFair rationals [1, 1] 1).decisions st (List.replicate 3 (twoQueues 9 9)) ∧
      ds = List.replicate 3 ⟨1, 1, false⟩ ∧
      ¬ |(granted 1 ds / st.weight 2 1 - granted 0 ds / st.weight 2 0 : ℚ)| ≤
        (1 : Nat) / st.weight 2 1 + (1 : Nat) / st.weight 2 0 := by
  refine ⟨_, _, rfl, rfl, by decide +kernel⟩

end Scheduler
