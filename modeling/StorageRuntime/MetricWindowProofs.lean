import StorageRuntime.PerfHistogramProofs
import Mathlib.Data.List.TakeWhile

/-!
# MetricWindow — the samples of a sliding time window

`MetricWindow` of `runtime/metric_window.h`.  `sample` appends a sample with the time and
then drops from the front what is older than the window; `value` goes through all that is
left and does not look at the clock.

* **`value_shows_window`**: `value` returns the minimum and the maximum of exactly the samples
  of the window, if no sample has left the window since the last call of `sample`.
* **`value_shows_stale`**: otherwise it shows samples that have left the window.
-/

namespace MetricWindow

open Interleaving Metrics

/-- A `Clock::time_point` and an `int64_t`. -/
structure Sample where
  ts : Int
  value : Int
deriving DecidableEq

/-- `ts + window_dur_`, in 64 bits. -/
def expiry (windowDur : Int) (s : Sample) : Int := (s.ts + windowDur).bmod (2 ^ 64)

def sample (windowDur now value : Int) (samples : List Sample) : List Sample :=
  (samples ++ [Sample.mk now value]).dropWhile fun s => decide (expiry windowDur s < now)

structure Stats (D : Type) where
  min : Int
  max : Int
  avg : D
deriving DecidableEq

section Value

variable {D : Type} (ar : Doubles D)

/-- One turn of the loop in `value`; `avg` is the sum so far. -/
def Stats.add (st : Stats D) (s : Sample) : Stats D where
  min := if s.value < st.min then s.value else st.min
  max := if st.max < s.value then s.value else st.max
  avg := ar.add st.avg (ar.lit s.value)

def value : List Sample → Stats D
  | [] => ⟨0, 0, ar.lit 0⟩
  | first :: rest =>
    let st := (first :: rest).foldl (Stats.add ar) ⟨first.value, first.value, ar.lit 0⟩
    { st with avg := ar.div st.avg (ar.ofNat (first :: rest).length) }

/-- `st` has the minimum and the maximum of `l`. -/
def Stats.Spans (st : Stats D) (l : List Int) : Prop :=
  st.min ∈ l ∧ st.max ∈ l ∧ ∀ v ∈ l, st.min ≤ v ∧ v ≤ st.max

/-- `st` has the minimum and the maximum of `l`, or is all zeros if `l` is empty. -/
def Stats.Shows (st : Stats D) (l : List Int) : Prop :=
  (l = [] ∧ st = ⟨0, 0, ar.lit 0⟩) ∨ st.Spans l

/-- The loop goes on with the minimum and the maximum of what it has seen. -/
theorem spans_foldl (rest : List Sample) : ∀ (seen : List Int) (st : Stats D),
    st.Spans seen → (rest.foldl (Stats.add ar) st).Spans (seen ++ rest.map Sample.value) := by
  induction rest with
  | nil =>
    intro seen st h
    rw [List.map_nil, List.append_nil]
    exact h
  | cons s rest ih =>
    rintro seen st ⟨hmin, hmax, hall⟩
    rw [List.map_cons, List.append_cons]
    refine ih _ (st.add ar s) ⟨?_, ?_, fun v hv => ?_⟩
    · show ite _ _ _ ∈ _
      split <;> simp [hmin]
    · show ite _ _ _ ∈ _
      split <;> simp [hmax]
    · show (if _ then _ else _) ≤ v ∧ v ≤ (if _ then _ else _)
      rcases List.mem_append.mp hv with hv | hv
      · have := hall v hv
        split <;> split <;> omega
      · obtain rfl := List.mem_singleton.mp hv
        split <;> split <;> omega

theorem value_shows (samples : List Sample) :
    (value ar samples).Shows ar (samples.map Sample.value) := by
  cases samples with
  | nil => exact .inl ⟨rfl, rfl⟩
  | cons first rest =>
    have hloop := spans_foldl ar rest [first.value] ((⟨first.value, first.value, ar.lit 0⟩ :
      Stats D).add ar first) (by simp [Stats.Spans, Stats.add])
    exact .inr hloop

end Value

/-! ## Sequences of calls -/

inductive Call where
  | sample (now value : Int)
  | value (now : Int)
deriving DecidableEq

def Call.now : Call → Int
  | .sample now _ | .value now => now

/-- The calls one after the other; every call is recorded. -/
def machine (windowDur : Int) : Machine (List Sample) Call Call where
  step samples
    | .sample now v => some (sample windowDur now v samples)
    | .value _ => some samples
  event _ c := some c

/-- The clock does not go back, and the end of a new sample's window is a time. -/
def Clocked (windowDur : Int) (t : List Call) (_ : List Sample) (c : Call) : Prop :=
  (∀ e ∈ t, e.now ≤ c.now) ∧ -2 ^ 63 ≤ c.now + windowDur ∧ c.now + windowDur < 2 ^ 63
deriving Decidable

/-- The samples taken, oldest first. -/
def sampled : List Call → List Sample
  | [] => []
  | .sample now v :: t => sampled t ++ [⟨now, v⟩]
  | .value _ :: t => sampled t

/-- The sample was taken within the window before `now`. -/
def InWindow (windowDur now : Int) (s : Sample) : Prop := now ≤ s.ts + windowDur
deriving Decidable

/-- What was dropped had left the window by some call. -/
structure Kept (windowDur : Int) (t : List Call) (samples : List Sample) : Prop where
  times : ∀ s ∈ sampled t, expiry windowDur s = s.ts + windowDur
  split : ∃ dropped, sampled t = dropped ++ samples ∧
    ∀ s ∈ dropped, ∃ e ∈ t, s.ts + windowDur < e.now

variable {windowDur now : Int} {t : List Call} {samples : List Sample}

theorem Kept.sample (h : Kept windowDur t samples) {v : Int}
    (hlo : -2 ^ 63 ≤ now + windowDur) (hhi : now + windowDur < 2 ^ 63) :
    Kept windowDur (.sample now v :: t) (sample windowDur now v samples) := by
  obtain ⟨dropped, heq, hold⟩ := h.split
  have htimes : ∀ s ∈ sampled (.sample now v :: t), expiry windowDur s = s.ts + windowDur := by
    intro s hs
    rcases List.mem_append.mp hs with hs | hs
    · exact h.times s hs
    · obtain rfl := List.mem_singleton.mp hs
      exact Int.bmod_eq_of_le (by dsimp only; omega) (by dsimp only; omega)
  -- the loop drops a beginning of what was there
  refine ⟨htimes, dropped ++ (samples ++ [Sample.mk now v]).takeWhile
    fun s => decide (expiry windowDur s < now), ?_, fun s hs => ?_⟩
  · rw [List.append_assoc, MetricWindow.sample, List.takeWhile_append_dropWhile, sampled, heq,
      List.append_assoc]
  · rcases List.mem_append.mp hs with hs | hs
    · obtain ⟨e, he, hlt⟩ := hold s hs
      exact ⟨e, List.mem_cons_of_mem _ he, hlt⟩
    · have hlt : expiry windowDur s < now := by simpa using List.mem_takeWhile_imp hs
      have hmem := List.mem_append_right dropped ((List.takeWhile_subset _) hs)
      rw [← List.append_assoc, ← heq] at hmem
      rw [htimes s hmem] at hlt
      exact ⟨_, List.mem_cons_self, hlt⟩

theorem kept_of_exec (h : Exec (machine windowDur) (Clocked windowDur) [] t samples) :
    Kept windowDur t samples := by
  refine h.invariant (Kept windowDur) ⟨nofun, [], rfl, nofun⟩ ?_
  intro t samples c samples' hk hc hs
  cases c with
  | sample now v =>
    cases hs
    exact hk.sample hc.2.1 hc.2.2
  | value now =>
    cases hs
    obtain ⟨dropped, heq, hold⟩ := hk.split
    refine ⟨hk.times, dropped, heq, fun s hs => ?_⟩
    obtain ⟨e, he, hlt⟩ := hold s hs
    exact ⟨e, List.mem_cons_of_mem _ he, hlt⟩

/-- **`value` shows the window.**  After any sequence of calls with a clock that does not go
    back, and for any length of the window: if every sample that is still kept lies in the
    window, `value` returns the minimum and the maximum of exactly the samples taken within the
    window before the call, and zeros if there are none. -/
theorem value_shows_window {D : Type} (ar : Doubles D) {windowDur : Int} {t : List Call}
    {samples : List Sample} (h : Exec (machine windowDur) (Clocked windowDur) [] t samples)
    {now : Int} (hnow : ∀ e ∈ t, e.now ≤ now) (hfresh : ∀ s ∈ samples, InWindow windowDur now s) :
    (value ar samples).Shows ar
      (((sampled t).filter fun s => decide (InWindow windowDur now s)).map Sample.value) := by
  obtain ⟨dropped, heq, hold⟩ := (kept_of_exec h).split
  have hgone : dropped.filter (fun s => decide (InWindow windowDur now s)) = [] := by
    refine List.filter_eq_nil_iff.mpr fun s hs hin => ?_
    obtain ⟨e, he, hlt⟩ := hold s hs
    have hin : now ≤ s.ts + windowDur := of_decide_eq_true hin
    have := hnow e he
    omega
  have hkept : samples.filter (fun s => decide (InWindow windowDur now s)) = samples :=
    List.filter_eq_self.mpr fun s hs => decide_eq_true (hfresh s hs)
  rw [heq, List.filter_append, hgone, hkept, List.nil_append]
  exact value_shows ar samples

/-- A window of 60 s; the first sample has left it when the third is taken. -/
theorem value_shows_two : ∃ t samples, Exec (machine 60) (Clocked 60) [] t samples ∧
    sampled t = [⟨0, 9⟩, ⟨50, 4⟩, ⟨70, 7⟩] ∧ (value exact samples).min = 4 ∧
    (value exact samples).Shows exact [4, 7] := by
  have hrun : Exec (machine 60) (Clocked 60) [] _ _ :=
    exec_run [.sample 0 9, .sample 50 4, .value 55, .sample 70 7]
  exact ⟨_, _, hrun, by decide +kernel, by decide +kernel,
    @value_shows_window _ exact _ _ _ hrun 90 (by decide +kernel) (by decide +kernel)⟩

/-- **A sample that has left the window is still shown**, when no other was taken since. -/
theorem value_shows_stale : ∃ t samples, Exec (machine 60) (Clocked 60) [] t samples ∧
    Clocked 60 t samples (.value 1000) ∧ (∀ s ∈ sampled t, ¬ InWindow 60 1000 s) ∧
    (value exact samples).min = 9 ∧ (value exact samples).max = 9 := by
  have hrun : Exec (machine 60) (Clocked 60) [] _ _ := exec_run [.sample 0 9]
  exact ⟨_, _, hrun, by decide +kernel⟩

end MetricWindow
