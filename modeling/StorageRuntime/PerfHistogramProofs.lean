import Mathlib.Data.Nat.Log
import Mathlib.Data.Rat.Floor
import StorageRuntime.BucketRankProofs
import StorageRuntime.PolicyFairnessProofs

/-!
# PerfHistogram — the histograms of `runtime/perf_histogram.h` and
`runtime/metric_histogram.h`

Both count samples in buckets that double in width, `Histogram` in 64 and
`MetricLatency` in 32 with a last one that is open, and both answer a percentile
by a scan for the bucket in which the running sum comes to `count * p`, truncated.
So the bucket they find is that of the `floor(count * p)`-th smallest sample, or
the first one where that is 0.

The doubles are a type with arbitrary operations (`Doubles`); the results on
percentiles take the arithmetic exactly (`exact`).
-/

namespace Metrics

open WordArithmetic BucketRank

/-- What the metrics do with `double`s: further operations, the literals of the source and
    the conversion to `uint64_t`. -/
structure Doubles (D : Type) extends Scheduler.Doubles D where
  sub : D → D → D
  mul : D → D → D
  le : D → D → Bool
  eq : D → D → Bool
  lit : ℚ → D
  trunc : D → Nat

/-- Doubles read as rational numbers. -/
def exact : Doubles ℚ where
  toDoubles := Scheduler.rationals
  sub := (· - ·)
  mul := (· * ·)
  le a b := decide (a ≤ b)
  eq a b := decide (a = b)
  lit := id
  trunc q := ⌊q⌋₊

/-! ## Histogram -/

structure Histogram where
  buckets : List Nat
  count : Nat
  sum : Nat
deriving DecidableEq

namespace Histogram

/-- `kNumBuckets`. -/
def numBuckets : Nat := 64

def init : Histogram where
  buckets := List.replicate numBuckets 0
  count := 0
  sum := 0

/-- The bucket of a value: `63 - __builtin_clzll(value)`, where 0 counts as 1. -/
def bucket (value : Nat) : Nat := (if value = 0 then 1 else value).log2

def record (h : Histogram) (value : Nat) : Histogram where
  buckets := h.buckets.modify (bucket value) (wadd · 1)
  count := wadd h.count 1
  sum := wadd h.sum (if value = 0 then 1 else value)

/-- The loop over the buckets, from bucket `i` on. -/
def scan (target : Nat) : List Nat → Nat → Nat → Option Nat
  | [], _, _ => none
  | n :: rest, i, accum =>
    if target ≤ wadd accum n then some i else scan target rest (i + 1) (wadd accum n)

def percentile {D : Type} (ar : Doubles D) (h : Histogram) (p : D) : D :=
  if h.count = 0 then ar.zero
  else
    let target := ar.trunc (ar.mul (ar.ofNat h.count) p)
    match scan target h.buckets 0 0 with
    | some i => ar.ofNat (2 ^ i)
    | none => ar.ofNat (2 ^ (numBuckets - 1))

/-- What the samples make of a new histogram. -/
def of (samples : List Nat) : Histogram := samples.foldl record init

/-- The values of bucket `i`. -/
def low (i : Nat) : Nat := if i = 0 then 0 else 2 ^ i

def high (i : Nat) : Nat := 2 ^ (i + 1) - 1

/-- The closed range of bucket `i`. -/
def InRange (i : Nat) (v : ℚ) : Prop := (low i : ℚ) ≤ v ∧ v ≤ (high i : ℚ)

instance (i : Nat) (v : ℚ) : Decidable (InRange i v) := inferInstanceAs (Decidable (_ ∧ _))

end Histogram

/-! ## MetricLatency -/

structure MetricLatency where
  buckets : List Nat
  totalCount : Nat
  totalSum : Nat
deriving DecidableEq

namespace MetricLatency

/-- `kBuckets`. -/
def numBuckets : Nat := 32

def init : MetricLatency where
  buckets := List.replicate numBuckets 0
  totalCount := 0
  totalSum := 0

def bucketIndex (ns : Nat) : Nat :=
  if ns = 0 then 0
  else
    let us := ns / 1000
    if us = 0 then 0
    else
      let idx := us.log2 + 1
      if numBuckets ≤ idx then numBuckets - 1 else idx

/-- `operator<<`. -/
def record (h : MetricLatency) (latencyNs : Nat) : MetricLatency where
  buckets := h.buckets.modify (bucketIndex latencyNs) (wadd · 1)
  totalCount := wadd h.totalCount 1
  totalSum := wadd h.totalSum latencyNs

/-- The upper bound of bucket `i`, which is the lower bound of the next one. -/
def next (i lo : Nat) : Nat := if i = 0 then 1000 else lo * 2 % wordSize

/-- The loop over the buckets, from bucket `i` on, whose lower bound is `lo`. -/
def scan {D : Type} (ar : Doubles D) (target : Nat) : List Nat → Nat → Nat → Nat → Nat
  | [], _, _, lo => lo
  | n :: rest, i, cumulative, lo =>
    let cumulative := wadd cumulative n
    if target ≤ cumulative then
      let hi := next i lo
      let prev := wsub cumulative n
      if n = 0 then lo
      else
        let frac := ar.div (ar.ofNat (wsub target prev)) (ar.ofNat n)
        wadd lo (ar.trunc (ar.mul (ar.ofNat (wsub hi lo)) frac))
    else scan ar target rest (i + 1) cumulative (next i lo)

def percentile {D : Type} (ar : Doubles D) (h : MetricLatency) (p : D) : Nat :=
  if h.totalCount = 0 then 0
  else scan ar (ar.trunc (ar.mul (ar.ofNat h.totalCount) p)) h.buckets 0 0 0

/-- What the samples make of a new histogram. -/
def of (samples : List Nat) : MetricLatency := samples.foldl record init

/-- The lower bound of bucket `i`. -/
def low : Nat → Nat
  | 0 => 0
  | i + 1 => 1000 * 2 ^ i

/-- The closed range of bucket `i`; the last one is open. -/
def InRange (i v : Nat) : Prop := low i ≤ v ∧ (i < numBuckets - 1 → v ≤ low (i + 1))

instance (i v : Nat) : Decidable (InRange i v) := inferInstanceAs (Decidable (_ ∧ _))

end MetricLatency

/-! ## The tables hold the numbers of samples -/

section Tables

variable {samples : List Nat}

theorem Histogram.of_concat (samples : List Nat) (x : Nat) :
    Histogram.of (samples ++ [x]) = (Histogram.of samples).record x := by
  simp [Histogram.of]

theorem MetricLatency.of_concat (samples : List Nat) (x : Nat) :
    MetricLatency.of (samples ++ [x]) = (MetricLatency.of samples).record x := by
  simp [MetricLatency.of]

theorem Histogram.of_spec (hlen : samples.length < wordSize) :
    (Histogram.of samples).buckets = (List.range numBuckets).map (inBucket bucket samples) ∧
      (Histogram.of samples).count = samples.length := by
  induction samples using List.reverseRecOn with
  | nil => exact ⟨rfl, rfl⟩
  | append_singleton l x ih =>
    rw [List.length_append, List.length_singleton] at hlen ⊢
    obtain ⟨hb, hc⟩ := ih (by omega)
    rw [Histogram.of_concat]
    simp only [record, hb, hc]
    exact ⟨counts_modify _ _ x hlen, wadd_eq hlen⟩

theorem MetricLatency.of_spec (hlen : samples.length < wordSize) :
    (MetricLatency.of samples).buckets =
        (List.range numBuckets).map (inBucket bucketIndex samples) ∧
      (MetricLatency.of samples).totalCount = samples.length := by
  induction samples using List.reverseRecOn with
  | nil => exact ⟨rfl, rfl⟩
  | append_singleton l x ih =>
    rw [List.length_append, List.length_singleton] at hlen ⊢
    obtain ⟨hb, hc⟩ := ih (by omega)
    rw [MetricLatency.of_concat]
    simp only [record, hb, hc]
    exact ⟨counts_modify _ _ x hlen, wadd_eq hlen⟩

end Tables

/-! ## The buckets follow the order -/

theorem log2_mono {a b : Nat} (h : a ≤ b) : a.log2 ≤ b.log2 := by
  rw [Nat.log2_eq_log_two, Nat.log2_eq_log_two]
  exact Nat.log_mono_right h

namespace Histogram

theorem bucket_mono : Monotone bucket := by
  intro x y hxy
  refine log2_mono ?_
  split <;> split <;> omega

theorem bucket_lt {x : Nat} (hx : x < wordSize) : bucket x < numBuckets := by
  have hne : (if x = 0 then 1 else x) ≠ 0 := by split <;> omega
  refine (Nat.log2_lt hne).mpr ?_
  change x < 2 ^ 64 at hx
  change (if x = 0 then 1 else x) < 2 ^ 64
  split <;> omega

/-- A value is in its bucket. -/
theorem mem_bucket (x : Nat) : InRange (bucket x) x := by
  unfold InRange
  rw [Nat.cast_le, Nat.cast_le]
  rcases Nat.eq_zero_or_pos x with rfl | hpos
  · decide
  · have hb : bucket x = x.log2 := by rw [bucket, if_neg (by omega)]
    rw [hb, low, high]
    have hlow := Nat.log2_self_le (n := x) (by omega)
    have hhigh := Nat.lt_log2_self (n := x)
    refine ⟨?_, by omega⟩
    split <;> omega

/-- The answer of a bucket is in its range, and in that of no other. -/
theorem answer_mem_iff {i j : Nat} : InRange i ((2 ^ j : Nat) : ℚ) ↔ i = j := by
  unfold InRange
  rw [Nat.cast_le, Nat.cast_le]
  constructor
  · rintro ⟨hlow, hhigh⟩
    have hpos : 0 < 2 ^ j := Nat.two_pow_pos j
    have hlt : j < i + 1 := by
      refine (Nat.pow_lt_pow_iff_right (by decide : 1 < 2)).mp ?_
      unfold high at hhigh
      omega
    have hle : i ≤ j := by
      rcases Nat.eq_zero_or_pos i with rfl | hi
      · exact Nat.zero_le j
      · rw [low, if_neg (by omega)] at hlow
        exact (Nat.pow_le_pow_iff_right (by decide : 1 < 2)).mp hlow
    omega
  · rintro rfl
    have : 2 ^ (i + 1) = 2 ^ i * 2 := Nat.pow_succ 2 i
    refine ⟨?_, by rw [high]; omega⟩
    rw [low]
    split <;> omega

theorem low_mono : Monotone low := by
  intro i j hij
  have hpow : 2 ^ i ≤ 2 ^ j := Nat.pow_le_pow_right (by decide) hij
  unfold low
  split
  next => exact Nat.zero_le _
  next hi => rwa [if_neg (by omega)]

end Histogram

namespace MetricLatency

theorem low_mono : Monotone low := by
  intro i j hij
  cases i with
  | zero => exact Nat.zero_le _
  | succ i =>
    cases j with
    | zero => omega
    | succ j => exact Nat.mul_le_mul_left 1000 (Nat.pow_le_pow_right (by decide) (by omega))

theorem low_succ_le (i : Nat) : low i ≤ low (i + 1) := low_mono (Nat.le_succ i)

/-- The bounds that the scan computes. -/
theorem next_low {i : Nat} (hi : i < numBuckets) : next i (low i) = low (i + 1) := by
  cases i with
  | zero => rfl
  | succ i =>
    have hpow : 2 ^ i ≤ 2 ^ 31 :=
      Nat.pow_le_pow_right (by decide) (by unfold numBuckets at hi; omega)
    rw [next, if_neg (by omega), low, low, Nat.pow_succ, Nat.mul_assoc]
    exact Nat.mod_eq_of_lt (by unfold wordSize; omega)

theorem bucketIndex_eq (ns : Nat) :
    bucketIndex ns = if ns < 1000 then 0 else min (numBuckets - 1) ((ns / 1000).log2 + 1) := by
  by_cases hsmall : ns < 1000
  · rw [if_pos hsmall, bucketIndex]
    have : ns / 1000 = 0 := Nat.div_eq_of_lt hsmall
    simp only [this, if_true, ite_self]
  · have hne : ns ≠ 0 := by omega
    have hus : ns / 1000 ≠ 0 := by omega
    simp only [bucketIndex, if_neg hsmall, if_neg hne, if_neg hus]
    split
    next h => rw [Nat.min_eq_left (by omega)]
    next h => rw [Nat.min_eq_right (by omega)]

theorem bucketIndex_lt (ns : Nat) : bucketIndex ns < numBuckets := by
  rw [bucketIndex_eq]
  unfold numBuckets
  split <;> omega

theorem bucketIndex_mono : Monotone bucketIndex := by
  intro x y hxy
  have := log2_mono (Nat.div_le_div_right (c := 1000) hxy)
  rw [bucketIndex_eq, bucketIndex_eq]
  split <;> split <;> omega

/-- A value is in its bucket. -/
theorem mem_bucket (x : Nat) : InRange (bucketIndex x) x := by
  rw [bucketIndex_eq]
  split
  next h => exact ⟨Nat.zero_le x, fun _ => Nat.le_of_lt h⟩
  next h =>
    have hlow := Nat.log2_self_le (n := x / 1000) (by omega)
    have hhigh := Nat.lt_log2_self (n := x / 1000)
    refine ⟨?_, fun hlast => ?_⟩
    · have hmono : low (min (numBuckets - 1) ((x / 1000).log2 + 1)) ≤ low ((x / 1000).log2 + 1) :=
        low_mono (Nat.min_le_right _ _)
      refine hmono.trans ?_
      rw [low]
      omega
    · rw [Nat.min_eq_right (by omega), low]
      omega

end MetricLatency

/-! ## What the scans find -/

section Scans

variable {samples : List Nat} {k i : Nat}

/-- The running sums stay below the number of samples, so they do not wrap. -/
theorem wadd_below (b : Nat → Nat) (hlen : samples.length < wordSize) (i : Nat) :
    wadd (below b samples i) (inBucket b samples i) = below b samples (i + 1) := by
  rw [below_succ]
  refine wadd_eq ?_
  rw [← below_succ]
  exact (below_le_length b samples (i + 1)).trans_lt hlen

/-- The scan from bucket `i` on, which the running sum has not come to `k` before. -/
theorem Histogram.scan_reaches (b : Nat → Nat) (hlen : samples.length < wordSize) (m : Nat)
    (hlow : i = 0 ∨ below b samples i < k) (hhigh : k ≤ below b samples (i + (m + 1))) :
    ∃ j, Reaches b samples k j ∧
      scan k ((List.range' i (m + 1)).map (inBucket b samples)) i (below b samples i) =
        some j := by
  induction m generalizing i with
  | zero =>
    refine ⟨i, ⟨hhigh, hlow⟩, ?_⟩
    rw [List.range'_succ, List.map_cons, scan, wadd_below b hlen, if_pos hhigh]
  | succ m ih =>
    rw [List.range'_succ, List.map_cons, scan, wadd_below b hlen]
    split
    next hreach => exact ⟨i, ⟨hreach, hlow⟩, rfl⟩
    next hnot =>
      refine ih (.inr (Nat.not_le.mp hnot)) ?_
      rwa [show i + 1 + (m + 1) = i + (m + 1 + 1) by omega]

/-- What `MetricLatency` answers for the rank `k` that is reached in bucket `i`. -/
def MetricLatency.answer (samples : List Nat) (k i : Nat) : Nat :=
  low i + ⌊((low (i + 1) - low i : Nat) : ℚ) *
    (((k - below bucketIndex samples i : Nat) : ℚ) / (inBucket bucketIndex samples i : ℚ))⌋₊

/-- The interpolation stays inside of the bucket. -/
theorem MetricLatency.answer_mem (h : Reaches bucketIndex samples k i) :
    low i ≤ answer samples k i ∧ answer samples k i ≤ low (i + 1) := by
  refine ⟨Nat.le_add_right _ _, ?_⟩
  have hsum := below_succ bucketIndex samples i
  have hfrac : (((k - below bucketIndex samples i : Nat) : ℚ) /
      (inBucket bucketIndex samples i : ℚ)) ≤ 1 := by
    refine div_le_one_of_le₀ ?_ (Nat.cast_nonneg _)
    have := h.1
    exact_mod_cast (by omega : k - below bucketIndex samples i ≤ inBucket bucketIndex samples i)
  have hfloor : ⌊((low (i + 1) - low i : Nat) : ℚ) *
      (((k - below bucketIndex samples i : Nat) : ℚ) /
        (inBucket bucketIndex samples i : ℚ))⌋₊ ≤ low (i + 1) - low i := by
    refine Nat.floor_le_of_le ?_
    exact mul_le_of_le_one_right (Nat.cast_nonneg _) hfrac
  have := low_succ_le i
  unfold answer
  omega

/-- Where the samples of a bucket are used up, the answer is its upper bound. -/
theorem MetricLatency.answer_full (h : Reaches bucketIndex samples k i) (hk : 1 ≤ k)
    (hfull : k = below bucketIndex samples (i + 1)) : answer samples k i = low (i + 1) := by
  have hsum := below_succ bucketIndex samples i
  have hlt := h.below_lt hk
  have hn : k - below bucketIndex samples i = inBucket bucketIndex samples i := by omega
  have hpos : (inBucket bucketIndex samples i : ℚ) ≠ 0 := by
    exact_mod_cast (by omega : inBucket bucketIndex samples i ≠ 0)
  have := low_succ_le i
  rw [answer, hn, div_self hpos, mul_one, Nat.floor_natCast]
  omega

theorem MetricLatency.low_lt {i : Nat} (hi : i ≤ numBuckets) : low i < wordSize :=
  (low_mono hi).trans_lt (by decide)

/-- The scan from bucket `i` on, which the running sum has not come to `k` before. -/
theorem MetricLatency.scan_reaches (hlen : samples.length < wordSize) (m : Nat)
    (hm : i + (m + 1) ≤ numBuckets) (hlow : i = 0 ∨ below bucketIndex samples i < k)
    (hhigh : k ≤ below bucketIndex samples (i + (m + 1))) : ∃ j, Reaches bucketIndex samples k j ∧
      scan exact k ((List.range' i (m + 1)).map (inBucket bucketIndex samples)) i
        (below bucketIndex samples i) (low i) = answer samples k j := by
  -- what the loop returns in the bucket that reaches `k`
  have found {i : Nat} (hi : i + 1 ≤ numBuckets) (h : Reaches bucketIndex samples k i) :
      (if inBucket bucketIndex samples i = 0 then low i
        else wadd (low i) (exact.trunc (exact.mul (exact.ofNat (wsub (next i (low i)) (low i)))
          (exact.div (exact.ofNat (wsub k (wsub (below bucketIndex samples (i + 1))
            (inBucket bucketIndex samples i))))
            (exact.ofNat (inBucket bucketIndex samples i)))))) = answer samples k i := by
    have hsum := below_succ bucketIndex samples i
    have hbound := (below_le_length bucketIndex samples (i + 1)).trans_lt hlen
    have hk := h.1
    split
    next hzero => simp [answer, hzero]
    next hpos =>
      have hprev : wsub (below bucketIndex samples (i + 1)) (inBucket bucketIndex samples i) =
          below bucketIndex samples i := by
        rw [wsub_eq (by omega) hbound]
        omega
      have hrank : below bucketIndex samples i ≤ k := by
        rcases h.2 with rfl | hlt
        · rw [below_zero]
          exact Nat.zero_le k
        · exact Nat.le_of_lt hlt
      have hwidth : wsub (next i (low i)) (low i) = low (i + 1) - low i := by
        rw [next_low (by omega), wsub_eq (low_succ_le i) (low_lt hi)]
      rw [hprev, hwidth, wsub_eq hrank (by omega)]
      refine wadd_eq ?_
      exact (answer_mem h).2.trans_lt (low_lt hi)
  induction m generalizing i with
  | zero =>
    refine ⟨i, ⟨hhigh, hlow⟩, ?_⟩
    rw [List.range'_succ, List.map_cons, scan]
    simp only [wadd_below bucketIndex hlen]
    rw [if_pos hhigh]
    exact found hm ⟨hhigh, hlow⟩
  | succ m ih =>
    rw [List.range'_succ, List.map_cons, scan]
    simp only [wadd_below bucketIndex hlen]
    split
    next hreach => exact ⟨i, ⟨hreach, hlow⟩, found (by omega) ⟨hreach, hlow⟩⟩
    next hnot =>
      rw [next_low (by omega)]
      refine ih (by omega) (.inr (Nat.not_le.mp hnot)) ?_
      rwa [show i + 1 + (m + 1) = i + (m + 1 + 1) by omega]

end Scans

/-! ## Percentiles -/

/-- The rank that the scans look for. -/
def floorRank (samples : List Nat) (p : ℚ) : Nat := ⌊(samples.length : ℚ) * p⌋₊

/-- The rank of the `p`-th percentile. -/
def ceilRank (samples : List Nat) (p : ℚ) : Nat := ⌈(samples.length : ℚ) * p⌉₊

/-- The bucket of the sample of the truncated rank; rank 0 is reached in the first bucket. -/
def floorBucket (b : Nat → Nat) (samples : List Nat) (p : ℚ) : Nat :=
  match kthSmallest samples (floorRank samples p) with
  | none => 0
  | some x => b x

/-- `Histogram` is asked for the bucket that the truncated rank is in. -/
def Histogram.RankKept (samples : List Nat) (p : ℚ) : Prop :=
  ∃ x, kthSmallest samples (ceilRank samples p) = some x ∧
    bucket x = floorBucket bucket samples p

/-- `MetricLatency` is asked for the bucket that the truncated rank is in or, unless that is
    rank 0, for the next one, which begins with the upper bound of that one. -/
def MetricLatency.RankKept (samples : List Nat) (p : ℚ) : Prop :=
  ∃ x, kthSmallest samples (ceilRank samples p) = some x ∧
    (bucketIndex x = floorBucket bucketIndex samples p ∨
      (1 ≤ floorRank samples p ∧ bucketIndex x = floorBucket bucketIndex samples p + 1))

/-- The answer `r` is in the closed bucket range that has the `ceil(p * count)`-th smallest
    sample, and not below the bucket of the smallest one. -/
def Histogram.Right (samples : List Nat) (p r : ℚ) : Prop :=
  (∃ x, kthSmallest samples (ceilRank samples p) = some x ∧ InRange (bucket x) x ∧
      InRange (bucket x) r) ∧
    ∃ x, kthSmallest samples 1 = some x ∧ (low (bucket x) : ℚ) ≤ r

def MetricLatency.Right (samples : List Nat) (p : ℚ) (r : Nat) : Prop :=
  (∃ x, kthSmallest samples (ceilRank samples p) = some x ∧ InRange (bucketIndex x) x ∧
      InRange (bucketIndex x) r) ∧
    ∃ x, kthSmallest samples 1 = some x ∧ low (bucketIndex x) ≤ r

section Percentiles

variable {samples : List Nat} {p q : ℚ} {x : Nat}

theorem floorRank_mono (hpq : p ≤ q) : floorRank samples p ≤ floorRank samples q :=
  Nat.floor_le_floor (mul_le_mul_of_nonneg_left hpq (Nat.cast_nonneg _))

theorem floorRank_le (hp : p ≤ 1) : floorRank samples p ≤ samples.length :=
  Nat.floor_le_of_le (mul_le_of_le_one_right (Nat.cast_nonneg _) hp)

theorem ceilRank_pos (hne : samples ≠ []) (hp : 0 < p) : 1 ≤ ceilRank samples p := by
  refine Nat.ceil_pos.mpr (mul_pos ?_ hp)
  exact_mod_cast List.length_pos_iff.mpr hne

theorem floorRank_le_ceilRank : floorRank samples p ≤ ceilRank samples p :=
  Nat.floor_le_ceil _

theorem ceilRank_le_succ : ceilRank samples p ≤ floorRank samples p + 1 :=
  Nat.ceil_le_floor_add_one _

/-- The truncated rank is reached in its bucket. -/
theorem reaches_floorBucket {b : Nat → Nat} (hb : Monotone b) (hp : p ≤ 1) :
    Reaches b samples (floorRank samples p) (floorBucket b samples p) := by
  rcases Nat.eq_zero_or_pos (floorRank samples p) with hzero | hpos
  · have hbucket : floorBucket b samples p = 0 := by rw [floorBucket, hzero]; rfl
    rw [hzero, hbucket]
    exact ⟨Nat.zero_le _, .inl rfl⟩
  · obtain ⟨y, hy⟩ := exists_kthSmallest hpos (floorRank_le hp)
    rw [reaches_iff hb hy, floorBucket, hy]

/-- The bucket that is found is not after the one that is asked for. -/
theorem floorBucket_le {b : Nat → Nat} (hb : Monotone b) (hp : p ≤ 1)
    (hx : kthSmallest samples (ceilRank samples p) = some x) : floorBucket b samples p ≤ b x :=
  (reaches_floorBucket hb hp).le ((reaches_iff hb hx).mpr rfl) floorRank_le_ceilRank

/-- What `Histogram` answers. -/
theorem Histogram.percentile_eq (hne : samples ≠ []) (hlen : samples.length < wordSize)
    (hword : ∀ x ∈ samples, x < wordSize) (hp : p ≤ 1) : (Histogram.of samples).percentile exact p =
      ((2 ^ floorBucket bucket samples p : Nat) : ℚ) := by
  obtain ⟨hbuckets, hcount⟩ := Histogram.of_spec hlen
  have hall : below bucket samples (0 + (63 + 1)) = samples.length :=
    below_eq_length (fun x hx => bucket_lt (hword x hx))
  obtain ⟨j, hj, hscan⟩ := Histogram.scan_reaches (k := floorRank samples p) bucket hlen 63
    (.inl rfl) (by rw [hall]; exact floorRank_le hp)
  rw [below_zero, ← List.range_eq_range'] at hscan
  have htarget : exact.trunc (exact.mul (exact.ofNat samples.length) p) = floorRank samples p :=
    rfl
  obtain rfl := hj.unique (reaches_floorBucket bucket_mono hp)
  rw [percentile, hcount, if_neg (by simpa using hne), hbuckets, htarget]
  change (match scan _ ((List.range 64).map _) 0 0 with | some i => _ | none => _) = _
  rw [hscan]
  rfl

/-- What `MetricLatency` answers. -/
theorem MetricLatency.percentile_eq (hne : samples ≠ []) (hlen : samples.length < wordSize)
    (hp : p ≤ 1) : (MetricLatency.of samples).percentile exact p =
      answer samples (floorRank samples p) (floorBucket bucketIndex samples p) := by
  obtain ⟨hbuckets, hcount⟩ := MetricLatency.of_spec hlen
  have hall : below bucketIndex samples (0 + (31 + 1)) = samples.length :=
    below_eq_length (fun x _ => bucketIndex_lt x)
  obtain ⟨j, hj, hscan⟩ := MetricLatency.scan_reaches (k := floorRank samples p) hlen 31
    (by decide) (.inl rfl) (by rw [hall]; exact floorRank_le hp)
  rw [below_zero, ← List.range_eq_range'] at hscan
  obtain rfl := hj.unique (reaches_floorBucket bucketIndex_mono hp)
  rw [percentile, hcount, if_neg (by simpa using hne), hbuckets]
  exact hscan

/-- The answer of `MetricLatency` is in the range of the bucket that is asked for if that is
    the one found, or the next one and the rank is not truncated to 0. -/
theorem MetricLatency.percentile_mem_iff (hne : samples ≠ []) (hlen : samples.length < wordSize)
    (hp : p ≤ 1) (hx : kthSmallest samples (ceilRank samples p) = some x) :
    InRange (bucketIndex x) ((MetricLatency.of samples).percentile exact p) ↔
      bucketIndex x = floorBucket bucketIndex samples p ∨
        (1 ≤ floorRank samples p ∧ bucketIndex x = floorBucket bucketIndex samples p + 1) := by
  have hreach : Reaches bucketIndex samples _ _ := reaches_floorBucket bucketIndex_mono hp
  have hle := floorBucket_le bucketIndex_mono hp hx
  rw [MetricLatency.percentile_eq hne hlen hp]
  set i := floorBucket bucketIndex samples p with hi
  obtain ⟨hlow, hhigh⟩ := answer_mem hreach
  constructor
  · rintro ⟨hfrom, -⟩
    rcases Nat.lt_or_ge (i + 1) (bucketIndex x) with hfar | hnear
    · -- two buckets on, the range begins above all answers of the bucket found
      have hstrict : low (i + 1) < low (i + 2) := by
        have := Nat.two_pow_pos i
        rw [low, low, Nat.pow_succ]
        omega
      have hbeyond : low (i + 2) ≤ low (bucketIndex x) := low_mono hfar
      omega
    · rcases Nat.eq_or_lt_of_le hle with heq | hlt
      · exact .inl heq.symm
      · refine .inr ⟨Nat.pos_of_ne_zero (fun hzero => ?_), by omega⟩
        -- rank 0 is answered by 0
        have hbucket : i = 0 := by rw [hi, floorBucket, hzero]; rfl
        have hanswer : answer samples (floorRank samples p) i = 0 := by
          rw [hzero, hbucket]
          simp [answer, low]
        have hone : low 1 ≤ low (bucketIndex x) := low_mono (by omega)
        rw [hanswer] at hfrom
        exact absurd (hone.trans hfrom) (by decide)
  · rintro (heq | ⟨hpos, hnext⟩)
    · rw [heq]
      exact ⟨hlow, fun _ => hhigh⟩
    · -- the next rank is in the next bucket, so this one is used up
      have hfull : floorRank samples p = below bucketIndex samples (i + 1) := by
        have hceil := ((reaches_iff bucketIndex_mono hx).mpr hnext).2
        have hsucc : ceilRank samples p ≤ floorRank samples p + 1 := ceilRank_le_succ
        have := hreach.1
        omega
      rw [answer_full hreach hpos hfull, hnext]
      exact ⟨Nat.le_refl _, fun _ => low_succ_le _⟩

/-- A higher rank has no lower answer. -/
theorem MetricLatency.answer_le {k k' i i' : Nat} (h : Reaches bucketIndex samples k i)
    (h' : Reaches bucketIndex samples k' i') (hk : k ≤ k') :
    answer samples k i ≤ answer samples k' i' := by
  rcases Nat.eq_or_lt_of_le (h.le h' hk) with rfl | hlt
  · refine Nat.add_le_add_left (Nat.floor_le_floor ?_) _
    refine mul_le_mul_of_nonneg_left ?_ (Nat.cast_nonneg _)
    refine div_le_div_of_nonneg_right ?_ (Nat.cast_nonneg _)
    exact_mod_cast Nat.sub_le_sub_right hk _
  · calc answer samples k i ≤ low (i + 1) := (answer_mem h).2
      _ ≤ low i' := low_mono hlt
      _ ≤ answer samples k' i' := (answer_mem h').1

/-- The smallest sample is in no later bucket than the others. -/
theorem least_bucket_le {b : Nat → Nat} (hb : Monotone b) {least : Nat} {k : Nat}
    (hleast : kthSmallest samples 1 = some least) (hx : kthSmallest samples k = some x)
    (hk : 1 ≤ k) : b least ≤ b x :=
  ((reaches_iff hb hleast).mpr rfl).le ((reaches_iff hb hx).mpr rfl) hk

/-- `Histogram` answers rightly if the truncation of the rank keeps the bucket, and only
    then. -/
theorem Histogram.right_iff (hne : samples ≠ []) (hlen : samples.length < wordSize)
    (hword : ∀ x ∈ samples, x < wordSize) (hp : 0 < p) (hp1 : p ≤ 1) :
    Histogram.Right samples p ((Histogram.of samples).percentile exact p) ↔
      Histogram.RankKept samples p := by
  rw [Histogram.percentile_eq hne hlen hword hp1]
  constructor
  · rintro ⟨⟨x, hx, -, hin⟩, -⟩
    exact ⟨x, hx, answer_mem_iff.mp hin⟩
  · rintro ⟨x, hx, hbucket⟩
    obtain ⟨least, hleast⟩ := exists_kthSmallest (Nat.le_refl 1) (List.length_pos_iff.mpr hne)
    have hin := answer_mem_iff.mpr hbucket
    refine ⟨⟨x, hx, mem_bucket x, hin⟩, least, hleast, le_trans ?_ hin.1⟩
    exact_mod_cast low_mono (least_bucket_le bucket_mono hleast hx (ceilRank_pos hne hp))

/-- `MetricLatency` answers rightly if the truncation of the rank keeps the bucket or takes
    the last sample of the bucket before, and only then. -/
theorem MetricLatency.right_iff (hne : samples ≠ []) (hlen : samples.length < wordSize)
    (hp : 0 < p) (hp1 : p ≤ 1) :
    MetricLatency.Right samples p ((MetricLatency.of samples).percentile exact p) ↔
      MetricLatency.RankKept samples p := by
  constructor
  · rintro ⟨⟨x, hx, -, hin⟩, -⟩
    exact ⟨x, hx, (percentile_mem_iff hne hlen hp1 hx).mp hin⟩
  · rintro ⟨x, hx, hbucket⟩
    obtain ⟨least, hleast⟩ := exists_kthSmallest (Nat.le_refl 1) (List.length_pos_iff.mpr hne)
    have hin := (percentile_mem_iff hne hlen hp1 hx).mpr hbucket
    refine ⟨⟨x, hx, mem_bucket x, hin⟩, least, hleast, le_trans ?_ hin.1⟩
    exact low_mono (least_bucket_le bucketIndex_mono hleast hx (ceilRank_pos hne hp))

/-- **Percentiles fall in the right bucket** exactly where the truncation of the rank
    `count * p` does no harm: for every non-empty list of fewer than `2 ^ 64` samples and
    every `p`.  And they never decrease when `p` grows. -/
theorem percentile_in_bucket (hne : samples ≠ []) (hlen : samples.length < wordSize)
    (hword : ∀ x ∈ samples, x < wordSize) (hp : 0 < p) (hp1 : p ≤ 1) :
    (Histogram.Right samples p ((Histogram.of samples).percentile exact p) ↔
      Histogram.RankKept samples p) ∧
    (MetricLatency.Right samples p ((MetricLatency.of samples).percentile exact p) ↔
      MetricLatency.RankKept samples p) ∧
    ∀ q, p ≤ q → q ≤ 1 →
      (Histogram.of samples).percentile exact p ≤ (Histogram.of samples).percentile exact q ∧
      (MetricLatency.of samples).percentile exact p ≤
        (MetricLatency.of samples).percentile exact q := by
  refine ⟨Histogram.right_iff hne hlen hword hp hp1, MetricLatency.right_iff hne hlen hp hp1, ?_⟩
  intro q hpq hq
  have hrank : floorRank samples p ≤ floorRank samples q := floorRank_mono hpq
  constructor
  · rw [Histogram.percentile_eq hne hlen hword hp1, Histogram.percentile_eq hne hlen hword hq,
      Nat.cast_le]
    refine Nat.pow_le_pow_right (by decide) ?_
    exact (reaches_floorBucket Histogram.bucket_mono hp1).le
      (reaches_floorBucket Histogram.bucket_mono hq) hrank
  · rw [MetricLatency.percentile_eq hne hlen hp1, MetricLatency.percentile_eq hne hlen hq]
    exact MetricLatency.answer_le (reaches_floorBucket MetricLatency.bucketIndex_mono hp1)
      (reaches_floorBucket MetricLatency.bucketIndex_mono hq) hrank

end Percentiles

/-- Four samples in two buckets, and their median. -/
theorem median_of_four :
    Histogram.Right [9000, 3, 2, 5000] (1 / 2)
      ((Histogram.of [9000, 3, 2, 5000]).percentile exact (1 / 2)) ∧
    MetricLatency.Right [9000, 3, 2, 5000] (1 / 2)
      ((MetricLatency.of [9000, 3, 2, 5000]).percentile exact (1 / 2)) := by
  have hne : [9000, 3, 2, 5000] ≠ [] := by decide
  have hp : (0 : ℚ) < 1 / 2 := by norm_num
  have h := percentile_in_bucket hne (by decide) (by decide) hp (by norm_num)
  exact ⟨h.1.mpr ⟨3, by decide +kernel⟩, h.2.1.mpr ⟨3, by decide +kernel, .inl (by decide +kernel)⟩⟩

/-- The median of one sample of 8000 ns is answered by 1 and by 0, far below its bucket; and
    with one sample of 1 ns and one of 8000 ns, three quarters are truncated to the lower
    one. -/
theorem percentile_truncated : (Histogram.of [8000]).percentile exact (1 / 2) = 1 ∧
    (MetricLatency.of [8000]).percentile exact (1 / 2) = 0 ∧
    kthSmallest [8000] (ceilRank [8000] (1 / 2)) = some 8000 ∧
    ¬ Histogram.InRange (Histogram.bucket 8000) 1 ∧
    ¬ MetricLatency.InRange (MetricLatency.bucketIndex 8000) 0 ∧
    floorRank [1, 8000] (3 / 4) = 1 ∧
    kthSmallest [1, 8000] (ceilRank [1, 8000] (3 / 4)) = some 8000 ∧
    (Histogram.of [1, 8000]).percentile exact (3 / 4) = 1 ∧
    (MetricLatency.of [1, 8000]).percentile exact (3 / 4) = 1000 ∧
    ¬ MetricLatency.InRange (MetricLatency.bucketIndex 8000) 1000 := by
  decide +kernel

end Metrics
