import Mathlib.Data.Rat.Floor
import WebrtcCore.Verified.CMemory
import WebrtcCore.Verified.Moments

/-!
# Sample counters with a variance

Port of `SampleCounter` and `SampleCounterWithVariance`
(`rtc_base/numerics/sample_counter.{h,cc}`), in builds with and without the debug checks.  A
counter keeps the number, the sum and the sum of the squares of its samples in `int64_t`, and
the greatest sample.  An overflow and a division by zero are undefined.  Counters are built
from the empty one by adding samples and by merging counters.
-/

namespace WebrtcCore.Ports.SampleVariance

open Verified CMemory Moments Regression List

variable (dcheckIsOn : Bool)

/-! ## The counters -/

structure SampleCounter where
  sum : Int := 0
  numSamples : Int := 0
  max : Option Int := none
deriving DecidableEq, Repr

/-- What both `Add` check before they change the sum. -/
def SumFits (sum added : Int) : Prop :=
  if 0 < sum then added ≤ 2 ^ 63 - 1 - sum else -2 ^ 63 - sum ≤ added
  deriving Decidable

/-- The greater of a maximum that may be missing and a sample. -/
def raise (max : Option Int) (sample : Int) : Option Int :=
  if ∀ m ∈ max, m < sample then some sample else max

namespace SampleCounter

/-- `Add` of a sample. -/
def add (c : SampleCounter) (sample : Int) : Option SampleCounter := do
  dcheck dcheckIsOn (SumFits c.sum sample)
  let sum ← int64 (c.sum + sample)
  let numSamples ← int64 (c.numSamples + 1)
  return ⟨sum, numSamples, raise c.max sample⟩

/-- `Add` of another counter. -/
def merge (c other : SampleCounter) : Option SampleCounter := do
  dcheck dcheckIsOn (SumFits c.sum other.sum)
  let sum ← int64 (c.sum + other.sum)
  dcheck dcheckIsOn (other.numSamples ≤ 2 ^ 63 - 1 - c.numSamples)
  let numSamples ← int64 (c.numSamples + other.numSamples)
  return ⟨sum, numSamples, other.max.elim c.max (raise c.max)⟩

def avg (c : SampleCounter) (minRequiredSamples : Int) : Option (Option Int) := do
  dcheck dcheckIsOn (0 < minRequiredSamples)
  if c.numSamples < minRequiredSamples then
    return none
  else
    let quotient ← int64Div c.sum c.numSamples
    -- `dchecked_cast<int>`
    dcheck dcheckIsOn (InInt quotient)
    return some (quotient.bmod (2 ^ 32))

end SampleCounter

structure SampleCounterWithVariance extends SampleCounter where
  sumSquared : Int := 0
deriving DecidableEq, Repr

namespace SampleCounterWithVariance

/-- `Add` of a sample. -/
def add (c : SampleCounterWithVariance) (sample : Int) : Option SampleCounterWithVariance := do
  let base ← c.toSampleCounter.add dcheckIsOn sample
  -- Prevent overflow in squaring.
  dcheck dcheckIsOn (-2 ^ 31 < sample)
  dcheck dcheckIsOn (sample * sample ≤ 2 ^ 63 - 1 - c.sumSquared)
  let sumSquared ← int64 (c.sumSquared + sample * sample)
  return ⟨base, sumSquared⟩

/-- `Add` of another counter. -/
def merge (c other : SampleCounterWithVariance) : Option SampleCounterWithVariance := do
  let base ← c.toSampleCounter.merge dcheckIsOn other.toSampleCounter
  dcheck dcheckIsOn (other.sumSquared ≤ 2 ^ 63 - 1 - c.sumSquared)
  let sumSquared ← int64 (c.sumSquared + other.sumSquared)
  return ⟨base, sumSquared⟩

def variance (c : SampleCounterWithVariance) (minRequiredSamples : Int) :
    Option (Option Int) := do
  dcheck dcheckIsOn (0 < minRequiredSamples)
  if c.numSamples < minRequiredSamples then
    return none
  else
    -- E[(x-mean)^2] = E[x^2] - mean^2
    let mean ← int64Div c.sum c.numSamples
    let meanOfSquares ← int64Div c.sumSquared c.numSamples
    let square ← int64 (mean * mean)
    let variance ← int64 (meanOfSquares - square)
    return some variance

end SampleCounterWithVariance

/-! ## Building a counter -/

/-- How a counter came about. -/
inductive Build where
  | new
  | add (counter : Build) (sample : Int)
  | merge (counter other : Build)
deriving DecidableEq, Repr

namespace Build

def counter : Build → Option SampleCounterWithVariance
  | .new => some {}
  | .add b sample => do (← b.counter).add dcheckIsOn sample
  | .merge b other => do (← b.counter).merge dcheckIsOn (← other.counter)

/-- The samples of all counters that went into one. -/
def samples : Build → List Int
  | .new => []
  | .add b sample => b.samples ++ [sample]
  | .merge b other => b.samples ++ other.samples

end Build

/-- The samples a counter can hold. -/
structure Fits (samples : List Int) : Prop where
  isInt : ∀ x ∈ samples, InInt x
  /-- The lowest `int` does not pass a debug check. -/
  notLowest : dcheckIsOn = true → ∀ x ∈ samples, x ≠ -2 ^ 31
  squares : squares samples < 2 ^ 63
  length : samples.length < 2 ^ 63

/-- What a counter says about the samples. -/
structure Counts (c : SampleCounterWithVariance) (samples : List Int) : Prop where
  sum : c.sum = samples.sum
  numSamples : c.numSamples = samples.length
  max : c.max = samples.max?
  sumSquared : c.sumSquared = squares samples

variable {dcheckIsOn} {samples samples' : List Int} {c c' : SampleCounterWithVariance}

theorem Fits.split (h : Fits dcheckIsOn (samples ++ samples')) :
    Fits dcheckIsOn samples ∧ Fits dcheckIsOn samples' := by
  have hsquares := h.squares
  have hlength := h.length
  rw [squares_append] at hsquares
  rw [length_append] at hlength
  have hnonneg := squares_nonneg samples
  have hnonneg' := squares_nonneg samples'
  obtain ⟨hleft, hright⟩ := forall_mem_append.1 h.isInt
  exact ⟨⟨hleft, fun hon => (forall_mem_append.1 (h.notLowest hon)).1, by omega, by omega⟩,
    ⟨hright, fun hon => (forall_mem_append.1 (h.notLowest hon)).2, by omega, by omega⟩⟩

theorem Fits.sum (h : Fits dcheckIsOn samples) : InInt64 samples.sum := by
  have habs := abs_le.1 (abs_sum_le_squares samples)
  have hsquares := h.squares
  constructor <;> omega

/-! ### Additions that fit -/

theorem sumFits_of {sum added : Int} (h : InInt64 (sum + added)) : SumFits sum added := by
  obtain ⟨hlo, hhi⟩ := h
  unfold SumFits
  split <;> omega

/-! ### The greatest sample -/

theorem raise_eq_merge (max : Option Int) (sample : Int) :
    raise max sample = Option.merge Max.max max (some sample) := by
  cases max with
  | none => rfl
  | some m =>
    unfold raise
    by_cases h : m < sample
    · rw [if_pos (by simpa using h)]
      exact congrArg some (max_eq_right h.le).symm
    · rw [if_neg (by simpa using h)]
      exact congrArg some (max_eq_left (not_lt.1 h)).symm

theorem max?_append (xs ys : List Int) :
    (xs ++ ys).max? = Option.merge Max.max xs.max? ys.max? := by
  cases xs with
  | nil => cases ys <;> rfl
  | cons x xs =>
    cases ys with
    | nil =>
      rw [append_nil]
      rfl
    | cons y ys =>
      rw [cons_append, max?_cons', foldl_append, foldl_cons, foldl_assoc]
      rfl

/-! ### Counters count -/

theorem Counts.add {sample : Int} (hc : Counts c samples)
    (h : Fits dcheckIsOn (samples ++ [sample])) :
    ∃ c', c.add dcheckIsOn sample = some c' ∧ Counts c' (samples ++ [sample]) := by
  have hsum := h.sum
  have hsquares := h.squares
  have hlength := h.length
  have hnonneg := squares_nonneg samples
  have hlowest : dcheckIsOn = true → -2 ^ 31 < sample := by
    intro hon
    have hint := (h.isInt sample (by simp)).1
    have hne := h.notLowest hon sample (by simp)
    omega
  rw [sum_append, sum_singleton, ← hc.sum] at hsum
  rw [squares_append, squares_cons, squares_nil, ← hc.sumSquared] at hsquares
  rw [← hc.sumSquared] at hnonneg
  rw [length_append, length_singleton] at hlength
  have hnum := hc.numSamples
  have hsquare := mul_self_nonneg sample
  refine ⟨⟨⟨c.sum + sample, c.numSamples + 1, raise c.max sample⟩,
    c.sumSquared + sample * sample⟩, ?_, ?_⟩
  · unfold SampleCounterWithVariance.add SampleCounter.add
    rw [dcheck_of (sumFits_of hsum), int64_of hsum,
      int64_of (x := c.numSamples + 1) ⟨by omega, by omega⟩, dcheck,
      demand_of hlowest, dcheck_of (by omega), int64_of ⟨by omega, by omega⟩]
    rfl
  · constructor
    · simp [hc.sum]
    · simp [hnum]
    · rw [raise_eq_merge, hc.max, max?_append]
      rfl
    · simp [hc.sumSquared]

theorem Counts.merge (hc : Counts c samples) (hc' : Counts c' samples')
    (h : Fits dcheckIsOn (samples ++ samples')) :
    ∃ d, c.merge dcheckIsOn c' = some d ∧ Counts d (samples ++ samples') := by
  have hsum := h.sum
  have hsquares := h.squares
  have hlength := h.length
  have hnonneg := squares_nonneg samples
  have hnonneg' := squares_nonneg samples'
  rw [sum_append, ← hc.sum, ← hc'.sum] at hsum
  rw [squares_append, ← hc.sumSquared, ← hc'.sumSquared] at hsquares
  rw [← hc.sumSquared] at hnonneg
  rw [← hc'.sumSquared] at hnonneg'
  rw [length_append] at hlength
  have hnum := hc.numSamples
  have hnum' := hc'.numSamples
  refine ⟨⟨⟨c.sum + c'.sum, c.numSamples + c'.numSamples, c'.max.elim c.max (raise c.max)⟩,
    c.sumSquared + c'.sumSquared⟩, ?_, ?_⟩
  · unfold SampleCounterWithVariance.merge SampleCounter.merge
    rw [dcheck_of (sumFits_of hsum), int64_of hsum, dcheck_of (p := c'.numSamples ≤ _) (by omega),
      int64_of (x := c.numSamples + c'.numSamples) ⟨by omega, by omega⟩,
      dcheck_of (by omega), int64_of ⟨by omega, by omega⟩]
    rfl
  · constructor
    · simp [hc.sum, hc'.sum]
    · simp [hnum, hnum']
    · rw [max?_append, ← hc.max, ← hc'.max]
      cases c'.max with
      | none => cases c.max <;> rfl
      | some m => exact raise_eq_merge c.max m
    · simp [hc.sumSquared, hc'.sumSquared]

theorem counter_counts : ∀ b : Build, Fits dcheckIsOn b.samples →
    ∃ c, b.counter dcheckIsOn = some c ∧ Counts c b.samples
  | .new, _ => ⟨{}, rfl, rfl, rfl, rfl, rfl⟩
  | .add b sample, h => by
    obtain ⟨c, hcounter, hc⟩ := counter_counts b h.split.1
    obtain ⟨c', hadd, hc'⟩ := hc.add h
    refine ⟨c', ?_, hc'⟩
    rw [Build.counter, hcounter]
    exact hadd
  | .merge b other, h => by
    obtain ⟨c, hcounter, hc⟩ := counter_counts b h.split.1
    obtain ⟨c', hcounter', hc'⟩ := counter_counts other h.split.2
    obtain ⟨d, hmerge, hd⟩ := hc.merge hc' h
    refine ⟨d, ?_, hd⟩
    rw [Build.counter, hcounter, hcounter']
    exact hmerge

/-! ### Quotients -/

section Quotients

variable {a n : Int}

theorem tdiv_le {hi : Int} (hn : 0 < n) (h : a ≤ n * hi) : a.tdiv n ≤ hi :=
  Int.mul_tdiv_cancel_left hi hn.ne' ▸ Int.tdiv_le_tdiv hn h

theorem le_tdiv {lo : Int} (hn : 0 < n) (h : n * lo ≤ a) : lo ≤ a.tdiv n :=
  Int.mul_tdiv_cancel_left lo hn.ne' ▸ Int.tdiv_le_tdiv hn h

theorem abs_tdiv_sub_lt (hn : 0 < n) : |(a.tdiv n : ℚ) - a / n| < 1 := by
  have hn' : (0 : ℚ) < n := by exact_mod_cast hn
  have hdiv : (a : ℚ) = n * a.tdiv n + a.tmod n := by
    exact_mod_cast (Int.mul_tdiv_add_tmod a n).symm
  have hmod : |a.tmod n| < n := abs_lt.2 ⟨Int.lt_tmod_of_pos a hn, Int.tmod_lt_of_pos a hn⟩
  have hsub : (a.tdiv n : ℚ) - a / n = -(a.tmod n / n) := by
    rw [hdiv]
    field_simp
    ring
  rw [hsub, abs_neg, abs_div, abs_of_pos hn', div_lt_one hn']
  exact_mod_cast hmod

theorem tdiv_mul_self_le (hn : 0 < n) : (a.tdiv n : ℚ) * a.tdiv n ≤ (a / n : ℚ) * (a / n) := by
  have hn' : (0 : ℚ) < n := by exact_mod_cast hn
  have habs : |a.tdiv n| * n ≤ |a| := by
    rw [Int.abs_eq_natAbs, Int.abs_eq_natAbs, Int.natAbs_tdiv]
    have hle := Nat.div_mul_le_self a.natAbs n.natAbs
    rw [show n = (n.natAbs : Int) by omega]
    exact_mod_cast hle
  rw [← abs_mul_abs_self (a.tdiv n : ℚ), ← abs_mul_abs_self (a / n : ℚ)]
  apply mul_self_le_mul_self (abs_nonneg _)
  rw [abs_div, abs_of_pos hn', le_div_iff₀ hn']
  exact_mod_cast habs

end Quotients

/-! ## Accuracy -/

/-- The mean of the samples. -/
def exactMean (samples : List Int) : ℚ := mean (samples.map (Int.cast : Int → ℚ))

/-- The mean of the squared deviations of the samples. -/
def exactVariance (samples : List Int) : ℚ :=
  Verified.Regression.variance (samples.map (Int.cast : Int → ℚ)) / samples.length

theorem exactMean_eq (samples : List Int) :
    exactMean samples = (samples.sum : ℚ) / (samples.length : Int) := by
  have hsum : (samples.map (Int.cast : Int → ℚ)).sum = samples.sum :=
    (map_list_sum (Int.castAddHom ℚ) samples).symm
  rw [exactMean, mean, hsum, length_map, Int.cast_natCast]

theorem exactVariance_eq (h : 0 < samples.length) :
    exactVariance samples =
      ((squares samples : Int) : ℚ) / (samples.length : Int) -
        exactMean samples * exactMean samples := by
  rw [exactVariance, variance_eq, squares_intCast, length_map, Int.cast_natCast, exactMean]
  field_simp

/-- What truncating the mean takes from its square is less than one more than what truncating
the mean of the squares takes from that. -/
def TruncatesLittle (samples : List Int) : Prop :=
  exactMean samples * exactMean samples -
    (samples.sum.tdiv samples.length : ℚ) * samples.sum.tdiv samples.length -
      Int.fract (squares samples / samples.length : ℚ) < 1

theorem variance_sub_exactVariance (hpos : 0 < samples.length) :
    (((squares samples).tdiv samples.length -
        samples.sum.tdiv samples.length * samples.sum.tdiv samples.length : Int) : ℚ) -
      exactVariance samples =
    exactMean samples * exactMean samples -
      (samples.sum.tdiv samples.length : ℚ) * samples.sum.tdiv samples.length -
        Int.fract (squares samples / samples.length : ℚ) := by
  have hfloor : (squares samples).tdiv samples.length =
      ⌊(squares samples / samples.length : ℚ)⌋ := by
    rw [Int.tdiv_eq_ediv_of_nonneg (squares_nonneg samples), Rat.floor_intCast_div_natCast]
  rw [exactVariance_eq hpos, Int.fract, hfloor]
  push_cast
  ring

theorem Fits.mean_isInt (h : Fits dcheckIsOn samples) (hpos : 0 < samples.length) :
    InInt (samples.sum.tdiv samples.length) := by
  have hle : samples.sum ≤ samples.length • (2 ^ 31 - 1 : Int) := by
    apply sum_le_card_nsmul
    intro x hx
    have hx := (h.isInt x hx).2
    omega
  have hge : samples.length • (-2 ^ 31 : Int) ≤ samples.sum := by
    apply card_nsmul_le_sum
    intro x hx
    exact (h.isInt x hx).1
  have hlo := le_tdiv (by omega) hge
  have hhi := tdiv_le (by omega) hle
  exact ⟨hlo, by omega⟩

section Queries

variable {minRequiredSamples : Int}

variable (hc : Counts c samples) (h : Fits dcheckIsOn samples) (hpos : 0 < samples.length)
  (hmin : minRequiredSamples ≤ samples.length) (hcheck : dcheckIsOn = true → 0 < minRequiredSamples)
include hc h hpos hmin hcheck

theorem Counts.avg :
    c.avg dcheckIsOn minRequiredSamples = some (some (samples.sum.tdiv samples.length)) := by
  have hint := h.mean_isInt hpos
  unfold SampleCounter.avg
  rw [hc.sum, hc.numSamples, dcheck, demand_of hcheck, if_neg (by omega),
    int64Div_of (by omega) hint.inInt64]
  simp only [Option.bind_eq_bind, Option.bind_some, dcheck_of hint, hint.bmod_eq]
  rfl

theorem Counts.variance :
    c.variance dcheckIsOn minRequiredSamples =
      some (some ((squares samples).tdiv samples.length -
        samples.sum.tdiv samples.length * samples.sum.tdiv samples.length)) := by
  have hint := h.mean_isInt hpos
  have hnonneg := squares_nonneg samples
  have hsquares := h.squares
  unfold SampleCounterWithVariance.variance
  have hpower : samples.sum.tdiv samples.length * samples.sum.tdiv samples.length ≤ 2 ^ 62 := by
    obtain ⟨hlo, hhi⟩ := hint
    nlinarith
  have hnonneg' := mul_self_nonneg (samples.sum.tdiv samples.length)
  have hmean : 0 ≤ (squares samples).tdiv samples.length := Int.tdiv_nonneg hnonneg (by omega)
  have hmean' : (squares samples).tdiv samples.length ≤ 2 ^ 63 - 1 := by
    apply tdiv_le (by omega)
    nlinarith
  rw [hc.sum, hc.numSamples, hc.sumSquared, dcheck, demand_of hcheck, if_neg (by omega),
    int64Div_of (by omega) hint.inInt64,
    int64Div_of (by omega) ⟨by omega, by omega⟩]
  simp only [Option.bind_eq_bind, Option.bind_some]
  rw [int64_of ⟨by omega, by omega⟩, Option.bind_some, int64_of ⟨by omega, by omega⟩]
  rfl

omit hc h hpos hmin hcheck

/-- **The average and the variance** of a counter that was built by adding and merging.  The
average is always accurate; the variance is so exactly when the truncations make little of a
difference. -/
theorem variance_is_accurate (b : Build) (minRequiredSamples : Int) (h : Fits dcheckIsOn b.samples)
    (hpos : 0 < b.samples.length) (hmin : minRequiredSamples ≤ b.samples.length)
    (hcheck : dcheckIsOn = true → 0 < minRequiredSamples) :
    ∃ c, b.counter dcheckIsOn = some c ∧
      (∃ avg : Int, c.avg dcheckIsOn minRequiredSamples = some (some avg) ∧
        |avg - exactMean b.samples| < 1) ∧
      ∃ variance : Int, c.variance dcheckIsOn minRequiredSamples = some (some variance) ∧
        (|variance - exactVariance b.samples| < 1 ↔ TruncatesLittle b.samples) := by
  obtain ⟨c, hcounter, hc⟩ := counter_counts b h
  have hn : (0 : Int) < b.samples.length := by omega
  refine ⟨c, hcounter, ⟨_, hc.avg h hpos hmin hcheck, ?_⟩, _, hc.variance h hpos hmin hcheck, ?_⟩
  · rw [exactMean_eq]
    exact abs_tdiv_sub_lt hn
  · -- truncating the mean of the squares alone takes less than one
    have hsquare := tdiv_mul_self_le (a := b.samples.sum) hn
    have hfract := Int.fract_lt_one (squares b.samples / b.samples.length : ℚ)
    rw [← exactMean_eq] at hsquare
    rw [variance_sub_exactVariance hpos, abs_lt]
    exact and_iff_right (by linarith)

end Queries

/-- Two samples in one counter, two in another. -/
def buildOfFour : Build := .merge (.add (.add .new 1) 1) (.add (.add .new 2) 2)

/-- The square of the mean loses 5/4, of which the mean of the squares makes up a half. -/
theorem variance_of_four :
    ∃ c, buildOfFour.counter true = some c ∧
      (∃ avg : Int, c.avg true 4 = some (some avg) ∧ |avg - exactMean [1, 1, 2, 2]| < 1) ∧
      ∃ variance : Int, c.variance true 4 = some (some variance) ∧
        |variance - exactVariance [1, 1, 2, 2]| < 1 := by
  have hfits : Fits true buildOfFour.samples := ⟨by decide, by decide, by decide, by decide⟩
  obtain ⟨c, hc, havg, variance, hvariance, haccurate⟩ :=
    variance_is_accurate buildOfFour 4 hfits (by decide) (by decide) (by decide)
  refine ⟨c, hc, havg, variance, hvariance, haccurate.2 ?_⟩
  show exactMean [1, 1, 2, 2] * exactMean [1, 1, 2, 2] - (1 : ℚ) * 1 - Int.fract (10 / 4 : ℚ) < 1
  rw [exactMean_eq]
  norm_num

/-- The mean 1000.5 is truncated, and the variance comes out a thousand times the distance. -/
theorem variance_of_1000_1001 :
    ((Build.add (.add .new 1000) 1001).counter true).bind (·.variance true 2) = some (some 1000) ∧
      exactVariance [1000, 1001] = 1 / 4 ∧ ¬ |1000 - exactVariance [1000, 1001]| < 1 := by
  have hexact : exactVariance [1000, 1001] = 1 / 4 := by
    rw [exactVariance_eq (by decide), exactMean_eq]
    norm_num
  refine ⟨by decide, hexact, ?_⟩
  rw [hexact]
  norm_num

end WebrtcCore.Ports.SampleVariance
