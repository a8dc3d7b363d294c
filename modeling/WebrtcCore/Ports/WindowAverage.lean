import Mathlib.Algebra.Ring.Int.Defs
import WebrtcCore.Verified.FloatArithmetic
import WebrtcCore.Verified.SlidingWindow

/-!
# Moving average

Port of `MovingAverage` (`rtc_base/numerics/moving_average.{h,cc}`).  The samples of the
window are in a ring, and their sum is kept in an `int64_t`.

`GetAverageRoundedDown` and `GetAverageRoundedToClosest` divide this sum by `Size()`, which
is a `size_t`: a negative sum is converted to an unsigned number first.  The quotient is
then converted to `int`, modulo `2 ^ 32`, which makes up for it only when the number of
samples divides `2 ^ 32` (`quotient_eq`).
-/

namespace WebrtcCore.Ports.WindowAverage

open Verified CMemory Ring Simulation SlidingWindow List

structure MovingAverage where
  count : Nat
  sum : Int
  history : List Int32
deriving DecidableEq, Repr

namespace MovingAverage

def new (windowSize : Nat) : MovingAverage := ⟨0, 0, List.replicate windowSize 0⟩

def addSample (s : MovingAverage) (sample : Int32) : Option MovingAverage := do
  let count := sizeAdd s.count 1
  let index := count % s.history.length
  -- outside of the vector, in particular after a division by zero, there is no element
  let oldest ← s.history[index]?
  let sum := if count > s.history.length then s.sum - oldest.toInt else s.sum
  demand (InInt64 sum)
  let sum := sum + sample.toInt
  demand (InInt64 sum)
  return ⟨count, sum, s.history.set index sample⟩

def size (s : MovingAverage) : Nat := min s.count s.history.length

/-- `sum / Size()`, converted to `int`. -/
def quotient (sum : Nat) (size : Nat) : Int := intOfSize (sum / size)

def getAverageRoundedDown (s : MovingAverage) : Option Int :=
  if s.count = 0 then none else some (quotient (sizeOfInt s.sum) s.size)

def getAverageRoundedToClosest (s : MovingAverage) : Option Int :=
  if s.count = 0 then none
  else some (quotient (sizeAdd (sizeOfInt s.sum) (s.size / 2)) s.size)

def getUnroundedAverage {F : Type} (arith : FloatArithmetic F) (s : MovingAverage) : Option F :=
  if s.count = 0 then none else some (arith.div (arith.ofInt s.sum) (arith.ofInt s.size))

/-- `Reset`; the ring stays as it is. -/
def reset (s : MovingAverage) : MovingAverage := { s with count := 0, sum := 0 }

end MovingAverage

inductive Call where
  | addSample (sample : Int32)
  | reset
deriving DecidableEq, Repr

def step (s : MovingAverage) : Call → Option MovingAverage
  | .addSample sample => s.addSample sample
  | .reset => some s.reset

def historyStep (samples : List Int32) : Call → List Int32
  | .addSample sample => samples ++ [sample]
  | .reset => []

/-- The samples since the last reset. -/
def samplesOf (calls : List Call) : List Int32 := calls.foldl historyStep []

/-- The sum of some samples. -/
def total (samples : List Int32) : Int := (samples.map Int32.toInt).sum

/-! ### The division -/

section Division

variable {s : Int} {n : Nat}

theorem div_bounds (hn : 0 < n) (hlo : -(2 ^ 31 * n) ≤ s) (hhi : s < 2 ^ 31 * n) :
    -2 ^ 31 ≤ s / n ∧ s / n < 2 ^ 31 := by
  have hpos : (0 : Int) < n := Int.natCast_pos.mpr hn
  constructor
  · rw [Int.le_ediv_iff_mul_le hpos]
    omega
  · exact Int.ediv_lt_of_lt_mul hpos hhi

theorem bmod_add_multiple {x : Int} (hlo : -2 ^ 31 ≤ x) (hhi : x < 2 ^ 31) (m : Nat) :
    (x + 2 ^ 32 * m).bmod (2 ^ 32) = x := by
  rw [Int.bmod_def]
  omega

theorem sizeOfInt_of_neg (hs : s < 0) (hlo : -2 ^ 63 ≤ s) : (sizeOfInt s : Int) = s + 2 ^ 64 := by
  unfold sizeOfInt
  omega

theorem wrapped_div {m : Nat} (hn : 0 < n) (hm : n * m = 2 ^ 32) (hs : s < 0)
    (hlo : -2 ^ 63 ≤ s) : ((sizeOfInt s / n : Nat) : Int) = s / n + 2 ^ 32 * m := by
  have hmultiple : (2 : Int) ^ 64 = 2 ^ 32 * m * n := by
    rw [Int.mul_assoc, Int.mul_comm (m : Int)]
    omega
  rw [Int.natCast_ediv, sizeOfInt_of_neg hs hlo, hmultiple, Int.add_mul_ediv_right _ _ (by omega)]

theorem quotient_eq (hn : 0 < n) (hsize : n ≤ 2 ^ 32) (h : 0 ≤ s ∨ n ∣ 2 ^ 32)
    (hlo : -(2 ^ 31 * n) ≤ s) (hhi : s < 2 ^ 31 * n) :
    MovingAverage.quotient (sizeOfInt s) n = s / n := by
  have hbounds := div_bounds hn hlo hhi
  by_cases hs : 0 ≤ s
  · have hnat : sizeOfInt s = s.toNat := sizeOfInt_of_nonneg hs (by omega)
    have hcast : ((s.toNat / n : Nat) : Int) = s / n := by
      rw [Int.natCast_ediv, Int.toNat_of_nonneg hs]
    rw [MovingAverage.quotient, hnat, intOfSize_of_lt (by omega), hcast]
  · have hlow : -2 ^ 63 ≤ s := by omega
    obtain ⟨m, hm⟩ : ∃ m, n * m = 2 ^ 32 := ⟨_, Nat.mul_div_cancel' (h.resolve_left hs)⟩
    have hdiv := wrapped_div hn hm (Int.not_le.mp hs) hlow
    have hmod := bmod_add_multiple hbounds.1 hbounds.2 m
    rw [← hdiv] at hmod
    exact hmod

theorem dvd_of_quotient_eq (hn : 0 < n) (hsize : n < 2 ^ 32) (hlo : -(2 ^ 31 * n) ≤ s) (hs : s < 0)
    (h : MovingAverage.quotient (sizeOfInt s) n = s / n) : n ∣ 2 ^ 32 := by
  have hpos : (0 : Int) < n := Int.natCast_pos.mpr hn
  -- the quotients differ by a multiple of `2 ^ 32`
  have hsame : Int.bmod ((sizeOfInt s / n : Nat) : Int) (2 ^ 32) = s / n := h
  rw [Int.natCast_ediv, sizeOfInt_of_neg hs (by omega)] at hsame
  obtain ⟨m, hm⟩ := @Int.dvd_self_sub_bmod ((s + 2 ^ 64) / (n : Int)) (2 ^ 32)
  rw [hsame, Int.sub_eq_iff_eq_add'] at hm
  have hle := Int.mul_ediv_self_le (x := s) (Int.ne_of_gt hpos)
  have hlt := Int.lt_mul_ediv_self_add (x := s) hpos
  have hle' := Int.mul_ediv_self_le (x := s + 2 ^ 64) (Int.ne_of_gt hpos)
  have hlt' := Int.lt_mul_ediv_self_add (x := s + 2 ^ 64) hpos
  rw [hm, Int.mul_add, Int.mul_left_comm] at hle' hlt'
  exact Int.natCast_dvd_natCast.1 ⟨m, by omega⟩

end Division

/-! ### The sum of the window -/

@[simp] theorem total_nil : total [] = 0 := rfl

@[simp] theorem total_append (samples samples' : List Int32) :
    total (samples ++ samples') = total samples + total samples' := by
  rw [total, map_append, sum_append]
  rfl

theorem total_cons (sample : Int32) (samples : List Int32) :
    total (sample :: samples) = sample.toInt + total samples := by simp [total]

@[simp] theorem total_singleton (sample : Int32) : total [sample] = sample.toInt := by simp [total]

theorem total_bounds (samples : List Int32) :
    -(2 ^ 31 * samples.length) ≤ total samples ∧ total samples ≤ (2 ^ 31 - 1) * samples.length := by
  induction samples with
  | nil => decide
  | cons sample samples ih =>
    have hlo := sample.le_toInt
    have hhi := sample.toInt_lt
    rw [length_cons, total_cons]
    omega

/-- The members describe the window over the samples since the last reset. -/
structure Follows (windowSize : Nat) (samples : List Int32) (s : MovingAverage) : Prop where
  history : s.history.length = windowSize
  count : s.count = samples.length
  sum : s.sum = total (latest windowSize samples)
  recent : Recent s.history 1 samples

namespace Follows

variable {windowSize : Nat} {samples : List Int32} {s : MovingAverage}

theorem new (windowSize : Nat) : Follows windowSize [] (.new windowSize) where
  history := length_replicate
  count := rfl
  sum := by rw [latest_nil, total_nil]; rfl
  recent := Recent.nil _ _

theorem reset (h : Follows windowSize samples s) : Follows windowSize [] s.reset where
  history := h.history
  count := rfl
  sum := by rw [latest_nil, total_nil]; rfl
  recent := Recent.nil _ _

theorem sum_before (hpos : 0 < windowSize) (h : Follows windowSize samples s) (sample : Int32) :
    ∃ oldest kept, s.history[(1 + samples.length) % s.history.length]? = some oldest ∧
      latest windowSize (samples ++ [sample]) = kept ++ [sample] ∧
      (if 1 + samples.length > s.history.length then s.sum - oldest.toInt else s.sum) =
        total kept := by
  have hhistory := h.history
  by_cases hfull : s.history.length ≤ samples.length
  · have holdest := h.recent.oldest (by omega) hfull
    rw [hhistory] at holdest hfull ⊢
    cases hlatest : latest windowSize samples with
    | nil =>
      have hlength := length_latest windowSize samples
      rw [hlatest, length_nil] at hlength
      omega
    | cons oldest kept =>
      refine ⟨oldest, kept, ?_, ?_, ?_⟩
      · rw [holdest, hlatest, head?_cons]
      · rw [latest_append_of_le hpos hfull, hlatest, tail_cons]
      · rw [h.sum, hlatest, total_cons]
        omega
  · have hindex : (1 + samples.length) % s.history.length < s.history.length :=
      Nat.mod_lt _ (by omega)
    refine ⟨_, latest windowSize samples, getElem?_eq_getElem hindex, ?_, ?_⟩
    · exact latest_append_of_lt (by omega) sample
    · rw [if_neg (by omega), h.sum]

theorem addSample (hpos : 0 < windowSize) (hwindow : windowSize < 2 ^ 32)
    (h : Follows windowSize samples s) (hcount : samples.length + 1 < 2 ^ 64) (sample : Int32) :
    ∃ s', s.addSample sample = some s' ∧ Follows windowSize (samples ++ [sample]) s' := by
  have hhistory := h.history
  have hlength : sizeAdd s.count 1 = 1 + samples.length := by
    rw [sizeAdd_of_lt (by rw [h.count]; exact hcount), h.count, Nat.add_comm]
  have hpush := h.recent.push (by omega) sample
  obtain ⟨oldest, kept, holdest, hlatest, hsum⟩ := h.sum_before hpos sample
  have hkept := total_bounds kept
  have hnew := total_bounds (kept ++ [sample])
  have hbound := length_latest windowSize (samples ++ [sample])
  rw [hlatest, length_append] at hbound
  rw [total_append, total_singleton, length_append] at hnew
  have hfits : InInt64 (total kept) := by
    unfold InInt64
    omega
  have hfits' : InInt64 (total kept + sample.toInt) := by
    unfold InInt64
    omega
  refine ⟨⟨1 + samples.length, total kept + sample.toInt,
    s.history.set ((1 + samples.length) % s.history.length) sample⟩, ?_, ?_, ?_, ?_, hpush⟩
  · rw [MovingAverage.addSample, hlength]
    dsimp only
    rw [holdest, Option.bind_eq_bind, Option.bind_some, hsum, demand_of hfits, demand_of hfits']
    rfl
  · rw [length_set, hhistory]
  · rw [length_append, length_singleton, Nat.add_comm]
  · rw [hlatest, total_append, total_singleton]

theorem step (hpos : 0 < windowSize) (hwindow : windowSize < 2 ^ 32)
    (h : Follows windowSize samples s) (call : Call) (hcount : samples.length + 1 < 2 ^ 64) :
    ∃ s', WindowAverage.step s call = some s' ∧
      Follows windowSize (historyStep samples call) s' := by
  cases call with
  | addSample sample => exact h.addSample hpos hwindow hcount sample
  | reset => exact ⟨_, rfl, h.reset⟩

theorem count_ne_zero (h : Follows windowSize samples s) (hne : samples ≠ []) : s.count ≠ 0 := by
  rw [h.count]
  exact Nat.ne_of_gt (length_pos_of_ne_nil hne)

theorem size_eq (h : Follows windowSize samples s) :
    s.size = (latest windowSize samples).length := by
  rw [MovingAverage.size, h.count, h.history, length_latest]

end Follows

/-! ### The averages -/

/-- The greatest integer that is not above the average. -/
def IsFloor (sum : Int) (n : Nat) (r : Int) : Prop := r * n ≤ sum ∧ sum < (r + 1) * n

/-- No integer is closer to the average. -/
def IsNearest (sum : Int) (n : Nat) (r : Int) : Prop := 2 * (r * n - sum).natAbs ≤ n

theorem isFloor_div {sum : Int} {n : Nat} (hn : 0 < n) : IsFloor sum n (sum / n) := by
  have hpos : (0 : Int) < n := Int.natCast_pos.mpr hn
  constructor
  · exact Int.ediv_mul_le sum (Int.ne_of_gt hpos)
  · exact Int.lt_ediv_add_one_mul_self sum hpos

theorem isNearest_div {sum : Int} {n : Nat} (hn : 0 < n) :
    IsNearest sum n ((sum + (n / 2 : Nat)) / n) := by
  have hfloor := @isFloor_div (sum + (n / 2 : Nat)) n hn
  obtain ⟨hle, hlt⟩ := hfloor
  rw [Int.add_mul] at hlt
  unfold IsNearest
  omega

theorem IsFloor.eq_div {sum r : Int} {n : Nat} (hn : 0 < n) (h : IsFloor sum n r) :
    r = sum / n := by
  have hpos : (0 : Int) < n := Int.natCast_pos.mpr hn
  exact ((Int.ediv_eq_iff_of_pos hpos).2 ⟨h.1, by rw [← add_one_mul]; exact h.2⟩).symm

theorem sizeAdd_sizeOfInt (sum : Int) (k : Nat) :
    sizeAdd (sizeOfInt sum) k = sizeOfInt (sum + k) := by
  unfold sizeAdd sizeOfInt
  omega

namespace Follows

variable {windowSize : Nat} {samples : List Int32} {s : MovingAverage}

theorem averages (hpos : 0 < windowSize) (hwindow : windowSize < 2 ^ 32)
    (h : Follows windowSize samples s) (hne : samples ≠ [])
    (hsum : 0 ≤ total (latest windowSize samples) ∨ (latest windowSize samples).length ∣ 2 ^ 32) :
    s.getAverageRoundedDown =
        some (total (latest windowSize samples) / (latest windowSize samples).length) ∧
      s.getAverageRoundedToClosest =
        some ((total (latest windowSize samples) + ((latest windowSize samples).length / 2 : Nat)) /
          (latest windowSize samples).length) := by
  have hsamples := length_pos_of_ne_nil hne
  have hcount := h.count_ne_zero hne
  have hbounds := total_bounds (latest windowSize samples)
  have hlength := length_latest windowSize samples
  have hsum' : 0 ≤ total (latest windowSize samples) +
      ((latest windowSize samples).length / 2 : Nat) ∨
        (latest windowSize samples).length ∣ 2 ^ 32 :=
    hsum.imp_left fun hnonneg => by omega
  rw [MovingAverage.getAverageRoundedDown, if_neg hcount,
    MovingAverage.getAverageRoundedToClosest, if_neg hcount, h.size_eq, h.sum,
    sizeAdd_sizeOfInt]
  rw [quotient_eq (by omega) (by omega) hsum (by omega) (by omega),
    quotient_eq (by omega) (by omega) hsum' (by omega) (by omega)]
  exact ⟨rfl, rfl⟩

end Follows

theorem foldAlong_count (calls : List Call) (samples : List Int32)
    (h : samples.length + calls.length < 2 ^ 64) :
    FoldAlong historyStep (fun samples _ => samples.length + 1 < 2 ^ 64) samples calls := by
  induction calls generalizing samples with
  | nil => trivial
  | cons call calls ih =>
    rw [length_cons] at h
    refine ⟨by omega, ih _ ?_⟩
    cases call with
    | addSample sample =>
      rw [historyStep, length_append, length_singleton]
      omega
    | reset =>
      rw [historyStep, length_nil]
      omega

theorem run_follows {windowSize : Nat} (hpos : 0 < windowSize) (hwindow : windowSize < 2 ^ 32)
    {calls : List Call} (hcalls : calls.length < 2 ^ 64) :
    ∃ s, exec step (.new windowSize) calls = some s ∧ Follows windowSize (samplesOf calls) s := by
  have hcount := foldAlong_count calls [] (by rw [length_nil]; omega)
  exact exec_follows_along (R := Follows windowSize)
    (fun _ _ call h hcount => h.step hpos hwindow call hcount) calls (.new windowSize) hcount

/-- **The averages.**  For a window of up to `2 ^ 32 - 1` samples and runs of fewer than
`2 ^ 64` calls: exactly if the sum of the window is not negative or the number of its samples
divides `2 ^ 32`, one average is that of the window rounded down and the other one is an
integer nearest to it. -/
theorem averages_are_exact (windowSize : Nat) (hpos : 0 < windowSize)
    (hwindow : windowSize < 2 ^ 32) (calls : List Call) (hcalls : calls.length < 2 ^ 64) :
    ∃ s, exec step (.new windowSize) calls = some s ∧
      (samplesOf calls ≠ [] →
        ((∃ r, s.getAverageRoundedDown = some r ∧
            IsFloor (total (latest windowSize (samplesOf calls)))
              (latest windowSize (samplesOf calls)).length r) ∧
          (∃ r, s.getAverageRoundedToClosest = some r ∧
            IsNearest (total (latest windowSize (samplesOf calls)))
              (latest windowSize (samplesOf calls)).length r) ↔
        0 ≤ total (latest windowSize (samplesOf calls)) ∨
          (latest windowSize (samplesOf calls)).length ∣ 2 ^ 32)) := by
  obtain ⟨s, hs, hfollows⟩ := run_follows hpos hwindow hcalls
  refine ⟨s, hs, fun hne => ?_⟩
  have hsamples := length_pos_of_ne_nil hne
  have hlength := length_latest windowSize (samplesOf calls)
  constructor
  · rintro ⟨⟨r, hdown, hfloor⟩, -⟩
    refine or_iff_not_imp_left.2 fun hneg => ?_
    rw [MovingAverage.getAverageRoundedDown, if_neg (hfollows.count_ne_zero hne), hfollows.size_eq,
      hfollows.sum, Option.some.injEq, hfloor.eq_div (by omega)] at hdown
    exact dvd_of_quotient_eq (by omega) (by omega) (total_bounds _).1 (Int.not_le.1 hneg) hdown
  · intro hsum
    obtain ⟨hdown, hclosest⟩ := hfollows.averages hpos hwindow hne hsum
    exact ⟨⟨_, hdown, isFloor_div (by omega)⟩, ⟨_, hclosest, isNearest_div (by omega)⟩⟩

theorem unrounded_average_is_exact (windowSize : Nat) (hpos : 0 < windowSize)
    (hwindow : windowSize < 2 ^ 32) (calls : List Call) (hcalls : calls.length < 2 ^ 64)
    {F : Type} (arith : FloatArithmetic F) (hne : samplesOf calls ≠ []) :
    ∃ s, exec step (.new windowSize) calls = some s ∧
      s.getUnroundedAverage arith =
        some (arith.div (arith.ofInt (total (latest windowSize (samplesOf calls))))
          (arith.ofInt (latest windowSize (samplesOf calls)).length)) := by
  obtain ⟨s, hs, hfollows⟩ := run_follows hpos hwindow hcalls
  refine ⟨s, hs, ?_⟩
  rw [MovingAverage.getUnroundedAverage, if_neg (hfollows.count_ne_zero hne), hfollows.sum,
    hfollows.size_eq]

/-- Four samples in a window of two, with a reset in between. -/
theorem averages_of_two :
    ∃ s, exec step (.new 2) [.addSample 9, .reset, .addSample 4, .addSample (-8), .addSample 3] =
        some s ∧
      (∃ r, s.getAverageRoundedDown = some r ∧ IsFloor (-5) 2 r) ∧
      ∃ r, s.getAverageRoundedToClosest = some r ∧ IsNearest (-5) 2 r := by
  obtain ⟨s, hs, haverages⟩ := averages_are_exact 2 (by decide) (by decide)
    [.addSample 9, .reset, .addSample 4, .addSample (-8), .addSample 3] (by decide)
  exact ⟨s, hs, (haverages (by decide)).2 (by decide)⟩

/-- Three samples of -1 in a window of three: both averages are 1431655764. -/
theorem averages_of_negative_sum :
    (exec step (.new 3) [.addSample (-1), .addSample (-1), .addSample (-1)]).map
        (fun s => (s.getAverageRoundedDown, s.getAverageRoundedToClosest)) =
      some (some 1431655764, some 1431655764) ∧
    ¬ IsFloor (total (latest 3 [-1, -1, -1])) 3 1431655764 ∧
    ¬ IsNearest (total (latest 3 [-1, -1, -1])) 3 1431655764 := by
  unfold IsFloor IsNearest
  decide

end WebrtcCore.Ports.WindowAverage
