import WebrtcCore.Verified.CMemory

/-!
# Division by shifts and subtractions

Port of `WebRtcSpl_DivResultInQ31` (`common_audio/signal_processing/division_operations.c`):
31 rounds of long division with the remainder in an `int32_t`, which is doubled in each round.
`none` is a result that does not fit.
-/

namespace WebrtcCore.Ports.DivisionOperations

open Verified CMemory

/-- The rounds that are left, with `L_num` and `div`. -/
def divLoop (den : Int) : Nat → Int → Int → Option Int
  | 0, _, div => some div
  | k + 1, num, div => do
    let div ← intAdd div div
    let num ← intAdd num num
    if num ≥ den then divLoop den k (num - den) (← intAdd div 1)
    else divLoop den k num div

/-- `L_num` and `L_den`. -/
def magnitude (x : Int32) : Option Int := if x < 0 then intSub 0 x.toInt else some x.toInt

def divResultInQ31 (num den : Int32) : Option Int :=
  if num = 0 then some 0
  else do
    let lNum ← magnitude num
    let lDen ← magnitude den
    let changeSign := (if num < 0 then 1 else 0) + if den < 0 then 1 else 0
    let div ← divLoop lDen 31 lNum 0
    if changeSign = 1 then intSub 0 div else some div

theorem divLoop_succ {d q r : Nat} (hr : r < d) (hq : q < 2 ^ 30) (k : Nat) :
    divLoop d (k + 1) r q =
      if r < 2 ^ 30 then divLoop d k (2 * r % d : Nat) (2 * q + 2 * r / d : Nat) else none := by
  rw [divLoop, intAdd_eq_some (by constructor <;> omega), Option.bind_eq_bind, Option.bind_some]
  split
  · rw [intAdd_eq_some (by constructor <;> omega), Option.bind_some]
    split
    · have hdiv : 2 * r / d = 1 := Nat.div_eq_of_lt_le (by omega) (by omega)
      have hmod : 2 * r % d = 2 * r - d := by
        rw [Nat.mod_eq_sub_mod (by omega), Nat.mod_eq_of_lt (by omega)]
      rw [intAdd_eq_some (by constructor <;> omega), Option.bind_some]
      congr 1 <;> omega
    · rw [Nat.div_eq_of_lt (by omega), Nat.mod_eq_of_lt (by omega)]
      congr 1 <;> omega
  · rw [intAdd_eq_none fun h => by have hlt := h.2; omega]
    rfl

theorem divLoop_eq_some_iff {n d : Nat} (hn : n < d) (k j : Nat) (hj : j + k = 31) :
    divLoop d k (2 ^ j * n % d : Nat) (2 ^ j * n / d : Nat) = some ↑(2 ^ 31 * n / d : Nat) ↔
      ∀ i < k, 2 ^ (j + i) * n % d < 2 ^ 30 := by
  induction k generalizing j with
  | zero =>
    obtain rfl : j = 31 := hj
    exact iff_of_true rfl nofun
  | succ k ih =>
    have hquotient : 2 ^ j * n / d < 2 ^ 30 :=
      Nat.lt_of_lt_of_le ((Nat.div_lt_iff_lt_mul (by omega)).2
        (Nat.mul_lt_mul_of_pos_left hn (Nat.two_pow_pos j)))
        (Nat.pow_le_pow_right (by decide) (by omega))
    have hdouble : 2 ^ (j + 1) * n = 2 * (2 ^ j * n) := by rw [Nat.pow_succ', Nat.mul_assoc]
    have hmod : 2 ^ (j + 1) * n % d = 2 * (2 ^ j * n % d) % d := by rw [hdouble, Nat.mul_mod_mod]
    have hdiv : 2 ^ (j + 1) * n / d = 2 * (2 ^ j * n / d) + 2 * (2 ^ j * n % d) / d := by
      have hsplit := Nat.div_add_mod (2 ^ j * n) d
      rw [← Nat.mul_add_div (by omega), hdouble, Nat.mul_left_comm d, ← Nat.mul_add, hsplit]
    rw [divLoop_succ (Nat.mod_lt _ (by omega)) hquotient, ← hmod, ← hdiv, Nat.forall_lt_succ_left]
    simp only [← Nat.add_assoc, Nat.add_right_comm _ _ 1, ← ih (j + 1) (by omega)]
    split
    · rename_i hfits
      exact (and_iff_right hfits).symm
    · rename_i hfits
      exact iff_of_false nofun fun h => hfits h.1

theorem magnitude_eq {x : Int32} (h : x ≠ .minValue) : magnitude x = some ↑x.toInt.natAbs := by
  have hmin : x.toInt ≠ -2 ^ 31 := fun heq => h (Int32.toInt_inj.1 heq)
  have hle := x.le_toInt
  simp only [magnitude, Int32.lt_iff_toInt_lt, Int32.toInt_zero]
  split
  · rw [intSub_eq_some (by constructor <;> omega)]
    congr 1
    omega
  · congr 1
    omega

theorem signed_eq_some_iff {num den div quotient : Int} (hnum : num ≠ 0) (hden : den ≠ 0)
    (hlow : 0 ≤ quotient) (hhigh : quotient < 2 ^ 31) :
    (if ((if num < 0 then 1 else 0) + if den < 0 then 1 else 0) = 1 then intSub 0 div
      else some div) = some (num.sign * den.sign * quotient) ↔ div = quotient := by
  have hflip : intSub 0 div = some (-quotient) ↔ div = quotient := by
    by_cases hfits : InInt (0 - div)
    · rw [intSub_eq_some hfits, Option.some.injEq]
      omega
    · rw [intSub, int32_eq_none hfits]
      refine iff_of_false nofun fun heq => hfits ?_
      constructor <;> omega
  rcases Int.lt_or_gt_of_ne hnum with hn | hn <;> rcases Int.lt_or_gt_of_ne hden with hd | hd
  · simp [hn, hd, Int.sign_eq_neg_one_of_neg]
  · simpa [hn, hd, Int.le_of_lt hd, Int.sign_eq_neg_one_of_neg, Int.sign_eq_one_of_pos] using hflip
  · simpa [hn, hd, Int.le_of_lt hn, Int.sign_eq_neg_one_of_neg, Int.sign_eq_one_of_pos] using hflip
  · simp [hn, hd, Int.lt_asymm, Int.sign_eq_one_of_pos]

/-- **The division is exact** if and only if no remainder of the long division reaches
`2 ^ 30`. -/
theorem divResultInQ31_exact_iff {num den : Int32}
    (hlt : num.toInt.natAbs < den.toInt.natAbs) (hden : den ≠ .minValue) :
    divResultInQ31 num den = some (num.toInt.sign * den.toInt.sign *
        (2 ^ 31 * num.toInt.natAbs / den.toInt.natAbs : Nat)) ↔
      ∀ j < 31, 2 ^ j * num.toInt.natAbs % den.toInt.natAbs < 2 ^ 30 := by
  by_cases hzero : num = 0
  · rw [hzero]
    simp [divResultInQ31]
  have hnum : num ≠ .minValue := by
    rintro rfl
    have hle := den.le_toInt
    have hhigh := den.toInt_lt
    have hmagnitude : Int32.minValue.toInt = -2 ^ 31 := rfl
    omega
  have hsmall : 2 ^ 31 * num.toInt.natAbs / den.toInt.natAbs < 2 ^ 31 := by
    rw [Nat.div_lt_iff_lt_mul (by omega)]
    exact Nat.mul_lt_mul_of_pos_left hlt (by decide)
  have hiff := divLoop_eq_some_iff hlt 31 0 rfl
  rw [Nat.pow_zero, Nat.one_mul, Nat.mod_eq_of_lt hlt, Nat.div_eq_of_lt hlt] at hiff
  simp only [Nat.zero_add] at hiff
  rw [← hiff, divResultInQ31, magnitude_eq hnum, magnitude_eq hden, if_neg hzero,
    Option.bind_eq_bind, Option.bind_some, Option.bind_some, Option.bind_eq_some_iff]
  simp only [Int32.lt_iff_toInt_lt, Int32.toInt_zero]
  have hne : num.toInt ≠ 0 := fun heq => hzero (Int32.toInt_inj.1 heq)
  have hput : ∀ div : Int, _ ↔ div = _ := fun div =>
    signed_eq_some_iff hne (show den.toInt ≠ 0 by omega) (Int.natCast_nonneg _)
      (Int.ofNat_lt.2 hsmall)
  simp only [hput, exists_eq_right]
  rfl

theorem divResultInQ31_third : divResultInQ31 (-1) 3 = some (-715827882) :=
  (divResultInQ31_exact_iff (by decide) (by decide)).2 (by decide)

/-- The first doubling overflows. -/
theorem divResultInQ31_overflows : divResultInQ31 1073741824 1073741825 = none := by decide

end WebrtcCore.Ports.DivisionOperations
