import WebrtcCore.Verified.CMemory

/-!
# Rounding of unit values

Port of `RoundTo`, `RoundUpTo` and `RoundDownTo` of `UnitBase`
(`rtc_base/units/unit_base.h`).  Each adds an offset, divides, and multiplies again.  The
division of `int64_t` goes towards zero, so a negative sum is rounded up (`toMultiple_of_nonpos`)
where the offsets are made for rounding down.  An overflow and a division by zero are undefined.
-/

namespace WebrtcCore.Ports.UnitRounding

open Verified CMemory

/-- A unit, in a build with or without the debug checks. -/
structure UnitType where
  oneSided : Bool
  dcheckIsOn : Bool

variable (u : UnitType)

/-- The greatest and the least value stand for the infinities. -/
def IsFinite (value : Int) : Prop := value ≠ 2 ^ 63 - 1 ∧ value ≠ -2 ^ 63
  deriving Decidable

/-- `FromValue` of an integer. -/
def fromValue (value : Int) : Option Int := do
  dcheck u.dcheckIsOn ((u.oneSided = true → 0 ≤ value) ∧ -2 ^ 63 < value ∧ value < 2 ^ 63 - 1)
  return value

/-- `operator*`. -/
def times (value scalar : Int) : Option Int := do
  dcheck u.dcheckIsOn (IsFinite value)
  let product ← int64 (value * scalar)
  fromValue u product

/-- The checks, the division and the product, the same in all three functions. -/
def divideAndMultiply (value resolution : Int) (sum : Option Int) : Option Int := do
  dcheck u.dcheckIsOn (IsFinite value ∧ IsFinite resolution ∧ 0 < resolution)
  let sum ← sum
  let quotient ← int64Div sum resolution
  times u quotient resolution

def roundTo (value resolution : Int) : Option Int :=
  divideAndMultiply u value resolution (int64 (value + resolution.tdiv 2))

def roundUpTo (value resolution : Int) : Option Int :=
  divideAndMultiply u value resolution do
    let sum ← int64 (value + resolution)
    int64 (sum - 1)

def roundDownTo (value resolution : Int) : Option Int :=
  divideAndMultiply u value resolution (some value)

/-- Three multiples of `r` that `x` is rounded to. -/
structure Rounded (x r down up nearest : Int) : Prop where
  multiples : r ∣ down ∧ r ∣ up ∧ r ∣ nearest
  rounded_down : down ≤ x ∧ x < down + r
  rounded_up : up - r < x ∧ x ≤ up
  half : 2 * (nearest - x).natAbs ≤ r
  unchanged : r ∣ x → down = x ∧ up = x ∧ nearest = x

/-- The sum `m` after the division and the product. -/
def toMultiple (r m : Int) : Int := m.tdiv r * r

variable {r m x : Int}

theorem eq_of_dvd {a b : Int} (ha : r ∣ a) (hb : r ∣ b) (hlt : ((a - b).natAbs : Int) < r) :
    a = b := by
  have hzero := Int.eq_zero_of_dvd_of_natAbs_lt_natAbs (Int.dvd_sub ha hb) (by omega)
  omega

section

variable (hr : 0 < r)
include hr

theorem toMultiple_of_nonneg (hm : 0 ≤ m) :
    m - r < toMultiple r m ∧ toMultiple r m ≤ m ∧ 0 ≤ toMultiple r m := by
  have hpos := Int.tmod_nonneg r hm
  have hlt := Int.tmod_lt_of_pos m hr
  have hquotient : 0 ≤ m.tdiv r * r :=
    Int.mul_nonneg (Int.tdiv_nonneg hm (Int.le_of_lt hr)) (Int.le_of_lt hr)
  unfold toMultiple
  rw [Int.tdiv_mul_self] at *
  omega

theorem toMultiple_of_nonpos (hm : m ≤ 0) :
    m ≤ toMultiple r m ∧ toMultiple r m < m + r ∧ toMultiple r m ≤ 0 := by
  have hneg := toMultiple_of_nonneg hr (show 0 ≤ -m by omega)
  unfold toMultiple at *
  rw [Int.neg_tdiv, Int.neg_mul] at hneg
  omega

theorem divideAndMultiply_eq {sum : Option Int} (hfinite : IsFinite r) (hx : IsFinite x)
    (hsum : sum = some m) (hm : m.natAbs < 2 ^ 63 - 1) (hside : u.oneSided = true → 0 ≤ m) :
    divideAndMultiply u x r sum = some (toMultiple r m) := by
  subst hsum
  have hnonneg := @toMultiple_of_nonneg r m hr
  have hnonpos := @toMultiple_of_nonpos r m hr
  have hquotient := Int.natAbs_tdiv_le_natAbs m r
  unfold divideAndMultiply times fromValue dcheck toMultiple at *
  rw [demand_of fun _ => ⟨hx, hfinite, hr⟩]
  simp only [Option.bind_eq_bind, Option.bind_some]
  rw [int64Div, if_neg (Int.ne_of_gt hr)]
  generalize m.tdiv r = quotient at *
  have hin : InInt64 quotient := ⟨by omega, by omega⟩
  have hproduct : InInt64 (quotient * r) := ⟨by omega, by omega⟩
  rw [int64_of hin, Option.bind_some, int64_of hproduct, Option.bind_some,
    demand_of fun _ => ⟨by omega, by omega⟩,
    demand_of fun _ => ⟨fun hone => (hnonneg (hside hone)).2.2, by omega, by omega⟩]
  rfl

variable (hfinite : IsFinite r) (hfits : x.natAbs + r ≤ 2 ^ 63 - 1)
  (hside : u.oneSided = true → 0 ≤ x)
include hfinite hfits hside

theorem round_eq : roundDownTo u x r = some (toMultiple r x) ∧
    roundUpTo u x r = some (toMultiple r (x + r - 1)) ∧
    roundTo u x r = some (toMultiple r (x + r / 2)) := by
  have hx : IsFinite x := ⟨by omega, by omega⟩
  have hhalf : r.tdiv 2 = r / 2 := Int.tdiv_eq_ediv_of_nonneg (Int.le_of_lt hr)
  refine ⟨divideAndMultiply_eq u hr hfinite hx rfl (by omega) hside,
    divideAndMultiply_eq u hr hfinite hx ?_ (by omega) fun hone => ?_,
    divideAndMultiply_eq u hr hfinite hx ?_ (by omega) fun hone => ?_⟩
  · have hin : InInt64 (x + r) := ⟨by omega, by omega⟩
    have hless : InInt64 (x + r - 1) := ⟨by omega, by omega⟩
    simp only [Option.bind_eq_bind, Option.bind_some, int64_of hin, int64_of hless]
  · have hx := hside hone
    omega
  · rw [hhalf, int64_of ⟨by omega, by omega⟩]
  · have hx := hside hone
    omega

/-- **Rounding to a multiple of the resolution.**  For a finite value and resolution whose sum
fits, the three functions round down, up and to the nearest multiple if and only if the value
is not negative, or the resolution is one. -/
theorem rounds_iff :
    (∃ down up nearest, roundDownTo u x r = some down ∧ roundUpTo u x r = some up ∧
      roundTo u x r = some nearest ∧ Rounded x r down up nearest) ↔ 0 ≤ x ∨ r = 1 := by
  have hdvd {m : Int} : r ∣ toMultiple r m := Int.dvd_mul_left (m.tdiv r) r
  obtain ⟨hdown, hup, hnearest⟩ := round_eq u hr hfinite hfits hside
  constructor
  · rintro ⟨down, up, nearest, hdown', hup', -, h⟩
    obtain rfl := Option.some.inj (hdown.symm.trans hdown')
    obtain rfl := Option.some.inj (hup.symm.trans hup')
    rcases Int.lt_or_le x 0 with hneg | hpos
    · -- rounding down keeps a negative value only if it is a multiple, and that one is raised
      have hx := toMultiple_of_nonpos hr (Int.le_of_lt hneg)
      have hmultiple : toMultiple r x = x := Int.le_antisymm h.rounded_down.1 hx.1
      have hsame := (h.unchanged (hmultiple ▸ hdvd)).2.1
      rcases Int.lt_or_le 0 (x + r) with hlt | hle
      · have hzero := eq_of_dvd (hmultiple ▸ hdvd : r ∣ x) (Int.dvd_zero r) (by omega)
        omega
      · have hraised := toMultiple_of_nonpos hr (show x + r - 1 ≤ 0 by omega)
        omega
    · exact .inl hpos
  · intro h
    have hmultiples := And.intro (@hdvd x) (And.intro (@hdvd (x + r - 1)) (@hdvd (x + r / 2)))
    have hlaws : (toMultiple r x ≤ x ∧ x < toMultiple r x + r) ∧
        (toMultiple r (x + r - 1) - r < x ∧ x ≤ toMultiple r (x + r - 1)) ∧
        2 * ((toMultiple r (x + r / 2) - x).natAbs : Int) ≤ r := by
      rcases h with hx | rfl
      · have h₁ := toMultiple_of_nonneg hr hx
        have h₂ := toMultiple_of_nonneg hr (show 0 ≤ x + r - 1 by omega)
        have h₃ := toMultiple_of_nonneg hr (show 0 ≤ x + r / 2 by omega)
        omega
      · simp only [toMultiple, Int.tdiv_one]
        omega
    refine ⟨_, _, _, hdown, hup, hnearest, hmultiples, hlaws.1, hlaws.2.1, hlaws.2.2, fun hx => ?_⟩
    exact ⟨eq_of_dvd hdvd hx (by omega), eq_of_dvd hdvd hx (by omega), eq_of_dvd hdvd hx (by omega)⟩

end

/-- A value of 25 with a resolution of 10. -/
theorem rounds_of_pos : ∃ down up nearest,
    roundDownTo ⟨false, true⟩ 25 10 = some down ∧ roundUpTo ⟨false, true⟩ 25 10 = some up ∧
      roundTo ⟨false, true⟩ 25 10 = some nearest ∧ Rounded 25 10 down up nearest :=
  (rounds_iff ⟨false, true⟩ (by decide) ⟨by decide, by decide⟩ (by decide) nofun).2
    (.inl (by decide))

/-- -1 is rounded down to 0, the multiple -20 up to -10, and -6 to 0, all in steps of 10. -/
theorem rounds_of_neg : roundDownTo ⟨false, true⟩ (-1) 10 = some 0 ∧
    roundUpTo ⟨false, true⟩ (-20) 10 = some (-10) ∧ roundTo ⟨false, true⟩ (-6) 10 = some 0 := by
  decide

end WebrtcCore.Ports.UnitRounding
