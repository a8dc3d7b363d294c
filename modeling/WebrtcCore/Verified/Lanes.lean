import Mathlib.Algebra.Group.Nat.Defs

/-!
# Numbers in lanes

Counting the bits of a word in parallel works on the word as a row of lanes of `w` bits,
the lowest first.  `d + 2 ^ w * x` is a lane `d` with the lanes `x` above it.  A mask acts on
each lane by itself, and a mask that leaves out the high bits of a lane does not see what a
shift has brought there from the lane above.
-/

namespace WebrtcCore.Verified.Lanes

variable {w : Nat}

theorem land_lane {d e : Nat} (hd : d < 2 ^ w) (he : e < 2 ^ w) (x y : Nat) :
    (d + 2 ^ w * x) &&& (e + 2 ^ w * y) = (d &&& e) + 2 ^ w * (x &&& y) := by
  have hlow : ((d + 2 ^ w * x) &&& (e + 2 ^ w * y)) % 2 ^ w = d &&& e := by
    rw [Nat.and_mod_two_pow, Nat.add_mul_mod_self_left, Nat.add_mul_mod_self_left,
      Nat.mod_eq_of_lt hd, Nat.mod_eq_of_lt he]
  have hhigh : ((d + 2 ^ w * x) &&& (e + 2 ^ w * y)) / 2 ^ w = x &&& y := by
    rw [Nat.and_div_two_pow, Nat.add_mul_div_left _ _ (Nat.two_pow_pos w),
      Nat.add_mul_div_left _ _ (Nat.two_pow_pos w), Nat.div_eq_of_lt hd,
      Nat.div_eq_of_lt he, Nat.zero_add, Nat.zero_add]
  rw [← hlow, ← hhigh, Nat.mod_add_div]

variable {v m : Nat} (hm : m < 2 ^ v)
include hm

theorem land_mod (d : Nat) : d % 2 ^ v &&& m = d &&& m := by
  have hmod := Nat.and_mod_two_pow (a := d) (b := m) (n := v)
  rw [Nat.mod_eq_of_lt hm, Nat.mod_eq_of_lt (Nat.and_lt_two_pow d hm)] at hmod
  exact hmod.symm

theorem land_lane_of_mod {d e : Nat} (hvw : v ≤ w) (he : e < 2 ^ w)
    (hlow : e % 2 ^ v = d % 2 ^ v) (x y : Nat) :
    (e + 2 ^ w * x) &&& (m + 2 ^ w * y) = (d &&& m) + 2 ^ w * (x &&& y) := by
  have hmask : m < 2 ^ w := Nat.lt_of_lt_of_le hm (Nat.pow_le_pow_right Nat.two_pos hvw)
  rw [land_lane he hmask, ← land_mod hm e, hlow, land_mod hm]

end WebrtcCore.Verified.Lanes
