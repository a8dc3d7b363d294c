/-!
# Positions on a circle

Programs move a position around an array of `n` cells by adding one, by
subtracting one, or by adding an offset, and each of the three has its own way
to come around the end.  On positions that are in range all of them are addition
modulo `n` (`inc_emod`, `dec_emod`, `offset_emod`), so a position can be written
as `x % n` with an `x` that never wraps, and the distance between two positions
is the difference of what stands in front of the `%` (`ahead_emod`).
-/

namespace WebrtcCore.Verified.CircularIndex

variable {n : Int}

/-- One further, by comparison. -/
def inc (n i : Int) : Int := if i < n - 1 then i + 1 else 0

/-- One back, by comparison. -/
def dec (n i : Int) : Int := if 0 < i then i - 1 else n - 1

/-- Further or back, by the remainder of a truncating division. -/
def offset (n i k : Int) : Int := (n + i + k).tmod n

/-- How far `a` is ahead of `b`, by comparison. -/
def ahead (n a b : Int) : Int := if b ≤ a then a - b else n + a - b

/-- The position is a cell of the array. -/
def InRange (n i : Int) : Prop := 0 ≤ i ∧ i < n

theorem inRange_emod (hn : 0 < n) (x : Int) : InRange n (x % n) :=
  ⟨Int.emod_nonneg x (Int.ne_of_gt hn), Int.emod_lt_of_pos x hn⟩

theorem inc_emod (hn : 0 < n) (x : Int) : inc n (x % n) = (x + 1) % n := by
  have hrange := inRange_emod hn x
  rw [← Int.emod_add_emod, inc]
  split
  case isTrue hlt => exact (Int.emod_eq_of_lt (by have := hrange.1; omega) (by omega)).symm
  case isFalse hlast =>
    have hend : x % n + 1 = n := by
      have := hrange.2
      omega
    rw [hend, Int.emod_self]

theorem dec_emod (hn : 0 < n) (x : Int) : dec n (x % n) = (x - 1) % n := by
  have hrange := inRange_emod hn x
  have hstep : (x - 1) % n = (x % n + (n - 1)) % n := by
    rw [Int.emod_add_emod, show x + (n - 1) = x - 1 + n by omega, Int.add_emod_right]
  rw [hstep, dec]
  split
  case isTrue hpos =>
    rw [show x % n + (n - 1) = x % n - 1 + n by omega, Int.add_emod_right]
    exact (Int.emod_eq_of_lt (by omega) (by have := hrange.2; omega)).symm
  case isFalse hzero =>
    have hfirst : x % n = 0 := by
      have := hrange.1
      omega
    rw [hfirst, Int.zero_add]
    exact (Int.emod_eq_of_lt (by omega) (by omega)).symm

theorem offset_emod (hn : 0 < n) (x : Int) {k : Int} (hk : -n ≤ k) :
    offset n (x % n) k = (x + k) % n := by
  have hrange := inRange_emod hn x
  rw [offset, Int.tmod_eq_emod_of_nonneg (by have := hrange.1; omega), Int.add_assoc,
    Int.add_emod_left, Int.emod_add_emod]

theorem ahead_emod (hn : 0 < n) (x y : Int) : ahead n (x % n) (y % n) = (x - y) % n := by
  have hx := inRange_emod hn x
  have hy := inRange_emod hn y
  have hsub : (x - y) % n = (x % n - y % n) % n := Int.sub_emod x y n
  rw [hsub, ahead]
  split
  case isTrue hle =>
    exact (Int.emod_eq_of_lt (by omega) (by have := hx.2; have := hy.1; omega)).symm
  case isFalse hlt =>
    rw [← Int.add_emod_left n (x % n - y % n), ← Int.add_sub_assoc]
    exact (Int.emod_eq_of_lt (by have := hx.1; have := hy.2; omega) (by omega)).symm

theorem distance_emod (x y : Int) : (n + x % n - y % n) % n = (x - y) % n := by
  rw [Int.add_sub_assoc, Int.add_emod_left, ← Int.sub_emod]

theorem offset_mul {k : Int} (hk : 0 < k) (n i j : Int) :
    offset (k * n) (k * i) (k * j) = k * offset n i j := by
  rw [offset, offset, ← Int.mul_add, ← Int.mul_add, Int.mul_tmod_mul_of_pos _ _ hk]

theorem emod_eq_zero_iff {k : Int} (hk : 0 ≤ k) (hn : k ≤ n) : k % n = 0 ↔ k = 0 ∨ k = n := by
  by_cases hlt : k < n
  · rw [Int.emod_eq_of_lt hk hlt]
    constructor
    · exact .inl
    · intro h
      omega
  · have heq : k = n := by omega
    rw [heq, Int.emod_self]
    exact iff_of_true rfl (.inr rfl)

end WebrtcCore.Verified.CircularIndex
