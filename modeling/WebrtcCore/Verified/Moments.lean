import Mathlib.Tactic.FieldSimp
import WebrtcCore.Verified.Regression

/-!
# Mean and variance, one sample at a time

The sum and the sum of the squares of the samples determine their mean and their variance
(here the sum of the squared deviations).  From these closed forms follow the formulas of the
one-pass algorithms: one more sample, one less, and two sets of samples joined.  Without
samples both are zero, so that a formula for one more sample holds from the start.
-/

namespace WebrtcCore.Verified.Moments

open Verified.Regression List

/-! ## Sum of the squares -/

section Squares

variable {R : Type} [Ring R]

def squares (xs : List R) : R := (xs.map fun x => x * x).sum

@[simp] theorem squares_nil : squares ([] : List R) = 0 := rfl

@[simp] theorem squares_cons (x : R) (xs : List R) : squares (x :: xs) = x * x + squares xs := by
  rw [squares, map_cons, sum_cons, squares]

@[simp] theorem squares_append (xs ys : List R) : squares (xs ++ ys) = squares xs + squares ys := by
  rw [squares, map_append, sum_append, squares, squares]

variable (xs : List Int)

theorem squares_intCast : squares (xs.map (Int.cast : Int → R)) = squares xs := by
  induction xs with
  | nil => simp
  | cons x xs ih =>
    rw [map_cons, squares_cons, squares_cons, ih]
    push_cast
    rfl

theorem squares_nonneg : 0 ≤ squares xs := by
  apply sum_nonneg
  intro y hy
  obtain ⟨x, _, rfl⟩ := mem_map.1 hy
  exact mul_self_nonneg x

theorem abs_sum_le_squares : |xs.sum| ≤ squares xs := by
  induction xs with
  | nil => simp
  | cons x xs ih =>
    have hx : |x| ≤ x * x := by
      rw [Int.abs_eq_natAbs, ← sq]
      exact Int.natAbs_le_self_sq x
    exact (abs_add_le _ _).trans (add_le_add hx ih)

end Squares

variable {K : Type} [Field K]

@[simp] theorem mean_nil : mean ([] : List K) = 0 := zero_div _

@[simp] theorem variance_nil : variance ([] : List K) = 0 := rfl

/-! ## The order of the samples -/

theorem mean_perm {xs ys : List K} (h : xs.Perm ys) : mean xs = mean ys := by
  rw [mean, mean, h.sum_eq, h.length_eq]

theorem variance_perm {xs ys : List K} (h : xs.Perm ys) : variance xs = variance ys := by
  rw [variance, mean_perm h]
  exact (h.map _).sum_eq

/-! ## Closed forms -/

theorem sum_squared_distances (m : K) (xs : List K) :
    (xs.map fun x => (x - m) * (x - m)).sum =
      squares xs - 2 * m * xs.sum + xs.length * (m * m) := by
  induction xs with
  | nil => simp
  | cons x xs ih =>
    rw [map_cons, sum_cons, ih, squares_cons, sum_cons, length_cons]
    push_cast
    ring

section CharZero

variable [CharZero K]

theorem length_mul_mean (xs : List K) : xs.length * mean xs = xs.sum := by
  cases xs with
  | nil => simp
  | cons x xs =>
    apply mul_div_cancel₀
    rw [length_cons, Nat.cast_succ]
    exact Nat.cast_add_one_ne_zero _

theorem variance_eq (xs : List K) : variance xs = squares xs - xs.length * (mean xs * mean xs) := by
  rw [variance, sum_squared_distances, ← length_mul_mean]
  ring

/-! ## One sample more or less -/

theorem mean_cons (x : K) (xs : List K) :
    mean (x :: xs) = mean xs + (x - mean xs) / (xs.length + 1) := by
  rw [mean, sum_cons, length_cons, Nat.cast_succ, ← length_mul_mean]
  field_simp
  ring

theorem variance_cons (x : K) (xs : List K) :
    variance (x :: xs) = variance xs + (x - mean xs) * (x - mean (x :: xs)) := by
  rw [variance_eq, variance_eq, mean_cons, squares_cons, length_cons, Nat.cast_succ]
  field_simp
  ring

theorem mean_of_cons (x : K) {xs : List K} (h : xs ≠ []) :
    mean xs = mean (x :: xs) - (x - mean (x :: xs)) / xs.length := by
  have hlength : (xs.length : K) ≠ 0 := Nat.cast_ne_zero.2 (Nat.ne_of_gt (length_pos_iff.2 h))
  rw [mean_cons]
  field_simp
  ring

/-! ## Two sets of samples -/

theorem mean_append (xs ys : List K) :
    mean (xs ++ ys) = (mean xs * xs.length + mean ys * ys.length) / (xs.length + ys.length) := by
  rw [mean, sum_append, ← length_mul_mean, ← length_mul_mean, length_append, Nat.cast_add]
  ring

theorem sum_squared_distances_eq (m : K) (xs : List K) :
    (xs.map fun x => (x - m) * (x - m)).sum =
      variance xs + xs.length * (m * (m - 2 * mean xs) + mean xs * mean xs) := by
  rw [sum_squared_distances, variance_eq, ← length_mul_mean]
  ring

theorem variance_append (xs ys : List K) :
    variance (xs ++ ys) =
      variance xs +
          xs.length * (mean (xs ++ ys) * (mean (xs ++ ys) - 2 * mean xs) + mean xs * mean xs) +
        variance ys +
          ys.length * (mean (xs ++ ys) * (mean (xs ++ ys) - 2 * mean ys) + mean ys * mean ys) := by
  rw [variance, map_append, sum_append, sum_squared_distances_eq, sum_squared_distances_eq]
  ring

end CharZero

end WebrtcCore.Verified.Moments
