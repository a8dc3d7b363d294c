import Mathlib.Algebra.Group.Nat.Defs

/-!
# Zero-padded decimals and their order as texts

`decimal` is what `%zu` prints and `padded` what `%0*zu` prints.  Texts of one width
compare like the numbers they stand for, which is `padded_lt`: the proof goes through
`digitsOf`, the last digits of a number, where the width is the recursion.
-/

namespace WebrtcCore.Verified.Decimal

open List

/-- `%zu`. -/
def decimal (n : Nat) : List Char := Nat.toDigits 10 n

/-- `%0*zu`: at least `width` characters, with zeros in front. -/
def padded (width n : Nat) : List Char :=
  List.replicate (width - (decimal n).length) '0' ++ decimal n

/-- The last `width` digits of a number. -/
def digitsOf : Nat → Nat → List Char
  | 0, _ => []
  | width + 1, n => digitsOf width (n / 10) ++ [Nat.digitChar (n % 10)]

theorem length_digitsOf (width n : Nat) : (digitsOf width n).length = width := by
  induction width generalizing n with
  | zero => rfl
  | succ width ih => rw [digitsOf, length_append, ih, length_singleton]

theorem digitsOf_zero (width : Nat) : digitsOf width 0 = List.replicate width '0' := by
  induction width with
  | zero => rfl
  | succ width ih =>
    rw [digitsOf, ih, replicate_succ']
    rfl

theorem decimal_length_le {n width : Nat} (hwidth : 0 < width) (h : n < 10 ^ width) :
    (decimal n).length ≤ width :=
  (Nat.length_toDigits_le_iff (by decide) hwidth).mpr h

theorem lt_pow_decimal_length (n : Nat) : n < 10 ^ (decimal n).length :=
  (Nat.length_toDigits_le_iff (by decide) Nat.length_toDigits_pos).mp (Nat.le_refl _)

theorem padded_eq_digitsOf {width n : Nat} (hwidth : 0 < width) (h : n < 10 ^ width) :
    padded width n = digitsOf width n := by
  induction width generalizing n with
  | zero => exact absurd hwidth (Nat.lt_irrefl 0)
  | succ width ih =>
    by_cases hn : n < 10
    · rw [padded, decimal, Nat.toDigits_of_lt_base hn, digitsOf, Nat.div_eq_of_lt hn,
        Nat.mod_eq_of_lt hn, digitsOf_zero]
      rfl
    · have hdiv : n / 10 < 10 ^ width := by
        rw [Nat.pow_succ, Nat.mul_comm] at h
        exact Nat.div_lt_of_lt_mul h
      have hpos : 0 < width := by
        cases width with
        | zero =>
          omega
        | succ width => exact Nat.succ_pos width
      rw [digitsOf, ← ih hpos hdiv, padded, padded, decimal, decimal,
        Nat.toDigits_of_base_le (by decide) (Nat.le_of_not_lt hn), length_append,
        length_singleton, Nat.add_sub_add_right, append_assoc]

theorem append_lt_append {xs ys : List Char} (h : xs < ys) (hlen : xs.length = ys.length)
    (as bs : List Char) : xs ++ as < ys ++ bs := by
  induction xs generalizing ys with
  | nil =>
    rw [length_eq_zero_iff.mp hlen.symm] at h
    exact absurd h (by decide)
  | cons x xs ih =>
    cases ys with
    | nil => simp at hlen
    | cons y ys =>
      rw [length_cons, length_cons, Nat.succ_inj] at hlen
      rw [cons_lt_cons_iff] at h
      rw [cons_append, cons_append, cons_lt_cons_iff]
      cases h with
      | inl hxy => exact Or.inl hxy
      | inr hxy => exact Or.inr ⟨hxy.1, ih hxy.2 hlen⟩

theorem digitChar_lt {a b : Nat} (h : a < b) (hb : b < 10) : Nat.digitChar a < Nat.digitChar b := by
  have ha : (Nat.digitChar a).toNat = 48 + a := Nat.toNat_digitChar_of_lt_ten (by omega)
  have hb : (Nat.digitChar b).toNat = 48 + b := Nat.toNat_digitChar_of_lt_ten hb
  show (Nat.digitChar a).toNat < (Nat.digitChar b).toNat
  omega

theorem digitsOf_lt {width i j : Nat} (h : i < j) (hj : j < 10 ^ width) :
    digitsOf width i < digitsOf width j := by
  induction width generalizing i j with
  | zero =>
    omega
  | succ width ih =>
    rw [digitsOf]
    by_cases hfront : i / 10 < j / 10
    · have hdiv : j / 10 < 10 ^ width := by
        rw [Nat.pow_succ, Nat.mul_comm] at hj
        exact Nat.div_lt_of_lt_mul hj
      have hlen : (digitsOf width (i / 10)).length = (digitsOf width (j / 10)).length := by
        rw [length_digitsOf, length_digitsOf]
      exact append_lt_append (ih hfront hdiv) hlen _ _
    · have heq : i / 10 = j / 10 := by omega
      have hlast : i % 10 < j % 10 := by omega
      rw [heq]
      apply append_left_lt
      rw [cons_lt_cons_iff]
      exact Or.inl (digitChar_lt hlast (Nat.mod_lt j (by decide)))

theorem padded_lt {width i j : Nat} (h : i < j) (hj : j < 10 ^ width) :
    padded width i < padded width j := by
  have hwidth : 0 < width := by
    cases width with
    | zero =>
      omega
    | succ width => exact Nat.succ_pos width
  rw [padded_eq_digitsOf hwidth (Nat.lt_trans h hj), padded_eq_digitsOf hwidth hj]
  exact digitsOf_lt h hj

theorem length_padded {width n : Nat} (hwidth : 0 < width) (h : n < 10 ^ width) :
    (padded width n).length = width := by
  rw [padded_eq_digitsOf hwidth h, length_digitsOf]

end WebrtcCore.Verified.Decimal
