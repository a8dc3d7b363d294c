import WebrtcCore.Verified.Digits

/-!
# Bits of a buffer

A buffer of `w`-bit cells is also one long sequence of bits, the most
significant bit of each cell first.  `bitAt` is this sequence and `bitsValue`
the number that some of its bits stand for.  Code that works on whole cells
with masks and shifts meets the two at `bitsValue_cell`: bits inside one cell
are a quotient and a remainder of it.
-/

namespace WebrtcCore.Verified.Bits

open Verified.Digits

/-- The number that the first `n` bits stand for. -/
def bitsValue (σ : Nat → Bool) (n : Nat) : Nat := leading 2 (fun i => (σ i).toNat) n

theorem bitsValue_congr {σ τ : Nat → Bool} {n : Nat} (h : ∀ i < n, σ i = τ i) :
    bitsValue σ n = bitsValue τ n :=
  leading_congr fun i hi => congrArg Bool.toNat (h i hi)

variable (σ : Nat → Bool)

theorem bitsValue_lt (n : Nat) : bitsValue σ n < 2 ^ n := leading_lt fun i _ => Bool.toNat_lt (σ i)

theorem bitsValue_div {m n : Nat} (h : m ≤ n) : bitsValue σ n / 2 ^ (n - m) = bitsValue σ m := by
  have hdiv := leading_div (n - m) fun i (_ : i < m + (n - m)) => Bool.toNat_lt (σ i)
  rw [Nat.add_sub_of_le h] at hdiv
  exact hdiv

theorem bitsValue_add (m n : Nat) :
    bitsValue σ (m + n) = bitsValue σ m * 2 ^ n + bitsValue (fun i => σ (m + i)) n := by
  induction n with
  | zero => simp [bitsValue, leading]
  | succ n ih =>
    unfold bitsValue at ih ⊢
    rw [← Nat.add_assoc, leading, leading]
    grind

/-- `after` is `before` with the `n` bits from `start` on replaced by the first
`n` bits of `σ`. -/
def Overwrites (before after : Nat → Bool) (start n : Nat) (σ : Nat → Bool) : Prop :=
  ∀ i, after i = if start ≤ i ∧ i < start + n then σ (i - start) else before i

namespace Overwrites

variable {before mid after σ τ : Nat → Bool} {start m n : Nat}

theorem refl (before σ : Nat → Bool) (start : Nat) : Overwrites before before start 0 σ := by
  intro i
  rw [if_neg (by omega)]

theorem congr (h : Overwrites before after start n σ) (hσ : ∀ i < n, σ i = τ i) :
    Overwrites before after start n τ := by
  intro i
  rw [h i]
  split
  case isTrue hin => exact hσ _ (by omega)
  case isFalse => rfl

theorem trans (h₁ : Overwrites before mid start m σ)
    (h₂ : Overwrites mid after (start + m) n fun i => σ (m + i)) :
    Overwrites before after start (m + n) σ := by
  intro i
  rw [h₂ i, h₁ i]
  by_cases hlow : i < start + m
  · rw [if_neg (by omega)]
    by_cases hstart : start ≤ i
    · rw [if_pos ⟨hstart, hlow⟩, if_pos ⟨hstart, by omega⟩]
    · rw [if_neg (by omega), if_neg (by omega)]
  · by_cases hhigh : i < start + m + n
    · rw [if_pos ⟨by omega, hhigh⟩, if_pos ⟨by omega, by omega⟩]
      exact congrArg σ (by omega)
    · rw [if_neg (by omega), if_neg (by omega), if_neg (by omega)]

theorem bitsValue_eq (h : Overwrites before after start n σ) :
    bitsValue (fun i => after (start + i)) n = bitsValue σ n := by
  apply bitsValue_congr
  intro i hi
  rw [h, if_pos ⟨by omega, by omega⟩, Nat.add_sub_cancel_left]

end Overwrites

/-! ## Words -/

section Words

variable {w : Nat}

variable (x : BitVec w)

theorem getMsbD_toNat {i : Nat} (h : i < w) :
    (x.getMsbD i).toNat = x.toNat / 2 ^ (w - 1 - i) % 2 := by
  rw [BitVec.getMsbD_eq_getLsbD, decide_eq_true h, Bool.true_and,
    ← BitVec.testBit_toNat, Nat.toNat_testBit]

variable {n : Nat}

theorem bitsValue_getMsbD {a : Nat} (h : a + n ≤ w) :
    bitsValue (fun i => x.getMsbD (a + i)) n = x.toNat / 2 ^ (w - a - n) % 2 ^ n := by
  induction n with
  | zero => simp [bitsValue, leading, Nat.mod_one]
  | succ n ih =>
    have hbit := getMsbD_toNat x (show a + n < w by omega)
    unfold bitsValue at ih ⊢
    rw [leading, ih (by omega), hbit, show w - 1 - (a + n) = w - a - (n + 1) by omega,
      show w - a - n = w - a - (n + 1) + 1 by omega, Nat.pow_succ 2 (w - a - (n + 1)),
      ← Nat.div_div_eq_div_mul, Nat.pow_succ', Nat.mod_mul]
    omega

theorem bitsValue_getLsbD (h : n ≤ w) :
    bitsValue (fun i => x.getLsbD (n - 1 - i)) n = x.toNat % 2 ^ n := by
  have hmsb := bitsValue_getMsbD x (show w - n + n ≤ w by omega)
  rw [show w - (w - n) - n = 0 by omega, Nat.pow_zero, Nat.div_one] at hmsb
  rw [← hmsb]
  apply bitsValue_congr
  intro i hi
  rw [BitVec.getMsbD_eq_getLsbD, decide_eq_true (by omega)]
  congr 1
  omega

theorem shiftLeft_or_toNat_of_lt {x y : BitVec w} (hx : x.toNat * 2 ^ n < 2 ^ w)
    (hy : y.toNat < 2 ^ n) :
    (x <<< n ||| y).toNat = x.toNat * 2 ^ n + y.toNat := by
  rw [BitVec.toNat_or, BitVec.toNat_shiftLeft, Nat.shiftLeft_eq, Nat.mod_eq_of_lt hx, Nat.mul_comm]
  exact (Nat.two_pow_add_eq_or_of_lt hy x.toNat).symm

theorem shiftLeft_or_toNat {x y : BitVec w} {σ : Nat → Bool} {m : Nat}
    (hx : x.toNat = bitsValue σ m) (hy : y.toNat = bitsValue (fun i => σ (m + i)) n)
    (hfits : m + n ≤ w) :
    (x <<< n ||| y).toNat = bitsValue σ (m + n) := by
  have hxlt : x.toNat * 2 ^ n < 2 ^ w := by
    calc x.toNat * 2 ^ n
        < 2 ^ m * 2 ^ n := Nat.mul_lt_mul_of_pos_right (hx ▸ bitsValue_lt σ m) (Nat.two_pow_pos n)
      _ = 2 ^ (m + n) := (Nat.pow_add 2 m n).symm
      _ ≤ 2 ^ w := Nat.pow_le_pow_right (by decide) hfits
  have hylt : y.toNat < 2 ^ n := hy ▸ bitsValue_lt _ n
  rw [bitsValue_add, ← hx, ← hy, shiftLeft_or_toNat_of_lt hxlt hylt]

end Words

/-! ## Buffers -/

section Buffers

variable {w size : Nat} (cells : Vector (BitVec w) size)

/-- The bits of a buffer, most significant bit of each cell first. -/
def bitAt (i : Nat) : Bool := if h : i / w < size then cells[i / w].getMsbD (i % w) else false

variable {i a n : Nat}

theorem bitAt_cell (hi : i < size) (ha : a < w) : bitAt cells (w * i + a) = cells[i].getMsbD a := by
  have hdiv : (w * i + a) / w = i := by
    rw [Nat.mul_add_div (by omega), Nat.div_eq_of_lt ha, Nat.add_zero]
  have hmod : (w * i + a) % w = a := by rw [Nat.mul_add_mod, Nat.mod_eq_of_lt ha]
  unfold bitAt
  simp only [hdiv, hmod, dif_pos hi]

theorem bitAt_set (hi : i < size) (value : BitVec w) (j : Nat) :
    bitAt (cells.set i value hi) j =
      if j / w = i then value.getMsbD (j % w) else bitAt cells j := by
  unfold bitAt
  split
  case isTrue h =>
    rw [Vector.getElem_set]
    by_cases heq : j / w = i
    · rw [if_pos heq.symm, if_pos heq]
    · rw [if_neg (Ne.symm heq), if_neg heq]
  case isFalse h =>
    rw [if_neg (by omega)]

variable {σ : Nat → Bool} {value : BitVec w} (hi : i < size) (ha : a + n ≤ w)
  (h : ∀ j < w, value.getMsbD j = if a ≤ j ∧ j < a + n then σ (j - a) else cells[i].getMsbD j)
include hi ha h

theorem Overwrites.of_set :
    Overwrites (bitAt cells) (bitAt (cells.set i value hi)) (w * i + a) n σ := by
  intro j
  rw [bitAt_set]
  have hj : w * (j / w) + j % w = j := Nat.div_add_mod j w
  by_cases heq : j / w = i
  case pos =>
    subst heq
    rw [if_pos rfl]
    by_cases hw : 0 < w
    · rw [h _ (Nat.mod_lt j hw), ← bitAt_cell cells hi (Nat.mod_lt j hw), hj]
      by_cases hin : a ≤ j % w ∧ j % w < a + n
      · rw [if_pos hin, if_pos (by omega)]
        exact congrArg σ (by omega)
      · rw [if_neg hin, if_neg (by omega)]
    · obtain rfl : w = 0 := by omega
      rw [if_neg (by omega)]
      simp [bitAt]
  case neg =>
    rw [if_neg heq, if_neg]
    intro hin
    apply heq
    apply Nat.div_eq_of_lt_le
    · rw [Nat.mul_comm]
      omega
    · rw [Nat.add_mul, Nat.mul_comm i w]
      omega

theorem store_overwrites :
    ∃ cells', store cells i value = some cells' ∧
      Overwrites (bitAt cells) (bitAt cells') (w * i + a) n σ :=
  ⟨_, dif_pos hi, Overwrites.of_set cells hi ha h⟩

omit hi ha h

theorem bitsValue_cell (hi : i < size) (h : a + n ≤ w) :
    bitsValue (fun j => bitAt cells (w * i + a + j)) n =
      cells[i].toNat / 2 ^ (w - a - n) % 2 ^ n := by
  rw [← bitsValue_getMsbD cells[i] h]
  apply bitsValue_congr
  intro j hj
  rw [Nat.add_assoc, bitAt_cell cells hi (by omega)]

end Buffers

end WebrtcCore.Verified.Bits
