import Mathlib.Algebra.Group.Nat.Defs

/-!
# Numbers written in a buffer

An entropy coder writes one long number, digit by digit, into a buffer of
machine words, and later goes back to add a carry to what it has written.
`leading b σ n` is the number that the first `n` digits of a sequence stand
for, most significant first; `digits` is the sequence in a buffer, and `carry`
is the C loop that adds one to the number in front of a position.
-/

namespace WebrtcCore.Verified.Digits

/-! ## Sequences of digits -/

/-- The number that the first `n` digits stand for in base `b`. -/
def leading (b : Nat) (σ : Nat → Nat) : Nat → Nat
  | 0 => 0
  | n + 1 => leading b σ n * b + σ n

section Leading

variable {b : Nat} {σ τ : Nat → Nat}

theorem leading_congr {n : Nat} (h : ∀ i < n, σ i = τ i) : leading b σ n = leading b τ n := by
  induction n with
  | zero => rfl
  | succ n ih =>
    rw [leading, leading, ih fun i hi => h i (by omega), h n (by omega)]

theorem leading_lt {n : Nat} (h : ∀ i < n, σ i < b) : leading b σ n < b ^ n := by
  induction n with
  | zero => simp [leading]
  | succ n ih =>
    have hn : σ n < b := h n (by omega)
    have hmul : (leading b σ n + 1) * b ≤ b ^ n * b :=
      Nat.mul_le_mul_right b (ih fun i hi => h i (by omega))
    rw [Nat.add_mul] at hmul
    rw [leading, Nat.pow_succ]
    omega

theorem leading_inj {n : Nat} (hσ : ∀ i < n, σ i < b) (hτ : ∀ i < n, τ i < b)
    (h : leading b σ n = leading b τ n) : ∀ i < n, σ i = τ i := by
  induction n with
  | zero => exact fun i hi => absurd hi (by omega)
  | succ n ih =>
    have hσn : σ n < b := hσ n (by omega)
    have hτn : τ n < b := hτ n (by omega)
    rw [leading, leading] at h
    have hlast : σ n = τ n := by
      have hmod := congrArg (· % b) h
      simpa [Nat.mod_eq_of_lt hσn, Nat.mod_eq_of_lt hτn] using hmod
    have hfront : leading b σ n = leading b τ n := by
      rw [hlast] at h
      exact Nat.eq_of_mul_eq_mul_right (by omega) (Nat.add_right_cancel h)
    intro i hi
    rcases Nat.lt_succ_iff_lt_or_eq.1 hi with hi | rfl
    · exact ih (fun i hi => hσ i (by omega)) (fun i hi => hτ i (by omega)) hfront i hi
    · exact hlast

theorem leading_div {n : Nat} (k : Nat) (h : ∀ i < n + k, σ i < b) :
    leading b σ (n + k) / b ^ k = leading b σ n := by
  induction k with
  | zero => simp
  | succ k ih =>
    have hlast : σ (n + k) < b := h (n + k) (by omega)
    rw [← Nat.add_assoc, leading, Nat.pow_succ, Nat.mul_comm (b ^ k),
      ← Nat.div_div_eq_div_mul, Nat.mul_comm, Nat.mul_add_div (by omega),
      Nat.div_eq_of_lt hlast, Nat.add_zero, ih fun i hi => h i (by omega)]

end Leading

/-! ## Buffers -/

section Buffers

variable {w size : Nat}

/-- The digits in a buffer, with zeros behind it. -/
def digits (cells : Vector (BitVec w) size) (i : Nat) : Nat :=
  if h : i < size then cells[i].toNat else 0

/-- `cells[i] = value`; outside the buffer this is undefined behaviour. -/
def store (cells : Vector (BitVec w) size) (i : Nat) (value : BitVec w) :
    Option (Vector (BitVec w) size) :=
  if h : i < size then some (cells.set i value h) else none

def carry (cells : Vector (BitVec w) size) :
    Nat → Option (Vector (BitVec w) size)
  | 0 => none
  | i + 1 =>
    if h : i < size then
      let cells' := cells.set i (cells[i] + 1#w) h
      if cells[i] + 1#w = 0#w then carry cells' i else some cells'
    else none

variable (cells : Vector (BitVec w) size)

theorem digits_lt (i : Nat) : digits cells i < 2 ^ w := by
  unfold digits
  split
  · exact BitVec.isLt _
  · exact Nat.two_pow_pos w

theorem digits_set_self {i : Nat} (h : i < size) (value : BitVec w) :
    digits (cells.set i value h) i = value.toNat := by
  rw [digits, dif_pos h, Vector.getElem_set_self]

theorem digits_set_of_ne {i j : Nat} (h : i < size) (value : BitVec w) (hne : i ≠ j) :
    digits (cells.set i value h) j = digits cells j := by
  unfold digits
  split
  case isTrue hj => rw [Vector.getElem_set_ne _ _ hne]
  case isFalse => rfl

theorem digits_of_take {cells cells' : Vector (BitVec w) size} {n : Nat}
    (h : cells.toList.take n = cells'.toList.take n) :
    ∀ i < n, digits cells i = digits cells' i := by
  intro i hi
  have hcell := congrArg (·[i]?) h
  simp only [List.getElem?_take_of_lt hi, Vector.getElem?_toList] at hcell
  unfold digits
  split
  case isTrue hsize =>
    rw [Vector.getElem?_eq_getElem hsize, Vector.getElem?_eq_getElem hsize] at hcell
    rw [Option.some.inj hcell]
  case isFalse => rfl

theorem leading_set {i n : Nat} (h : i < size) (value : BitVec w) (hn : n ≤ i) :
    leading (2 ^ w) (digits (cells.set i value h)) n = leading (2 ^ w) (digits cells) n :=
  leading_congr fun _ hj => digits_set_of_ne cells h value (by omega)

theorem leading_set_succ {i : Nat} (h : i < size) (value : BitVec w) :
    leading (2 ^ w) (digits (cells.set i value h)) (i + 1) =
      leading (2 ^ w) (digits cells) i * 2 ^ w + value.toNat := by
  rw [leading, leading_set cells h value (Nat.le_refl i), digits_set_self]

theorem toNat_add_one (x : BitVec w) : (x + 1#w).toNat = (x.toNat + 1) % 2 ^ w := by simp

theorem carry_spec {n : Nat} (hn : n ≤ size)
    (hroom : leading (2 ^ w) (digits cells) n + 1 < (2 ^ w) ^ n) :
    ∃ cells', carry cells n = some cells' ∧
      leading (2 ^ w) (digits cells') n = leading (2 ^ w) (digits cells) n + 1 ∧
      ∀ j, n ≤ j → digits cells' j = digits cells j := by
  induction n generalizing cells with
  | zero => simp at hroom
  | succ n ih =>
    have hsize : n < size := by omega
    have hlt := cells[n].isLt
    have hdigit : digits cells n = cells[n].toNat := dif_pos hsize
    rw [leading, Nat.pow_succ] at hroom
    have hnext := toNat_add_one cells[n]
    rw [carry, dif_pos hsize]
    by_cases hzero : cells[n] + 1#w = 0#w
    · -- The cell was all ones: it becomes zero and the carry goes on.
      have hfull : cells[n].toNat + 1 = 2 ^ w := by
        rw [hzero] at hnext
        exact Nat.le_antisymm hlt (Nat.le_of_dvd (by omega) (Nat.dvd_of_mod_eq_zero hnext.symm))
      have hfront := leading_set cells hsize (cells[n] + 1#w) (Nat.le_refl n)
      have hroom' : leading (2 ^ w) (digits cells) n + 1 < (2 ^ w) ^ n := by
        apply Nat.lt_of_mul_lt_mul_right (a := 2 ^ w)
        rw [Nat.add_mul]
        omega
      obtain ⟨cells', hcarry, hvalue, hrest⟩ :=
        ih _ (Nat.le_of_lt hsize) (by rw [hfront]; exact hroom')
      refine ⟨cells', by simpa [hzero] using hcarry, ?_, ?_⟩
      · rw [leading, leading, hvalue, hfront, hrest n (Nat.le_refl n), digits_set_self, hzero,
          BitVec.toNat_zero, Nat.add_mul]
        omega
      · intro j hj
        rw [hrest j (by omega), digits_set_of_ne cells hsize _ (by omega)]
    · have hne : cells[n].toNat + 1 ≠ 2 ^ w := by
        intro hfull
        rw [hfull, Nat.mod_self] at hnext
        exact hzero (BitVec.eq_of_toNat_eq hnext)
      rw [Nat.mod_eq_of_lt (by omega)] at hnext
      refine ⟨cells.set n (cells[n] + 1#w) hsize, by simp [hzero], ?_, ?_⟩
      · rw [leading_set_succ, leading, hnext, hdigit, Nat.add_assoc]
      · intro j hj
        exact digits_set_of_ne cells hsize _ (by omega)

end Buffers

end WebrtcCore.Verified.Digits
