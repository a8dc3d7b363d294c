import Mathlib.Algebra.Group.Nat.Defs

/-!
# Numbers as bytes

`bytesBE n v` is the low `n` bytes of `v`, most significant first, and
`valueBE` reads such a word back.  Every network-order field of the ported
formats is an instance with `n` one of 1, 2, 4 and 8.

`bytesLE` and `valueLE` are the same with the bytes the other way round, as
a structure is stored on the platforms the ports are for.  `fieldLE` reads
one field of such a record by its offset, and the two lemmas about it on an
append take a record apart field by field.
-/

namespace WebrtcCore.Verified.Bytes

open List

/-- The low `n` bytes of `v` in network order. -/
def bytesBE : Nat → Nat → List UInt8
  | 0, _ => []
  | n + 1, v => UInt8.ofNat (v / 256 ^ n) :: bytesBE n v

/-- The number a word in network order stands for. -/
def valueBE : List UInt8 → Nat
  | [] => 0
  | b :: bs => b.toNat * 256 ^ bs.length + valueBE bs

variable (n v : Nat)

@[simp] theorem bytesBE_length : (bytesBE n v).length = n := by
  induction n with
  | zero => rfl
  | succ n ih => simp [bytesBE, ih]

theorem valueBE_bytesBE : valueBE (bytesBE n v) = v % 256 ^ n := by
  induction n with
  | zero => simp [bytesBE, valueBE, Nat.mod_one]
  | succ n ih =>
    rw [bytesBE, valueBE, ih, bytesBE_length, Nat.mod_pow_succ,
      UInt8.toNat_ofNat', Nat.mul_comm, Nat.add_comm]

theorem valueBE_lt (bs : List UInt8) : valueBE bs < 256 ^ bs.length := by
  induction bs with
  | nil => exact Nat.one_pos
  | cons b bs ih =>
    have hb : b.toNat + 1 ≤ 256 := b.toNat_lt
    have hle := Nat.mul_le_mul_right (256 ^ bs.length) hb
    rw [Nat.add_mul] at hle
    rw [valueBE, length_cons]
    omega

theorem valueBE_bytesBE_of_lt {n v : Nat} (h : v < 256 ^ n) : valueBE (bytesBE n v) = v := by
  rw [valueBE_bytesBE, Nat.mod_eq_of_lt h]

theorem valueBE_lt_valueBE_iff {xs ys : List UInt8} (hlen : xs.length = ys.length) :
    valueBE xs < valueBE ys ↔ xs < ys := by
  induction xs generalizing ys with
  | nil =>
    rw [length_eq_zero_iff.mp hlen.symm]
    simp
  | cons x xs ih =>
    cases ys with
    | nil => simp at hlen
    | cons y ys =>
      simp only [length_cons, Nat.succ.injEq] at hlen
      have hx := valueBE_lt xs
      have hy := valueBE_lt ys
      rw [hlen] at hx
      rw [cons_lt_cons_iff, ← ih hlen, UInt8.lt_iff_toNat_lt, ← UInt8.toNat_inj,
        valueBE, valueBE, hlen]
      generalize 256 ^ ys.length = base at hx hy
      generalize x.toNat = a
      generalize y.toNat = b
      constructor
      · intro h
        by_cases hab : a < b
        · exact .inl hab
        · by_cases heq : a = b
          · rw [heq] at h
            exact .inr ⟨heq, by omega⟩
          · have hle : (b + 1) * base ≤ a * base := Nat.mul_le_mul_right base (by omega)
            rw [Nat.succ_mul] at hle
            omega
      · intro h
        cases h with
        | inl hab =>
          have hle : (a + 1) * base ≤ b * base := Nat.mul_le_mul_right base hab
          rw [Nat.succ_mul] at hle
          omega
        | inr hab =>
          rw [hab.1]
          omega

theorem bytesBE_add_mul (n a v : Nat) : bytesBE n (a * 256 ^ n + v) = bytesBE n v := by
  induction n generalizing a with
  | zero => rfl
  | succ n ih =>
    have hpos : 0 < 256 ^ n := Nat.pow_pos (by decide)
    have hbase : a * 256 ^ (n + 1) = a * 256 * 256 ^ n := by
      rw [Nat.pow_succ, Nat.mul_assoc, Nat.mul_comm 256]
    have hhead : UInt8.ofNat (a * 256 + v / 256 ^ n) = UInt8.ofNat (v / 256 ^ n) := by
      apply UInt8.toNat_inj.mp
      rw [UInt8.toNat_ofNat', UInt8.toNat_ofNat']
      omega
    rw [bytesBE, bytesBE, hbase, ih, Nat.add_comm, Nat.add_mul_div_right _ _ hpos,
      Nat.add_comm, hhead]

theorem bytesBE_valueBE (bs : List UInt8) : bytesBE bs.length (valueBE bs) = bs := by
  induction bs with
  | nil => rfl
  | cons b bs ih =>
    have hpos : 0 < 256 ^ bs.length := Nat.pow_pos (by decide)
    rw [length_cons, bytesBE, valueBE, bytesBE_add_mul, ih, Nat.add_comm,
      Nat.add_mul_div_right _ _ hpos, Nat.div_eq_of_lt (valueBE_lt bs), Nat.zero_add,
      UInt8.ofNat_toNat]

/-! ## Little-endian records -/

/-- The low `n` bytes of `v`, least significant first. -/
def bytesLE (n v : Nat) : List UInt8 := (bytesBE n v).reverse

/-- The number a little-endian word stands for. -/
def valueLE (bs : List UInt8) : Nat := valueBE bs.reverse

@[simp] theorem bytesLE_length : (bytesLE n v).length = n := by
  rw [bytesLE, length_reverse, bytesBE_length]

theorem valueLE_bytesLE : valueLE (bytesLE n v) = v % 256 ^ n := by
  rw [valueLE, bytesLE, reverse_reverse, valueBE_bytesBE]

/-- The number in the `n` bytes of a record from offset `off` on. -/
def fieldLE (bs : List UInt8) (off n : Nat) : Nat := valueLE ((bs.drop off).take n)

theorem fieldLE_append_left {a : List UInt8} (b : List UInt8) {off n : Nat}
    (h : off + n ≤ a.length) : fieldLE (a ++ b) off n = fieldLE a off n := by
  rw [fieldLE, fieldLE, drop_append_of_le_length (by omega),
    take_append_of_le_length (by rw [length_drop]; omega)]

theorem fieldLE_append_right {a : List UInt8} (b : List UInt8) {off : Nat} (n : Nat)
    (h : a.length ≤ off) : fieldLE (a ++ b) off n = fieldLE b (off - a.length) n := by
  rw [fieldLE, fieldLE, drop_append, drop_eq_nil_of_le h, nil_append]

@[simp] theorem fieldLE_bytesLE : fieldLE (bytesLE n v) 0 n = v % 256 ^ n := by
  have htake : (bytesLE n v).take n = bytesLE n v :=
    take_of_length_le (Nat.le_of_eq (bytesLE_length n v))
  rw [fieldLE, drop_zero, htake, valueLE_bytesLE]

end WebrtcCore.Verified.Bytes
