import WebrtcCore.Ports.ExponentialGolomb

/-!
# Non-symmetric codes (`rtc_base/bit_buffer.cc`)

`WriteNonSymmetric` writes one of `num_values` numbers.  With `count_bits` the
number of bits of `num_values`, the first `2 ^ count_bits - num_values` numbers
take `count_bits - 1` bits and the others take `count_bits`.  The power of two is
a shift of a `uint32_t`, and the assertions admit a `num_values` for which the
shift is by 32 bits.
-/

namespace WebrtcCore.Ports.BitBuffer

open Verified.Bits BitVec

variable {byteCount : Nat}

/-- `count_bits` and `num_min_bits_values`, as all three functions compute them.
`uint32_t{1} << count_bits` is undefined from 32 bits on. -/
def nonSymmetricParts (numValues : BitVec 32) : Option (Nat × BitVec 32) :=
  let countBits := countBits (numValues.setWidth 64)
  if 32 ≤ countBits then none else some (countBits, (1#32 <<< countBits) - numValues)

/-- `count_bits - 1` in a `size_t`. -/
def minBits : Nat → Nat
  | 0 => 2 ^ 64 - 1
  | n + 1 => n

def readNonSymmetric (buffer : BitBuffer byteCount) (numValues : BitVec 32) :
    Option (Option (BitVec 32) × BitBuffer byteCount) :=
  if numValues = 1#32 then some (some 0#32, buffer)
  else do
    let (countBits, numMinBitsValues) ← nonSymmetricParts numValues
    match ← readBits buffer (minBits countBits) with
    | (none, buffer) => some (none, buffer)
    | (some val, buffer) =>
      if val < numMinBitsValues then some (some val, buffer)
      else
        match ← readBits buffer 1 with
        | (none, buffer) => some (none, buffer)
        | (some extraBit, buffer) =>
          some (some ((val <<< 1) + extraBit - numMinBitsValues), buffer)

def writeNonSymmetric (buffer : BitBuffer byteCount) (val numValues : BitVec 32) :
    Option (Bool × BitBuffer byteCount) :=
  if numValues = 1#32 then some (true, buffer)
  else do
    let (countBits, numMinBitsValues) ← nonSymmetricParts numValues
    if val < numMinBitsValues then writeBits buffer (val.setWidth 64) (minBits countBits)
    else writeBits buffer ((val + numMinBitsValues).setWidth 64) countBits

def sizeNonSymmetricBits (val numValues : BitVec 32) : Option Nat := do
  let (countBits, numMinBitsValues) ← nonSymmetricParts numValues
  some (if val < numMinBitsValues then minBits countBits else countBits)

variable {numValues : BitVec 32}

theorem nonSymmetricParts_eq_none (h : 2 ^ 31 ≤ numValues.toNat) :
    nonSymmetricParts numValues = none := by
  have hcount : ¬countBits (numValues.setWidth 64) ≤ 31 := by
    rw [countBits_le_iff, toNat_setWidth_of_le (by decide)]
    omega
  exact if_pos (by omega)

theorem nonSymmetricParts_spec (hpos : 1 ≤ numValues.toNat) (h : numValues.toNat < 2 ^ 31) :
    ∃ n numMinBitsValues, nonSymmetricParts numValues = some (n + 1, numMinBitsValues) ∧
      n ≤ 30 ∧ 2 ^ n ≤ numValues.toNat ∧ numValues.toNat < 2 ^ (n + 1) ∧
      numMinBitsValues.toNat = 2 ^ (n + 1) - numValues.toNat := by
  have hwide : (numValues.setWidth 64).toNat = numValues.toNat := toNat_setWidth_of_le (by decide)
  have hle : countBits (numValues.setWidth 64) ≤ 31 := by
    rw [countBits_le_iff]
    exact h
  have hne : ¬countBits (numValues.setWidth 64) ≤ 0 := by
    rw [countBits_le_iff]
    omega
  obtain ⟨n, hn⟩ : ∃ n, countBits (numValues.setWidth 64) = n + 1 :=
    ⟨countBits (numValues.setWidth 64) - 1, by omega⟩
  have hlow := two_pow_le_of_countBits hn
  have hhigh := lt_two_pow_countBits (numValues.setWidth 64)
  rw [hn] at hhigh
  refine ⟨n, (1#32 <<< (n + 1)) - numValues, ?_, by omega, hlow, hhigh, ?_⟩
  · unfold nonSymmetricParts
    rw [hn, if_neg (by omega)]
  · have hshift : (1#32 <<< (n + 1)).toNat = 2 ^ (n + 1) := by
      rw [toNat_shiftLeft, toNat_ofNat]
      omega
    rw [toNat_sub]
    omega

def RoundTrips (buffer : BitBuffer byteCount) (val numValues : BitVec 32) : Prop :=
  ∃ size, sizeNonSymmetricBits val numValues = some size ∧
    (size ≤ remainingBitCount buffer →
      ∃ written start after, writeNonSymmetric buffer val numValues = some (true, written) ∧
        position written = position buffer + size ∧
        seek written buffer.byteOffset buffer.bitOffset = (true, start) ∧
        readNonSymmetric start numValues = some (some val, after) ∧
        position after = position written)

section Words

variable {val numValues numMinBitsValues : BitVec 32} {n : Nat}

variable {buffer : BitBuffer byteCount}

variable (hone : numValues ≠ 1#32)
  (hparts : nonSymmetricParts numValues = some (n + 1, numMinBitsValues)) (hpos : 1 ≤ n)
  (hn : n ≤ 30)
include hone hparts hpos hn

theorem readNonSymmetric_first (hroom : n ≤ remainingBitCount buffer) :
    readNonSymmetric buffer numValues =
      if bitsAhead buffer n < numMinBitsValues.toNat then
        some (some (BitVec.ofNat 32 (bitsAhead buffer n)), advance buffer n hroom)
      else
        (readBits (advance buffer n hroom) 1).bind fun r =>
          some (r.1.map fun extraBit =>
            (BitVec.ofNat 32 (bitsAhead buffer n) <<< 1) + extraBit - numMinBitsValues, r.2) := by
  have hlt : bitsAhead buffer n < 2 ^ n := bitsValue_lt _ n
  have hpow : 2 ^ n ≤ 2 ^ 30 := Nat.pow_le_pow_right (by decide) hn
  have hmin : BitVec.ofNat 32 (bitsAhead buffer n) < numMinBitsValues ↔
      bitsAhead buffer n < numMinBitsValues.toNat := by
    rw [lt_def, toNat_ofNat, Nat.mod_eq_of_lt (by omega)]
  unfold readNonSymmetric
  rw [if_neg hone, hparts]
  simp only [Option.bind_eq_bind, Option.bind_some]
  rw [minBits, readBits_ahead buffer hpos (by omega) hroom]
  simp only [Option.bind_some, hmin]
  split
  · rfl
  · congr 1
    funext r
    rcases r with ⟨_ | extraBit, after⟩ <;> rfl

theorem readNonSymmetric_short (hroom : n ≤ remainingBitCount buffer)
    (hbits : bitsAhead buffer n = val.toNat) (hmin : val.toNat < numMinBitsValues.toNat) :
    readNonSymmetric buffer numValues = some (some val, advance buffer n hroom) := by
  rw [readNonSymmetric_first hone hparts hpos hn hroom, hbits, if_pos hmin, ofNat_toNat,
    setWidth_eq]

theorem readNonSymmetric_long (hroom : n + 1 ≤ remainingBitCount buffer)
    (hbits : bitsAhead buffer (n + 1) = val.toNat + numMinBitsValues.toNat)
    (hmin : numMinBitsValues.toNat ≤ val.toNat) :
    readNonSymmetric buffer numValues = some (some val, advance buffer (n + 1) hroom) := by
  have hfirst : n ≤ remainingBitCount buffer := by omega
  have hrest := remainingBitCount_advance buffer hfirst
  have hsplit := bitsAhead_add buffer hfirst 1
  have hextra : bitsAhead (advance buffer n hfirst) 1 < 2 := bitsValue_lt _ 1
  have hword : (BitVec.ofNat 32 (bitsAhead buffer n) <<< 1) +
      BitVec.ofNat 32 (bitsAhead (advance buffer n hfirst) 1) - numMinBitsValues = val := by
    apply eq_of_toNat_eq
    rw [toNat_sub, toNat_add, toNat_shiftLeft, toNat_ofNat, toNat_ofNat]
    omega
  rw [readNonSymmetric_first hone hparts hpos hn hfirst, if_neg (by omega),
    readBits_ahead _ (Nat.le_refl 1) (by decide) (by omega), Option.bind_some, Option.map_some,
    hword, advance_advance buffer hfirst _ rfl hroom]

omit hone hparts hpos hn

end Words

theorem roundTrips_of_word {buffer : BitBuffer byteCount} {val : BitVec 32} {word : BitVec 64}
    {size : Nat} (hpos : 1 ≤ size) (hsize : size ≤ 31) (hfits : word.toNat < 2 ^ size)
    (hbits : sizeNonSymmetricBits val numValues = some size)
    (hwrite : writeNonSymmetric buffer val numValues = writeBits buffer word size)
    (hread : ∀ (start : BitBuffer byteCount) (hroom : size ≤ remainingBitCount start), bitsAhead
      start size = word.toNat → readNonSymmetric start numValues = some (some val, advance start
      size hroom)) :
    RoundTrips buffer val numValues := by
  refine ⟨size, hbits, ?_⟩
  intro hroom
  obtain ⟨written, hword, hwritten, -, hahead⟩ := writeBits_ahead buffer word hpos (by omega) hroom
  rw [Nat.mod_eq_of_lt hfits] at hahead
  refine ⟨written, { buffer with bytes := written.bytes }, _, hwrite.trans hword, hwritten,
    seek_eq written buffer, hread { buffer with bytes := written.bytes } hroom hahead, ?_⟩
  exact (position_advance { buffer with bytes := written.bytes } hroom).trans hwritten.symm

theorem roundTrips_of_lt (buffer : BitBuffer byteCount) {val : BitVec 32} (hval : val < numValues)
    (hrange : numValues.toNat < 2 ^ 31) :
    RoundTrips buffer val numValues := by
  rw [lt_def] at hval
  obtain ⟨n, numMinBitsValues, hparts, hn, hlow, hhigh, hmin⟩ :=
    nonSymmetricParts_spec (show 1 ≤ numValues.toNat by omega) hrange
  have hwide : (val.setWidth 64).toNat = val.toNat := toNat_setWidth_of_le (by decide)
  by_cases hone : numValues = 1#32
  · -- The only value takes no bits.
    subst hone
    have hzero : val = 0#32 := eq_of_toNat_eq (Nat.lt_one_iff.1 hval)
    subst hzero
    refine ⟨0, rfl, fun _ => ⟨buffer, buffer, buffer, rfl, rfl, seek_eq buffer buffer, rfl, rfl⟩⟩
  · have hpos : 1 ≤ n := by
      apply Nat.one_le_iff_ne_zero.2
      rintro rfl
      exact hone (eq_of_toNat_eq (by show numValues.toNat = 1; omega))
    by_cases hshort : val < numMinBitsValues
    · have hlt := lt_def.1 hshort
      apply @roundTrips_of_word _ _ _ _ (val.setWidth 64) n hpos (by omega)
      · omega
      · simp [sizeNonSymmetricBits, hparts, if_pos hshort, minBits]
      · simp [writeNonSymmetric, if_neg hone, hparts, if_pos hshort, minBits]
      · intro start hroom hbits
        exact readNonSymmetric_short hone hparts hpos hn hroom (hbits.trans hwide) hlt
    · have hle := BitVec.not_lt.1 hshort
      have hsum : ((val + numMinBitsValues).setWidth 64).toNat =
          val.toNat + numMinBitsValues.toNat := by
        rw [toNat_setWidth_of_le (by decide), toNat_add]
        omega
      apply @roundTrips_of_word _ _ _ _ ((val + numMinBitsValues).setWidth 64) (n + 1)
        (by omega) (by omega)
      · omega
      · simp [sizeNonSymmetricBits, hparts, if_neg hshort]
      · simp [writeNonSymmetric, if_neg hone, hparts, if_neg hshort]
      · intro start hroom hbits
        exact readNonSymmetric_long hone hparts hpos hn hroom (hbits.trans hsum) hle

/-- For every `num_values` that the assertions admit, the round trip works exactly
below `2 ^ 31`; at `2 ^ 31` the shift in `SizeNonSymmetricBits` is by 32 bits, and
so it is in the other two functions. -/
theorem nonSymmetric_roundTrips_iff (buffer : BitBuffer byteCount) {val numValues : BitVec 32}
    (hval : val < numValues) (hadmitted : numValues.toNat ≤ 2 ^ 31) :
    (RoundTrips buffer val numValues ↔ numValues.toNat < 2 ^ 31) ∧
      (numValues.toNat = 2 ^ 31 → sizeNonSymmetricBits val numValues = none ∧
        writeNonSymmetric buffer val numValues = none ∧
        readNonSymmetric buffer numValues = none) := by
  have htop : numValues.toNat = 2 ^ 31 → sizeNonSymmetricBits val numValues = none ∧
      writeNonSymmetric buffer val numValues = none ∧
      readNonSymmetric buffer numValues = none := by
    intro h
    have hparts := nonSymmetricParts_eq_none (Nat.le_of_eq h.symm)
    have hone : numValues ≠ 1#32 := by
      rintro rfl
      exact absurd h (by decide)
    simp [sizeNonSymmetricBits, writeNonSymmetric, readNonSymmetric, hparts, hone]
  refine ⟨⟨?_, roundTrips_of_lt buffer hval⟩, htop⟩
  rintro ⟨size, hsize, -⟩
  apply Nat.lt_of_le_of_ne hadmitted
  intro h
  rw [(htop h).1] at hsize
  cases hsize

/-- One of five values, in three bits. -/
theorem nonSymmetric_roundTrips_five :
    sizeNonSymmetricBits 3#32 5#32 = some 3 ∧ RoundTrips sampleBuffer 3#32 5#32 :=
  ⟨by decide, (nonSymmetric_roundTrips_iff sampleBuffer (by decide) (by decide)).1.2 (by decide)⟩

/-- With `2 ^ 31` values none of the three functions is defined. -/
theorem nonSymmetric_undefined_top : ¬RoundTrips sampleBuffer 0#32 (BitVec.ofNat 32 (2 ^ 31)) := by
  rintro ⟨size, hsize, -⟩
  cases hsize

end WebrtcCore.Ports.BitBuffer
