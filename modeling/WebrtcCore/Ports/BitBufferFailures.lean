import WebrtcCore.Ports.NonSymmetric

/-!
# Failed reads of a bit buffer (`rtc_base/bit_buffer.cc`)

A read that fails should leave the offset alone.  `ReadExponentialGolomb` seeks
back to where it started; `ReadNonSymmetric` does not, and loses the bits of the
first of its two reads when the second one fails.  `ConsumeBytes` multiplies its
argument by 8 in a `size_t`.
-/

namespace WebrtcCore.Ports.BitBuffer

open Verified.Bits Option

variable {byteCount : Nat}

def readUInt8 (buffer : BitBuffer byteCount) :
    Option (Option (BitVec 8) × BitBuffer byteCount) := do
  let (bitVal, after) ← readBits buffer 8
  some (bitVal.map (·.setWidth 8), after)

def readUInt16 (buffer : BitBuffer byteCount) :
    Option (Option (BitVec 16) × BitBuffer byteCount) := do
  let (bitVal, after) ← readBits buffer 16
  some (bitVal.map (·.setWidth 16), after)

def readUInt32 (buffer : BitBuffer byteCount) :
    Option (Option (BitVec 32) × BitBuffer byteCount) := readBits buffer 32

/-- `ConsumeBytes`, with the product in a `size_t`. -/
def consumeBytes (buffer : BitBuffer byteCount) (byteCount' : Nat) :
    Bool × BitBuffer byteCount :=
  consumeBits buffer (byteCount' * 8 % 2 ^ 64)

/-- The read does not fail, or it leaves the buffer as it was. -/
def Restores {α : Type} (buffer : BitBuffer byteCount)
    (result : Option (Option α × BitBuffer byteCount)) : Prop :=
  ∀ after, result = some (none, after) → after = buffer

/-! ## One read -/

variable {α : Type} {buffer : BitBuffer byteCount} {bitCount : Nat}

theorem restores_of_some (buffer : BitBuffer byteCount) (val : α) (after : BitBuffer byteCount) :
    Restores buffer (some (some val, after)) := by
  intro after' h
  cases h

theorem restores_self (buffer : BitBuffer byteCount) :
    Restores buffer (some ((none : Option α), buffer)) := by
  intro after h
  cases h
  rfl

theorem le_remaining_of_peekBits {val : BitVec 32}
    (h : peekBits buffer bitCount = some (some val)) :
    bitCount ≤ remainingBitCount buffer := by
  apply Nat.le_of_not_lt
  intro hlt
  rw [peekBits, if_pos (.inl hlt)] at h
  cases h

theorem readBits_restores (buffer : BitBuffer byteCount) (bitCount : Nat) :
    Restores buffer (readBits buffer bitCount) := by
  intro after h
  unfold readBits at h
  cases hpeek : peekBits buffer bitCount with
  | none =>
    rw [hpeek] at h
    cases h
  | some peeked =>
    rw [hpeek] at h
    cases peeked with
    | none =>
      cases h
      rfl
    | some val =>
      rw [consumeBits_eq buffer (le_remaining_of_peekBits hpeek)] at h
      cases h

theorem Restores.map {β : Type} {result : Option (Option α × BitBuffer byteCount)}
    (h : Restores buffer result) (g : α → β) :
    Restores buffer (result.bind fun r => some (r.1.map g, r.2)) := by
  intro after heq
  cases result with
  | none => cases heq
  | some r =>
    rcases r with ⟨_ | val, mid⟩
    · cases heq
      exact h mid rfl
    · cases heq

theorem readBits_of_short (h : remainingBitCount buffer < bitCount) :
    readBits buffer bitCount = some (none, buffer) := by
  unfold readBits
  rw [peekBits, if_pos (.inl h)]
  rfl

/-! ## Exponential Golomb codes -/

theorem skipZeros_returns {fuel : Nat} {buffer : BitBuffer byteCount}
    (h : remainingBitCount buffer < fuel) :
    ∃ zeros after, skipZeros fuel buffer = some (zeros, after) ∧ after.bytes = buffer.bytes := by
  induction fuel generalizing buffer with
  | zero => exact absurd h (Nat.not_lt_zero _)
  | succ fuel ih =>
    rw [skipZeros]
    by_cases hempty : remainingBitCount buffer < 1
    · rw [peekBits, if_pos (.inl hempty)]
      exact ⟨0, buffer, rfl, rfl⟩
    · have hone : 1 ≤ remainingBitCount buffer := Nat.le_of_not_lt hempty
      rw [peekBits_ahead buffer (Nat.le_refl 1) (by decide) hone, consumeBits_eq buffer hone]
      obtain ⟨zeros, after, hrest, hbytes⟩ := @ih (advance buffer 1 hone) (by
        rw [remainingBitCount_advance]
        omega)
      simp only [bind_eq_bind, bind_some, hrest]
      split
      case isTrue => exact ⟨zeros + 1, after, rfl, hbytes⟩
      case isFalse => exact ⟨0, buffer, rfl, rfl⟩

theorem failBack_eq {original : BitBuffer byteCount} (h : buffer.bytes = original.bytes) :
    failBack original buffer = some (none, original) := by
  unfold failBack
  rw [seek_eq buffer original, h]
  rfl

theorem readExponentialGolomb_restores (buffer : BitBuffer byteCount) :
    (readExponentialGolomb buffer).isSome ∧ Restores buffer (readExponentialGolomb buffer) := by
  obtain ⟨zeros, behind, hskip, hbytes⟩ := skipZeros_returns (Nat.lt_succ_self _)
  have hfail : (failBack buffer behind).isSome ∧ Restores buffer (failBack buffer behind) := by
    rw [failBack_eq hbytes]
    exact ⟨rfl, restores_self buffer⟩
  unfold readExponentialGolomb
  rw [hskip]
  simp only [bind_eq_bind, bind_some]
  split
  case isTrue => exact hfail
  case isFalse hwidth =>
    by_cases hshort : remainingBitCount behind < zeros + 1
    · rw [readBits_of_short hshort]
      exact hfail
    · rw [readBits_ahead behind (by omega) (by omega) (by omega)]
      exact ⟨rfl, restores_of_some buffer _ _⟩

/-! ## Non-symmetric codes -/

/-- The buffer ends behind the first `count_bits - 1` bits of a word that has one
bit more. -/
def EndsInWord (buffer : BitBuffer byteCount) (numValues : BitVec 32) : Prop :=
  numValues ≠ 1#32 ∧ ∃ n numMinBitsValues,
    nonSymmetricParts numValues = some (n + 1, numMinBitsValues) ∧
      remainingBitCount buffer = n ∧ numMinBitsValues.toNat ≤ bitsAhead buffer n

theorem nonSymmetricParts_bounds {numValues numMinBitsValues : BitVec 32} {n : Nat}
    (hone : numValues ≠ 1#32)
    (h : nonSymmetricParts numValues = some (n + 1, numMinBitsValues)) : 1 ≤ n ∧ n ≤ 30 := by
  have hwide : (numValues.setWidth 64).toNat = numValues.toNat :=
    BitVec.toNat_setWidth_of_le (by decide)
  unfold nonSymmetricParts at h
  dsimp only at h
  split at h
  case isTrue => cases h
  case isFalse hcount =>
    have hn : countBits (numValues.setWidth 64) = n + 1 := congrArg Prod.fst (some.inj h)
    refine ⟨?_, by omega⟩
    apply Nat.one_le_iff_ne_zero.2
    rintro rfl
    have hlow := two_pow_le_of_countBits hn
    have hhigh := lt_two_pow_countBits (numValues.setWidth 64)
    rw [hn] at hhigh
    exact hone (BitVec.eq_of_toNat_eq (by show numValues.toNat = 1; omega))

theorem readNonSymmetric_restores_first {numValues numMinBitsValues : BitVec 32} {n : Nat}
    (hone : numValues ≠ 1#32)
    (hparts : nonSymmetricParts numValues = some (n + 1, numMinBitsValues))
    (hroom : n ≤ remainingBitCount buffer) :
    Restores buffer (readNonSymmetric buffer numValues) ↔
      ¬(remainingBitCount buffer = n ∧ numMinBitsValues.toNat ≤ bitsAhead buffer n) := by
  obtain ⟨hpos, hn⟩ := nonSymmetricParts_bounds hone hparts
  have hrest := remainingBitCount_advance buffer hroom
  rw [readNonSymmetric_first hone hparts hpos hn hroom]
  by_cases hmin : bitsAhead buffer n < numMinBitsValues.toNat
  · rw [if_pos hmin]
    exact ⟨fun _ h => absurd h.2 (Nat.not_le_of_lt hmin), fun _ => restores_of_some buffer _ _⟩
  · rw [if_neg hmin]
    by_cases hend : remainingBitCount buffer = n
    · rw [readBits_of_short (by omega)]
      refine ⟨fun h => ?_, fun h => absurd ⟨hend, Nat.le_of_not_lt hmin⟩ h⟩
      have hback := congrArg position (h _ rfl)
      rw [position_advance] at hback
      omega
    · rw [readBits_ahead _ (Nat.le_refl 1) (by decide) (by omega)]
      exact ⟨fun _ h => hend h.1, fun _ => restores_of_some buffer _ _⟩

theorem readNonSymmetric_restores_iff (buffer : BitBuffer byteCount) (numValues : BitVec 32) :
    Restores buffer (readNonSymmetric buffer numValues) ↔ ¬EndsInWord buffer numValues := by
  by_cases hone : numValues = 1#32
  · unfold readNonSymmetric
    rw [if_pos hone]
    exact ⟨fun _ h => h.1 hone, fun _ => restores_of_some buffer _ _⟩
  by_cases hword : ∃ n numMinBitsValues,
      nonSymmetricParts numValues = some (n + 1, numMinBitsValues) ∧ n ≤ remainingBitCount buffer
  · obtain ⟨n, numMinBitsValues, hparts, hroom⟩ := hword
    rw [readNonSymmetric_restores_first hone hparts hroom]
    refine not_congr ⟨fun h => ⟨hone, n, _, hparts, h⟩, ?_⟩
    rintro ⟨-, n', m, hparts', h⟩
    cases hparts.symm.trans hparts'
    exact h
  · -- The read does not get to the second part of a word.
    refine ⟨?_, fun _ => ?_⟩
    · rintro - ⟨-, n, m, hparts, hend, -⟩
      exact hword ⟨n, m, hparts, Nat.le_of_eq hend.symm⟩
    · unfold readNonSymmetric
      rw [if_neg hone]
      cases hparts : nonSymmetricParts numValues with
      | none =>
        intro after h
        cases h
      | some parts =>
        obtain ⟨count, numMinBitsValues⟩ := parts
        have hshort : remainingBitCount buffer < minBits count := by
          cases count with
          | zero =>
            have hcount := buffer.byteCount_lt
            rw [remainingBitCount_eq]
            show _ < 2 ^ 64 - 1
            omega
          | succ n =>
            apply Nat.lt_of_not_le
            intro hroom
            exact hword ⟨n, _, hparts, hroom⟩
        simp only [bind_eq_bind, bind_some, readBits_of_short hshort]
        exact restores_self buffer

/-! ## All of the functions -/

theorem consumeBits_true_iff (buffer : BitBuffer byteCount) (bitCount : Nat) :
    (consumeBits buffer bitCount).1 = true ↔ bitCount ≤ remainingBitCount buffer := by
  unfold consumeBits
  split
  case isTrue h => exact ⟨fun _ => h, fun _ => rfl⟩
  case isFalse h => exact ⟨fun hfalse => (by cases hfalse), fun hle => absurd hle h⟩

theorem consumeBits_restores (h : (consumeBits buffer bitCount).1 = false) :
    (consumeBits buffer bitCount).2 = buffer := by
  unfold consumeBits at h ⊢
  split at h
  case isTrue => cases h
  case isFalse hshort => rw [dif_neg hshort]

/-- A failed read and a failed `Consume` leave the offset alone, except for
`ReadNonSymmetric` when the buffer ends in front of the last bit of a long word.
`ConsumeBits(n)` succeeds exactly if `n` bits remain; `ConsumeBytes(n)` succeeds
exactly if `n` bytes do, except where `8 * n` is `2 ^ 64` or more and what is left
of it in 64 bits is no more than the bits that remain. -/
theorem bitBuffer_failures (buffer : BitBuffer byteCount) (numValues : BitVec 32) (n : Nat) :
    Restores buffer (readUInt8 buffer) ∧ Restores buffer (readUInt16 buffer) ∧
    Restores buffer (readUInt32 buffer) ∧ Restores buffer (readBits buffer n) ∧
    (Restores buffer (readNonSymmetric buffer numValues) ↔ ¬EndsInWord buffer numValues) ∧
    (readExponentialGolomb buffer).isSome ∧
    Restores buffer (readExponentialGolomb buffer) ∧
    Restores buffer (readSignedExponentialGolomb buffer) ∧
    ((consumeBytes buffer n).1 = false → (consumeBytes buffer n).2 = buffer) ∧
    ((consumeBits buffer n).1 = false → (consumeBits buffer n).2 = buffer) ∧
    ((consumeBits buffer n).1 = true ↔ n ≤ remainingBitCount buffer) ∧
    (((consumeBytes buffer n).1 = true ↔ 8 * n ≤ remainingBitCount buffer) ↔
      8 * n < 2 ^ 64 ∨ remainingBitCount buffer < 8 * n % 2 ^ 64) := by
  refine ⟨(readBits_restores buffer 8).map _, (readBits_restores buffer 16).map _,
    readBits_restores buffer 32, readBits_restores buffer n,
    readNonSymmetric_restores_iff buffer numValues, (readExponentialGolomb_restores buffer).1,
    (readExponentialGolomb_restores buffer).2,
    (readExponentialGolomb_restores buffer).2.map _, consumeBits_restores, consumeBits_restores,
    consumeBits_true_iff buffer n, ?_⟩
  have hcount := buffer.byteCount_lt
  have hsmall : remainingBitCount buffer < 2 ^ 64 := by
    rw [remainingBitCount_eq]
    omega
  rw [consumeBytes, consumeBits_true_iff]
  omega

/-- A word of five values in a buffer with all of its bits left. -/
theorem bitBuffer_failures_sample :
    Restores sampleBuffer (readNonSymmetric sampleBuffer 5#32) ∧
      ((consumeBytes sampleBuffer 3).1 = true ↔ 24 ≤ remainingBitCount sampleBuffer) := by
  obtain ⟨-, -, -, -, hnonSymmetric, -, -, -, -, -, -, hbytes⟩ :=
    bitBuffer_failures sampleBuffer 5#32 3
  refine ⟨hnonSymmetric.2 ?_, hbytes.2 (.inl (by decide))⟩
  rintro ⟨-, n, numMinBitsValues, hparts, hend, -⟩
  have hfive : nonSymmetricParts 5#32 = some (3, 3#32) := by decide
  cases hfive.symm.trans hparts
  cases hend

/-- Two bits are left. -/
def shortBuffer : BitBuffer 1 where
  bytes := #v[0xFF#8]
  byteOffset := 0
  bitOffset := 6
  byteCount_lt := by decide
  bitOffset_lt := by decide
  inside := by decide

/-- The word of the fourth of five values has three bits.  The read fails behind
the two that are there; and `2 ^ 61` bytes are consumed without a move. -/
theorem bitBuffer_failures_not_all :
    (∃ after, readNonSymmetric shortBuffer 5#32 = some (none, after) ∧
      after.byteOffset = 1 ∧ after.bitOffset = 0) ∧
    (consumeBytes shortBuffer (2 ^ 61)).1 = true := by
  refine ⟨⟨_, rfl, rfl, rfl⟩, rfl⟩

end WebrtcCore.Ports.BitBuffer
