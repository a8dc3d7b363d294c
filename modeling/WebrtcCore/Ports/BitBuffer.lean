import Mathlib.Algebra.GroupWithZero.Nat
import WebrtcCore.Verified.Bits

/-!
# Reading and writing bits at an offset

Port of `BitBuffer` and `BitBufferWriter` (`rtc_base/bit_buffer.cc`): a buffer
of bytes with an offset to a byte and to a bit in it, read and written a number
of bits at a time, the most significant bit of each byte first.  The code goes
byte by byte, with masks and shifts for a first and a last byte that are only
partly concerned.  Here it is related to one sequence of bits.

`none` stands for undefined behaviour: an access outside the buffer, or a shift
of a 64-bit value by 64 bits or more.
-/

namespace WebrtcCore.Ports

open Verified Digits Bits Option BitVec

/-- `BitBuffer` and `BitBufferWriter`.  The constructor asserts that the number
of bytes fits 32 bits, and `Seek` and `ConsumeBits` keep the offset inside the
buffer or at its end. -/
structure BitBuffer (byteCount : Nat) where
  bytes : Vector (BitVec 8) byteCount
  byteOffset : Nat
  bitOffset : Nat
  byteCount_lt : byteCount < 2 ^ 32
  bitOffset_lt : bitOffset < 8
  inside : 8 * byteOffset + bitOffset ≤ 8 * byteCount

namespace BitBuffer

/-! ## Parts of bytes -/

/-- `LowestBits`: the lowest `bitCount` bits of a byte. -/
def lowestBits (byte : BitVec 8) (bitCount : Nat) : BitVec 8 :=
  (byte.setWidth 32 &&& ((1#32 <<< bitCount) - 1#32)).setWidth 8

/-- `HighestBits`: the highest `bitCount` bits of a byte, shifted to the
right. -/
def highestBits (byte : BitVec 8) (bitCount : Nat) : BitVec 8 :=
  let shift := 8 - bitCount
  let mask : BitVec 8 := (0xFF#32 <<< shift).setWidth 8
  (byte &&& mask) >>> shift

def highestByte (val : BitVec 64) : BitVec 8 := (val >>> 56).setWidth 8

/-- `WritePartialByte`: `target` with the `sourceBitCount` highest bits of
`source` at `targetBitOffset` from its highest bit. -/
def writePartialByte (source : BitVec 8) (sourceBitCount : Nat) (target : BitVec 8)
    (targetBitOffset : Nat) : BitVec 8 :=
  let mask : BitVec 8 := (0xFF#32 <<< (8 - sourceBitCount)).setWidth 8 >>> targetBitOffset
  target &&& ~~~mask ||| source >>> targetBitOffset

theorem lowestBits_toNat (byte : BitVec 8) {bitCount : Nat} (h : bitCount ≤ 8) :
    (lowestBits byte bitCount).toNat = byte.toNat % 2 ^ bitCount := by
  have hmask : ∀ k ≤ 8, ((1#32 <<< k) - 1#32).toNat = 2 ^ k - 1 := by decide
  have hmod := Nat.mod_le byte.toNat (2 ^ bitCount)
  unfold lowestBits
  rw [toNat_setWidth, toNat_and, hmask bitCount h, toNat_setWidth,
    Nat.mod_eq_of_lt (a := byte.toNat) (by omega), Nat.and_two_pow_sub_one_eq_mod,
    Nat.mod_eq_of_lt (by omega)]

theorem highestBits_toNat (byte : BitVec 8) {bitCount : Nat} (h : bitCount ≤ 8) :
    (highestBits byte bitCount).toNat = byte.toNat / 2 ^ (8 - bitCount) := by
  have hmask : ∀ shift ≤ 8, ((0xFF#32 <<< shift).setWidth 8) >>> shift =
      allOnes 8 >>> shift := by decide
  unfold highestBits
  rw [ushiftRight_and_distrib, hmask _ (by omega),
    ← ushiftRight_and_distrib, and_allOnes, toNat_ushiftRight,
    Nat.shiftRight_eq_div_pow]

theorem highestByte_getMsbD (val : BitVec 64) {i : Nat} (h : i < 8) :
    (highestByte val).getMsbD i = val.getMsbD i := by
  unfold highestByte
  simp [show i + 56 < 64 by omega]

theorem writePartialByte_getMsbD {source : BitVec 8} {sourceBitCount : Nat} (target : BitVec 8)
    {targetBitOffset i : Nat} (hfits : targetBitOffset + sourceBitCount ≤ 8) (hi : i < 8)
    (hclear : ∀ j, sourceBitCount ≤ j → targetBitOffset + j < 8 → source.getMsbD j = false) :
    (writePartialByte source sourceBitCount target targetBitOffset).getMsbD i =
      if targetBitOffset ≤ i ∧ i < targetBitOffset + sourceBitCount then
        source.getMsbD (i - targetBitOffset)
      else target.getMsbD i := by
  have hmask : ∀ count ≤ 8, ∀ offset ≤ 8, ∀ i < 8,
      ((0xFF#32 <<< (8 - count)).setWidth 8 >>> offset).getMsbD i =
        decide (offset ≤ i ∧ i < offset + count) := by decide
  unfold writePartialByte
  rw [getMsbD_or, getMsbD_and, getMsbD_not, hmask _ (by omega) _ (by omega) i hi]
  by_cases hin : targetBitOffset ≤ i ∧ i < targetBitOffset + sourceBitCount
  · simp [hin, hi]
  · by_cases hlow : i < targetBitOffset
    · simp [hin, hi, hlow]
    · simp [hin, hi, hclear (i - targetBitOffset) (by omega) (by omega)]

/-! ## The buffer -/

variable {byteCount : Nat}

def remainingBitCount (buffer : BitBuffer byteCount) : Nat :=
  ((byteCount - buffer.byteOffset) * 8 - buffer.bitOffset) % 2 ^ 64

/-- The offset in bits. -/
def position (buffer : BitBuffer byteCount) : Nat := 8 * buffer.byteOffset + buffer.bitOffset

variable (buffer : BitBuffer byteCount)

theorem remainingBitCount_eq : remainingBitCount buffer = 8 * byteCount - position buffer := by
  have hcount := buffer.byteCount_lt
  unfold remainingBitCount position
  omega

theorem le_remainingBitCount_of_position {buffer after : BitBuffer byteCount} {m n : Nat}
    (hafter : position after = position buffer + m)
    (h : m + n ≤ remainingBitCount buffer) : n ≤ remainingBitCount after := by
  rw [remainingBitCount_eq] at h ⊢
  omega

/-- Moving the offset forward inside the buffer. -/
def advance (buffer : BitBuffer byteCount) (bitCount : Nat)
    (h : bitCount ≤ remainingBitCount buffer) : BitBuffer byteCount where
  bytes := buffer.bytes
  byteOffset := buffer.byteOffset + (buffer.bitOffset + bitCount) / 8
  bitOffset := (buffer.bitOffset + bitCount) % 8
  byteCount_lt := buffer.byteCount_lt
  bitOffset_lt := Nat.mod_lt _ (by decide)
  inside := by
    have hin := buffer.inside
    rw [remainingBitCount_eq, position] at h
    omega

theorem byteOffset_lt (h : 1 ≤ remainingBitCount buffer) : buffer.byteOffset < byteCount := by
  rw [remainingBitCount_eq, position] at h
  omega

def consumeBits (buffer : BitBuffer byteCount) (bitCount : Nat) :
    Bool × BitBuffer byteCount :=
  if h : bitCount ≤ remainingBitCount buffer then (true, advance buffer bitCount h)
  else (false, buffer)

def seek (buffer : BitBuffer byteCount) (byteOffset bitOffset : Nat) :
    Bool × BitBuffer byteCount :=
  if h : byteCount < byteOffset ∨ 7 < bitOffset ∨
      byteOffset = byteCount ∧ 0 < bitOffset then
    (false, buffer)
  else
    (true, { buffer with
      byteOffset := byteOffset
      bitOffset := bitOffset
      bitOffset_lt := by omega
      inside := by omega })

/-- The loop of `PeekBits` over full bytes, and the byte after them. -/
def peekBytes (bytes : Vector (BitVec 8) byteCount) (bits : BitVec 32)
    (next : Nat) : Nat → Option (BitVec 32)
  | bitCount + 8 => do
      let byte ← bytes[next]?
      peekBytes bytes (bits <<< 8 ||| byte.setWidth 32) (next + 1) bitCount
  | bitCount =>
    if 0 < bitCount then do
      let byte ← bytes[next]?
      some (bits <<< bitCount ||| (highestBits byte bitCount).setWidth 32)
    else some bits

/-- `PeekBits`; the inner `none` stands for the result `false`. -/
def peekBits (buffer : BitBuffer byteCount) (bitCount : Nat) :
    Option (Option (BitVec 32)) :=
  if remainingBitCount buffer < bitCount ∨ 32 < bitCount then some none
  else do
    let byte ← buffer.bytes[buffer.byteOffset]?
    let remainingBitsInCurrentByte := 8 - buffer.bitOffset
    let bits := lowestBits byte remainingBitsInCurrentByte
    if bitCount < remainingBitsInCurrentByte then
      some (some ((highestBits bits (buffer.bitOffset + bitCount)).setWidth 32))
    else
      let bits ← peekBytes buffer.bytes (bits.setWidth 32) (buffer.byteOffset + 1)
        (bitCount - remainingBitsInCurrentByte)
      some (some bits)

def readBits (buffer : BitBuffer byteCount) (bitCount : Nat) :
    Option (Option (BitVec 32) × BitBuffer byteCount) := do
  match ← peekBits buffer bitCount with
  | none => some (none, buffer)
  | some val =>
    let (consumed, buffer) := consumeBits buffer bitCount
    some (if consumed then some val else none, buffer)

/-- The loop of `WriteBits` over full bytes, and the byte after them. -/
def writeBytes (bytes : Vector (BitVec 8) byteCount) (val : BitVec 64)
    (next : Nat) : Nat → Option (Vector (BitVec 8) byteCount)
  | bitCount + 8 => do
      let bytes ← store bytes next (highestByte val)
      writeBytes bytes (val <<< 8) (next + 1) bitCount
  | bitCount =>
    if 0 < bitCount then do
      let target ← bytes[next]?
      store bytes next (writePartialByte (highestByte val) bitCount target 0)
    else some bytes

/-- `WriteBits`: the result and the buffer after it. -/
def writeBits (buffer : BitBuffer byteCount) (val : BitVec 64) (bitCount : Nat) :
    Option (Bool × BitBuffer byteCount) :=
  if remainingBitCount buffer < bitCount then some (false, buffer)
  else if bitCount = 0 ∨ 64 < bitCount then none
  else do
    let val := val <<< (64 - bitCount)
    let remainingBitsInCurrentByte := 8 - buffer.bitOffset
    let bitsInFirstByte := min bitCount remainingBitsInCurrentByte
    let target ← buffer.bytes[buffer.byteOffset]?
    let bytes ← store buffer.bytes buffer.byteOffset
      (writePartialByte (highestByte val) bitsInFirstByte target buffer.bitOffset)
    if bitCount ≤ remainingBitsInCurrentByte then
      some (consumeBits { buffer with bytes := bytes } bitCount)
    else
      let bytes ← writeBytes bytes (val <<< bitsInFirstByte) (buffer.byteOffset + 1)
        (bitCount - bitsInFirstByte)
      some (consumeBits { buffer with bytes := bytes } bitCount)

/-! ## Reading -/

/-- The number that `bitCount` bits at the offset stand for. -/
def bitsAhead (buffer : BitBuffer byteCount) (bitCount : Nat) : Nat :=
  bitsValue (fun i => bitAt buffer.bytes (position buffer + i)) bitCount

variable (bytes : Vector (BitVec 8) byteCount)

theorem highestBits_bitsValue {next bitCount : Nat} (hnext : next < byteCount)
    (hcount : bitCount ≤ 8) :
    ((highestBits bytes[next] bitCount).setWidth 32).toNat =
      bitsValue (fun i => bitAt bytes (8 * next + i)) bitCount := by
  have hcell := bitsValue_cell bytes hnext (show 0 + bitCount ≤ 8 by omega)
  have hlt : bytes[next].toNat / 2 ^ (8 - bitCount) < 2 ^ bitCount := by
    rw [Nat.div_lt_iff_lt_mul (Nat.two_pow_pos _), ← Nat.pow_add,
      show bitCount + (8 - bitCount) = 8 by omega]
    exact bytes[next].isLt
  rw [toNat_setWidth_of_le (by decide), highestBits_toNat _ hcount]
  rw [Nat.mod_eq_of_lt hlt] at hcell
  exact hcell.symm

theorem byte_bitsValue {next : Nat} (hnext : next < byteCount) :
    (bytes[next].setWidth 32).toNat = bitsValue (fun i => bitAt bytes (8 * next + i)) 8 := by
  have hcell := bitsValue_cell bytes hnext (show 0 + 8 ≤ 8 by omega)
  have hbyte := bytes[next].isLt
  rw [Nat.pow_zero, Nat.div_one, Nat.mod_eq_of_lt hbyte] at hcell
  exact hcell.symm

theorem lt_of_no_full_byte {bitCount : Nat} (h : ∀ n, bitCount = n + 8 → False) : bitCount < 8 := by
  apply Nat.lt_of_not_le
  intro hle
  exact h (bitCount - 8) (by omega)

theorem peekBytes_spec (bits : BitVec 32) (next bitCount : Nat) {start m : Nat}
    (hstart : start + m = 8 * next) (hend : 8 * next + bitCount ≤ 8 * byteCount)
    (hbits : bits.toNat = bitsValue (fun i => bitAt bytes (start + i)) m)
    (hwidth : m + bitCount ≤ 32) :
    ∃ val, peekBytes bytes bits next bitCount = some val ∧
      val.toNat = bitsValue (fun i => bitAt bytes (start + i)) (m + bitCount) := by
  -- Bits of the next byte continue the `m` bits that are in the register.
  have hahead : ∀ k, bitsValue (fun i => bitAt bytes (8 * next + i)) k =
      bitsValue (fun i => bitAt bytes (start + (m + i))) k := by
    intro k
    apply bitsValue_congr
    intro i _
    rw [← Nat.add_assoc, hstart]
  fun_induction peekBytes bytes bits next bitCount generalizing m with
  | case1 bits next bitCount ih =>
    have hnext : next < byteCount := by omega
    have hpush : (bits <<< 8 ||| bytes[next].setWidth 32).toNat =
        bitsValue (fun i => bitAt bytes (start + i)) (m + 8) :=
      shiftLeft_or_toNat hbits ((byte_bitsValue bytes hnext).trans (hahead 8)) (by omega)
    obtain ⟨val, hval, hspec⟩ := ih bytes[next] (by omega) (by omega) hpush (by omega)
      fun k => bitsValue_congr fun i _ => congrArg _ (by omega)
    refine ⟨val, ?_, ?_⟩
    · rw [Vector.getElem?_eq_getElem hnext]
      exact hval
    · rw [hspec, Nat.add_assoc, Nat.add_comm 8]
  | case2 bits next bitCount hsmall hpos =>
    have hnext : next < byteCount := by omega
    have hcount : bitCount < 8 := lt_of_no_full_byte hsmall
    refine ⟨bits <<< bitCount ||| (highestBits bytes[next] bitCount).setWidth 32, ?_, ?_⟩
    · rw [Vector.getElem?_eq_getElem hnext]
      rfl
    · apply shiftLeft_or_toNat hbits _ hwidth
      exact (highestBits_bitsValue bytes hnext (by omega)).trans (hahead bitCount)
  | case3 bits next bitCount hsmall hzero =>
    obtain rfl : bitCount = 0 := by omega
    exact ⟨bits, rfl, hbits⟩

theorem lowestBits_bitsValue (hin : buffer.byteOffset < byteCount) :
    (lowestBits buffer.bytes[buffer.byteOffset] (8 - buffer.bitOffset)).toNat =
      bitsAhead buffer (8 - buffer.bitOffset) := by
  have hoffset := buffer.bitOffset_lt
  have hcell := bitsValue_cell buffer.bytes hin
    (show buffer.bitOffset + (8 - buffer.bitOffset) ≤ 8 by omega)
  rw [Nat.sub_self, Nat.pow_zero, Nat.div_one] at hcell
  rw [lowestBits_toNat _ (by omega)]
  exact hcell.symm

theorem peekBits_spec {bitCount : Nat} (hpos : 1 ≤ bitCount) (hwidth : bitCount ≤ 32)
    (hremaining : bitCount ≤ remainingBitCount buffer) :
    ∃ val, peekBits buffer bitCount = some (some val) ∧ val.toNat = bitsAhead buffer bitCount := by
  have hoffset := buffer.bitOffset_lt
  have hleft := hremaining
  rw [remainingBitCount_eq, position] at hleft
  have hin := byteOffset_lt buffer (by omega)
  have hfirst := lowestBits_bitsValue buffer hin
  unfold peekBits
  rw [if_neg (by omega), Vector.getElem?_eq_getElem hin]
  simp only [bind_eq_bind, bind_some]
  by_cases hshort : bitCount < 8 - buffer.bitOffset
  · rw [if_pos hshort]
    refine ⟨_, rfl, ?_⟩
    rw [toNat_setWidth_of_le (by decide), highestBits_toNat _ (by omega), hfirst, ← Nat.sub_sub]
    exact bitsValue_div _ (by omega)
  · rw [if_neg hshort]
    have hbits : ((lowestBits buffer.bytes[buffer.byteOffset]
        (8 - buffer.bitOffset)).setWidth 32).toNat = bitsAhead buffer (8 - buffer.bitOffset) := by
      rw [toNat_setWidth_of_le (by decide), hfirst]
    obtain ⟨val, hval, hspec⟩ := peekBytes_spec buffer.bytes _ (buffer.byteOffset + 1)
      (bitCount - (8 - buffer.bitOffset)) (by unfold position; omega) (by omega) hbits
      (by omega)
    refine ⟨val, ?_, ?_⟩
    · rw [hval]
      rfl
    · rw [hspec, bitsAhead, Nat.add_sub_of_le (by omega)]

/-! ## Moving on -/

theorem position_advance {bitCount : Nat} (h : bitCount ≤ remainingBitCount buffer) :
    position (advance buffer bitCount h) = position buffer + bitCount := by
  simp only [position, advance]
  omega

theorem consumeBits_eq {bitCount : Nat} (h : bitCount ≤ remainingBitCount buffer) :
    consumeBits buffer bitCount = (true, advance buffer bitCount h) :=
  dif_pos h

theorem seek_eq (buffer other : BitBuffer byteCount) :
    seek buffer other.byteOffset other.bitOffset =
      (true, { other with bytes := buffer.bytes }) := by
  have hoffset := other.bitOffset_lt
  have hinside := other.inside
  exact dif_neg (by omega)

theorem readBits_of_peekBits {buffer : BitBuffer byteCount} {bitCount : Nat}
    {val : BitVec 32} (hval : peekBits buffer bitCount = some (some val))
    (hremaining : bitCount ≤ remainingBitCount buffer) :
    readBits buffer bitCount = some (some val, advance buffer bitCount hremaining) := by
  unfold readBits
  rw [hval, consumeBits_eq buffer hremaining]
  rfl

theorem readBits_spec {bitCount : Nat} (hpos : 1 ≤ bitCount) (hwidth : bitCount ≤ 32)
    (hremaining : bitCount ≤ remainingBitCount buffer) :
    ∃ val after, peekBits buffer bitCount = some (some val) ∧
      readBits buffer bitCount = some (some val, after) ∧
      val.toNat = bitsAhead buffer bitCount ∧
      after.bytes = buffer.bytes ∧ position after = position buffer + bitCount := by
  obtain ⟨val, hval, hspec⟩ := peekBits_spec buffer hpos hwidth hremaining
  exact ⟨val, _, hval, readBits_of_peekBits hval hremaining, hspec, rfl,
    position_advance buffer hremaining⟩

/-! ## Writing -/

theorem writePartialByte_overwrites {val : BitVec 64} {next offset bitCount : Nat}
    (hnext : next < byteCount) (hfits : offset + bitCount ≤ 8)
    (hclear : ∀ j, bitCount ≤ j → offset + j < 8 → val.getMsbD j = false) :
    ∃ bytes', store bytes next
        (writePartialByte (highestByte val) bitCount bytes[next] offset) = some bytes' ∧
      Overwrites (bitAt bytes) (bitAt bytes') (8 * next + offset) bitCount val.getMsbD := by
  apply store_overwrites bytes hnext hfits
  intro i hi
  rw [writePartialByte_getMsbD bytes[next] hfits hi]
  · split
    case isTrue hin => rw [highestByte_getMsbD val (by omega)]
    case isFalse => rfl
  · intro j hj hoff
    rw [highestByte_getMsbD val (by omega)]
    exact hclear j hj hoff

theorem writeBytes_spec (val : BitVec 64) (next bitCount : Nat)
    (hend : 8 * next + bitCount ≤ 8 * byteCount)
    (hclear : ∀ j, bitCount ≤ j → val.getMsbD j = false) :
    ∃ bytes', writeBytes bytes val next bitCount = some bytes' ∧
      Overwrites (bitAt bytes) (bitAt bytes') (8 * next) bitCount val.getMsbD := by
  fun_induction writeBytes bytes val next bitCount with
  | case1 bytes val next bitCount ih =>
    obtain ⟨mid, hstore, hmid⟩ : ∃ mid, store bytes next (highestByte val) = some mid ∧
        Overwrites (bitAt bytes) (bitAt mid) (8 * next + 0) 8 val.getMsbD := by
      apply store_overwrites bytes (by omega) (by omega)
      intro i hi
      rw [if_pos (by omega), highestByte_getMsbD val hi, Nat.sub_zero]
    obtain ⟨bytes', hrest, hwritten⟩ := ih mid (by omega) fun j hj => by
      rw [getMsbD_shiftLeft]
      exact hclear _ (by omega)
    refine ⟨bytes', ?_, ?_⟩
    · rw [hstore]
      exact hrest
    · have hnextBits : ∀ i < bitCount, (val <<< 8).getMsbD i = val.getMsbD (8 + i) := by
        intro i _
        rw [getMsbD_shiftLeft, Nat.add_comm]
      have hall := hmid.trans (hwritten.congr hnextBits)
      rw [Nat.add_comm 8] at hall
      exact hall
  | case2 bytes val next bitCount hsmall hpos =>
    have hnext : next < byteCount := by omega
    have hcount : bitCount < 8 := lt_of_no_full_byte hsmall
    rw [Vector.getElem?_eq_getElem hnext]
    exact writePartialByte_overwrites bytes hnext (by omega) fun j hj _ => hclear j hj
  | case3 bytes val next bitCount hsmall hzero =>
    obtain rfl : bitCount = 0 := by omega
    exact ⟨bytes, rfl, Overwrites.refl _ _ _⟩

variable (val : BitVec 64) {bitCount : Nat}

theorem pushed_getMsbD (h : bitCount ≤ 64) (i : Nat) :
    (val <<< (64 - bitCount)).getMsbD i =
      (decide (i < bitCount) && val.getLsbD (bitCount - 1 - i)) := by
  rw [getMsbD_shiftLeft, getMsbD_eq_getLsbD,
    show 64 - 1 - (i + (64 - bitCount)) = bitCount - 1 - i by omega]
  congr 1
  exact decide_eq_decide.mpr (by omega)

theorem writeBits_bytes (hpos : 1 ≤ bitCount) (hwidth : bitCount ≤ 64)
    (hremaining : bitCount ≤ remainingBitCount buffer) :
    ∃ bytes, writeBits buffer val bitCount =
        some (consumeBits { buffer with bytes := bytes } bitCount) ∧
      Overwrites (bitAt buffer.bytes) (bitAt bytes) (position buffer) bitCount
        (val <<< (64 - bitCount)).getMsbD := by
  have hoffset := buffer.bitOffset_lt
  have hleft := hremaining
  rw [remainingBitCount_eq, position] at hleft
  have hin := byteOffset_lt buffer (by omega)
  have hclear : ∀ j, bitCount ≤ j → (val <<< (64 - bitCount)).getMsbD j = false := by
    intro j hj
    rw [pushed_getMsbD val hwidth, decide_eq_false (by omega), Bool.false_and]
  unfold writeBits
  rw [if_neg (by omega), if_neg (by omega), Vector.getElem?_eq_getElem hin]
  simp only [bind_eq_bind, bind_some]
  generalize val <<< (64 - bitCount) = val at hclear ⊢
  obtain ⟨first, hstore, hfirst⟩ := writePartialByte_overwrites buffer.bytes hin
    (show buffer.bitOffset + min bitCount (8 - buffer.bitOffset) ≤ 8 by omega)
    fun j hj hoff => hclear j (by omega)
  rw [hstore, bind_some]
  by_cases hshort : bitCount ≤ 8 - buffer.bitOffset
  · rw [if_pos hshort]
    rw [Nat.min_eq_left hshort] at hfirst
    exact ⟨first, rfl, hfirst⟩
  · rw [if_neg hshort]
    rw [Nat.min_eq_right (by omega)] at hfirst ⊢
    obtain ⟨bytes, hrest, hwritten⟩ := writeBytes_spec first
      (val <<< (8 - buffer.bitOffset)) (buffer.byteOffset + 1)
      (bitCount - (8 - buffer.bitOffset)) (by omega) fun j hj => by
        rw [getMsbD_shiftLeft]
        exact hclear _ (by omega)
    have hrestBits : ∀ i < bitCount - (8 - buffer.bitOffset),
        (val <<< (8 - buffer.bitOffset)).getMsbD i = val.getMsbD (8 - buffer.bitOffset + i) := by
      intro i _
      rw [getMsbD_shiftLeft, Nat.add_comm]
    refine ⟨bytes, ?_, ?_⟩
    · rw [hrest, bind_some]
    · rw [show 8 * (buffer.byteOffset + 1) = 8 * buffer.byteOffset + buffer.bitOffset +
        (8 - buffer.bitOffset) by omega] at hwritten
      have hall := hfirst.trans (hwritten.congr hrestBits)
      rw [Nat.add_sub_of_le (by omega)] at hall
      exact hall

theorem writeBits_spec (hpos : 1 ≤ bitCount) (hwidth : bitCount ≤ 64)
    (hremaining : bitCount ≤ remainingBitCount buffer) :
    ∃ after, writeBits buffer val bitCount = some (true, after) ∧
      Overwrites (bitAt buffer.bytes) (bitAt after.bytes) (position buffer) bitCount
        (fun i => val.getLsbD (bitCount - 1 - i)) ∧
      position after = position buffer + bitCount := by
  obtain ⟨bytes, hwrite, hbytes⟩ := writeBits_bytes buffer val hpos hwidth hremaining
  rw [consumeBits_eq { buffer with bytes := bytes } hremaining] at hwrite
  refine ⟨_, hwrite, ?_, position_advance { buffer with bytes := bytes } hremaining⟩
  apply hbytes.congr
  intro i hi
  rw [pushed_getMsbD val hwidth, decide_eq_true hi, Bool.true_and]

/-! ## Sequences of fields -/

/-- A value to be written with some number of bits that can be read at once. -/
structure Field where
  width : Nat
  val : BitVec 64
  width_pos : 1 ≤ width
  width_le : width ≤ 32

/-- What is left of the value. -/
def Field.stored (field : Field) : Nat := field.val.toNat % 2 ^ field.width

/-- `WriteBits` for each field. -/
def writeFields (buffer : BitBuffer byteCount) :
    List Field → Option (Bool × BitBuffer byteCount)
  | [] => some (true, buffer)
  | field :: fields => do
      let (written, buffer) ← writeBits buffer field.val field.width
      if written then writeFields buffer fields else some (false, buffer)

/-- `ReadBits` for each width. -/
def readFields (buffer : BitBuffer byteCount) :
    List Nat → Option (Option (List (BitVec 32)) × BitBuffer byteCount)
  | [] => some (some [], buffer)
  | width :: widths => do
      match ← readBits buffer width with
      | (none, buffer) => some (none, buffer)
      | (some val, buffer) =>
        let (vals, buffer) ← readFields buffer widths
        some (vals.map (val :: ·), buffer)

/-- The number of bits of a sequence. -/
def totalWidth (fields : List Field) : Nat := (fields.map Field.width).sum

/-- From `start` on, a sequence of bits holds the fields one after the other. -/
def Holds (bits : Nat → Bool) : Nat → List Field → Prop
  | _, [] => True
  | start, field :: fields =>
    bitsValue (fun i => bits (start + i)) field.width = field.stored ∧
      Holds bits (start + field.width) fields

theorem totalWidth_cons (field : Field) (fields : List Field) :
    totalWidth (field :: fields) = field.width + totalWidth fields := by
  simp [totalWidth]

theorem writeFields_spec (fields : List Field) (h : totalWidth fields ≤ remainingBitCount buffer) :
    ∃ after, writeFields buffer fields = some (true, after) ∧
      position after = position buffer + totalWidth fields ∧
      (∀ i < position buffer, bitAt after.bytes i = bitAt buffer.bytes i) ∧
      Holds (bitAt after.bytes) (position buffer) fields := by
  induction fields generalizing buffer with
  | nil => exact ⟨buffer, rfl, rfl, fun i _ => rfl, trivial⟩
  | cons field fields ih =>
    rw [totalWidth_cons] at h ⊢
    have hwidth := field.width_le
    obtain ⟨mid, hwrite, hbits, hmid⟩ := writeBits_spec buffer field.val
      field.width_pos (by omega) (by omega)
    have hroom := le_remainingBitCount_of_position hmid h
    obtain ⟨after, hrest, hafter, hfront, hholds⟩ := ih mid hroom
    rw [hmid] at hafter hfront hholds
    refine ⟨after, ?_, by omega, ?_, ?_, hholds⟩
    · simp only [writeFields, hwrite]
      exact hrest
    · intro i hi
      rw [hfront i (by omega), hbits i, if_neg (by omega)]
    · rw [Field.stored, ← bitsValue_getLsbD field.val (by omega), ← hbits.bitsValue_eq]
      apply bitsValue_congr
      intro i hi
      exact hfront _ (by omega)

theorem readFields_spec (fields : List Field) (h : totalWidth fields ≤ remainingBitCount buffer)
    (hholds : Holds (bitAt buffer.bytes) (position buffer) fields) :
    ∃ vals after, readFields buffer (fields.map Field.width) = some (some vals, after) ∧
      vals.map BitVec.toNat = fields.map Field.stored ∧
      position after = position buffer + totalWidth fields := by
  induction fields generalizing buffer with
  | nil => exact ⟨[], buffer, rfl, rfl, rfl⟩
  | cons field fields ih =>
    rw [totalWidth_cons] at h ⊢
    obtain ⟨val, mid, -, hread, hval, hbytes, hmid⟩ := readBits_spec buffer
      field.width_pos field.width_le (by omega)
    have hroom := le_remainingBitCount_of_position hmid h
    obtain ⟨vals, after, hrest, hvals, hafter⟩ := ih mid hroom (by
      rw [hbytes, hmid]
      exact hholds.2)
    refine ⟨val :: vals, after, ?_, ?_, by omega⟩
    · simp [readFields, hread, hrest]
    · rw [List.map_cons, hvals, hval]
      exact congrArg (· :: _) hholds.1

/-- `WriteBits` sets the bits at the offset, and no others, to the low bits of
the value; `PeekBits` and `ReadBits` return the number that the bits at the
offset stand for; fields written in order are read back, as far as their widths
keep them. -/
theorem bitBuffer_views_bits (buffer : BitBuffer byteCount) :
    (∀ (val : BitVec 64) (n : Nat), 1 ≤ n → n ≤ 64 → n ≤ remainingBitCount buffer →
      ∃ after, writeBits buffer val n = some (true, after) ∧
        (∀ i, bitAt after.bytes i =
          if position buffer ≤ i ∧ i < position buffer + n then
            val.getLsbD (n - 1 - (i - position buffer))
          else bitAt buffer.bytes i) ∧
        position after = position buffer + n) ∧
    (∀ n : Nat, 1 ≤ n → n ≤ 32 → n ≤ remainingBitCount buffer →
      ∃ val after, peekBits buffer n = some (some val) ∧
        readBits buffer n = some (some val, after) ∧
        val.toNat = bitsValue (fun i => bitAt buffer.bytes (position buffer + i)) n ∧
        after.bytes = buffer.bytes ∧ position after = position buffer + n) ∧
    (∀ fields : List Field, totalWidth fields ≤ remainingBitCount buffer →
      ∃ written start vals after, writeFields buffer fields = some (true, written) ∧
        seek written buffer.byteOffset buffer.bitOffset = (true, start) ∧
        readFields start (fields.map Field.width) = some (some vals, after) ∧
        vals.map BitVec.toNat = fields.map Field.stored) := by
  refine ⟨?_, ?_, ?_⟩
  · intro val n hpos hwidth hremaining
    exact writeBits_spec buffer val hpos hwidth hremaining
  · intro n hpos hwidth hremaining
    exact readBits_spec buffer hpos hwidth hremaining
  · intro fields hroom
    obtain ⟨written, hwrite, -, -, hholds⟩ := writeFields_spec buffer fields hroom
    obtain ⟨vals, after, hread, hvals, -⟩ := readFields_spec
      { buffer with bytes := written.bytes } fields hroom hholds
    exact ⟨written, _, vals, after, hwrite, seek_eq written buffer, hread, hvals⟩

/-- Three bytes with the offset in the middle of the first. -/
def sampleBuffer : BitBuffer 3 where
  bytes := Vector.replicate 3 0xFF#8
  byteOffset := 0
  bitOffset := 3
  byteCount_lt := by decide
  bitOffset_lt := by decide
  inside := by decide

/-- Two fields that cross the ends of bytes, the first one cut to 7 bits. -/
def sampleFields : List Field :=
  [⟨7, 0xABC, by decide, by decide⟩, ⟨12, 0x123, by decide, by decide⟩]

theorem sampleBuffer_views_bits :
    (∃ after, writeBits sampleBuffer 0xABC 7 = some (true, after) ∧ position after = 10) ∧
    (∃ val, peekBits sampleBuffer 7 = some (some val) ∧ val.toNat = 127) ∧
    ∃ written start vals after, writeFields sampleBuffer sampleFields = some (true, written) ∧
      seek written 0 3 = (true, start) ∧
      readFields start [7, 12] = some (some vals, after) ∧
      vals.map BitVec.toNat = [0x3C, 0x123] := by
  obtain ⟨hwrite, hread, hfields⟩ := bitBuffer_views_bits sampleBuffer
  obtain ⟨after, hafter, -, hpos⟩ := hwrite 0xABC 7 (by decide) (by decide) (by decide)
  obtain ⟨val, -, hpeek, -, hval, -⟩ := hread 7 (by decide) (by decide) (by decide)
  exact ⟨⟨after, hafter, hpos⟩, ⟨val, hpeek, hval.trans (by decide)⟩,
    hfields sampleFields (by decide)⟩

end BitBuffer

end WebrtcCore.Ports
