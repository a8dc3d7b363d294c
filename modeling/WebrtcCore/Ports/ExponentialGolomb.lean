import Mathlib.Algebra.Group.Int.Defs
import WebrtcCore.Ports.BitBuffer

/-!
# Exponential Golomb codes (`rtc_base/bit_buffer.cc`)

`WriteExponentialGolomb` writes the binary digits of `val + 1` behind as many
zeros as there are digits after the first, in one field of up to 63 bits.
`ReadExponentialGolomb` counts the zeros one by one and reads the digits then.
The signed functions fold the numbers 0, 1, -1, 2, -2, … into the unsigned ones.
-/

namespace WebrtcCore.Ports.BitBuffer

open Verified.Bits BitVec

variable {byteCount : Nat}

/-- The loop of `CountBits`. -/
def countBitsLoop : Nat → BitVec 64 → Nat
  | 0, _ => 0
  | rounds + 1, val =>
    if val = 0#64 then 0 else countBitsLoop rounds (val >>> 1) + 1

/-- `CountBits`: no value outlasts 64 rounds. -/
def countBits (val : BitVec 64) : Nat := countBitsLoop 64 val

/-- The loop of `ReadExponentialGolomb` over zero bits: their number, and the
buffer behind them. -/
def skipZeros : Nat → BitBuffer byteCount → Option (Nat × BitBuffer byteCount)
  | 0, _ => none
  | fuel + 1, buffer => do
      match ← peekBits buffer 1 with
      | none => some (0, buffer)
      | some peekedBit =>
        if peekedBit = 0#32 then
          let (zeroBitCount, after) ← skipZeros fuel (consumeBits buffer 1).2
          some (zeroBitCount + 1, after)
        else some (0, buffer)

/-- The failure of `ReadExponentialGolomb`: `RTC_CHECK(Seek(..))` to the offset
of `original`. -/
def failBack (original buffer : BitBuffer byteCount) :
    Option (Option (BitVec 32) × BitBuffer byteCount) :=
  let (found, buffer) := seek buffer original.byteOffset original.bitOffset
  if found then some (none, buffer) else none

/-- `ReadExponentialGolomb`; each round of the loop takes a bit, which bounds
their number. -/
def readExponentialGolomb (buffer : BitBuffer byteCount) :
    Option (Option (BitVec 32) × BitBuffer byteCount) := do
  let (zeroBitCount, behind) ← skipZeros (remainingBitCount buffer + 1) buffer
  let valueBitCount := zeroBitCount + 1
  if 32 < valueBitCount then failBack buffer behind
  else
    match ← readBits behind valueBitCount with
    | (none, after) => failBack buffer after
    | (some val, after) => some (some (val - 1#32), after)

/-- The number that `ReadSignedExponentialGolomb` makes of an unsigned one. -/
def signedOf (unsignedVal : BitVec 32) : Int :=
  if unsignedVal &&& 1#32 = 0#32 then -((unsignedVal.toNat / 2 : Nat) : Int)
  else (((unsignedVal + 1#32).toNat / 2 : Nat) : Int)

def readSignedExponentialGolomb (buffer : BitBuffer byteCount) :
    Option (Option Int × BitBuffer byteCount) := do
  let (unsignedVal, after) ← readExponentialGolomb buffer
  some (unsignedVal.map signedOf, after)

def writeExponentialGolomb (buffer : BitBuffer byteCount) (val : BitVec 32) :
    Option (Bool × BitBuffer byteCount) :=
  if val = BitVec.allOnes 32 then some (false, buffer)
  else
    let valToEncode := val.setWidth 64 + 1#64
    writeBits buffer valToEncode (countBits valToEncode * 2 - 1)

/-- `WriteSignedExponentialGolomb` of an `int32_t`. -/
def writeSignedExponentialGolomb (buffer : BitBuffer byteCount) (val : Int) :
    Option (Bool × BitBuffer byteCount) :=
  if val = 0 then writeExponentialGolomb buffer 0#32
  else if 0 < val then
    let signedVal := BitVec.ofInt 32 val
    writeExponentialGolomb buffer (signedVal * 2#32 - 1#32)
  else if val = -2 ^ 31 then some (false, buffer)
  else
    let signedVal := BitVec.ofInt 32 (-val)
    writeExponentialGolomb buffer (signedVal * 2#32)

/-! ## Counting bits -/

theorem countBitsLoop_le_iff {rounds n : Nat} {val : BitVec 64} (h : val.toNat < 2 ^ rounds) :
    countBitsLoop rounds val ≤ n ↔ val.toNat < 2 ^ n := by
  have hpow := Nat.two_pow_pos n
  fun_induction countBitsLoop rounds val generalizing n with
  | case1 => omega
  | case2 => exact ⟨fun _ => hpow, fun _ => Nat.zero_le n⟩
  | case3 rounds val hnonzero ih =>
    have hhalf : (val >>> 1).toNat = val.toNat / 2 := by
      rw [toNat_ushiftRight, Nat.shiftRight_eq_div_pow]
    have hpos : 0 < val.toNat := Nat.pos_of_ne_zero fun hzero => hnonzero (eq_of_toNat_eq hzero)
    cases n with
    | zero => omega
    | succ n =>
      have hrest := ih (by omega) (Nat.two_pow_pos n)
      omega

variable {n m : Nat} {val : BitVec 32}

theorem countBits_le_iff {val : BitVec 64} : countBits val ≤ n ↔ val.toNat < 2 ^ n :=
  countBitsLoop_le_iff val.isLt

theorem lt_two_pow_countBits (val : BitVec 64) : val.toNat < 2 ^ countBits val :=
  countBits_le_iff.1 (Nat.le_refl _)

theorem two_pow_le_of_countBits {val : BitVec 64} (h : countBits val = n + 1) :
    2 ^ n ≤ val.toNat := by
  have hlt := @countBits_le_iff n val
  omega

/-! ## Offsets -/

variable (buffer : BitBuffer byteCount)

theorem advance_zero : advance buffer 0 (Nat.zero_le _) = buffer := by
  have hoffset := buffer.bitOffset_lt
  have hbyte : buffer.byteOffset + (buffer.bitOffset + 0) / 8 = buffer.byteOffset := by omega
  have hbit : (buffer.bitOffset + 0) % 8 = buffer.bitOffset := by omega
  unfold advance
  congr 1

theorem remainingBitCount_advance (h : m ≤ remainingBitCount buffer) :
    remainingBitCount (advance buffer m h) = remainingBitCount buffer - m := by
  rw [remainingBitCount_eq, position_advance, remainingBitCount_eq, Nat.sub_sub]

theorem advance_advance {k : Nat} (hm : m ≤ remainingBitCount buffer)
    (hn : n ≤ remainingBitCount (advance buffer m hm)) (hk : k = m + n)
    (h : k ≤ remainingBitCount buffer) :
    advance (advance buffer m hm) n hn = advance buffer k h := by
  subst hk
  have hbyte : buffer.byteOffset + (buffer.bitOffset + m) / 8 +
      ((buffer.bitOffset + m) % 8 + n) / 8 =
        buffer.byteOffset + (buffer.bitOffset + (m + n)) / 8 := by omega
  have hbit : ((buffer.bitOffset + m) % 8 + n) % 8 = (buffer.bitOffset + (m + n)) % 8 := by omega
  unfold advance
  congr 1

theorem bitsAhead_add (hm : m ≤ remainingBitCount buffer) (n : Nat) :
    bitsAhead buffer (m + n) = bitsAhead buffer m * 2 ^ n + bitsAhead (advance buffer m hm) n := by
  unfold bitsAhead
  rw [bitsValue_add, position_advance]
  congr 1
  apply bitsValue_congr
  intro i _
  rw [Nat.add_assoc]
  rfl

theorem writeBits_ahead (val : BitVec 64) {bitCount : Nat} (hpos : 1 ≤ bitCount)
    (hwidth : bitCount ≤ 64) (hremaining : bitCount ≤ remainingBitCount buffer) :
    ∃ after, writeBits buffer val bitCount = some (true, after) ∧
      position after = position buffer + bitCount ∧
      (∀ i < position buffer, bitAt after.bytes i = bitAt buffer.bytes i) ∧
      bitsValue (fun i => bitAt after.bytes (position buffer + i)) bitCount =
        val.toNat % 2 ^ bitCount := by
  obtain ⟨after, hwrite, hbits, hafter⟩ := writeBits_spec buffer val hpos hwidth hremaining
  refine ⟨after, hwrite, hafter, ?_, ?_⟩
  · intro i hi
    rw [hbits i, if_neg (by omega)]
  · rw [hbits.bitsValue_eq, bitsValue_getLsbD val hwidth]

theorem peekBits_ahead {bitCount : Nat} (hpos : 1 ≤ bitCount) (hwidth : bitCount ≤ 32)
    (hremaining : bitCount ≤ remainingBitCount buffer) :
    peekBits buffer bitCount = some (some (BitVec.ofNat 32 (bitsAhead buffer bitCount))) := by
  obtain ⟨val, hval, hspec⟩ := peekBits_spec buffer hpos hwidth hremaining
  rw [hval, ← hspec, ofNat_toNat, setWidth_eq]

theorem readBits_ahead {bitCount : Nat} (hpos : 1 ≤ bitCount) (hwidth : bitCount ≤ 32)
    (hremaining : bitCount ≤ remainingBitCount buffer) :
    readBits buffer bitCount = some (some (BitVec.ofNat 32 (bitsAhead buffer bitCount)),
      advance buffer bitCount hremaining) :=
  readBits_of_peekBits (peekBits_ahead buffer hpos hwidth hremaining) hremaining

/-! ## Reading a code word -/

theorem skipZeros_spec {zeros fuel : Nat} {buffer : BitBuffer byteCount} (hfuel : zeros < fuel)
    (h : zeros ≤ remainingBitCount buffer) (hroom : zeros + 1 ≤ remainingBitCount buffer)
    (hone : bitsAhead buffer (zeros + 1) = 1) :
    skipZeros fuel buffer = some (zeros, advance buffer zeros h) := by
  have hfirst : 1 ≤ remainingBitCount buffer := by omega
  have hpeek := peekBits_ahead buffer (Nat.le_refl 1) (by decide) hfirst
  obtain ⟨fuel, rfl⟩ : ∃ n, fuel = n + 1 := ⟨fuel - 1, by omega⟩
  induction zeros generalizing fuel buffer with
  | zero =>
    rw [skipZeros, hpeek, hone, advance_zero]
    rfl
  | succ zeros ih =>
    obtain ⟨fuel, rfl⟩ : ∃ n, fuel = n + 1 := ⟨fuel - 1, by omega⟩
    have hrest := remainingBitCount_advance buffer hfirst
    -- A one behind a set bit would stand for more than one.
    have hsplit := bitsAhead_add buffer hfirst (zeros + 1)
    rw [Nat.add_comm 1, hone, Nat.pow_succ] at hsplit
    have hpow := Nat.two_pow_pos zeros
    have hzero : bitsAhead buffer 1 = 0 := by
      apply Nat.eq_zero_of_not_pos
      intro hpos
      have hle := Nat.mul_le_mul_right (2 ^ zeros * 2) hpos
      omega
    rw [hzero, Nat.zero_mul, Nat.zero_add] at hsplit
    have hnext := @ih (advance buffer 1 hfirst) (by omega) (by omega) hsplit.symm (by omega)
      (peekBits_ahead _ (Nat.le_refl 1) (by decide) (by omega)) fuel (by omega)
    rw [skipZeros, hpeek, hzero, consumeBits_eq buffer hfirst]
    simp only [Option.bind_eq_bind, Option.bind_some, hnext, if_pos]
    rw [advance_advance buffer hfirst _ (Nat.add_comm zeros 1) h]

/-- The number of bits of a code word. -/
def golombWidth (val : BitVec 32) : Nat := countBits (val.setWidth 64 + 1#64) * 2 - 1

theorem valToEncode_toNat (h : val.toNat < 2 ^ 32 - 1) :
    (val.setWidth 64 + 1#64).toNat = val.toNat + 1 := by
  exact Nat.mod_eq_of_lt (by show val.toNat + 1 < _; omega)

theorem golombWidth_spec (h : val.toNat < 2 ^ 32 - 1) :
    ∃ zeros, golombWidth val = zeros + (zeros + 1) ∧ zeros ≤ 31 ∧
      2 ^ zeros ≤ val.toNat + 1 ∧ val.toNat + 1 < 2 ^ (zeros + 1) := by
  have hcode := valToEncode_toNat h
  have hle : countBits (val.setWidth 64 + 1#64) ≤ 32 := countBits_le_iff.2 (by rw [hcode]; omega)
  have hpos : ¬countBits (val.setWidth 64 + 1#64) ≤ 0 := by
    rw [countBits_le_iff]
    omega
  obtain ⟨zeros, hzeros⟩ : ∃ n, countBits (val.setWidth 64 + 1#64) = n + 1 :=
    ⟨countBits (val.setWidth 64 + 1#64) - 1, by omega⟩
  have hlow := two_pow_le_of_countBits hzeros
  have hhigh := lt_two_pow_countBits (val.setWidth 64 + 1#64)
  rw [hcode] at hlow
  rw [hcode, hzeros] at hhigh
  refine ⟨zeros, ?_, by omega, hlow, hhigh⟩
  rw [golombWidth]
  omega

theorem readExponentialGolomb_spec (hval : val.toNat < 2 ^ 32 - 1)
    (hroom : golombWidth val ≤ remainingBitCount buffer)
    (hbits : bitsAhead buffer (golombWidth val) = val.toNat + 1) :
    readExponentialGolomb buffer = some (some val, advance buffer (golombWidth val) hroom) := by
  obtain ⟨zeros, hwidth, hzeros, hlow, hhigh⟩ := golombWidth_spec hval
  have hskip : zeros ≤ remainingBitCount buffer := by omega
  have hrest := remainingBitCount_advance buffer hskip
  rw [hwidth] at hbits
  -- The first digit is the one behind the zeros.
  have hone : bitsAhead buffer (zeros + 1) = 1 := by
    have hdiv := bitsValue_div (fun i => bitAt buffer.bytes (position buffer + i))
      (show zeros + 1 ≤ zeros + (zeros + 1) by omega)
    rw [show zeros + (zeros + 1) - (zeros + 1) = zeros by omega] at hdiv
    unfold bitsAhead at hbits ⊢
    rw [← hdiv]
    apply Nat.div_eq_of_lt_le
    · omega
    · omega
  have hdigits : bitsAhead (advance buffer zeros hskip) (zeros + 1) = val.toNat + 1 := by
    have hsplit := bitsAhead_add buffer hskip (zeros + 1)
    have hlt : bitsAhead buffer zeros * 2 ^ (zeros + 1) < 1 * 2 ^ (zeros + 1) := by omega
    have hnone : bitsAhead buffer zeros = 0 := by
      have hsmall := Nat.lt_of_mul_lt_mul_right hlt
      omega
    rw [hbits, hnone, Nat.zero_mul, Nat.zero_add] at hsplit
    exact hsplit.symm
  unfold readExponentialGolomb
  rw [skipZeros_spec (by omega) hskip (by omega) hone]
  simp only [Option.bind_eq_bind, Option.bind_some]
  rw [if_neg (by omega), readBits_ahead _ (by omega) (by omega) (by omega), hdigits]
  have hminus : BitVec.ofNat 32 (val.toNat + 1) - 1#32 = val := by
    apply eq_of_toNat_eq
    rw [toNat_sub, toNat_ofNat, toNat_ofNat]
    omega
  simp only [Option.bind_some, hminus]
  rw [advance_advance buffer hskip _ hwidth hroom]

theorem writeExponentialGolomb_spec (hval : val.toNat < 2 ^ 32 - 1)
    (hroom : golombWidth val ≤ remainingBitCount buffer) :
    ∃ after, writeExponentialGolomb buffer val = some (true, after) ∧
      position after = position buffer + golombWidth val ∧
      (∀ i < position buffer, bitAt after.bytes i = bitAt buffer.bytes i) ∧
      bitsValue (fun i => bitAt after.bytes (position buffer + i)) (golombWidth val) =
        val.toNat + 1 := by
  obtain ⟨zeros, hwidth, hzeros, hlow, hhigh⟩ := golombWidth_spec hval
  obtain ⟨after, hwrite, hafter, hfront, hbits⟩ := @writeBits_ahead _ buffer
    (val.setWidth 64 + 1#64) (golombWidth val) (by omega) (by omega) hroom
  have hmax : val ≠ allOnes 32 := by
    intro heq
    rw [heq, toNat_allOnes] at hval
    omega
  refine ⟨after, ?_, hafter, hfront, ?_⟩
  · rw [writeExponentialGolomb, if_neg hmax]
    exact hwrite
  · have hpow : 2 ^ (zeros + 1) ≤ 2 ^ golombWidth val := Nat.pow_le_pow_right (by decide) (by omega)
    rw [hbits, valToEncode_toNat hval, Nat.mod_eq_of_lt (by omega)]

/-! ## Signed numbers -/

/-- A number to be written, by the function that writes it. -/
inductive GolombNumber
  | unsigned (val : BitVec 32)
  | signed (val : Int)
  deriving DecidableEq, Repr

namespace GolombNumber

/-- The numbers that can be written: the unsigned ones below `2 ^ 32 - 1`, and the
`int32_t` values other than the least one. -/
def Encodable : GolombNumber → Prop
  | unsigned val => val.toNat < 2 ^ 32 - 1
  | signed val => -2 ^ 31 < val ∧ val < 2 ^ 31

def isSigned : GolombNumber → Bool
  | unsigned _ => false
  | signed _ => true

/-- The unsigned number that is written for a number. -/
def folded : GolombNumber → BitVec 32
  | unsigned val => val
  | signed val =>
    if 0 < val then BitVec.ofInt 32 val * 2#32 - 1#32 else BitVec.ofInt 32 (-val) * 2#32

theorem folded_pos {val : Int} (hpos : 0 < val) (h : val < 2 ^ 31) :
    ((signed val).folded.toNat : Int) = 2 * val - 1 := by
  rw [folded, if_pos hpos, toNat_sub, toNat_mul, toNat_ofInt, toNat_ofNat, toNat_ofNat]
  omega

theorem folded_nonpos {val : Int} (hnonpos : ¬0 < val) (h : -2 ^ 31 < val) :
    ((signed val).folded.toNat : Int) = 2 * -val := by
  rw [folded, if_neg hnonpos, toNat_mul, toNat_ofInt, toNat_ofNat]
  omega

theorem folded_lt {number : GolombNumber} (h : number.Encodable) :
    number.folded.toNat < 2 ^ 32 - 1 := by
  cases number with
  | unsigned val => exact h
  | signed val =>
    obtain ⟨hlow, hhigh⟩ := h
    by_cases hpos : 0 < val
    · have hfolded := folded_pos hpos hhigh
      omega
    · have hfolded := folded_nonpos hpos hlow
      omega

end GolombNumber

theorem and_one_eq_zero_iff (val : BitVec 32) : val &&& 1#32 = 0#32 ↔ val.toNat % 2 = 0 := by
  rw [← toNat_inj]
  show val.toNat &&& 1 = 0 ↔ _
  rw [Nat.and_one_is_mod]

theorem signedOf_folded {val : Int} (h : (GolombNumber.signed val).Encodable) :
    signedOf (GolombNumber.signed val).folded = val := by
  obtain ⟨hlow, hhigh⟩ := h
  unfold signedOf
  by_cases hpos : 0 < val
  · have hfolded := GolombNumber.folded_pos hpos hhigh
    rw [if_neg (by rw [and_one_eq_zero_iff]; omega), toNat_add, toNat_ofNat]
    omega
  · have hfolded := GolombNumber.folded_nonpos hpos hlow
    rw [if_pos (by rw [and_one_eq_zero_iff]; omega)]
    omega

/-! ## Sequences of numbers -/

/-- The write function for a number. -/
def writeGolomb (buffer : BitBuffer byteCount) :
    GolombNumber → Option (Bool × BitBuffer byteCount)
  | .unsigned val => writeExponentialGolomb buffer val
  | .signed val => writeSignedExponentialGolomb buffer val

/-- The read function of a kind. -/
def readGolomb (buffer : BitBuffer byteCount) (isSigned : Bool) :
    Option (Option GolombNumber × BitBuffer byteCount) :=
  if isSigned then do
    let (val, after) ← readSignedExponentialGolomb buffer
    some (val.map .signed, after)
  else do
    let (val, after) ← readExponentialGolomb buffer
    some (val.map .unsigned, after)

/-- Write the numbers in order; the result is the offset after each of them. -/
def writeGolombs (buffer : BitBuffer byteCount) :
    List GolombNumber → Option (Option (List Nat) × BitBuffer byteCount)
  | [] => some (some [], buffer)
  | number :: numbers => do
      let (written, buffer) ← writeGolomb buffer number
      if written then
        let (offsets, after) ← writeGolombs buffer numbers
        some (offsets.map (position buffer :: ·), after)
      else some (none, buffer)

/-- Read numbers of the kinds given in order; the result is each number and the
offset after it. -/
def readGolombs (buffer : BitBuffer byteCount) :
    List Bool → Option (Option (List (GolombNumber × Nat)) × BitBuffer byteCount)
  | [] => some (some [], buffer)
  | isSigned :: kinds => do
      match ← readGolomb buffer isSigned with
      | (none, buffer) => some (none, buffer)
      | (some number, buffer) =>
        let (numbers, after) ← readGolombs buffer kinds
        some (numbers.map ((number, position buffer) :: ·), after)

theorem writeGolomb_eq {number : GolombNumber} (h : number.Encodable) :
    writeGolomb buffer number = writeExponentialGolomb buffer number.folded := by
  cases number with
  | unsigned val => rfl
  | signed val =>
    rw [writeGolomb, writeSignedExponentialGolomb, GolombNumber.folded]
    by_cases hpos : 0 < val
    · rw [if_neg (by omega), if_pos hpos, if_pos hpos]
    · rw [if_neg (show val ≠ -2 ^ 31 by have := h.1; omega)]
      split
      · next hzero =>
        subst hzero
        rfl
      · rfl

theorem readGolomb_eq {buffer after : BitBuffer byteCount} {number : GolombNumber}
    (h : number.Encodable)
    (hread : readExponentialGolomb buffer = some (some number.folded, after)) :
    readGolomb buffer number.isSigned = some (some number, after) := by
  cases number with
  | unsigned val =>
    rw [readGolomb, hread]
    rfl
  | signed val =>
    rw [readGolomb, GolombNumber.isSigned, readSignedExponentialGolomb, hread]
    simp [signedOf_folded h]

/-- The number of bits of the code words of some numbers. -/
def golombWidths (numbers : List GolombNumber) : Nat :=
  (numbers.map fun number => golombWidth number.folded).sum

theorem golombWidths_cons (number : GolombNumber) (numbers : List GolombNumber) :
    golombWidths (number :: numbers) = golombWidth number.folded + golombWidths numbers := by
  simp [golombWidths]

/-- The offsets after the code words of some numbers, the first of them at
`start`. -/
def golombOffsets : Nat → List GolombNumber → List Nat
  | _, [] => []
  | start, number :: numbers =>
    (start + golombWidth number.folded) ::
      golombOffsets (start + golombWidth number.folded) numbers

/-- From `start` on, a sequence of bits holds the code words of some numbers. -/
def HoldsGolombs (bits : Nat → Bool) : Nat → List GolombNumber → Prop
  | _, [] => True
  | start, number :: numbers =>
    bitsValue (fun i => bits (start + i)) (golombWidth number.folded) =
        number.folded.toNat + 1 ∧
      HoldsGolombs bits (start + golombWidth number.folded) numbers

theorem writeGolombs_spec {numbers : List GolombNumber} {buffer : BitBuffer byteCount}
    (hencodable : ∀ number ∈ numbers, number.Encodable)
    (hroom : golombWidths numbers ≤ remainingBitCount buffer) :
    ∃ after, writeGolombs buffer numbers =
        some (some (golombOffsets (position buffer) numbers), after) ∧
      position after = position buffer + golombWidths numbers ∧
      (∀ i < position buffer, bitAt after.bytes i = bitAt buffer.bytes i) ∧
      HoldsGolombs (bitAt after.bytes) (position buffer) numbers := by
  induction numbers generalizing buffer with
  | nil => exact ⟨buffer, rfl, rfl, fun i _ => rfl, trivial⟩
  | cons number numbers ih =>
    rw [golombWidths_cons] at hroom ⊢
    rw [List.forall_mem_cons] at hencodable
    obtain ⟨mid, hwrite, hmid, hbefore, hword⟩ := writeExponentialGolomb_spec buffer
      (GolombNumber.folded_lt hencodable.1) (by omega)
    obtain ⟨after, hrest, hafter, hfront, hholds⟩ :=
      ih hencodable.2 (le_remainingBitCount_of_position hmid hroom)
    rw [hmid] at hrest hafter hfront hholds
    refine ⟨after, ?_, by omega, ?_, ?_, hholds⟩
    · simp [writeGolombs, writeGolomb_eq buffer hencodable.1, hwrite, hrest, hmid, golombOffsets]
    · intro i hi
      rw [hfront i (by omega), hbefore i hi]
    · -- Later words leave the bits of this one alone.
      rw [← hword]
      apply bitsValue_congr
      intro i hi
      exact hfront _ (by omega)

theorem readGolombs_spec {numbers : List GolombNumber} {buffer : BitBuffer byteCount}
    (hencodable : ∀ number ∈ numbers, number.Encodable)
    (hroom : golombWidths numbers ≤ remainingBitCount buffer)
    (hholds : HoldsGolombs (bitAt buffer.bytes) (position buffer) numbers) :
    ∃ after, readGolombs buffer (numbers.map GolombNumber.isSigned) =
        some (some (numbers.zip (golombOffsets (position buffer) numbers)), after) ∧
      position after = position buffer + golombWidths numbers := by
  induction numbers generalizing buffer with
  | nil => exact ⟨buffer, rfl, rfl⟩
  | cons number numbers ih =>
    rw [golombWidths_cons] at hroom ⊢
    rw [List.forall_mem_cons] at hencodable
    have hwidth : golombWidth number.folded ≤ remainingBitCount buffer := by omega
    have hread := readExponentialGolomb_spec buffer (GolombNumber.folded_lt hencodable.1) hwidth
      hholds.1
    have hmid := position_advance buffer hwidth
    obtain ⟨after, hrest, hafter⟩ := @ih (advance buffer _ hwidth) hencodable.2
      (le_remainingBitCount_of_position hmid hroom) (by rw [hmid]; exact hholds.2)
    refine ⟨after, ?_, by omega⟩
    simp [readGolombs, readGolomb_eq hencodable.1 hread, hrest, hmid, golombOffsets]

/-- Numbers written in order, from any offset of a buffer with room for their code
words, are read back in order from that offset, and after each of them the reader
is at the offset at which the writer was. -/
theorem exponentialGolomb_read_back (buffer : BitBuffer byteCount)
    (numbers : List GolombNumber) (hencodable : ∀ number ∈ numbers, number.Encodable)
    (hroom : golombWidths numbers ≤ remainingBitCount buffer) :
    ∃ offsets written start after, writeGolombs buffer numbers = some (some offsets, written) ∧
      seek written buffer.byteOffset buffer.bitOffset = (true, start) ∧
      readGolombs start (numbers.map GolombNumber.isSigned) =
        some (some (numbers.zip offsets), after) ∧
      position start = position buffer ∧ position after = position written := by
  obtain ⟨written, hwrite, hwritten, -, hholds⟩ := writeGolombs_spec hencodable hroom
  obtain ⟨after, hread, hafter⟩ := @readGolombs_spec _ numbers
    { buffer with bytes := written.bytes } hencodable hroom hholds
  exact ⟨_, written, _, after, hwrite, seek_eq written buffer, hread, rfl,
    hafter.trans hwritten.symm⟩

/-- Two code words across the ends of bytes. -/
theorem exponentialGolomb_read_back_two :
    ∃ offsets written start after,
      writeGolombs sampleBuffer [.unsigned 30#32, .signed (-3)] = some (some offsets, written) ∧
      seek written 0 3 = (true, start) ∧
      readGolombs start [false, true] =
        some (some ([.unsigned 30#32, .signed (-3)].zip offsets), after) := by
  obtain ⟨offsets, written, start, after, hwrite, hseek, hread, -⟩ :=
    exponentialGolomb_read_back sampleBuffer [.unsigned 30#32, .signed (-3)] (by
      intro number hnumber
      simp only [List.mem_cons, List.not_mem_nil, or_false] at hnumber
      rcases hnumber with rfl | rfl
      · show (30 : Nat) < 2 ^ 32 - 1
        decide
      · exact ⟨by decide, by decide⟩) (by decide)
  exact ⟨offsets, written, start, after, hwrite, hseek, hread⟩

end WebrtcCore.Ports.BitBuffer
