import WebrtcCore.Ports.StunIntegrity

/-!
# The fingerprint (`api/transport/stun.cc`, `rtc_base/crc32.cc`)

`AddFingerprint` serialises the message with an attribute of value zero at its
end, takes the CRC-32 of everything before that attribute and stores it, masked
with a constant.  `ValidateFingerprint` does not parse the packet: it looks for
the attribute in the last eight bytes.  Both take the checksum of a header whose
length field already counts the attribute.
-/

namespace WebrtcCore.Ports.Stun

open Verified.Bytes Ports.ByteBuffer List

/-! ## CRC-32 -/

def kCrc32Polynomial : UInt32 := 0xEDB88320

/-- One bit of an entry of `LoadCrc32Table`. -/
def crc32Round (c : UInt32) : UInt32 :=
  if c &&& 1 ≠ 0 then kCrc32Polynomial ^^^ (c >>> 1) else c >>> 1

/-- `kCrc32Table[i]`. -/
def crc32Table (i : UInt32) : UInt32 := (List.range 8).foldl (fun c _ => crc32Round c) i

def updateCrc32 (start : UInt32) (buf : List UInt8) : UInt32 :=
  buf.foldl (fun c u => crc32Table ((c ^^^ u.toUInt32) &&& 0xFF) ^^^ (c >>> 8))
    (start ^^^ 0xFFFFFFFF) ^^^ 0xFFFFFFFF

def computeCrc32 (buf : List UInt8) : UInt32 := updateCrc32 0 buf

/-- The customary check value, of the digits one to nine. -/
example : computeCrc32 [0x31, 0x32, 0x33, 0x34, 0x35, 0x36, 0x37, 0x38, 0x39] = 0xCBF43926 := by
  decide +kernel

/-- One byte of the reflected CRC, bit by bit. -/
def crc32Byte (c : UInt32) (u : UInt8) : UInt32 := crc32Round^[8] (c ^^^ u.toUInt32)

/-- The CRC of a string, without a table. -/
def bitwiseCrc32 (start : UInt32) (buf : List UInt8) : UInt32 :=
  buf.foldl crc32Byte (start ^^^ 0xFFFFFFFF) ^^^ 0xFFFFFFFF

theorem crc32Round_xor (x y : UInt32) : crc32Round (x ^^^ y) = crc32Round x ^^^ crc32Round y := by
  have hbit : ∀ z : UInt32, z &&& 1 = 0 ∨ z &&& 1 = 1 := by
    intro z
    simp only [← UInt32.toNat_inj, UInt32.toNat_and, UInt32.reduceToNat, Nat.and_one_is_mod]
    omega
  have hxor : (x ^^^ y) &&& 1 = (x &&& 1) ^^^ (y &&& 1) := by
    simp only [← UInt32.toNat_inj, UInt32.toNat_and, UInt32.toNat_xor, Nat.and_xor_distrib_right]
  unfold crc32Round
  rw [hxor]
  rcases hbit x with hx | hx <;> rcases hbit y with hy | hy <;>
    simp [hx, hy, UInt32.shiftRight_xor, UInt32.xor_assoc, UInt32.xor_comm kCrc32Polynomial]

theorem crc32Round_iterate_xor (n : Nat) (x y : UInt32) :
    crc32Round^[n] (x ^^^ y) = crc32Round^[n] x ^^^ crc32Round^[n] y := by
  induction n generalizing x y with
  | zero => rfl
  | succ n ih => simp only [Function.iterate_succ_apply, crc32Round_xor, ih]

theorem crc32Round_iterate_of_dvd {n : Nat} {x : UInt32} (h : 2 ^ n ∣ x.toNat) :
    (crc32Round^[n] x).toNat = x.toNat / 2 ^ n := by
  induction n generalizing x with
  | zero => simp
  | succ n ih =>
    obtain ⟨m, hm⟩ := h
    rw [Nat.pow_succ', Nat.mul_assoc] at hm
    have hround : (crc32Round x).toNat = 2 ^ n * m := by
      have heven : x &&& 1 = 0 := by simp [← UInt32.toNat_inj, hm]
      rw [crc32Round, if_neg (not_not.2 heven), UInt32.toNat_shiftRight, hm]
      simp [Nat.shiftRight_eq_div_pow]
    rw [Function.iterate_succ_apply, ih ⟨m, hround⟩, hround, hm, Nat.pow_succ',
      Nat.mul_div_mul_left _ _ (by decide)]

theorem crc32Round_eight (x : UInt32) :
    crc32Round^[8] x = crc32Round^[8] (x &&& 0xFF) ^^^ (x >>> 8) := by
  have hsplit : (x &&& 0xFF) ^^^ (x &&& 0xFFFFFF00) = x := by
    simp only [← UInt32.toNat_inj, UInt32.toNat_xor, UInt32.toNat_and, ← Nat.and_xor_distrib_left]
    exact (Nat.and_two_pow_sub_one_eq_mod _ 32).trans (Nat.mod_eq_of_lt x.toNat_lt)
  have hdvd : 2 ^ 8 ∣ (x &&& 0xFFFFFF00).toNat := by
    rw [Nat.dvd_iff_mod_eq_zero, ← Nat.and_two_pow_sub_one_eq_mod]
    simp [Nat.and_assoc]
  have hhigh : crc32Round^[8] (x &&& 0xFFFFFF00) = x >>> 8 := by
    rw [← UInt32.toNat_inj, crc32Round_iterate_of_dvd hdvd, UInt32.toNat_and,
      ← Nat.shiftRight_eq_div_pow, Nat.shiftRight_and_distrib]
    refine (Nat.and_two_pow_sub_one_eq_mod _ 24).trans ?_
    have hlt := x.toNat_lt
    exact Nat.mod_eq_of_lt (by rw [Nat.shiftRight_eq_div_pow]; omega)
  nth_rewrite 1 [← hsplit]
  rw [crc32Round_iterate_xor, hhigh]

theorem crc32Table_and (x : UInt32) (u : UInt8) :
    crc32Table ((x ^^^ u.toUInt32) &&& 0xFF) ^^^ (x >>> 8) = crc32Byte x u := by
  have hu : u.toUInt32 >>> 8 = 0 := by
    have h := u.toNat_lt
    simp only [← UInt32.toNat_inj]
    exact (Nat.shiftRight_eq_div_pow _ 8).trans (Nat.div_eq_of_lt h)
  rw [crc32Byte, crc32Round_eight, UInt32.shiftRight_xor, hu, UInt32.xor_zero]
  rfl

/-- **The table is that of the bitwise CRC**, and the CRC of a string is taken part by part. -/
theorem updateCrc32_bitwise (start : UInt32) (a b : List UInt8) :
    updateCrc32 start a = bitwiseCrc32 start a ∧
      updateCrc32 (updateCrc32 start a) b = updateCrc32 start (a ++ b) := by
  constructor
  · simp only [updateCrc32, bitwiseCrc32, crc32Table_and]
  · simp [updateCrc32, UInt32.xor_assoc]

/-! ## Adding and checking -/

def stunFingerprintXorValue : UInt32 := 0x5354554E
def kStunTransactionIdOffset : Nat := 8
def kStunMagicCookieLength : Nat := 4

/-- `StunUInt32Attribute::SIZE`. -/
def stunUInt32AttributeSize : Nat := 4

def StunMessage.addFingerprint (m : StunMessage) : Bool × StunMessage :=
  let dummy : StunAttribute := ⟨stunAttrFingerprint, .uint32 0⟩
  let withDummy := m.addAttribute dummy
  match withDummy.write with
  | none => (false, withDummy)
  | some buf =>
    let msgLenForCrc32 := buf.length - kStunAttributeHeaderSize - dummy.length.toNat
    let c := computeCrc32 (buf.take msgLenForCrc32)
    (true, { withDummy with
      attrs := m.attrs ++ [⟨stunAttrFingerprint, .uint32 (c ^^^ stunFingerprintXorValue)⟩] })

/-- `rtc::GetBE32` at an offset of a buffer. -/
def getBE32 (data : List UInt8) (offset : Nat) : UInt32 :=
  UInt32.ofNat (valueBE ((data.drop offset).take 4))

def validateFingerprint (data : List UInt8) : Bool :=
  let fingerprintAttrSize := kStunAttributeHeaderSize + stunUInt32AttributeSize
  if data.length % 4 ≠ 0 ∨ data.length < kStunHeaderSize + fingerprintAttrSize then false
  else if getBE32 data (kStunTransactionIdOffset - kStunMagicCookieLength) ≠ kStunMagicCookie then
    false
  else
    let fingerprintAttrData := data.length - fingerprintAttrSize
    if getBE16 data fingerprintAttrData ≠ stunAttrFingerprint ∨
        (getBE16 data (fingerprintAttrData + 2)).toNat ≠ stunUInt32AttributeSize then false
    else
      getBE32 data (fingerprintAttrData + kStunAttributeHeaderSize) ^^^ stunFingerprintXorValue =
        computeCrc32 (data.take fingerprintAttrData)

/-! ## A packet that ends with a fingerprint -/

theorem getBE32_of_drop {data rest : List UInt8} {pos : Nat} {v : UInt32}
    (h : data.drop pos = writeUInt32 v ++ rest) : getBE32 data pos = v := by
  rw [getBE32, h, writeUInt32, take_left' (bytesBE_length _ _),
    valueBE_bytesBE_of_lt v.toNat_lt, UInt32.ofNat_toNat]

/-- The attribute on the wire. -/
def fingerprintBytes (value : UInt32) : List UInt8 :=
  writeUInt16 stunAttrFingerprint ++ (writeUInt16 4 ++ writeUInt32 value)

@[simp] theorem fingerprintBytes_length (value : UInt32) : (fingerprintBytes value).length = 8 := by
  simp [fingerprintBytes]

theorem writeAttributes_fingerprint (owner : TransactionId) (value : UInt32) :
    writeAttributes owner [⟨stunAttrFingerprint, .uint32 value⟩] =
      some (fingerprintBytes value) := by
  simp [writeAttributes, StunAttribute.write, fingerprintBytes, StunAttribute.length,
    StunAttributeValue.size]

theorem validateFingerprint_iff {data : List UInt8} (hmod : data.length % 4 = 0)
    (hsize : kStunHeaderSize ≤ data.length) (value : UInt32) :
    validateFingerprint (data ++ fingerprintBytes value) = true ↔
      getBE32 data 4 = kStunMagicCookie ∧
        value ^^^ stunFingerprintXorValue = computeCrc32 data := by
  have hlength : (data ++ fingerprintBytes value).length = data.length + 8 := by
    rw [length_append, fingerprintBytes_length]
  have hpos : data.length + 8 - (kStunAttributeHeaderSize + stunUInt32AttributeSize) =
      data.length := by
    unfold kStunAttributeHeaderSize stunUInt32AttributeSize
    omega
  have hdrop : (data ++ fingerprintBytes value).drop data.length =
      writeUInt16 stunAttrFingerprint ++ (writeUInt16 4 ++ writeUInt32 value) :=
    drop_left
  obtain ⟨htype, hlen⟩ := getBE16_written hdrop
  have hvalue : getBE32 (data ++ fingerprintBytes value)
      (data.length + kStunAttributeHeaderSize) = value := by
    refine @getBE32_of_drop _ [] _ _ ?_
    rw [← drop_drop, hdrop, show kStunAttributeHeaderSize = 2 + 2 from rfl,
      ← drop_drop, drop_left' (writeUInt16_length _),
      drop_left' (writeUInt16_length _), append_nil]
  have hcookie : getBE32 (data ++ fingerprintBytes value) 4 = getBE32 data 4 := by
    unfold kStunHeaderSize at hsize
    rw [getBE32, getBE32, drop_append_of_le_length (by omega),
      take_append_of_le_length (by rw [length_drop]; omega)]
  have hoffset : kStunTransactionIdOffset - kStunMagicCookieLength = 4 := rfl
  have hroom : ¬((data.length + 8) % 4 ≠ 0 ∨ data.length + 8 <
      kStunHeaderSize + (kStunAttributeHeaderSize + stunUInt32AttributeSize)) := by
    unfold kStunAttributeHeaderSize stunUInt32AttributeSize
    omega
  simp only [validateFingerprint, hlength, hpos, hoffset, hcookie, htype, hlen, hvalue,
    take_left, if_neg hroom]
  by_cases hc : getBE32 data 4 = kStunMagicCookie
  · rw [if_neg (fun h => h hc), if_neg (by decide), decide_eq_true_eq]
    exact (and_iff_right hc).symm
  · simp [hc]

/-! ## What `AddFingerprint` stores -/

theorem addFingerprint_eq_true_iff {m m₁ : StunMessage} :
    m.addFingerprint = (true, m₁) ↔
      ∃ w, writeAttributes m.transactionId m.attrs = some w ∧
        m₁ = { m with
          length := m.length + 8
          attrs := m.attrs ++ [⟨stunAttrFingerprint, .uint32
            (computeCrc32 (m.headerWithLength (m.length + 8) ++ w) ^^^
              stunFingerprintXorValue)⟩] } := by
  have hwith : m.addAttribute ⟨stunAttrFingerprint, .uint32 0⟩ = { m with
      length := m.length + 8
      attrs := m.attrs ++ [⟨stunAttrFingerprint, .uint32 0⟩] } := rfl
  simp only [StunMessage.addFingerprint, hwith,
    m.write_appended _ (writeAttributes_fingerprint _ 0)]
  cases hw : writeAttributes m.transactionId m.attrs with
  | none => simp
  | some w =>
    have htake : ∀ u : List UInt8, (u ++ fingerprintBytes 0).take
        ((u ++ fingerprintBytes 0).length - kStunAttributeHeaderSize -
          (StunAttribute.mk stunAttrFingerprint (.uint32 0)).length.toNat) = u := by
      intro u
      refine take_left' ?_
      rw [length_append]
      exact Nat.add_sub_cancel u.length 8
    simp only [Option.map_some, htake, Option.some.injEq, exists_eq_left', Prod.mk.injEq, true_and]
    exact eq_comm

theorem getBE32_headerWithLength {m : StunMessage} (hid : m.isLegacy = false) (length : UInt16)
    (w : List UInt8) :
    getBE32 (m.headerWithLength length ++ w) 4 = m.stunMagicCookie := by
  refine @getBE32_of_drop _ (m.transactionId.val ++ w) _ _ ?_
  rw [m.headerWithLength_eq, hid, show (4 : Nat) = 2 + 2 from rfl, ← drop_drop]
  simp

/-- **A message that was given a fingerprint passes the check**, and a packet in which
one byte before the attribute was changed does not, unless the checksum is the same. -/
theorem validateFingerprint_addFingerprint {m m₁ : StunMessage} (hid : m.isLegacy = false)
    (hcookie : m.stunMagicCookie = kStunMagicCookie)
    (hadd : m.addFingerprint = (true, m₁)) (hsize : wireSizes m₁.attrs ≤ 65535) :
    ∃ data, m₁.write = some data ∧ validateFingerprint data = true ∧
      ∀ i v, i < data.length - 8 →
        computeCrc32 ((data.set i v).take (data.length - 8)) ≠
          computeCrc32 (data.take (data.length - 8)) →
        validateFingerprint (data.set i v) = false := by
  obtain ⟨w, hw, rfl⟩ := addFingerprint_eq_true_iff.1 hadd
  generalize hcrc : computeCrc32 (m.headerWithLength (m.length + 8) ++ w) ^^^
    stunFingerprintXorValue = value
  have hwLength : w.length = wireSizes m.attrs :=
    writeAttributes_length hw fun attr hmem =>
      size_lt_of_mem (mem_append_left _ hmem) hsize
  have hmod := wireSizes_mod m.attrs
  have hdata := m.headerWithLength_length (m.length + 8)
  have hvalue : value ^^^ stunFingerprintXorValue =
      computeCrc32 (m.headerWithLength (m.length + 8) ++ w) := by
    rw [← hcrc, UInt32.xor_assoc, UInt32.xor_self, UInt32.xor_zero]
  have hheader := getBE32_headerWithLength hid (m.length + 8) w
  have hlength : (m.headerWithLength (m.length + 8) ++ w).length = 20 + w.length := by
    rw [length_append, hdata]
    rfl
  have hwrite := m.write_appended (m.length + 8) (writeAttributes_fingerprint _ value)
  rw [hw, Option.map_some] at hwrite
  generalize m.headerWithLength (m.length + 8) ++ w = data at hvalue hheader hlength hwrite
  -- whatever stands in front of the attribute, the check compares its checksum
  have hcheck : ∀ other : List UInt8, other.length = data.length →
      (validateFingerprint (other ++ fingerprintBytes value) = true ↔
        getBE32 other 4 = kStunMagicCookie ∧ computeCrc32 data = computeCrc32 other) := by
    intro other hother
    rw [validateFingerprint_iff (by omega) (by unfold kStunHeaderSize; omega), hvalue]
  have hbefore : (data ++ fingerprintBytes value).length - 8 = data.length := by
    rw [length_append, fingerprintBytes_length, Nat.add_sub_cancel]
  refine ⟨_, hwrite, (hcheck data rfl).2 ⟨hheader.trans hcookie, rfl⟩, ?_⟩
  intro i v hi hchanged
  rw [hbefore] at hi hchanged
  have hset : (data ++ fingerprintBytes value).set i v =
      data.set i v ++ fingerprintBytes value := set_append_left i v hi
  rw [hset, take_left' (length_set ..), take_left] at hchanged
  rw [hset, ← Bool.not_eq_true]
  intro hvalid
  exact hchanged ((hcheck _ (length_set ..)).1 hvalid).2.symm

/-- A request with a user name. -/
theorem validateFingerprint_username :
    ∃ data, usernameRequest.addFingerprint.2.write = some data ∧
      validateFingerprint data = true := by
  obtain ⟨data, hwrite, hvalid, -⟩ := validateFingerprint_addFingerprint
    (show usernameRequest.isLegacy = false by decide) (by decide)
    (show usernameRequest.addFingerprint = (true, usernameRequest.addFingerprint.2) by
      decide +kernel) (by decide +kernel)
  exact ⟨data, hwrite, hvalid⟩

end WebrtcCore.Ports.Stun
