import WebrtcCore.Ports.ByteBuffer

/-!
# STUN attributes (`api/transport/stun.{h,cc}`)

Seven kinds of attribute value, each with its own body reader and writer.  `length_` is not a
field of its own: the source sets it from the value, reduced to 16 bits, and so does
`StunAttribute.length`.  `BlankAttribute` is the state between `StunAttribute::Create` and `Read`,
which has a length without a value.

A XOR address is masked with the transaction id of the message that owns the attribute; `none`
stands for a null `owner_`.
-/

namespace WebrtcCore.Ports.Stun

open Verified Bytes Cursor Ports.ByteBuffer List Attempt

/-! ## Constants -/

def kStunMagicCookie : UInt32 := 0x2112A442
def kStunHeaderSize : Nat := 20
def kStunTransactionIdLength : Nat := 12
def kStunLegacyTransactionIdLength : Nat := 16

def stunAttrUsername : UInt16 := 0x0006
def stunAttrMessageIntegrity : UInt16 := 0x0008
def stunAttrRealm : UInt16 := 0x0014
def stunAttrNonce : UInt16 := 0x0015
def stunAttrSoftware : UInt16 := 0x8022
def stunAttrOrigin : UInt16 := 0x802F

def k127Utf8CharactersLengthInBytes : Nat := 508
def kDefaultMaxAttributeLength : Nat := 508
def kMessageIntegrityAttributeLength : Nat := 20
def kTheoreticalMaximumAttributeLength : Nat := 65535

/-! ## Values -/

inductive StunAttributeValueType
  | unknown
  | address
  | xorAddress
  | uint32
  | uint64
  | byteString
  | errorCode
  | uint16List
  deriving DecidableEq, Repr

/-- `in6_addr` as four 32-bit words in network order. -/
structure In6Addr where
  s0 : UInt32
  s1 : UInt32
  s2 : UInt32
  s3 : UInt32
  deriving DecidableEq, Repr

/-- `rtc::IPAddress`: its family and the address that goes with it. -/
inductive IPAddress
  | unspec
  | v4 (addr : UInt32)
  | v6 (addr : In6Addr)
  deriving DecidableEq, Repr

/-- The parts of `rtc::SocketAddress` an attribute keeps. -/
structure SocketAddress where
  ip : IPAddress
  port : UInt16
  deriving DecidableEq, Repr

def isValidTransactionId (id : List UInt8) : Bool :=
  id.length = kStunTransactionIdLength ||
    id.length = kStunLegacyTransactionIdLength

/-- A transaction id, of one of the two lengths the source admits. -/
def TransactionId : Type := { id : List UInt8 // isValidTransactionId id }
  deriving DecidableEq

theorem TransactionId.length_eq (id : TransactionId) : id.val.length = 12 ∨ id.val.length = 16 := by
  have h := id.property
  unfold isValidTransactionId kStunTransactionIdLength kStunLegacyTransactionIdLength at h
  simpa only [Bool.or_eq_true, decide_eq_true_eq] using h

/-- The fields of the seven attribute classes. -/
inductive StunAttributeValue
  | address (addr : SocketAddress)
  | xorAddress (addr : SocketAddress)
  | uint32 (bits : UInt32)
  | uint64 (bits : UInt64)
  | byteString (bytes : List UInt8)
  | errorCode (eclass number : UInt8) (reason : List UInt8)
  | uint16List (attrTypes : List UInt16)
  deriving DecidableEq, Repr

structure StunAttribute where
  type : UInt16
  value : StunAttributeValue
  deriving DecidableEq, Repr

def StunAttributeValue.valueType : StunAttributeValue → StunAttributeValueType
  | .address _ => .address
  | .xorAddress _ => .xorAddress
  | .uint32 _ => .uint32
  | .uint64 _ => .uint64
  | .byteString _ => .byteString
  | .errorCode _ _ _ => .errorCode
  | .uint16List _ => .uint16List

/-- `EnsureAddressLength`: `SIZE_UNDEF`, `SIZE_IP4` or `SIZE_IP6`. -/
def IPAddress.attrSize : IPAddress → Nat
  | .unspec => 0
  | .v4 _ => 8
  | .v6 _ => 20

/-- The number of bytes of a value, before padding. -/
def StunAttributeValue.size : StunAttributeValue → Nat
  | .address addr => addr.ip.attrSize
  | .xorAddress addr => addr.ip.attrSize
  | .uint32 _ => 4
  | .uint64 _ => 8
  | .byteString bytes => bytes.length
  | .errorCode _ _ reason => 4 + reason.length
  | .uint16List attrTypes => attrTypes.length * 2

/-- `length()`: what the setters pass to `SetLength(uint16_t)`. -/
def StunAttribute.length (attr : StunAttribute) : UInt16 := UInt16.ofNat attr.value.size

/-- Round a length up to a multiple of four, as `AddAttribute`,
`RemoveAttribute` and the walks over a packet do. -/
def paddedLength (length : Nat) : Nat :=
  if length % 4 ≠ 0 then length + (4 - length % 4) else length

def lengthValid (type : UInt16) (length : Nat) : Bool :=
  if type = stunAttrUsername then length ≤ k127Utf8CharactersLengthInBytes
  else if type = stunAttrMessageIntegrity then
    length = kMessageIntegrityAttributeLength
  else if type = stunAttrRealm then length ≤ k127Utf8CharactersLengthInBytes
  else if type = stunAttrNonce then length ≤ k127Utf8CharactersLengthInBytes
  else if type = stunAttrSoftware then length ≤ k127Utf8CharactersLengthInBytes
  else if type = stunAttrOrigin then length ≤ kDefaultMaxAttributeLength
  else length ≤ kTheoreticalMaximumAttributeLength

/-! ## Addresses -/

/-- The `i`-th 32-bit word of a byte string in network order. -/
def wordAt (bytes : List UInt8) (i : Nat) : UInt32 :=
  UInt32.ofNat (valueBE ((bytes.drop (4 * i)).take 4))

def In6Addr.ofBytes (bytes : List UInt8) : In6Addr :=
  ⟨wordAt bytes 0, wordAt bytes 1, wordAt bytes 2, wordAt bytes 3⟩

def In6Addr.toBytes (addr : In6Addr) : List UInt8 :=
  writeUInt32 addr.s0 ++ writeUInt32 addr.s1 ++ writeUInt32 addr.s2 ++
    writeUInt32 addr.s3

def SocketAddress.write (addr : SocketAddress) : Option (List UInt8) :=
  match addr.ip with
  | .unspec => none
  | .v4 v4addr =>
    some (writeUInt8 0 ++ writeUInt8 1 ++ writeUInt16 addr.port ++
      writeUInt32 v4addr)
  | .v6 v6addr =>
    some (writeUInt8 0 ++ writeUInt8 2 ++ writeUInt16 addr.port ++
      v6addr.toBytes)

/-- `StunAddressAttribute::Read` of an attribute of the given length. -/
def readAddress (length : UInt16) : Attempt ByteBufferReader SocketAddress := do
  let _dummy ← readUInt8
  let stunFamily ← readUInt8
  let port ← readUInt16
  if stunFamily = 1 then
    Attempt.guard (length = 8)
    let v4addr ← readUInt32
    return ⟨.v4 v4addr, port⟩
  else if stunFamily = 2 then
    Attempt.guard (length = 20)
    let v6addr ← readBytes 16
    return ⟨.v6 (In6Addr.ofBytes v6addr), port⟩
  else
    Attempt.fail

/-- `GetXoredIP`. -/
def IPAddress.xored (owner : Option TransactionId) (ip : IPAddress) :
    IPAddress :=
  match owner, ip with
  | some _, .v4 v4addr => .v4 (v4addr ^^^ kStunMagicCookie)
  | some id, .v6 v6addr =>
    if id.val.length = kStunTransactionIdLength then
      .v6 ⟨v6addr.s0 ^^^ kStunMagicCookie, v6addr.s1 ^^^ wordAt id.val 0,
        v6addr.s2 ^^^ wordAt id.val 1, v6addr.s3 ^^^ wordAt id.val 2⟩
    else .unspec
  | _, _ => .unspec

def SocketAddress.xored (owner : Option TransactionId) (addr : SocketAddress) :
    SocketAddress :=
  ⟨addr.ip.xored owner, addr.port ^^^ (kStunMagicCookie >>> 16).toUInt16⟩

/-! ## Reading and writing a body -/

open SocketAddress

open IPAddress

/-- An attribute object between `StunAttribute::Create` and its `Read`. -/
structure BlankAttribute where
  valueType : StunAttributeValueType
  type : UInt16
  length : UInt16
  deriving DecidableEq, Repr

/-- `StunAttribute::Create`.  The two integer classes take no length. -/
def StunAttribute.create (valueType : StunAttributeValueType)
    (type length : UInt16) : Option BlankAttribute :=
  match valueType with
  | .unknown => none
  | .uint32 => some ⟨.uint32, type, 4⟩
  | .uint64 => some ⟨.uint64, type, 8⟩
  | valueType => some ⟨valueType, type, length⟩

/-- `ConsumePadding`, which does not look at what `Consume` returns. -/
def consumePadding (length : UInt16) : Attempt ByteBufferReader Unit :=
  if length.toNat % 4 > 0 then
    Attempt.ignore (consume (4 - length.toNat % 4))
  else pure ()

def writePadding (length : UInt16) : List UInt8 :=
  if length.toNat % 4 > 0 then List.replicate (4 - length.toNat % 4) 0 else []

/-- The loop of `StunUInt16ListAttribute::Read`. -/
def readUInt16s : Nat → Attempt ByteBufferReader (List UInt16)
  | 0 => pure []
  | n + 1 => do
      let attr ← readUInt16
      let attrTypes ← readUInt16s n
      return attr :: attrTypes

/-- The `Read` method of the seven attribute classes. -/
def BlankAttribute.read (blank : BlankAttribute) (owner : Option TransactionId) :
    Attempt ByteBufferReader StunAttributeValue :=
  match blank.valueType with
  | .unknown => Attempt.fail
  | .address => do
      let addr ← readAddress blank.length
      return .address addr
  | .xorAddress => do
      let addr ← readAddress blank.length
      return .xorAddress (addr.xored owner)
  | .uint32 => do
      Attempt.guard (blank.length = 4)
      let bits ← readUInt32
      return .uint32 bits
  | .uint64 => do
      Attempt.guard (blank.length = 8)
      let bits ← readUInt64
      return .uint64 bits
  | .byteString => do
      let bytes ← readBytes blank.length.toNat
      consumePadding blank.length
      return .byteString bytes
  | .errorCode => do
      Attempt.guard (4 ≤ blank.length.toNat)
      let val ← readUInt32
      let reason ← readString (blank.length.toNat - 4)
      consumePadding blank.length
      return .errorCode ((val >>> 8) &&& 0x7).toUInt8 (val &&& 0xff).toUInt8 reason
  | .uint16List => do
      Attempt.guard (blank.length.toNat % 2 = 0)
      let attrTypes ← readUInt16s (blank.length.toNat / 2)
      consumePadding blank.length
      return .uint16List attrTypes

/-- The `Write` method of the seven attribute classes. -/
def StunAttribute.write (attr : StunAttribute) (owner : Option TransactionId) :
    Option (List UInt8) :=
  match attr.value with
  | .address addr => addr.write
  | .xorAddress addr => (addr.xored owner).write
  | .uint32 bits => some (writeUInt32 bits)
  | .uint64 bits => some (writeUInt64 bits)
  | .byteString bytes =>
    if lengthValid attr.type attr.length.toNat then
      some (bytes.take attr.length.toNat ++ writePadding attr.length)
    else none
  | .errorCode eclass number reason =>
    some (writeUInt32 (eclass.toUInt32 <<< 8 ||| number.toUInt32) ++ reason ++
      writePadding attr.length)
  | .uint16List attrTypes =>
    some (attrTypes.flatMap writeUInt16 ++ writePadding attr.length)

theorem create_eq_none_iff {valueType : StunAttributeValueType} {type length : UInt16} :
    StunAttribute.create valueType type length = none ↔ valueType = .unknown := by
  cases valueType <;> simp [StunAttribute.create]

theorem create_valueType {valueType : StunAttributeValueType} {type length : UInt16}
    {blank : BlankAttribute} (h : StunAttribute.create valueType type length = some blank) :
    blank.valueType = valueType := by
  cases valueType <;> simp [StunAttribute.create] at h <;> rw [← h]

/-! ## Padding -/

theorem paddedLength_of_mod_pos {n : Nat} (h : n % 4 > 0) : paddedLength n = n + (4 - n % 4) :=
  if_pos (by omega)

theorem paddedLength_of_mod_eq {n : Nat} (h : n % 4 = 0) : paddedLength n = n := if_neg (by omega)

variable (n : Nat)

theorem paddedLength_eq : paddedLength n = (n + 3) / 4 * 4 := by
  unfold paddedLength
  split <;> omega

theorem paddedLength_mod : paddedLength n % 4 = 0 := by
  unfold paddedLength
  split <;> omega

theorem le_paddedLength : n ≤ paddedLength n := by
  unfold paddedLength
  split <;> omega

theorem paddedLength_le : paddedLength n ≤ n + 3 := by
  unfold paddedLength
  split <;> omega

variable {attr : StunAttribute} {c c' : ByteBufferReader} {owner : Option TransactionId}
  {addr : SocketAddress} {w : List UInt8}

theorem length_toNat (h : attr.value.size < 65536) : attr.length.toNat = attr.value.size := by
  unfold StunAttribute.length
  rw [UInt16.toNat_ofNat', Nat.mod_eq_of_lt h]

theorem writePadding_length (length : UInt16) :
    length.toNat + (writePadding length).length = paddedLength length.toNat := by
  unfold writePadding
  by_cases h : length.toNat % 4 > 0
  · rw [if_pos h, paddedLength_of_mod_pos h, length_replicate]
  · rw [if_neg h, paddedLength_of_mod_eq (by omega)]
    rfl

theorem consumePadding_reads (length : UInt16) :
    Reads (consumePadding length) (writePadding length) () := by
  unfold consumePadding writePadding
  by_cases h : length.toNat % 4 > 0
  · rw [if_pos h, if_pos h]
    exact (consume_reads (length_replicate ..)).ignore
  · rw [if_neg h, if_neg h]
    exact Reads.pure ()

/-- Reading a body of `length` bytes and then its padding, when the padding
may be missing. -/
def bodyConsumed (length remaining : Nat) : Nat :=
  if paddedLength length ≤ remaining then paddedLength length else length

theorem consumePadding_eq {length : UInt16} (h : length.toNat ≤ c.remaining) :
    consumePadding length (c.advance length.toNat) =
      (some (), c.advance (bodyConsumed length.toNat c.remaining)) := by
  have hadvance : (c.advance length.toNat).remaining =
      c.remaining - length.toNat := Cursor.advance_remaining _ _
  unfold consumePadding bodyConsumed
  by_cases hpad : length.toNat % 4 > 0
  · rw [if_pos hpad, paddedLength_of_mod_pos hpad, ignore_apply]
    unfold consume skipCells
    by_cases hroom : length.toNat + (4 - length.toNat % 4) ≤ c.remaining
    · rw [if_pos (by omega), if_pos hroom, Cursor.advance_advance]
    · rw [if_neg (by omega), if_neg hroom]
  · rw [if_neg hpad, paddedLength_of_mod_eq (by omega), ite_self]
    rfl

/-! ## Masked addresses -/

theorem IPAddress.attrSize_mod (ip : IPAddress) : ip.attrSize % 4 = 0 := by
  cases ip <;> simp [attrSize]

theorem IPAddress.xored_spec {ip : IPAddress} (h : ip.xored owner ≠ .unspec) :
    (ip.xored owner).xored owner = ip ∧ (ip.xored owner).attrSize = ip.attrSize := by
  rcases owner with _ | id
  · exact absurd rfl h
  · cases ip with
    | unspec => exact absurd rfl h
    | v4 addr => simp [xored, UInt32.xor_assoc, attrSize]
    | v6 addr =>
      by_cases hid : id.val.length = kStunTransactionIdLength
      · simp [xored, hid, UInt32.xor_assoc, attrSize]
      · simp [xored, hid] at h

theorem SocketAddress.xored_xored (h : (addr.xored owner).ip ≠ .unspec) :
    (addr.xored owner).xored owner = addr := by
  have hip := (xored_spec h).1
  simp only [SocketAddress.xored] at hip ⊢
  rw [hip, UInt16.xor_assoc, UInt16.xor_self, UInt16.xor_zero]

theorem SocketAddress.ip_ne_unspec (h : addr.write = some w) : addr.ip ≠ .unspec := by
  intro hip
  simp [write, hip] at h

theorem SocketAddress.write_length (h : addr.write = some w) : w.length = addr.ip.attrSize := by
  rcases addr with ⟨ip, port⟩
  cases ip with
  | unspec => cases h
  | v4 v4addr =>
    cases h
    simp [attrSize]
  | v6 v6addr =>
    cases h
    simp [attrSize, In6Addr.toBytes]

/-! ## Reading what was written -/

theorem wordAt_zero (v : UInt32) (rest : List UInt8) : wordAt (writeUInt32 v ++ rest) 0 = v := by
  rw [wordAt, drop_zero, writeUInt32, take_left' (bytesBE_length _ _),
    valueBE_bytesBE_of_lt v.toNat_lt, UInt32.ofNat_toNat]

theorem wordAt_succ (v : UInt32) (rest : List UInt8) (i : Nat) :
    wordAt (writeUInt32 v ++ rest) (i + 1) = wordAt rest i := by
  rw [wordAt, wordAt, Nat.mul_add, Nat.add_comm, ← drop_drop, drop_left' (writeUInt32_length v)]

theorem In6Addr.ofBytes_toBytes (addr : In6Addr) : In6Addr.ofBytes addr.toBytes = addr := by
  have hlast : wordAt (writeUInt32 addr.s3) 0 = addr.s3 := by
    have h := wordAt_zero addr.s3 []
    rwa [append_nil] at h
  simp [In6Addr.toBytes, In6Addr.ofBytes, wordAt_zero, wordAt_succ, hlast]

theorem readAddress_reads (h : addr.write = some w) :
    Reads (readAddress (UInt16.ofNat addr.ip.attrSize)) w addr := by
  rcases addr with ⟨ip, port⟩
  cases ip with
  | unspec => cases h
  | v4 v4addr =>
    cases h
    apply (readUInt8_reads 0).bind
    apply (readUInt8_reads 1).bind
    apply (readUInt16_reads port).bind
    exact Reads.guard rfl ((readUInt32_reads v4addr).map _)
  | v6 v6addr =>
    cases h
    apply (readUInt8_reads 0).bind
    apply (readUInt8_reads 2).bind
    apply (readUInt16_reads port).bind
    have hbytes : Reads (readBytes 16) v6addr.toBytes v6addr.toBytes :=
      readBytes_reads (by simp [In6Addr.toBytes])
    have hread := hbytes.map fun bytes =>
      (⟨.v6 (In6Addr.ofBytes bytes), port⟩ : SocketAddress)
    rw [In6Addr.ofBytes_toBytes] at hread
    exact Reads.guard rfl hread

theorem readUInt16s_reads (attrTypes : List UInt16) :
    Reads (readUInt16s attrTypes.length) (attrTypes.flatMap writeUInt16)
      attrTypes := by
  induction attrTypes with
  | nil => exact Reads.pure []
  | cons attr rest ih => exact (readUInt16_reads attr).bind (ih.map _)

theorem flatMap_writeUInt16_length (attrTypes : List UInt16) :
    (attrTypes.flatMap writeUInt16).length = attrTypes.length * 2 := by
  induction attrTypes with
  | nil => rfl
  | cons attr rest ih =>
    rw [flatMap_cons, length_append, writeUInt16_length, length_cons]
    omega

theorem errorCode_unpack {eclass : UInt8} (number : UInt8) (h : eclass ≤ 7) :
    (((eclass.toUInt32 <<< 8 ||| number.toUInt32) >>> 8) &&& 0x7).toUInt8 = eclass ∧
      ((eclass.toUInt32 <<< 8 ||| number.toUInt32) &&& 0xff).toUInt8 = number := by
  have hall : ∀ c < 8, ∀ bits : BitVec 8,
      ((((UInt8.ofNat c).toUInt32 <<< 8 ||| (UInt8.ofBitVec bits).toUInt32) >>> 8) &&&
          0x7).toUInt8 = UInt8.ofNat c ∧
        (((UInt8.ofNat c).toUInt32 <<< 8 ||| (UInt8.ofBitVec bits).toUInt32) &&& 0xff).toUInt8 =
          UInt8.ofBitVec bits := by
    decide +kernel
  have hunpack := hall eclass.toNat (Nat.lt_succ_of_le h) number.toBitVec
  rwa [UInt8.ofNat_toNat] at hunpack

theorem errorClass_le_seven (word : UInt32) : (word &&& 0x7).toUInt8 ≤ 7 := by
  have hseven : word.toNat &&& 7 = word.toNat % 8 := Nat.and_two_pow_sub_one_eq_mod _ 3
  rw [UInt8.le_iff_toNat_le, UInt32.toNat_toUInt8]
  simp
  omega

theorem append_writePadding (w : List UInt8) (h : attr.value.size % 4 = 0) :
    w = w ++ writePadding attr.length := by
  have hlen : attr.length.toNat % 4 = 0 := by
    rw [StunAttribute.length, UInt16.toNat_ofNat']
    omega
  rw [writePadding, if_neg (by omega), append_nil]

theorem StunAttribute.write_body (h : attr.write owner = some w) :
    ∃ body, w = body ++ writePadding attr.length ∧
      (attr.value.valueType ≠ .byteString ∧ body.length = attr.value.size ∨
        ∃ bytes, attr.value = .byteString bytes ∧ body = bytes.take attr.length.toNat) := by
  rcases attr with ⟨type, value⟩
  cases value with
  | address addr =>
    refine ⟨w, append_writePadding w (attrSize_mod _), .inl ⟨nofun, ?_⟩⟩
    exact write_length h
  | xorAddress addr =>
    refine ⟨w, append_writePadding w (attrSize_mod _), .inl ⟨nofun, ?_⟩⟩
    rw [write_length h]
    exact (xored_spec (ip_ne_unspec h)).2
  | uint32 bits =>
    cases h
    exact ⟨_, append_writePadding _ (show 4 % 4 = 0 by decide),
      .inl ⟨nofun, writeUInt32_length bits⟩⟩
  | uint64 bits =>
    cases h
    exact ⟨_, append_writePadding _ (show 8 % 4 = 0 by decide),
      .inl ⟨nofun, writeUInt64_length bits⟩⟩
  | byteString bytes =>
    simp only [StunAttribute.write] at h
    split at h
    · cases h
      exact ⟨_, rfl, .inr ⟨bytes, rfl, rfl⟩⟩
    · cases h
  | errorCode eclass number reason =>
    cases h
    refine ⟨_, rfl, .inl ⟨nofun, ?_⟩⟩
    rw [length_append]
    rfl
  | uint16List attrTypes =>
    cases h
    exact ⟨_, rfl, .inl ⟨nofun, flatMap_writeUInt16_length attrTypes⟩⟩

theorem StunAttribute.write_length (h : attr.write owner = some w)
    (hsize : attr.value.size < 65536) :
    w.length = paddedLength attr.value.size := by
  have hlen := length_toNat hsize
  obtain ⟨body, rfl, hbody⟩ := StunAttribute.write_body h
  have hlength : body.length = attr.length.toNat := by
    rcases hbody with ⟨-, hsame⟩ | ⟨bytes, hvalue, rfl⟩
    · rw [hsame, hlen]
    · rw [length_take, hlen, hvalue]
      exact Nat.min_self _
  rw [length_append, hlength, writePadding_length, hlen]

/-- What the reader of an error code can represent. -/
def StunAttributeValue.ErrorClassOk : StunAttributeValue → Prop
  | .errorCode eclass _ _ => eclass ≤ 7
  | _ => True

/-- An address is there, and a XOR address can be masked for its owner. -/
def StunAttributeValue.Specified (owner : Option TransactionId) :
    StunAttributeValue → Prop
  | .address addr => addr.ip ≠ .unspec
  | .xorAddress addr => addr.ip.xored owner ≠ .unspec
  | _ => True

theorem SocketAddress.write_isSome (h : addr.ip ≠ .unspec) : ∃ w, addr.write = some w := by
  rcases addr with ⟨ip, port⟩
  cases ip with
  | unspec => exact absurd rfl h
  | v4 addr | v6 addr => exact ⟨_, rfl⟩

theorem StunAttribute.write_isSome (hspec : attr.value.Specified owner)
    (hvalid : lengthValid attr.type attr.length.toNat) :
    ∃ w, attr.write owner = some w := by
  rcases attr with ⟨type, value⟩
  cases value with
  | address addr => exact write_isSome hspec
  | xorAddress addr =>
    have hip : (addr.xored owner).ip ≠ .unspec := hspec
    exact write_isSome hip
  | byteString bytes => exact ⟨_, if_pos hvalid⟩
  | _ => exact ⟨_, rfl⟩

theorem StunAttribute.specified_of_write (h : attr.write owner = some w) :
    attr.value.Specified owner := by
  rcases attr with ⟨type, value⟩
  cases value with
  | address addr | xorAddress addr => exact ip_ne_unspec h
  | _ => trivial

theorem StunAttribute.read_write (h : attr.write owner = some w) (hsize : attr.value.size < 65536)
    (hclass : attr.value.ErrorClassOk) :
    ∃ blank, StunAttribute.create attr.value.valueType attr.type attr.length =
        some blank ∧ Reads (blank.read owner) w attr.value := by
  have hlen := length_toNat hsize
  have hpadding := consumePadding_reads attr.length
  rcases attr with ⟨type, value⟩
  cases value with
  | address addr => exact ⟨_, rfl, (readAddress_reads h).map _⟩
  | xorAddress addr =>
    have hip := ip_ne_unspec h
    have hread := (readAddress_reads h).map fun a =>
      StunAttributeValue.xorAddress (a.xored owner)
    rw [xored_xored hip] at hread
    simp only [SocketAddress.xored, (xored_spec hip).2] at hread
    exact ⟨_, rfl, hread⟩
  | uint32 bits =>
    cases h
    exact ⟨_, rfl, Reads.guard rfl ((readUInt32_reads bits).map _)⟩
  | uint64 bits =>
    cases h
    exact ⟨_, rfl, Reads.guard rfl ((readUInt64_reads bits).map _)⟩
  | byteString bytes =>
    simp only [StunAttribute.write] at h
    split at h
    · cases h
      simp only [StunAttributeValue.size] at hlen
      refine ⟨_, rfl, ?_⟩
      simp only [hlen, take_length]
      exact (readBytes_reads hlen.symm).bind (hpadding.map _)
    · cases h
  | errorCode eclass number reason =>
    cases h
    simp only [StunAttributeValue.size] at hlen
    refine ⟨_, rfl, Reads.guard (by simp only; omega) ?_⟩
    rw [append_assoc]
    apply (readUInt32_reads _).bind
    obtain ⟨hc, hn⟩ := errorCode_unpack number hclass
    simp only [hc, hn]
    exact (readBytes_reads (by omega)).bind (hpadding.map _)
  | uint16List attrTypes =>
    cases h
    simp only [StunAttributeValue.size] at hlen
    refine ⟨_, rfl, Reads.guard (by simp only; omega) ?_⟩
    have hhalf : (StunAttribute.length ⟨type, .uint16List attrTypes⟩).toNat / 2 =
        attrTypes.length := by
      omega
    simp only [hhalf]
    exact (readUInt16s_reads attrTypes).bind (hpadding.map _)

/-! ## What a successful read consumed -/

theorem bodyConsumed_of_mod_eq {n remaining : Nat} (h : n % 4 = 0) :
    bodyConsumed n remaining = n := by
  rw [bodyConsumed, paddedLength_of_mod_eq h, ite_self]

private theorem advance_eq {c₁ c₂ : ByteBufferReader} {a b : Nat}
    (h₁ : a ≤ c.remaining ∧ c₁ = c.advance a) (h₂ : b ≤ c₁.remaining ∧ c₂ = c₁.advance b) :
    a + b ≤ c.remaining ∧ c₂ = c.advance (a + b) := by
  obtain ⟨ha, rfl⟩ := h₁
  obtain ⟨hb, rfl⟩ := h₂
  rw [Cursor.advance_remaining] at hb
  exact ⟨by omega, Cursor.advance_advance _ _ _⟩

private theorem readNumber_consumes {α : Type} {len : Nat} {ofNat : Nat → α} {v : α}
    (h : readNumber len ofNat c = (some v, c')) :
    len ≤ c.remaining ∧ c' = c.advance len := by
  obtain ⟨hle, -, hc'⟩ := readNumber_eq_some_iff.1 h
  exact ⟨hle, hc'⟩

theorem readAddress_consumes {length : UInt16} (h : readAddress length c = (some addr, c')) :
    (length.toNat ≤ c.remaining ∧ c' = c.advance length.toNat) ∧
      addr.ip.attrSize = length.toNat ∧ addr.ip ≠ .unspec := by
  obtain ⟨dummy, c₁, h₁, k₁⟩ := bind_eq_some_iff.1 h
  obtain ⟨family, c₂, h₂, k₂⟩ := bind_eq_some_iff.1 k₁
  obtain ⟨port, c₃, h₃, k₃⟩ := bind_eq_some_iff.1 k₂
  have hhead := advance_eq (advance_eq (readNumber_consumes h₁)
    (readNumber_consumes h₂)) (readNumber_consumes h₃)
  split at k₃
  · obtain ⟨rfl, k₄⟩ := guard_bind_eq_some_iff.1 k₃
    obtain ⟨v4addr, c₄, h₄, k₅⟩ := bind_eq_some_iff.1 k₄
    cases k₅
    exact ⟨advance_eq hhead (readNumber_consumes h₄), rfl, IPAddress.noConfusion⟩
  · split at k₃
    · obtain ⟨rfl, k₄⟩ := guard_bind_eq_some_iff.1 k₃
      obtain ⟨v6addr, c₄, h₄, k₅⟩ := bind_eq_some_iff.1 k₄
      obtain ⟨hle, -, hc₄⟩ := takeCells_eq_some_iff.1 h₄
      cases k₅
      exact ⟨advance_eq hhead ⟨hle, hc₄⟩, rfl, IPAddress.noConfusion⟩
    · cases k₃

theorem readUInt16s_consumes {n : Nat} {attrTypes : List UInt16}
    (h : readUInt16s n c = (some attrTypes, c')) :
    (n * 2 ≤ c.remaining ∧ c' = c.advance (n * 2)) ∧ attrTypes.length = n := by
  induction n generalizing c c' attrTypes with
  | zero =>
    cases h
    simp
  | succ n ih =>
    obtain ⟨attr, c₁, h₁, k₁⟩ := bind_eq_some_iff.1 h
    obtain ⟨rest, c₂, h₂, k₂⟩ := bind_eq_some_iff.1 k₁
    obtain ⟨hrest, hlength⟩ := ih h₂
    have hboth := advance_eq (readNumber_consumes h₁) hrest
    cases k₂
    rw [show (n + 1) * 2 = 2 + n * 2 by omega]
    exact ⟨hboth, by rw [length_cons, hlength]⟩

private theorem padding_consumes {length : UInt16} {c₁ c₂ : ByteBufferReader} {u : Unit}
    (h : length.toNat ≤ c.remaining ∧ c₁ = c.advance length.toNat)
    (hpad : consumePadding length c₁ = (some u, c₂)) :
    length.toNat ≤ c.remaining ∧ c₂ = c.advance (bodyConsumed length.toNat c.remaining) := by
  obtain ⟨hle, rfl⟩ := h
  rw [consumePadding_eq hle] at hpad
  cases hpad
  exact ⟨hle, rfl⟩

/-- The value a reader produced fits the object it was created for. -/
def StunAttributeValue.Fits (value : StunAttributeValue)
    (blank : BlankAttribute) (owner : Option TransactionId) : Prop :=
  value.valueType = blank.valueType ∧ value.ErrorClassOk ∧
    ((value.size = blank.length.toNat ∧ value.Specified owner) ∨
      ∃ port, value = .xorAddress ⟨.unspec, port⟩)

theorem BlankAttribute.read_consumes {blank : BlankAttribute} {value : StunAttributeValue}
    (h : blank.read owner c = (some value, c')) :
    (blank.length.toNat ≤ c.remaining ∧
      c' = c.advance (bodyConsumed blank.length.toNat c.remaining)) ∧
      value.Fits blank owner := by
  rcases blank with ⟨valueType, type, length⟩
  cases valueType with
  | unknown => cases h
  | address =>
    obtain ⟨addr, c₁, h₁, k₁⟩ := bind_eq_some_iff.1 h
    obtain ⟨hconsumes, hsize, hip⟩ := readAddress_consumes h₁
    cases k₁
    rw [bodyConsumed_of_mod_eq (hsize ▸ attrSize_mod _)]
    exact ⟨hconsumes, rfl, trivial, .inl ⟨hsize, hip⟩⟩
  | xorAddress =>
    obtain ⟨addr, c₁, h₁, k₁⟩ := bind_eq_some_iff.1 h
    obtain ⟨hconsumes, hsize, hip⟩ := readAddress_consumes h₁
    cases k₁
    rw [bodyConsumed_of_mod_eq (hsize ▸ attrSize_mod _)]
    refine ⟨hconsumes, rfl, trivial, ?_⟩
    by_cases hxored : addr.ip.xored owner = .unspec
    · exact .inr ⟨addr.port ^^^ (kStunMagicCookie >>> 16).toUInt16,
        by rw [SocketAddress.xored, hxored]⟩
    · refine .inl ⟨(xored_spec hxored).2.trans hsize, ?_⟩
      simp only [StunAttributeValue.Specified, SocketAddress.xored]
      rwa [(xored_spec hxored).1]
  | uint32 | uint64 =>
    obtain ⟨rfl, k₁⟩ := guard_bind_eq_some_iff.1 h
    obtain ⟨bits, c₁, h₁, k₂⟩ := bind_eq_some_iff.1 k₁
    have hconsumes := readNumber_consumes h₁
    cases k₂
    rw [bodyConsumed_of_mod_eq (by dsimp only; decide)]
    exact ⟨hconsumes, rfl, trivial, .inl ⟨rfl, trivial⟩⟩
  | byteString =>
    obtain ⟨bytes, c₁, h₁, k₁⟩ := bind_eq_some_iff.1 h
    obtain ⟨u, c₂, h₂, k₂⟩ := bind_eq_some_iff.1 k₁
    obtain ⟨hle, hbytes, hc₁⟩ := takeCells_eq_some_iff.1 h₁
    have hconsumes := padding_consumes ⟨hle, hc₁⟩ h₂
    cases k₂
    refine ⟨hconsumes, rfl, trivial, .inl ⟨?_, trivial⟩⟩
    rw [StunAttributeValue.size, hbytes, length_take, Cursor.rest_length, Nat.min_eq_left hle]
  | errorCode =>
    obtain ⟨hmin, k₁⟩ := guard_bind_eq_some_iff.1 h
    obtain ⟨val, c₁, h₁, k₂⟩ := bind_eq_some_iff.1 k₁
    obtain ⟨reason, c₂, h₂, k₃⟩ := bind_eq_some_iff.1 k₂
    obtain ⟨u, c₃, h₃, k₄⟩ := bind_eq_some_iff.1 k₃
    obtain ⟨hle, hreason, hc₂⟩ := takeCells_eq_some_iff.1 h₂
    have hbody := advance_eq (readNumber_consumes h₁) ⟨hle, hc₂⟩
    rw [Nat.add_sub_cancel' hmin] at hbody
    have hconsumes := padding_consumes hbody h₃
    cases k₄
    refine ⟨hconsumes, rfl, ?_, .inl ⟨?_, trivial⟩⟩
    · exact errorClass_le_seven _
    · rw [StunAttributeValue.size, hreason, length_take, Cursor.rest_length, Nat.min_eq_left hle]
      exact Nat.add_sub_cancel' hmin
  | uint16List =>
    obtain ⟨heven, k₁⟩ := guard_bind_eq_some_iff.1 h
    obtain ⟨attrTypes, c₁, h₁, k₂⟩ := bind_eq_some_iff.1 k₁
    obtain ⟨u, c₂, h₂, k₃⟩ := bind_eq_some_iff.1 k₂
    obtain ⟨hbody, hlength⟩ := readUInt16s_consumes h₁
    have hdouble : length.toNat / 2 * 2 = length.toNat := by
      simp only at heven
      omega
    rw [hdouble] at hbody
    have hconsumes := padding_consumes hbody h₂
    cases k₃
    refine ⟨hconsumes, rfl, trivial, .inl ⟨?_, trivial⟩⟩
    rw [StunAttributeValue.size, hlength, hdouble]

end WebrtcCore.Ports.Stun
