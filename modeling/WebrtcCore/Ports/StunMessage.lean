import WebrtcCore.Ports.StunAttribute

/-!
# STUN messages (`api/transport/stun.{h,cc}`)

The state of a `StunMessage` and the operations that read, write and edit it.  The message classes
of the source share everything but the virtual `GetAttributeValueType`, which `MessageClass`
selects.

`Read` threads the message through its failures, because a read that returns `false` has already
replaced some of it.  Its loop also returns one `AttributeEntry` for each attribute header, which
the source does not keep, to state at which offsets the loop reads.
-/

namespace WebrtcCore.Ports.Stun

open Verified Bytes Cursor Ports.ByteBuffer Attempt

/-! ## Attribute types -/

def stunAttrMappedAddress : UInt16 := 0x0001
def stunAttrErrorCode : UInt16 := 0x0009
def stunAttrUnknownAttributes : UInt16 := 0x000a
def stunAttrXorMappedAddress : UInt16 := 0x0020
def stunAttrAlternateServer : UInt16 := 0x8023
def stunAttrFingerprint : UInt16 := 0x8028
def stunAttrRetransmitCount : UInt16 := 0xFF00

def stunAttrLifetime : UInt16 := 0x000d
def stunAttrMagicCookie : UInt16 := 0x000f
def stunAttrBandwidth : UInt16 := 0x0010
def stunAttrDestinationAddress : UInt16 := 0x0011
def stunAttrSourceAddress2 : UInt16 := 0x0012
def stunAttrData : UInt16 := 0x0013
def stunAttrOptions : UInt16 := 0x8001

def stunAttrChannelNumber : UInt16 := 0x000C
def stunAttrTurnLifetime : UInt16 := 0x000d
def stunAttrXorPeerAddress : UInt16 := 0x0012
def stunAttrXorRelayedAddress : UInt16 := 0x0016
def stunAttrEvenPort : UInt16 := 0x0018
def stunAttrRequestedTransport : UInt16 := 0x0019
def stunAttrDontFragment : UInt16 := 0x001A
def stunAttrReservationToken : UInt16 := 0x0022

def stunAttrPriority : UInt16 := 0x0024
def stunAttrUseCandidate : UInt16 := 0x0025
def stunAttrIceControlled : UInt16 := 0x8029
def stunAttrIceControlling : UInt16 := 0x802A
def stunAttrNomination : UInt16 := 0xC001
def stunAttrGoogNetworkInfo : UInt16 := 0xC057
def stunAttrGoogLastIceCheckReceived : UInt16 := 0xC058
def stunAttrGoogMiscInfo : UInt16 := 0xC059
def stunAttrGoogMessageIntegrity32 : UInt16 := 0xC060

/-- The four classes that override `GetAttributeValueType`. -/
inductive MessageClass
  | stunMessage
  | turnMessage
  | iceMessage
  | relayMessage
  deriving DecidableEq, Repr

/-- The cases of `StunMessage::GetAttributeValueType`. -/
def stunValueTypes : List (UInt16 × StunAttributeValueType) :=
  [(stunAttrMappedAddress, .address),
   (stunAttrUsername, .byteString),
   (stunAttrMessageIntegrity, .byteString),
   (stunAttrErrorCode, .errorCode),
   (stunAttrUnknownAttributes, .uint16List),
   (stunAttrRealm, .byteString),
   (stunAttrNonce, .byteString),
   (stunAttrXorMappedAddress, .xorAddress),
   (stunAttrSoftware, .byteString),
   (stunAttrAlternateServer, .address),
   (stunAttrFingerprint, .uint32),
   (stunAttrOrigin, .byteString),
   (stunAttrRetransmitCount, .uint32),
   (stunAttrGoogLastIceCheckReceived, .byteString),
   (stunAttrGoogMiscInfo, .uint16List)]

/-- The cases each class adds before it falls back on `StunMessage`. -/
def MessageClass.ownValueTypes :
    MessageClass → List (UInt16 × StunAttributeValueType)
  | .stunMessage => []
  | .relayMessage =>
    [(stunAttrLifetime, .uint32),
     (stunAttrMagicCookie, .byteString),
     (stunAttrBandwidth, .uint32),
     (stunAttrDestinationAddress, .address),
     (stunAttrSourceAddress2, .address),
     (stunAttrData, .byteString),
     (stunAttrOptions, .uint32)]
  | .turnMessage =>
    [(stunAttrChannelNumber, .uint32),
     (stunAttrTurnLifetime, .uint32),
     (stunAttrXorPeerAddress, .xorAddress),
     (stunAttrData, .byteString),
     (stunAttrXorRelayedAddress, .xorAddress),
     (stunAttrEvenPort, .byteString),
     (stunAttrRequestedTransport, .uint32),
     (stunAttrDontFragment, .byteString),
     (stunAttrReservationToken, .byteString)]
  | .iceMessage =>
    [(stunAttrPriority, .uint32),
     (stunAttrGoogNetworkInfo, .uint32),
     (stunAttrNomination, .uint32),
     (stunAttrUseCandidate, .byteString),
     (stunAttrIceControlled, .uint64),
     (stunAttrIceControlling, .uint64)]

def MessageClass.getAttributeValueType (messageClass : MessageClass)
    (type : UInt16) : StunAttributeValueType :=
  match messageClass.ownValueTypes.lookup type with
  | some valueType => valueType
  | none => (stunValueTypes.lookup type).getD .unknown

def designatedExpertRange (attrType : UInt16) : Bool :=
  (0x4000 ≤ attrType && attrType ≤ 0x7FFF) || 0xC000 ≤ attrType

/-- The value type an attribute of this type is read with, `unknown` if it is
skipped. -/
def MessageClass.readValueType (messageClass : MessageClass) (type : UInt16) :
    StunAttributeValueType :=
  if messageClass.getAttributeValueType type ≠ .unknown then
    messageClass.getAttributeValueType type
  else if designatedExpertRange type then .byteString
  else .unknown

def MessageClass.createAttribute (messageClass : MessageClass)
    (type length : UInt16) : Option BlankAttribute :=
  StunAttribute.create (messageClass.readValueType type) type length

/-! ## Messages -/

inductive IntegrityStatus
  | notSet
  | noIntegrity
  | integrityOk
  | integrityBad
  deriving DecidableEq, Repr

/-- `class StunMessage`.  The constructor of the source leaves
`reduced_transaction_id_` uninitialised, which is `none` here. -/
structure StunMessage where
  messageClass : MessageClass
  type : UInt16
  length : UInt16
  transactionId : TransactionId
  reducedTransactionId : Option UInt32
  stunMagicCookie : UInt32
  buffer : List UInt8
  integrity : IntegrityStatus
  password : List UInt8
  attrs : List StunAttribute
  deriving DecidableEq

/-- `EMPTY_TRANSACTION_ID`, sixteen characters `'0'`. -/
def emptyTransactionId : TransactionId := ⟨List.replicate 16 0x30, by decide⟩

def reduceTransactionId (id : TransactionId) : UInt32 :=
  (List.range (id.val.length / 4)).foldl (fun acc i => acc ^^^ wordAt id.val i) 0

namespace StunMessage

/-- The constructors, and `CreateNew`. -/
def createNew (messageClass : MessageClass) : StunMessage where
  messageClass := messageClass
  type := 0
  length := 0
  transactionId := emptyTransactionId
  reducedTransactionId := none
  stunMagicCookie := kStunMagicCookie
  buffer := []
  integrity := .notSet
  password := []
  attrs := []

def isLegacy (m : StunMessage) : Bool := m.transactionId.val.length = kStunLegacyTransactionIdLength

def setType (m : StunMessage) (type : UInt16) : StunMessage :=
  { m with type := type }

/-- `SetTransactionID` with an id it accepts. -/
def setTransactionID (m : StunMessage) (id : TransactionId) : StunMessage :=
  { m with
    transactionId := id
    reducedTransactionId := some (reduceTransactionId id) }

/-- What `AddAttribute` adds to `length_`, and `RemoveAttribute` takes off. -/
def lengthStep (attr : StunAttribute) : UInt16 := UInt16.ofNat (paddedLength attr.length.toNat + 4)

def addAttribute (m : StunMessage) (attr : StunAttribute) : StunMessage :=
  { m with
    length := m.length + lengthStep attr
    attrs := m.attrs ++ [attr] }

/-- Take the last attribute of a type out of a list. -/
def removeLast (type : UInt16) :
    List StunAttribute → Option (StunAttribute × List StunAttribute)
  | [] => none
  | attr :: attrs =>
    match removeLast type attrs with
    | some (removed, rest) => some (removed, attr :: rest)
    | none => if attr.type = type then some (attr, attrs) else none

def removeAttribute (m : StunMessage) (type : UInt16) :
    Option StunAttribute × StunMessage :=
  match removeLast type m.attrs with
  | some (removed, rest) =>
    (some removed, { m with length := m.length - lengthStep removed, attrs := rest })
  | none => (none, m)

def clearAttributes (m : StunMessage) : StunMessage :=
  { m with length := 0, attrs := [] }

/-- `GetAttribute`: the first attribute of the type. -/
def getAttribute (m : StunMessage) (type : UInt16) : Option StunAttribute :=
  m.attrs.find? fun attr => attr.type = type

end StunMessage

/-! ## `Write` -/

/-- The loop of `Write`. -/
def writeAttributes (owner : TransactionId) :
    List StunAttribute → Option (List UInt8)
  | [] => some []
  | attr :: attrs => do
      let body ← attr.write (some owner)
      let rest ← writeAttributes owner attrs
      return writeUInt16 attr.type ++ writeUInt16 attr.length ++ body ++ rest

variable {owner : TransactionId} {c c' : ByteBufferReader} {messageClass : MessageClass}
  {entries : List AttributeEntry} {m m' : StunMessage} {bytes : List UInt8}

theorem writeAttributes_cons_eq_some_iff {attr : StunAttribute} {attrs : List StunAttribute}
    {w : List UInt8} :
    writeAttributes owner (attr :: attrs) = some w ↔
      ∃ body rest, attr.write (some owner) = some body ∧ writeAttributes owner attrs = some rest ∧
        w = writeUInt16 attr.type ++ writeUInt16 attr.length ++ body ++ rest := by
  simp only [writeAttributes, Option.bind_eq_bind, Option.bind_eq_some_iff]
  constructor
  · rintro ⟨body, hbody, rest, hrest, hw⟩
    exact ⟨body, rest, hbody, hrest, (Option.some.inj hw).symm⟩
  · rintro ⟨body, rest, hbody, hrest, rfl⟩
    exact ⟨body, hbody, rest, hrest, rfl⟩

theorem drop_attribute (type length : UInt16) (body rest : List UInt8) :
    (writeUInt16 type ++ (writeUInt16 length ++ (body ++ rest))).drop (4 + body.length) =
      rest := by
  rw [show 4 + body.length = 2 + (2 + body.length) by omega, ← List.drop_drop,
    List.drop_left' (writeUInt16_length _), ← List.drop_drop,
    List.drop_left' (writeUInt16_length _), List.drop_left]

namespace StunMessage

/-- The part of `Write` before its loop. -/
def writeHeader (m : StunMessage) : List UInt8 :=
  writeUInt16 m.type ++ writeUInt16 m.length ++
    (if m.isLegacy then [] else writeUInt32 m.stunMagicCookie) ++
    m.transactionId.val

def write (m : StunMessage) : Option (List UInt8) := do
  let body ← writeAttributes m.transactionId m.attrs
  return m.writeHeader ++ body

end StunMessage

/-! ## `Read` -/

/-- What the loop of `Read` sees at one attribute: the bytes from `offset` to
`stop` are the ones it read or passed over. -/
structure AttributeEntry where
  offset : Nat
  stop : Nat
  type : UInt16
  length : UInt16
  attr : Option StunAttribute
  deriving DecidableEq, Repr

/-- The bytes `Read` passes over for an attribute it skips.  The padded length
is computed in the 16-bit `attr_length` itself. -/
def skippedLength (attrLength : UInt16) : UInt16 :=
  if attrLength.toNat % 4 ≠ 0 then
    attrLength + UInt16.ofNat (4 - attrLength.toNat % 4)
  else attrLength

/-- The body of the loop of `Read`, but for the `push_back`. -/
def readAttribute (messageClass : MessageClass) (owner : TransactionId) :
    Attempt ByteBufferReader AttributeEntry := do
  let buf ← Attempt.get
  let attrType ← readUInt16
  let attrLength ← readUInt16
  match messageClass.createAttribute attrType attrLength with
  | none =>
    consume (skippedLength attrLength).toNat
    let after ← Attempt.get
    return ⟨buf.pos, after.pos, attrType, attrLength, none⟩
  | some blank =>
    let value ← blank.read (some owner)
    let after ← Attempt.get
    return ⟨buf.pos, after.pos, attrType, attrLength, some ⟨attrType, value⟩⟩

/-- The loop of `Read`.  Every round consumes at least a header, so the fuel
`Read` passes never runs out (`readAttributes_complete`). -/
def readAttributes (rest : Nat) :
    Nat → Attempt (StunMessage × ByteBufferReader) (List AttributeEntry)
  | 0 => Attempt.fail
  | fuel + 1 => do
      let s ← Attempt.get
      if rest < s.2.remaining then
        let entry ← Attempt.onSnd
          (readAttribute s.1.messageClass s.1.transactionId)
        Attempt.modify fun s =>
          ({ s.1 with attrs := s.1.attrs ++ entry.attr.toList }, s.2)
        let entries ← readAttributes rest fuel
        return entry :: entries
      else return []

/-- A transaction id from its bytes; the source checks the length with
`RTC_DCHECK`. -/
def TransactionId.check {σ : Type} (bytes : List UInt8) :
    Attempt σ TransactionId :=
  if h : isValidTransactionId bytes then pure ⟨bytes, h⟩ else Attempt.fail

/-- `Read` up to the check of the length field. -/
def StunMessage.readHeader : Attempt (StunMessage × ByteBufferReader) Unit := do
  Attempt.modify fun s => ({ s.1 with buffer := s.2.rest }, s.2)
  let type ← Attempt.onSnd readUInt16
  Attempt.modify fun s => (s.1.setType type, s.2)
  Attempt.guard (type &&& 0x8000 = 0)
  let length ← Attempt.onSnd readUInt16
  Attempt.modify fun s => ({ s.1 with length := length }, s.2)
  let magicCookie ← Attempt.onSnd (readString 4)
  let idBytes ← Attempt.onSnd (readString kStunTransactionIdLength)
  -- Without the cookie the peer follows RFC 3489, and the id has 16 bytes.
  let transactionId ← TransactionId.check
    (if wordAt magicCookie 0 ≠ kStunMagicCookie then magicCookie ++ idBytes
      else idBytes)
  Attempt.modify fun s => (s.1.setTransactionID transactionId, s.2)

/-- `StunMessage::Read`. -/
def StunMessage.readM :
    Attempt (StunMessage × ByteBufferReader) (List AttributeEntry) := do
  StunMessage.readHeader
  let s ← Attempt.get
  Attempt.guard (s.1.length.toNat = s.2.remaining)
  Attempt.modify fun s => ({ s.1 with attrs := [] }, s.2)
  readAttributes (s.2.remaining - s.1.length.toNat) (s.2.remaining + 1)

/-- `Read` of a buffer: what its loop saw if it returned `true`, and the
message it leaves. -/
def StunMessage.read (m : StunMessage) (bytes : List UInt8) :
    Option (List AttributeEntry) × StunMessage :=
  let r := StunMessage.readM (m, Cursor.start bytes)
  (r.1, r.2.1)

/-! ## The loop of `Read` -/

/-- `rtc::GetBE16` at an offset of a buffer. -/
def getBE16 (data : List UInt8) (offset : Nat) : UInt16 :=
  UInt16.ofNat (valueBE ((data.drop offset).take 2))

theorem readUInt16_eq_some_iff {v : UInt16} :
    readUInt16 c = (some v, c') ↔ 2 ≤ c.remaining ∧ v = getBE16 c.cells c.pos ∧ c' = c.advance 2 :=
  readNumber_eq_some_iff

/-- How far `readAttribute` moves, and what it stores. -/
inductive EntryShape (messageClass : MessageClass) (owner : TransactionId)
    (remaining : Nat) (entry : AttributeEntry) : Nat → Prop
  | skipped
      (hcreate : messageClass.createAttribute entry.type entry.length = none)
      (hattr : entry.attr = none)
      (hfits : (skippedLength entry.length).toNat ≤ remaining) :
      EntryShape messageClass owner remaining entry (skippedLength entry.length).toNat
  | stored (blank : BlankAttribute) (value : StunAttributeValue)
      (hcreate : messageClass.createAttribute entry.type entry.length = some blank)
      (hattr : entry.attr = some ⟨entry.type, value⟩)
      (hfits : blank.length.toNat ≤ remaining)
      (hvalue : value.Fits blank (some owner)) :
      EntryShape messageClass owner remaining entry
        (bodyConsumed blank.length.toNat remaining)

theorem readAttribute_shape {entry : AttributeEntry}
    (h : readAttribute messageClass owner c = (some entry, c')) :
    4 ≤ c.remaining ∧ entry.offset = c.pos ∧ entry.stop = c'.pos ∧
      entry.type = getBE16 c.cells c.pos ∧
      entry.length = getBE16 c.cells (c.pos + 2) ∧
      ∃ k, EntryShape messageClass owner (c.remaining - 4) entry k ∧ c' = c.advance (4 + k) := by
  obtain ⟨buf, c₀, h₀, k₀⟩ := bind_eq_some_iff.1 h
  obtain ⟨attrType, c₁, h₁, k₁⟩ := bind_eq_some_iff.1 k₀
  obtain ⟨attrLength, c₂, h₂, k₂⟩ := bind_eq_some_iff.1 k₁
  cases h₀
  obtain ⟨hle₁, htype, rfl⟩ := readUInt16_eq_some_iff.1 h₁
  obtain ⟨hle₂, hlength, rfl⟩ := readUInt16_eq_some_iff.1 h₂
  rw [advance_remaining] at hle₂
  rw [advance_pos hle₁] at hlength
  have hrem : (c.advance (2 + 2)).remaining = c.remaining - 4 := advance_remaining _ _
  rw [advance_advance] at k₂
  cases hcreate : messageClass.createAttribute attrType attrLength with
  | none =>
    rw [hcreate] at k₂
    obtain ⟨u, c₃, h₃, k₃⟩ := bind_eq_some_iff.1 k₂
    obtain ⟨after, c₄, h₄, k₄⟩ := bind_eq_some_iff.1 k₃
    obtain ⟨hle₃, rfl⟩ := skipCells_eq_some_iff.1 h₃
    cases h₄
    cases k₄
    rw [hrem] at hle₃
    exact ⟨by omega, rfl, rfl, htype, hlength, _, .skipped hcreate rfl hle₃, advance_advance _ _ _⟩
  | some blank =>
    rw [hcreate] at k₂
    obtain ⟨value, c₃, h₃, k₃⟩ := bind_eq_some_iff.1 k₂
    obtain ⟨after, c₄, h₄, k₄⟩ := bind_eq_some_iff.1 k₃
    obtain ⟨⟨hle₃, rfl⟩, hfits⟩ := BlankAttribute.read_consumes h₃
    cases h₄
    cases k₄
    rw [hrem] at hle₃ ⊢
    exact ⟨by omega, rfl, rfl, htype, hlength, _,
      .stored blank value hcreate rfl hle₃ hfits, advance_advance _ _ _⟩

/-- A successful parse of the rest of a buffer into attributes. -/
inductive Parsed (messageClass : MessageClass) (owner : TransactionId) :
    ByteBufferReader → List AttributeEntry → Prop
  | done {c : ByteBufferReader} (h : c.remaining = 0) :
      Parsed messageClass owner c []
  | step {c c' : ByteBufferReader} {entry : AttributeEntry}
      {entries : List AttributeEntry} (hmore : 0 < c.remaining)
      (hread : readAttribute messageClass owner c = (some entry, c'))
      (hrest : Parsed messageClass owner c' entries) :
      Parsed messageClass owner c (entry :: entries)

/-- The attributes the loop of `Read` has stored. -/
def storedAttrs (entries : List AttributeEntry) : List StunAttribute :=
  entries.flatMap fun entry => entry.attr.toList

theorem storedAttrs_cons (entry : AttributeEntry) (entries : List AttributeEntry) :
    storedAttrs (entry :: entries) = entry.attr.toList ++ storedAttrs entries := List.flatMap_cons

theorem Parsed.eq_nil_of_lt (h : Parsed messageClass owner c entries) (hlt : c.remaining < 4) :
    c.remaining = 0 ∧ entries = [] := by
  cases h with
  | done h => exact ⟨h, rfl⟩
  | step hmore hread hrest =>
    have hfour := (readAttribute_shape hread).1
    omega

theorem readAttributes_sound {fuel : Nat}
    (h : readAttributes 0 fuel (m, c) = (some entries, (m', c'))) :
    Parsed m.messageClass m.transactionId c entries ∧
      m' = { m with attrs := m.attrs ++ storedAttrs entries } := by
  induction fuel generalizing m c m' c' entries with
  | zero => cases h
  | succ fuel ih =>
    obtain ⟨s₀, s₁, h₀, k₀⟩ := bind_eq_some_iff.1 h
    cases h₀
    split at k₀
    case isFalse hdone =>
      cases k₀
      simp only [storedAttrs, List.flatMap_nil, List.append_nil, and_true]
      exact .done (Nat.eq_zero_of_not_pos hdone)
    case isTrue hmore =>
      obtain ⟨entry, ⟨m₁, c₁⟩, h₁, k₁⟩ := bind_eq_some_iff.1 k₀
      obtain ⟨u, ⟨m₂, c₂⟩, h₂, k₂⟩ := bind_eq_some_iff.1 k₁
      obtain ⟨rest, ⟨m₃, c₃⟩, h₃, k₃⟩ := bind_eq_some_iff.1 k₂
      obtain ⟨hread, rfl⟩ := onSnd_eq_some_iff.1 h₁
      cases h₂
      obtain ⟨hparsed, hm₃⟩ := ih h₃
      cases k₃
      refine ⟨.step hmore hread hparsed, ?_⟩
      rw [hm₃]
      simp [storedAttrs]

theorem readAttributes_complete (h : Parsed messageClass owner c entries) {fuel : Nat}
    (hfuel : c.remaining < fuel) (hclass : m.messageClass = messageClass)
    (howner : m.transactionId = owner) :
    ∃ c', readAttributes 0 fuel (m, c) =
      (some entries, ({ m with attrs := m.attrs ++ storedAttrs entries }, c')) := by
  induction h generalizing fuel m with
  | @done c hdone =>
    obtain ⟨fuel, rfl⟩ : ∃ k, fuel = k + 1 := ⟨fuel - 1, by omega⟩
    refine ⟨c, bind_eq_some_iff.2 ⟨_, _, rfl, ?_⟩⟩
    simp [hdone, storedAttrs]
  | @step c c₁ entry entries hmore hread hrest ih =>
    obtain ⟨fuel, rfl⟩ : ∃ k, fuel = k + 1 := ⟨fuel - 1, by omega⟩
    obtain ⟨hfour, -, -, -, -, k, -, hc₁⟩ := readAttribute_shape hread
    have hless : c₁.remaining < fuel := by
      rw [hc₁, advance_remaining]
      omega
    subst hclass howner
    obtain ⟨c₂, hloop⟩ := ih (m := { m with attrs := m.attrs ++ entry.attr.toList }) hless rfl rfl
    refine ⟨c₂, bind_eq_some_iff.2 ⟨_, _, rfl, ?_⟩⟩
    simp only [hmore, ↓reduceIte]
    rw [bind_of_some (onSnd_eq_some_iff.2 ⟨hread, rfl⟩), bind_of_some (modify_apply _ _),
      bind_of_some hloop]
    simp [storedAttrs]

/-! ## The whole of `Read` -/

/-- The transaction id in the header of a packet. -/
def packetId (bytes : List UInt8) : List UInt8 :=
  if wordAt ((bytes.drop 4).take 4) 0 ≠ kStunMagicCookie then
    (bytes.drop 4).take 4 ++ (bytes.drop 8).take kStunTransactionIdLength
  else (bytes.drop 8).take kStunTransactionIdLength

/-- The packets `Read` accepts, with the id and the attributes it finds. -/
structure Accepts (messageClass : MessageClass) (bytes : List UInt8)
    (id : TransactionId) (entries : List AttributeEntry) : Prop where
  size : kStunHeaderSize ≤ bytes.length
  type : getBE16 bytes 0 &&& 0x8000 = 0
  length : (getBE16 bytes 2).toNat + kStunHeaderSize = bytes.length
  id_eq : id.val = packetId bytes
  parsed : Parsed messageClass id
    ((Cursor.start bytes).advance kStunHeaderSize) entries

/-- The message after `Read` has accepted a packet. -/
def StunMessage.withPacket (m : StunMessage) (bytes : List UInt8)
    (id : TransactionId) (attrs : List StunAttribute) : StunMessage :=
  { m with
    buffer := bytes
    type := getBE16 bytes 0
    length := getBE16 bytes 2
    transactionId := id
    reducedTransactionId := some (reduceTransactionId id)
    attrs := attrs }

theorem TransactionId.check_eq_some_iff {σ : Type} {s s' : σ} {id : TransactionId} :
    TransactionId.check bytes s = (some id, s') ↔ id.val = bytes ∧ s' = s := by
  unfold TransactionId.check
  split
  case isTrue h =>
    constructor
    · intro hpure
      cases hpure
      exact ⟨rfl, rfl⟩
    · rintro ⟨rfl, rfl⟩
      rfl
  case isFalse h =>
    constructor
    · intro hfail
      cases hfail
    · rintro ⟨rfl, -⟩
      exact absurd id.property h

section Fields

variable {bytes : List UInt8} {k : Nat} {c' : ByteBufferReader}

theorem readUInt16_at_iff (hk : k ≤ bytes.length) {v : UInt16} :
    readUInt16 ((Cursor.start bytes).advance k) = (some v, c') ↔
      k + 2 ≤ bytes.length ∧ v = getBE16 bytes k ∧ c' = (Cursor.start bytes).advance (k + 2) := by
  have hremaining : ((start bytes).advance k).remaining = bytes.length - k := advance_remaining _ k
  have hpos : ((start bytes).advance k).pos = k := (advance_pos hk).trans (Nat.zero_add k)
  have hle : 2 ≤ bytes.length - k ↔ k + 2 ≤ bytes.length := by omega
  rw [readUInt16_eq_some_iff, hremaining, hle, hpos, advance_advance]
  rfl

theorem readString_at_iff (hk : k ≤ bytes.length) {n : Nat} {v : List UInt8} :
    readString n ((Cursor.start bytes).advance k) = (some v, c') ↔
      k + n ≤ bytes.length ∧ v = (bytes.drop k).take n ∧
        c' = (Cursor.start bytes).advance (k + n) := by
  have hremaining : ((start bytes).advance k).remaining = bytes.length - k := advance_remaining _ k
  have hrest : ((start bytes).advance k).rest = bytes.drop k := rest_advance _ k
  have hle : n ≤ bytes.length - k ↔ k + n ≤ bytes.length := by omega
  rw [readString, takeCells_eq_some_iff, hremaining, hle, hrest, advance_advance]

end Fields

theorem StunMessage.readHeader_eq_some_iff {u : Unit} :
    StunMessage.readHeader (m, Cursor.start bytes) = (some u, (m', c')) ↔
      kStunHeaderSize ≤ bytes.length ∧ getBE16 bytes 0 &&& 0x8000 = 0 ∧
      ∃ id : TransactionId, id.val = packetId bytes ∧ m' = m.withPacket bytes id m.attrs ∧
        c' = (Cursor.start bytes).advance kStunHeaderSize := by
  constructor
  · intro h
    obtain ⟨u₀, s₀, h₀, k₀⟩ := bind_eq_some_iff.1 h
    obtain ⟨type, ⟨m₁, c₁⟩, h₁, k₁⟩ := bind_eq_some_iff.1 k₀
    obtain ⟨u₂, s₂, h₂, k₂⟩ := bind_eq_some_iff.1 k₁
    obtain ⟨u₃, s₃, h₃, k₃⟩ := bind_eq_some_iff.1 k₂
    obtain ⟨length, ⟨m₄, c₄⟩, h₄, k₄⟩ := bind_eq_some_iff.1 k₃
    obtain ⟨u₅, s₅, h₅, k₅⟩ := bind_eq_some_iff.1 k₄
    obtain ⟨cookie, ⟨m₆, c₆⟩, h₆, k₆⟩ := bind_eq_some_iff.1 k₅
    obtain ⟨idBytes, ⟨m₇, c₇⟩, h₇, k₇⟩ := bind_eq_some_iff.1 k₆
    obtain ⟨id, s₈, h₈, k₈⟩ := bind_eq_some_iff.1 k₇
    cases h₀
    obtain ⟨hr₁, rfl⟩ := onSnd_eq_some_iff.1 h₁
    obtain ⟨hle₁, htype, rfl⟩ := readUInt16_eq_some_iff.1 hr₁
    cases h₂
    obtain ⟨hbit, rfl⟩ := guard_eq_some_iff.1 h₃
    obtain ⟨hr₄, rfl⟩ := onSnd_eq_some_iff.1 h₄
    obtain ⟨hle₄, hlength, rfl⟩ := (readUInt16_at_iff hle₁).1 hr₄
    cases h₅
    obtain ⟨hr₆, rfl⟩ := onSnd_eq_some_iff.1 h₆
    obtain ⟨hle₆, hcookie, rfl⟩ := (readString_at_iff hle₄).1 hr₆
    obtain ⟨hr₇, rfl⟩ := onSnd_eq_some_iff.1 h₇
    obtain ⟨hle₇, hidBytes, rfl⟩ := (readString_at_iff hle₆).1 hr₇
    obtain ⟨hid, rfl⟩ := TransactionId.check_eq_some_iff.1 h₈
    cases k₈
    refine ⟨hle₇, htype ▸ hbit, id, ?_, ?_, rfl⟩
    · rw [hid, hcookie, hidBytes]
      rfl
    · rw [htype, hlength]
      rfl
  · rintro ⟨hsize, hbit, id, hid, rfl, rfl⟩
    have hle : 20 ≤ bytes.length := hsize
    have hr₁ : readUInt16 (start bytes) = (some (getBE16 bytes 0), (start bytes).advance 2) :=
      readUInt16_eq_some_iff.2 ⟨Nat.le_trans (by omega) hle, rfl, rfl⟩
    have hr₄ := (readUInt16_at_iff (show 2 ≤ bytes.length by omega)).2 ⟨by omega, rfl, rfl⟩
    have hr₆ := (@readString_at_iff bytes 4 _ (by omega) 4 _).2 ⟨by omega, rfl, rfl⟩
    have hr₇ := (@readString_at_iff bytes 8 _ (by omega) kStunTransactionIdLength _).2
      ⟨hsize, rfl, rfl⟩
    unfold StunMessage.readHeader
    rw [bind_of_some (modify_apply _ _), bind_of_some (onSnd_eq_some_iff.2 ⟨hr₁, rfl⟩),
      bind_of_some (modify_apply _ _),
      bind_of_some (guard_eq_some_iff.2 ⟨hbit, rfl⟩),
      bind_of_some (onSnd_eq_some_iff.2 ⟨hr₄, rfl⟩),
      bind_of_some (modify_apply _ _),
      bind_of_some (onSnd_eq_some_iff.2 ⟨hr₆, rfl⟩),
      bind_of_some (onSnd_eq_some_iff.2 ⟨hr₇, rfl⟩)]
    exact bind_of_some (TransactionId.check_eq_some_iff.2 ⟨hid, rfl⟩) _

theorem StunMessage.read_eq_some_iff :
    m.read bytes = (some entries, m') ↔
      ∃ id, Accepts m.messageClass bytes id entries ∧
        m' = m.withPacket bytes id (storedAttrs entries) := by
  have hremaining : ((start bytes).advance kStunHeaderSize).remaining =
      bytes.length - kStunHeaderSize := advance_remaining _ _
  constructor
  · intro h
    have hread : StunMessage.readM (m, start bytes) =
        (some entries, (m', (StunMessage.readM (m, start bytes)).2.2)) := by
      simp only [StunMessage.read, Prod.mk.injEq] at h
      exact Prod.ext h.1 (Prod.ext h.2 rfl)
    obtain ⟨u₀, ⟨m₀, c₀⟩, h₀, k₀⟩ := bind_eq_some_iff.1 hread
    obtain ⟨t₁, s₁, h₁, k₁⟩ := bind_eq_some_iff.1 k₀
    obtain ⟨u₂, s₂, h₂, k₂⟩ := bind_eq_some_iff.1 k₁
    obtain ⟨u₃, s₃, h₃, k₃⟩ := bind_eq_some_iff.1 k₂
    obtain ⟨hsize, htype, id, hid, rfl, rfl⟩ := StunMessage.readHeader_eq_some_iff.1 h₀
    cases h₁
    obtain ⟨hlength, rfl⟩ := guard_eq_some_iff.1 h₂
    cases h₃
    rw [hlength, Nat.sub_self] at k₃
    obtain ⟨hparsed, rfl⟩ := readAttributes_sound k₃
    rw [hremaining] at hlength
    exact ⟨id, ⟨hsize, htype, by rw [← Nat.sub_add_cancel hsize, ← hlength]; rfl,
      hid, hparsed⟩, rfl⟩
  · rintro ⟨id, haccepts, rfl⟩
    have hlength : (m.withPacket bytes id m.attrs).length.toNat =
        ((start bytes).advance kStunHeaderSize).remaining := by
      rw [hremaining, ← haccepts.length]
      rfl
    have hheader : StunMessage.readHeader (m, start bytes) =
        (some (), (m.withPacket bytes id m.attrs, (start bytes).advance kStunHeaderSize)) :=
      StunMessage.readHeader_eq_some_iff.2
        ⟨haccepts.size, haccepts.type, id, haccepts.id_eq, rfl, rfl⟩
    obtain ⟨c', hloop⟩ := readAttributes_complete haccepts.parsed
      (Nat.lt_succ_self _) (m := m.withPacket bytes id []) rfl rfl
    have hread : StunMessage.readM (m, start bytes) =
        (some entries, (m.withPacket bytes id (storedAttrs entries), c')) := by
      unfold StunMessage.readM
      rw [bind_of_some hheader, bind_of_some (get_apply _)]
      rw [bind_of_some (guard_eq_some_iff.2 ⟨hlength, rfl⟩), hlength, Nat.sub_self]
      exact hloop
    simp only [StunMessage.read, hread]

end WebrtcCore.Ports.Stun
