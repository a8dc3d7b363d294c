import WebrtcCore.Ports.StunRoundTrip
import WebrtcCore.Ports.StunWalk
import WebrtcCore.Verified.CMemory

/-!
# Message integrity (`api/transport/stun.cc`)

The signer serialises the message with a dummy integrity attribute at its
end and hashes all but that attribute.  The verifier finds the attribute in
the packet, takes the bytes before it and, if more attributes follow, writes
into the length field what it was when the attribute was the last one.

HMAC-SHA1 is an arbitrary function with 20 bytes of output, so what is proved
is that both sides hash the same bytes.
-/

namespace WebrtcCore.Ports.Stun

open Verified Bytes Cursor CMemory Ports.ByteBuffer List

def kStunAttributeHeaderSize : Nat := 4
def kStunMessageIntegritySize : Nat := 20
def kStunMessageIntegrity32Size : Nat := 4

/-- `rtc::ComputeHmac` with `DIGEST_SHA_1`: a key, a message and the digest. -/
structure Hmac where
  compute : List UInt8 → List UInt8 → List UInt8
  length_compute : ∀ key data,
    (compute key data).length = kStunMessageIntegritySize

/-- The two integrity attributes. -/
inductive IntegrityKind
  | messageIntegrity
  | messageIntegrity32
  deriving DecidableEq, Repr

namespace IntegrityKind

def type : IntegrityKind → UInt16
  | .messageIntegrity => stunAttrMessageIntegrity
  | .messageIntegrity32 => stunAttrGoogMessageIntegrity32

def size : IntegrityKind → Nat
  | .messageIntegrity => kStunMessageIntegritySize
  | .messageIntegrity32 => kStunMessageIntegrity32Size

end IntegrityKind

/-! ## Verifying -/

/-- The loop of `ValidateMessageIntegrityOfType`: the position of the first
attribute of the type, if it is of the right size. -/
def findIntegrity (data : List UInt8) (miAttrType : UInt16) (miAttrSize : Nat) :
    Nat → Nat → Option Nat
  | 0, _ => none
  | fuel + 1, currentPos =>
    if currentPos + 4 ≤ data.length then
      let attrType := getBE16 data currentPos
      let attrLength := getBE16 data (currentPos + 2)
      if attrType = miAttrType then
        if attrLength.toNat ≠ miAttrSize ∨
            currentPos + 4 + attrLength.toNat > data.length then none
        else some currentPos
      else
        findIntegrity data miAttrType miAttrSize fuel
          (currentPos + 4 + paddedLength attrLength.toNat)
    else none

/-- The bytes the verifier hashes: those before the attribute, with the length
field of a message that ends with it. -/
def hashedPrefix (data : List UInt8) (miPos miAttrSize : Nat) : List UInt8 :=
  let tempData := data.take miPos
  if data.length > miPos + kStunAttributeHeaderSize + miAttrSize then
    let extraOffset := data.length - (miPos + kStunAttributeHeaderSize + miAttrSize)
    let newAdjustedLen := data.length - extraOffset - kStunHeaderSize
    overwrite tempData 2 (writeUInt16 (UInt16.ofNat newAdjustedLen))
  else tempData

def validateMessageIntegrityOfType (hmac : Hmac) (miAttrType : UInt16)
    (miAttrSize : Nat) (data password : List UInt8) : Bool :=
  if data.length % 4 ≠ 0 ∨ data.length < kStunHeaderSize then false
  else if data.length ≠ (getBE16 data 2).toNat + kStunHeaderSize then false
  else
    match findIntegrity data miAttrType miAttrSize data.length kStunHeaderSize with
    | none => false
    | some miPos =>
      (data.drop (miPos + kStunAttributeHeaderSize)).take miAttrSize =
        (hmac.compute password (hashedPrefix data miPos miAttrSize)).take
          miAttrSize

def validateMessageIntegrity (hmac : Hmac) : List UInt8 → List UInt8 → Bool :=
  validateMessageIntegrityOfType hmac stunAttrMessageIntegrity
    kStunMessageIntegritySize

def validateMessageIntegrity32 (hmac : Hmac) : List UInt8 → List UInt8 → Bool :=
  validateMessageIntegrityOfType hmac stunAttrGoogMessageIntegrity32
    kStunMessageIntegrity32Size

/-! ## Signing -/

def StunMessage.addMessageIntegrityOfType (hmac : Hmac) (m : StunMessage)
    (attrType : UInt16) (attrSize : Nat) (key : List UInt8) :
    Bool × StunMessage :=
  let dummy : StunAttribute := ⟨attrType, .byteString (List.replicate attrSize 0x30)⟩
  let withDummy := m.addAttribute dummy
  match withDummy.write with
  | none => (false, withDummy)
  | some buf =>
    let msgLenForHmac := buf.length - kStunAttributeHeaderSize - dummy.length.toNat
    let digest := hmac.compute key (buf.take msgLenForHmac)
    (true, { withDummy with
      attrs := m.attrs ++ [⟨attrType, .byteString (digest.take attrSize)⟩]
      password := key
      integrity := .integrityOk })

def StunMessage.addMessageIntegrity (hmac : Hmac) (m : StunMessage) :
    List UInt8 → Bool × StunMessage :=
  m.addMessageIntegrityOfType hmac stunAttrMessageIntegrity
    kStunMessageIntegritySize

def StunMessage.addMessageIntegrity32 (hmac : Hmac) (m : StunMessage) :
    List UInt8 → Bool × StunMessage :=
  m.addMessageIntegrityOfType hmac stunAttrGoogMessageIntegrity32
    kStunMessageIntegrity32Size

/-- Sign with either attribute. -/
def IntegrityKind.add (kind : IntegrityKind) (hmac : Hmac) (m : StunMessage)
    (password : List UInt8) : Bool × StunMessage :=
  match kind with
  | .messageIntegrity => m.addMessageIntegrity hmac password
  | .messageIntegrity32 => m.addMessageIntegrity32 hmac password

/-- Verify either attribute. -/
def IntegrityKind.validate (kind : IntegrityKind) (hmac : Hmac)
    (data password : List UInt8) : Bool :=
  match kind with
  | .messageIntegrity => validateMessageIntegrity hmac data password
  | .messageIntegrity32 => validateMessageIntegrity32 hmac data password

variable (kind : IntegrityKind)

theorem IntegrityKind.add_eq (hmac : Hmac) (m : StunMessage) (password : List UInt8) :
    kind.add hmac m password = m.addMessageIntegrityOfType hmac kind.type kind.size password := by
  cases kind <;> rfl

theorem IntegrityKind.validate_eq (hmac : Hmac) (data password : List UInt8) :
    kind.validate hmac data password =
      validateMessageIntegrityOfType hmac kind.type kind.size data password := by
  cases kind <;> rfl

/-! ## The search -/

theorem getBE16_drop (data : List UInt8) (pos k : Nat) :
    getBE16 data (pos + k) = getBE16 (data.drop pos) k := by
  rw [getBE16, getBE16, drop_drop]

theorem getBE16_written {data rest : List UInt8} {pos : Nat} {type length : UInt16}
    (h : data.drop pos = writeUInt16 type ++ (writeUInt16 length ++ rest)) :
    getBE16 data pos = type ∧ getBE16 data (pos + 2) = length := by
  constructor
  · have hdrop := getBE16_drop data pos 0
    rw [h, getBE16_append_left] at hdrop
    exact hdrop
  · rw [getBE16_drop, h, show (2 : Nat) = 2 + 0 from rfl,
      getBE16_append_right (writeUInt16_length _), getBE16_append_left]

variable {owner : TransactionId} {attrs : List StunAttribute} {w : List UInt8}

theorem findIntegrity_written {data : List UInt8} {miAttrType : UInt16} {miAttrSize : Nat}
    {tail : List UInt8} (hwrite : writeAttributes owner attrs = some w)
    (hsize : ∀ attr ∈ attrs, attr.value.size < 65536)
    (htype : ∀ attr ∈ attrs, attr.type ≠ miAttrType) (fuel pos : Nat)
    (hdata : data.drop pos = w ++ tail) :
    findIntegrity data miAttrType miAttrSize (attrs.length + fuel) pos =
      findIntegrity data miAttrType miAttrSize fuel (pos + wireSizes attrs) := by
  induction attrs generalizing pos w with
  | nil => simp
  | cons attr attrs ih =>
    obtain ⟨body, rest, hbody, hrest, rfl⟩ := writeAttributes_cons_eq_some_iff.1 hwrite
    have hbodyLen := StunAttribute.write_length hbody (hsize attr mem_cons_self)
    have hlen := length_toNat (hsize attr mem_cons_self)
    simp only [append_assoc] at hdata
    obtain ⟨htypeField, hlengthField⟩ := getBE16_written hdata
    have hlength := congrArg length hdata
    simp only [length_drop, length_append, writeUInt16_length] at hlength
    have hnext : data.drop (pos + attr.wireSize) = rest ++ tail := by
      rw [← drop_drop, hdata, StunAttribute.wireSize, ← hbodyLen, drop_attribute]
    have htail := ih hrest (fun a ha => hsize a (mem_cons_of_mem _ ha))
      (fun a ha => htype a (mem_cons_of_mem _ ha))
      (pos + attr.wireSize) hnext
    have hne : attr.type ≠ miAttrType := htype attr mem_cons_self
    rw [length_cons, Nat.add_right_comm, findIntegrity, if_pos (by omega)]
    simp only [htypeField, hlengthField, hne, ↓reduceIte, hlen]
    rw [Nat.add_assoc pos 4, ← StunAttribute.wireSize, htail, wireSizes_cons, Nat.add_assoc]

/-! ## What the signer hashes -/

theorem writeAttributes_append {attrs' : List StunAttribute} {w' : List UInt8}
    (h : writeAttributes owner attrs = some w) (h' : writeAttributes owner attrs' = some w') :
    writeAttributes owner (attrs ++ attrs') = some (w ++ w') := by
  induction attrs generalizing w with
  | nil =>
    cases h
    exact h'
  | cons attr attrs ih =>
    obtain ⟨body, rest, hbody, hrest, rfl⟩ := writeAttributes_cons_eq_some_iff.1 h
    apply writeAttributes_cons_eq_some_iff.2
    exact ⟨body, rest ++ w', hbody, ih hrest, append_assoc _ _ _⟩

theorem writeAttributes_of_append {attrs' : List StunAttribute}
    (h : writeAttributes owner (attrs ++ attrs') = some w) :
    ∃ w₁, writeAttributes owner attrs = some w₁ := by
  induction attrs generalizing w with
  | nil => exact ⟨[], rfl⟩
  | cons attr attrs ih =>
    obtain ⟨body, rest, hbody, hrest, -⟩ := writeAttributes_cons_eq_some_iff.1 h
    obtain ⟨w₁, hw₁⟩ := ih hrest
    exact ⟨_, writeAttributes_cons_eq_some_iff.2 ⟨body, w₁, hbody, hw₁, rfl⟩⟩

/-- The integrity attribute with a given value. -/
def IntegrityKind.signature (kind : IntegrityKind) (value : List UInt8) :
    StunAttribute :=
  ⟨kind.type, .byteString value⟩

theorem IntegrityKind.size_toNat : (UInt16.ofNat kind.size).toNat = kind.size := by
  cases kind <;> rfl

theorem IntegrityKind.size_mod : kind.size % 4 = 0 := by
  cases kind <;> decide

theorem IntegrityKind.write_signature {value : List UInt8} (h : value.length = kind.size)
    (owner : TransactionId) :
    (kind.signature value).wireSize = 4 + kind.size ∧
      writeAttributes owner [kind.signature value] =
        some (writeUInt16 kind.type ++ (writeUInt16 (UInt16.ofNat kind.size) ++ value)) := by
  have hlength : (kind.signature value).length = UInt16.ofNat kind.size := by
    rw [StunAttribute.length, IntegrityKind.signature, StunAttributeValue.size, h]
  have hvalid : lengthValid kind.type kind.size := by
    cases kind <;> decide
  have hnopad : writePadding (UInt16.ofNat kind.size) = [] := by
    cases kind <;> decide
  constructor
  · rw [StunAttribute.wireSize, IntegrityKind.signature, StunAttributeValue.size,
      h, paddedLength_of_mod_eq kind.size_mod]
  · have hbody : (kind.signature value).write (some owner) = some value := by
      have hwrite : (kind.signature value).write (some owner) =
          if lengthValid kind.type (kind.signature value).length.toNat then
            some (value.take (kind.signature value).length.toNat ++
              writePadding (kind.signature value).length)
          else none := rfl
      rw [hwrite, hlength, kind.size_toNat, if_pos hvalid, hnopad, ← h, take_length, append_nil]
    simp only [writeAttributes, hbody, hlength]
    simp [IntegrityKind.signature]

/-- The header of a message, with another length. -/
def StunMessage.headerWithLength (m : StunMessage) (length : UInt16) :
    List UInt8 :=
  { m with length := length }.writeHeader

variable (m : StunMessage)

variable (length : UInt16)

theorem StunMessage.write_appended {attr : StunAttribute} {w' : List UInt8}
    (h : writeAttributes m.transactionId [attr] = some w') :
    StunMessage.write { m with length := length, attrs := m.attrs ++ [attr] } =
      (writeAttributes m.transactionId m.attrs).map fun w =>
        m.headerWithLength length ++ w ++ w' := by
  cases hw : writeAttributes m.transactionId m.attrs with
  | none =>
    refine Option.eq_none_iff_forall_ne_some.2 fun bytes hbytes => ?_
    obtain ⟨all, hall, -⟩ := StunMessage.write_eq_some_iff.1 hbytes
    obtain ⟨w, hsome⟩ := writeAttributes_of_append hall
    rw [hw] at hsome
    cases hsome
  | some w =>
    exact StunMessage.write_eq_some_iff.2 ⟨_, writeAttributes_append hw h, append_assoc _ _ _⟩

/-- The value of an integrity attribute behind the attributes `w`, in a message
with the given length field. -/
def IntegrityKind.digest (kind : IntegrityKind) (hmac : Hmac)
    (password : List UInt8) (m : StunMessage) (length : UInt16) (w : List UInt8) :
    List UInt8 :=
  (hmac.compute password (m.headerWithLength length ++ w)).take kind.size

theorem IntegrityKind.digest_length (hmac : Hmac) (password : List UInt8) (m : StunMessage)
    (length : UInt16) (w : List UInt8) :
    (kind.digest hmac password m length w).length = kind.size := by
  rw [IntegrityKind.digest, length_take, hmac.length_compute]
  cases kind <;> decide

theorem IntegrityKind.add_eq_true_iff {kind : IntegrityKind} {hmac : Hmac}
    {m m₁ : StunMessage} {password : List UInt8} :
    kind.add hmac m password = (true, m₁) ↔
      ∃ w, writeAttributes m.transactionId m.attrs = some w ∧
        m₁ = { m with
          length := m.length + UInt16.ofNat (4 + kind.size)
          attrs := m.attrs ++ [kind.signature (kind.digest hmac password m
            (m.length + UInt16.ofNat (4 + kind.size)) w)]
          password := password
          integrity := .integrityOk } := by
  let dummy := kind.signature (replicate kind.size 0x30)
  obtain ⟨hwire, hdummy⟩ := kind.write_signature
    (length_replicate (n := kind.size) (a := (0x30 : UInt8)))
    m.transactionId
  have hsize : dummy.value.size < 65536 := by
    cases kind <;> decide
  have hlength : dummy.length.toNat = kind.size := (length_toNat hsize).trans length_replicate
  have hwith : m.addAttribute dummy = { m with
      length := m.length + UInt16.ofNat (4 + kind.size)
      attrs := m.attrs ++ [dummy] } := by
    rw [StunMessage.addAttribute, lengthStep_eq hsize, hwire]
  have hadd : kind.add hmac m password = match (m.addAttribute dummy).write with
      | none => (false, m.addAttribute dummy)
      | some buf => (true, { m.addAttribute dummy with
          attrs := m.attrs ++ [kind.signature ((hmac.compute password (buf.take
            (buf.length - kStunAttributeHeaderSize - dummy.length.toNat))).take kind.size)]
          password := password
          integrity := .integrityOk }) :=
    kind.add_eq hmac m password
  rw [hadd, hlength, hwith]
  rw [m.write_appended _ hdummy]
  cases hw : writeAttributes m.transactionId m.attrs with
  | none => simp
  | some w =>
    rw [Option.map_some]
    have htake : ∀ u : List UInt8, (u ++ (writeUInt16 kind.type ++
        (writeUInt16 (UInt16.ofNat kind.size) ++ replicate kind.size 0x30))).take
        ((u ++ (writeUInt16 kind.type ++
          (writeUInt16 (UInt16.ofNat kind.size) ++ replicate kind.size 0x30))).length -
          kStunAttributeHeaderSize - kind.size) = u := by
      intro u
      refine take_left' ?_
      simp [kStunAttributeHeaderSize]
      omega
    simp only [htake, Option.some.injEq, exists_eq_left', Prod.mk.injEq, true_and]
    exact eq_comm

/-! ## What the verifier hashes -/

theorem StunMessage.headerWithLength_eq :
    m.headerWithLength length = writeUInt16 m.type ++ (writeUInt16 length ++
      ((if m.isLegacy then [] else writeUInt32 m.stunMagicCookie) ++ m.transactionId.val)) := by
  rfl

theorem StunMessage.headerWithLength_length :
    (m.headerWithLength length).length = kStunHeaderSize :=
  StunMessage.writeHeader_length _

theorem overwrite_headerWithLength (length length' : UInt16) (w : List UInt8) :
    overwrite (m.headerWithLength length ++ w) 2 (writeUInt16 length') =
      m.headerWithLength length' ++ w := rfl

/-- An integrity attribute on the wire. -/
def IntegrityKind.signatureBytes (kind : IntegrityKind) (value : List UInt8) :
    List UInt8 :=
  writeUInt16 kind.type ++ (writeUInt16 (UInt16.ofNat kind.size) ++ value)

theorem IntegrityKind.signatureBytes_length {value : List UInt8}
    (hvalue : value.length = kind.size) :
    (kind.signatureBytes value).length = 4 + kind.size := by
  simp [IntegrityKind.signatureBytes]
  omega

/-- A signed packet: attributes, the integrity attribute, and what follows. -/
def IntegrityKind.packet (kind : IntegrityKind) (m : StunMessage)
    (length : UInt16) (w value extra : List UInt8) : List UInt8 :=
  m.headerWithLength length ++ (w ++ (kind.signatureBytes value ++ extra))

section Packet

variable (kind : IntegrityKind) (m : StunMessage) (length : UInt16)
  (w value extra : List UInt8)

theorem IntegrityKind.packet_length (hvalue : value.length = kind.size) :
    (kind.packet m length w value extra).length =
      kStunHeaderSize + (w.length + (4 + kind.size) + extra.length) := by
  rw [IntegrityKind.packet, length_append, length_append, length_append, m.headerWithLength_length,
    kind.signatureBytes_length hvalue]
  omega

theorem IntegrityKind.packet_drop :
    (kind.packet m length w value extra).drop kStunHeaderSize =
        w ++ (kind.signatureBytes value ++ extra) ∧
      (kind.packet m length w value extra).drop (kStunHeaderSize + w.length) =
        kind.signatureBytes value ++ extra ∧
      (kind.packet m length w value extra).take (kStunHeaderSize + w.length) =
        m.headerWithLength length ++ w := by
  have hheader := m.headerWithLength_length length
  unfold IntegrityKind.packet
  refine ⟨drop_left' hheader, ?_, ?_⟩
  · rw [← drop_drop, drop_left' hheader, drop_left]
  · rw [← append_assoc]
    exact take_left' (by rw [length_append, hheader])

theorem IntegrityKind.find_packet (hw : writeAttributes m.transactionId m.attrs = some w)
    (hsize : ∀ attr ∈ m.attrs, attr.value.size < 65536)
    (hfirst : ∀ attr ∈ m.attrs, attr.type ≠ kind.type) (hvalue : value.length = kind.size) :
    findIntegrity (kind.packet m length w value extra) kind.type kind.size
        (kind.packet m length w value extra).length kStunHeaderSize =
      some (kStunHeaderSize + w.length) := by
  have hlength := kind.packet_length m length w value extra hvalue
  obtain ⟨hbody, hsignature, -⟩ := kind.packet_drop m length w value extra
  generalize kind.packet m length w value extra = data at hlength hbody hsignature
  have hwLength := writeAttributes_length hw hsize
  have hcount := length_le_wireSizes m.attrs
  obtain ⟨fuel, hfuel⟩ : ∃ fuel, data.length = m.attrs.length + (fuel + 1) :=
    ⟨data.length - m.attrs.length - 1, by omega⟩
  obtain ⟨htype, hlengthField⟩ := getBE16_written hsignature
  rw [hfuel, findIntegrity_written hw hsize hfirst (fuel + 1) _ hbody, ← hwLength,
    findIntegrity, if_pos (by omega)]
  simp only [htype, hlengthField, kind.size_toNat, ↓reduceIte]
  rw [if_neg (by omega)]

theorem IntegrityKind.hashedPrefix_packet (hvalue : value.length = kind.size)
    (hlength : length.toNat = w.length + (4 + kind.size) + extra.length) :
    hashedPrefix (kind.packet m length w value extra) (kStunHeaderSize + w.length) kind.size =
      m.headerWithLength (UInt16.ofNat (w.length + (4 + kind.size))) ++ w := by
  have hpacket := kind.packet_length m length w value extra hvalue
  obtain ⟨-, -, htake⟩ := kind.packet_drop m length w value extra
  unfold hashedPrefix kStunAttributeHeaderSize
  simp only [htake]
  by_cases hextra : extra.length = 0
  · have hsame : length = UInt16.ofNat (w.length + (4 + kind.size)) := by
      rw [← UInt16.ofNat_toNat (x := length), hlength, hextra, Nat.add_zero]
    rw [if_neg (by omega), ← hsame]
  · rw [if_pos (by omega), overwrite_headerWithLength]
    congr 3
    omega

theorem IntegrityKind.validate_packet_iff {hmac : Hmac} {password : List UInt8}
    (hw : writeAttributes m.transactionId m.attrs = some w)
    (hsize : ∀ attr ∈ m.attrs, attr.value.size < 65536)
    (hfirst : ∀ attr ∈ m.attrs, attr.type ≠ kind.type)
    (hvalue : value.length = kind.size) (hextra : extra.length % 4 = 0) :
    kind.validate hmac (kind.packet m length w value extra) password = true ↔
      length.toNat = w.length + (4 + kind.size) + extra.length ∧
        value = kind.digest hmac password m (UInt16.ofNat (w.length + (4 + kind.size))) w := by
  have hpacket := kind.packet_length m length w value extra hvalue
  obtain ⟨-, hsignature, -⟩ := kind.packet_drop m length w value extra
  have hfind := kind.find_packet m length w value extra hw hsize hfirst hvalue
  have hwLength := writeAttributes_length hw hsize
  have hmod := wireSizes_mod m.attrs
  have hkind := kind.size_mod
  have hfield : getBE16 (kind.packet m length w value extra) 2 = length :=
    (StunMessage.write_header (m := { m with length := length }) _).2
  have hvalueBytes : ((kind.packet m length w value extra).drop
      (kStunHeaderSize + w.length + kStunAttributeHeaderSize)).take kind.size =
        value := by
    rw [← drop_drop, hsignature]
    exact take_left' hvalue
  rw [kind.validate_eq, validateMessageIntegrityOfType, hfield, hfind]
  unfold kStunHeaderSize at hpacket
  by_cases hlength : length.toNat = w.length + (4 + kind.size) + extra.length
  · have hprefix := kind.hashedPrefix_packet m length w value extra hvalue hlength
    rw [if_neg (by unfold kStunHeaderSize; omega), if_neg (by unfold kStunHeaderSize; omega)]
    simp only [hvalueBytes, hprefix, hlength, true_and, decide_eq_true_eq, IntegrityKind.digest]
  · rw [if_neg (by unfold kStunHeaderSize; omega), if_pos (by unfold kStunHeaderSize; omega)]
    simp [hlength]

end Packet

/-- **Signing, appending and verifying.**  A message without an integrity
attribute of the kind is signed, any attributes `Write` can encode are added,
and the result is written.  It is verified with the same password exactly when
the length field was the size of the attributes before the message was
signed, as it is for every message built with `AddAttribute`. -/
theorem validate_signed_iff (hmac : Hmac) (kind : IntegrityKind)
    (m signed : StunMessage) (password : List UInt8) (extra : List StunAttribute)
    (hfirst : ∀ attr ∈ m.attrs, attr.type ≠ kind.type)
    (hextra : ∀ attr ∈ extra, ∃ w, attr.write (some m.transactionId) = some w)
    (hsize : wireSizes m.attrs + (4 + kind.size) + wireSizes extra ≤ 65535)
    (hsign : kind.add hmac m password = (true, signed)) :
    ∃ data, (extra.foldl StunMessage.addAttribute signed).write = some data ∧
      (kind.validate hmac data password = true ↔ m.length.toNat = wireSizes m.attrs) := by
  obtain ⟨w, hw, rfl⟩ := IntegrityKind.add_eq_true_iff.1 hsign
  obtain ⟨wExtra, hwExtra⟩ := writeAttributes_isSome hextra
  have hsizes : ∀ attr ∈ m.attrs, attr.value.size < 65536 :=
    fun attr hmem => size_lt_of_mem hmem (by omega)
  have hextraSizes : ∀ attr ∈ extra, attr.value.size < 65536 :=
    fun attr hmem => size_lt_of_mem hmem (by omega)
  have hwLength := writeAttributes_length hw hsizes
  have hwExtraLength := writeAttributes_length hwExtra hextraSizes
  have hextraMod := wireSizes_mod extra
  have hvalue := kind.digest_length hmac password m (m.length + UInt16.ofNat (4 + kind.size)) w
  obtain ⟨-, hsignature⟩ := kind.write_signature hvalue m.transactionId
  have hbody := writeAttributes_append (writeAttributes_append hw hsignature) hwExtra
  refine ⟨kind.packet m (m.length + UInt16.ofNat (4 + kind.size) +
    UInt16.ofNat (wireSizes extra)) w (kind.digest hmac password m
      (m.length + UInt16.ofNat (4 + kind.size)) w) wExtra, ?_, ?_⟩
  · rw [foldl_addAttribute _ hextraSizes]
    refine StunMessage.write_eq_some_iff.2 ⟨_, hbody, ?_⟩
    simp only [append_assoc]
    rfl
  · rw [kind.validate_packet_iff m _ w _ wExtra hw hsizes hfirst hvalue (by omega)]
    have hm := m.length.toNat_lt
    have hL : (m.length + UInt16.ofNat (4 + kind.size) + UInt16.ofNat (wireSizes extra)).toNat =
        (m.length.toNat + (4 + kind.size) + wireSizes extra) % 65536 := by
      simp only [UInt16.toNat_add, UInt16.toNat_ofNat']
      omega
    constructor
    · rintro ⟨hlength, -⟩
      omega
    · intro hlength
      refine ⟨by omega, ?_⟩
      have hsame : m.length + UInt16.ofNat (4 + kind.size) =
          UInt16.ofNat (w.length + (4 + kind.size)) := by
        rw [hwLength, ← hlength, UInt16.ofNat_add m.length.toNat, UInt16.ofNat_toNat]
      rw [hsame]

/-- A checksum in the place of HMAC-SHA1, for concrete runs. -/
def checksumHmac : Hmac where
  compute key data := List.replicate 20 ((key ++ data).foldl (· + ·) 0)
  length_compute _ _ := List.length_replicate

/-- A binding request with a user name. -/
def usernameRequest : StunMessage :=
  (((StunMessage.createNew .iceMessage).setType 1).setTransactionID
    sampleId).addAttribute ⟨stunAttrUsername, .byteString [97, 98, 99]⟩

theorem validate_signed_username :
    ∃ data, ([⟨stunAttrFingerprint, .uint32 7⟩].foldl StunMessage.addAttribute
        (usernameRequest.addMessageIntegrity checksumHmac [112, 119]).2).write = some data ∧
      validateMessageIntegrity checksumHmac data [112, 119] = true := by
  obtain ⟨data, hwrite, hiff⟩ := validate_signed_iff checksumHmac .messageIntegrity usernameRequest
    (usernameRequest.addMessageIntegrity checksumHmac [112, 119]).2 [112, 119]
    [⟨stunAttrFingerprint, .uint32 7⟩] (by decide)
    (by
      intro attr hmem
      rw [mem_singleton] at hmem
      exact ⟨_, by rw [hmem]; rfl⟩)
    (by decide) (by decide +kernel)
  exact ⟨data, hwrite, hiff.2 (by decide)⟩

/-- A received message that lost a skipped attribute keeps the old length
field; signed and written, it does not verify. -/
theorem validate_fails_after_skip :
    ∃ signed data,
      (oneAttributeMessage 2).addMessageIntegrity checksumHmac [112, 119] = (true, signed) ∧
      signed.write = some data ∧
      validateMessageIntegrity checksumHmac data [112, 119] = false := by
  obtain ⟨data, hwrite⟩ : ∃ data, ((oneAttributeMessage 2).addMessageIntegrity
      checksumHmac [112, 119]).2.write = some data :=
    Option.isSome_iff_exists.1 (by decide +kernel)
  refine ⟨_, data, by decide +kernel, hwrite, ?_⟩
  have hdata : data = (((oneAttributeMessage 2).addMessageIntegrity
      checksumHmac [112, 119]).2.write).getD [] := by
    rw [hwrite]
    rfl
  rw [hdata]
  decide +kernel

end WebrtcCore.Ports.Stun
