import Mathlib.Algebra.GroupWithZero.Nat
import Mathlib.Data.Nat.Bitwise
import WebrtcCore.Ports.StunMessage

/-!
# Round trips of STUN messages

`Write` puts the length field where the message keeps it, and `Read` insists
that it is the number of bytes after the header.  So a written message reads
back exactly when its length field is the size of its attributes on the wire;
`AddAttribute` keeps it so, and `Read` need not: it copies the field from the
packet even when it drops an attribute or runs out of padding.
-/

namespace WebrtcCore.Ports.Stun

open Verified Bytes Cursor Ports.ByteBuffer List Attempt StunMessage

/-! ## Sizes on the wire -/

/-- The bytes an attribute takes in a packet, header and padding included. -/
def StunAttribute.wireSize (attr : StunAttribute) : Nat := 4 + paddedLength attr.value.size

def wireSizes (attrs : List StunAttribute) : Nat := (attrs.map StunAttribute.wireSize).sum

@[simp] theorem wireSizes_nil : wireSizes [] = 0 := rfl

@[simp] theorem wireSizes_cons (attr : StunAttribute) (attrs : List StunAttribute) :
    wireSizes (attr :: attrs) = attr.wireSize + wireSizes attrs := rfl

theorem wireSizes_mod (attrs : List StunAttribute) : wireSizes attrs % 4 = 0 := by
  induction attrs with
  | nil => rfl
  | cons attr attrs ih =>
    have hpad := paddedLength_mod attr.value.size
    rw [wireSizes_cons, StunAttribute.wireSize]
    omega

variable {attr : StunAttribute} {attrs : List StunAttribute} {w bytes : List UInt8}
  {owner : TransactionId} {m : StunMessage} {messageClass : MessageClass} {c : ByteBufferReader}

theorem wireSize_le_of_mem (h : attr ∈ attrs) : attr.wireSize ≤ wireSizes attrs := by
  induction attrs with
  | nil => cases h
  | cons head tail ih =>
    rw [wireSizes_cons]
    cases h with
    | head => omega
    | tail _ htail =>
      have := ih htail
      omega

theorem length_le_wireSizes (attrs : List StunAttribute) : attrs.length ≤ wireSizes attrs := by
  induction attrs with
  | nil => exact Nat.le_refl _
  | cons attr attrs ih =>
    rw [length_cons, wireSizes_cons, StunAttribute.wireSize]
    omega

theorem size_lt_of_mem (h : attr ∈ attrs) (hsize : wireSizes attrs ≤ 65535) :
    attr.value.size < 65536 := by
  have hmem := wireSize_le_of_mem h
  have hpad := le_paddedLength attr.value.size
  unfold StunAttribute.wireSize at hmem
  omega

theorem lengthStep_eq (h : attr.value.size < 65536) :
    lengthStep attr = UInt16.ofNat attr.wireSize := by
  rw [lengthStep, length_toNat h, StunAttribute.wireSize, Nat.add_comm]

/-! ## Written messages -/

theorem getBE16_append_left (v : UInt16) (rest : List UInt8) :
    getBE16 (writeUInt16 v ++ rest) 0 = v := by
  rw [getBE16, drop_zero, writeUInt16,
    take_left' (bytesBE_length _ _), valueBE_bytesBE_of_lt v.toNat_lt,
    UInt16.ofNat_toNat]

theorem getBE16_append_right {n : Nat} (h : w.length = n) (rest : List UInt8) (k : Nat) :
    getBE16 (w ++ rest) (n + k) = getBE16 rest k := by
  rw [getBE16, getBE16, ← drop_drop, drop_left' h]

theorem writeAttributes_length (h : writeAttributes owner attrs = some w)
    (hsize : ∀ attr ∈ attrs, attr.value.size < 65536) :
    w.length = wireSizes attrs := by
  induction attrs generalizing w with
  | nil =>
    cases h
    rfl
  | cons attr attrs ih =>
    obtain ⟨body, rest, hbody, hrest, rfl⟩ := writeAttributes_cons_eq_some_iff.1 h
    have hlen := StunAttribute.write_length hbody (hsize attr mem_cons_self)
    have hrestLen := ih hrest fun a ha => hsize a (mem_cons_of_mem _ ha)
    simp only [length_append, writeUInt16_length, hlen, hrestLen,
      wireSizes_cons, StunAttribute.wireSize]

theorem StunMessage.write_eq_some_iff :
    m.write = some bytes ↔
      ∃ body, writeAttributes m.transactionId m.attrs = some body ∧
        bytes = m.writeHeader ++ body := by
  unfold write
  cases writeAttributes m.transactionId m.attrs with
  | none => simp
  | some body => simp [eq_comm]

theorem StunMessage.writeHeader_length (m : StunMessage) :
    m.writeHeader.length = kStunHeaderSize := by
  have hid := m.transactionId.length_eq
  unfold writeHeader isLegacy kStunLegacyTransactionIdLength kStunHeaderSize
  by_cases hlegacy : m.transactionId.val.length = 16
  · simp [hlegacy]
  · simp [hlegacy]
    omega

variable (body : List UInt8)

theorem StunMessage.write_header :
    getBE16 (m.writeHeader ++ body) 0 = m.type ∧ getBE16 (m.writeHeader ++ body) 2 = m.length := by
  unfold writeHeader
  simp only [append_assoc]
  constructor
  · exact getBE16_append_left _ _
  · rw [show (2 : Nat) = 2 + 0 from rfl,
      getBE16_append_right (writeUInt16_length _), getBE16_append_left]

theorem StunMessage.isLegacy_iff : m.isLegacy ↔ m.transactionId.val.length = 16 :=
  decide_eq_true_iff

private theorem drop_fields {type length : UInt16} (k : Nat) (w : List UInt8) :
    (writeUInt16 type ++ writeUInt16 length ++ w).drop (4 + k) = w.drop k := by
  rw [← drop_drop, drop_left' (by simp)]

theorem StunMessage.write_packetId_of_legacy (hlegacy : m.isLegacy)
    (hid : wordAt m.transactionId.val 0 ≠ kStunMagicCookie) :
    packetId (m.writeHeader ++ body) = m.transactionId.val := by
  have hlength := isLegacy_iff.1 hlegacy
  have hdata : m.writeHeader ++ body = writeUInt16 m.type ++
      writeUInt16 m.length ++ (m.transactionId.val ++ body) := by
    simp [writeHeader, hlegacy]
  have hcookieBytes : ((m.writeHeader ++ body).drop 4).take 4 = m.transactionId.val.take 4 := by
    rw [hdata, drop_fields 0, drop_zero, take_append_of_le_length (by omega)]
  have hidBytes : ((m.writeHeader ++ body).drop 8).take
      kStunTransactionIdLength = m.transactionId.val.drop 4 := by
    rw [hdata, drop_fields 4, drop_append_of_le_length (by omega)]
    exact take_left' (by simp [hlength, kStunTransactionIdLength])
  have htake : wordAt (m.transactionId.val.take 4) 0 ≠ kStunMagicCookie := by
    rw [wordAt] at hid ⊢
    simpa [take_take] using hid
  rw [packetId, hcookieBytes, hidBytes, if_pos htake, take_append_drop]

theorem StunMessage.write_packetId_of_not_legacy (hlegacy : ¬m.isLegacy) :
    packetId (m.writeHeader ++ body) =
      if m.stunMagicCookie ≠ kStunMagicCookie then
        writeUInt32 m.stunMagicCookie ++ m.transactionId.val
      else m.transactionId.val := by
  have hlength : m.transactionId.val.length = 12 := by
    rcases m.transactionId.length_eq with h | h
    · exact h
    · exact absurd (isLegacy_iff.2 h) hlegacy
  have hdata : m.writeHeader ++ body = writeUInt16 m.type ++
      writeUInt16 m.length ++ (writeUInt32 m.stunMagicCookie ++ (m.transactionId.val ++ body)) := by
    simp [writeHeader, hlegacy]
  have hcookieBytes : ((m.writeHeader ++ body).drop 4).take 4 = writeUInt32 m.stunMagicCookie := by
    rw [hdata]
    exact take_left' (writeUInt32_length _)
  have hidBytes : ((m.writeHeader ++ body).drop 8).take
      kStunTransactionIdLength = m.transactionId.val := by
    rw [hdata]
    exact take_left' hlength
  have hword : wordAt (writeUInt32 m.stunMagicCookie) 0 = m.stunMagicCookie := by
    have h := wordAt_zero m.stunMagicCookie []
    rwa [append_nil] at h
  rw [packetId, hcookieBytes, hidBytes, hword]

theorem StunMessage.write_packetId (hcookie : m.isLegacy ∨ m.stunMagicCookie = kStunMagicCookie)
    (hid : m.isLegacy → wordAt m.transactionId.val 0 ≠ kStunMagicCookie) :
    packetId (m.writeHeader ++ body) = m.transactionId.val := by
  by_cases hlegacy : m.isLegacy
  · exact write_packetId_of_legacy body hlegacy (hid hlegacy)
  · have hcookie : m.stunMagicCookie = kStunMagicCookie := hcookie.resolve_left hlegacy
    rw [write_packetId_of_not_legacy body hlegacy, if_neg (fun h => h hcookie)]

/-! ## Reading a written message -/

/-- What `Read` needs to know of an attribute, besides that it was written. -/
structure Readable (messageClass : MessageClass) (attr : StunAttribute) : Prop where
  valueType : attr.value.valueType = messageClass.readValueType attr.type
  errorClass : attr.value.ErrorClassOk
  size : attr.value.size < 65536

theorem readAttribute_write {body rest : List UInt8} (hreadable : Readable messageClass attr)
    (hwrite : attr.write (some owner) = some body)
    (hrest : c.rest = writeUInt16 attr.type ++ (writeUInt16 attr.length ++ (body ++ rest))) :
    readAttribute messageClass owner c =
      (some ⟨c.pos, (c.advance (4 + body.length)).pos, attr.type, attr.length,
          some attr⟩, c.advance (4 + body.length)) := by
  obtain ⟨blank, hcreate, hread⟩ := StunAttribute.read_write hwrite
    hreadable.size hreadable.errorClass
  rw [hreadable.valueType] at hcreate
  have hrest₁ : (c.advance 2).rest = writeUInt16 attr.length ++ (body ++ rest) := by
    rw [rest_advance, hrest, drop_left' (writeUInt16_length _)]
  have hrest₂ : ((c.advance 2).advance 2).rest = body ++ rest := by
    rw [rest_advance, hrest₁, drop_left' (writeUInt16_length _)]
  have htype := readUInt16_reads attr.type c _ hrest
  have hlength := readUInt16_reads attr.length (c.advance 2) _ hrest₁
  have hvalue := hread ((c.advance 2).advance 2) _ hrest₂
  rw [writeUInt16_length] at htype hlength
  unfold readAttribute
  rw [bind_of_some (get_apply c), bind_of_some htype,
    bind_of_some hlength, MessageClass.createAttribute, hcreate]
  simp only
  rw [bind_of_some hvalue, bind_of_some (get_apply _), pure_apply, advance_advance, advance_advance,
    ← Nat.add_assoc]

theorem writeAttributes_parsed (hwrite : writeAttributes owner attrs = some w)
    (hreadable : ∀ attr ∈ attrs, Readable messageClass attr) (hrest : c.rest = w) :
    ∃ entries, Parsed messageClass owner c entries ∧ storedAttrs entries = attrs := by
  induction attrs generalizing c w with
  | nil =>
    cases hwrite
    refine ⟨[], .done ?_, rfl⟩
    rw [← rest_length, hrest, length_nil]
  | cons attr attrs ih =>
    obtain ⟨body, rest, hbody, htail, rfl⟩ := writeAttributes_cons_eq_some_iff.1 hwrite
    simp only [append_assoc] at hrest
    have hhead := readAttribute_write (hreadable attr mem_cons_self) hbody hrest
    have hnext : (c.advance (4 + body.length)).rest = rest := by
      rw [rest_advance, hrest, drop_attribute]
    have hmore : 0 < c.remaining := by
      rw [← rest_length, hrest, length_append, writeUInt16_length]
      omega
    obtain ⟨entries, hparsed, hstored⟩ := ih htail
      (fun a ha => hreadable a (mem_cons_of_mem _ ha)) hnext
    refine ⟨_, .step hmore hhead hparsed, ?_⟩
    rw [storedAttrs, flatMap_cons, ← storedAttrs, hstored]
    rfl

theorem StunMessage.read_write (hwrite : m.write = some bytes) (fresh : StunMessage)
    (hclass : fresh.messageClass = m.messageClass) (htype : m.type &&& 0x8000 = 0)
    (hcookie : m.isLegacy ∨ m.stunMagicCookie = kStunMagicCookie)
    (hid : m.isLegacy → wordAt m.transactionId.val 0 ≠ kStunMagicCookie)
    (hreadable : ∀ attr ∈ m.attrs, Readable m.messageClass attr)
    (hlength : m.length.toNat = wireSizes m.attrs) :
    ∃ entries copy, fresh.read bytes = (some entries, copy) ∧
      copy.type = m.type ∧ copy.length = m.length ∧
      copy.transactionId = m.transactionId ∧ copy.attrs = m.attrs := by
  obtain ⟨body, hbody, rfl⟩ := write_eq_some_iff.1 hwrite
  have hbodyLen := writeAttributes_length hbody fun a ha => (hreadable a ha).size
  have hheaderLen := m.writeHeader_length
  obtain ⟨htypeField, hlengthField⟩ := m.write_header body
  have hstart : ((start (m.writeHeader ++ body)).advance kStunHeaderSize).rest = body := by
    rw [rest_advance, rest_start, drop_left' hheaderLen]
  obtain ⟨entries, hparsed, hstored⟩ := writeAttributes_parsed hbody hreadable hstart
  have hread := read_eq_some_iff.2 ⟨m.transactionId,
    { size := by rw [length_append]; omega
      type := htypeField ▸ htype
      length := by rw [hlengthField, hlength, length_append, hheaderLen, hbodyLen, Nat.add_comm]
      id_eq := (m.write_packetId body hcookie hid).symm
      parsed := hclass ▸ hparsed }, rfl⟩
  exact ⟨entries, _, hread, htypeField, hlengthField, rfl, hstored⟩

/-! ## Built messages -/

/-- The address of an attribute can be encoded: IPv4 or IPv6, and a XOR
address under a legacy id is IPv4. -/
def StunAttributeValue.AddressFits (id : TransactionId) :
    StunAttributeValue → Prop
  | .address addr => addr.ip ≠ .unspec
  | .xorAddress addr =>
    match addr.ip with
    | .unspec => False
    | .v4 _ => True
    | .v6 _ => id.val.length = kStunTransactionIdLength
  | _ => True

/-- What `AddAttribute` asks of an attribute of a message of this class, and
what `Write` and `Read` can represent. -/
structure Encodable (messageClass : MessageClass) (id : TransactionId)
    (attr : StunAttribute) : Prop where
  valueType : attr.value.valueType = messageClass.readValueType attr.type
  address : attr.value.AddressFits id
  errorClass : attr.value.ErrorClassOk
  length : lengthValid attr.type attr.length.toNat

theorem StunAttributeValue.AddressFits.specified {id : TransactionId}
    {value : StunAttributeValue} (h : value.AddressFits id) :
    value.Specified (some id) := by
  cases value with
  | address addr => exact h
  | xorAddress addr =>
    rcases addr with ⟨ip, port⟩
    cases ip with
    | unspec => exact h.elim
    | v4 v4addr => nofun
    | v6 v6addr =>
      have hid : id.val.length = kStunTransactionIdLength := h
      simp [StunAttributeValue.Specified, IPAddress.xored, hid]
  | _ => trivial

theorem writeAttributes_isSome (h : ∀ attr ∈ attrs, ∃ w, attr.write (some owner) = some w) :
    ∃ w, writeAttributes owner attrs = some w := by
  induction attrs with
  | nil => exact ⟨[], rfl⟩
  | cons attr attrs ih =>
    obtain ⟨body, hbody⟩ := h attr mem_cons_self
    obtain ⟨rest, hrest⟩ := ih fun a ha => h a (mem_cons_of_mem _ ha)
    exact ⟨_, writeAttributes_cons_eq_some_iff.2 ⟨body, rest, hbody, hrest, rfl⟩⟩

theorem StunMessage.write_isSome
    (h : ∀ attr ∈ m.attrs, ∃ w, attr.write (some m.transactionId) = some w) :
    ∃ bytes, m.write = some bytes := by
  obtain ⟨body, hbody⟩ := writeAttributes_isSome h
  exact ⟨m.writeHeader ++ body, write_eq_some_iff.2 ⟨body, hbody, rfl⟩⟩

theorem foldl_addAttribute (m : StunMessage) (h : ∀ attr ∈ attrs, attr.value.size < 65536) :
    attrs.foldl addAttribute m =
      { m with
        length := m.length + UInt16.ofNat (wireSizes attrs)
        attrs := m.attrs ++ attrs } := by
  induction attrs generalizing m with
  | nil => simp
  | cons attr attrs ih =>
    rw [foldl_cons, ih _ fun a ha => h a (mem_cons_of_mem _ ha)]
    simp only [addAttribute, lengthStep_eq (h attr mem_cons_self),
      wireSizes_cons, UInt16.ofNat_add, UInt16.add_assoc, append_assoc,
      singleton_append]

theorem and_topBit_of_lt {type : UInt16} (h : type < 0x8000) : type &&& 0x8000 = 0 := by
  have hbit : type.toNat.testBit 15 = false := Nat.testBit_lt_two_pow h
  apply UInt16.toNat_inj.1
  rw [UInt16.toNat_and, show (0x8000 : UInt16).toNat = 2 ^ 15 from rfl, Nat.and_two_pow, hbit]
  rfl

/-- **STUN decoding undoes encoding.**  A message of any class, built from an
empty one with `AddAttribute` so that its attributes take at most 65535 bytes
on the wire, is written, and a fresh message of the same class reads it back
with the same type, id, length and attributes. -/
theorem read_write_built (m : StunMessage) (attrs : List StunAttribute)
    (hempty : m.attrs = [] ∧ m.length = 0) (htype : m.type < 0x8000)
    (hcookie : m.stunMagicCookie = kStunMagicCookie)
    (hid : m.transactionId.val.length = kStunTransactionIdLength ∨ wordAt m.transactionId.val 0 ≠
      kStunMagicCookie) (hattrs : ∀ attr ∈ attrs, Encodable m.messageClass m.transactionId attr)
    (hsize : wireSizes attrs ≤ 65535) :
    ∃ bytes entries copy, (attrs.foldl addAttribute m).write = some bytes ∧
      (createNew m.messageClass).read bytes = (some entries, copy) ∧
      copy.type = m.type ∧ copy.transactionId = m.transactionId ∧
      copy.length = (attrs.foldl addAttribute m).length ∧
      copy.attrs = attrs := by
  have hsizes : ∀ attr ∈ attrs, attr.value.size < 65536 :=
    fun attr hmem => size_lt_of_mem hmem hsize
  have hbuilt := foldl_addAttribute m hsizes
  rw [hempty.1, hempty.2, UInt16.zero_add] at hbuilt
  rw [hbuilt]
  have hreadable : ∀ attr ∈ attrs, Readable m.messageClass attr :=
    fun attr hmem => ⟨(hattrs attr hmem).valueType, (hattrs attr hmem).errorClass, hsizes attr hmem⟩
  have hlegacy : m.isLegacy → wordAt m.transactionId.val 0 ≠ kStunMagicCookie := by
    intro h
    have hlength := isLegacy_iff.1 h
    rcases hid with hid | hid
    · rw [hlength] at hid
      cases hid
    · exact hid
  have hlength : (UInt16.ofNat (wireSizes attrs)).toNat = wireSizes attrs := by
    rw [UInt16.toNat_ofNat', Nat.mod_eq_of_lt (by omega)]
  obtain ⟨bytes, hwrite⟩ := write_isSome (m :=
    { m with length := UInt16.ofNat (wireSizes attrs), attrs := attrs })
    fun attr hmem => StunAttribute.write_isSome
      (hattrs attr hmem).address.specified (hattrs attr hmem).length
  obtain ⟨entries, copy, hread, htypeEq, hlengthEq, hidEq, hattrsEq⟩ :=
    read_write hwrite (createNew m.messageClass) rfl
      (and_topBit_of_lt htype) (.inr hcookie) hlegacy hreadable hlength
  exact ⟨bytes, entries, copy, hwrite, hread, htypeEq, hidEq, hlengthEq, hattrsEq⟩

/-- Every kind of attribute at once, in a TURN message. -/
def sampleAttrs : List StunAttribute :=
  [⟨stunAttrMappedAddress, .address ⟨.v4 0x01020304, 80⟩⟩,
   ⟨stunAttrXorPeerAddress, .xorAddress ⟨.v6 ⟨1, 2, 3, 4⟩, 443⟩⟩,
   ⟨stunAttrChannelNumber, .uint32 7⟩,
   ⟨stunAttrData, .byteString [1, 2, 3, 4, 5]⟩,
   ⟨stunAttrErrorCode, .errorCode 4 1 [85]⟩,
   ⟨stunAttrUnknownAttributes, .uint16List [9]⟩]

def sampleId : TransactionId := ⟨List.range 12 |>.map UInt8.ofNat, by decide⟩

theorem read_write_built_sample :
    ∃ bytes entries copy,
      (sampleAttrs.foldl addAttribute
        (((createNew .turnMessage).setType 0x0003).setTransactionID sampleId)).write = some bytes ∧
      (createNew .turnMessage).read bytes = (some entries, copy) ∧
      copy.type = 0x0003 ∧ copy.transactionId = sampleId ∧
      copy.length = 76 ∧ copy.attrs = sampleAttrs := by
  have h := read_write_built
    (((createNew .turnMessage).setType 0x0003).setTransactionID
      sampleId) sampleAttrs ⟨rfl, rfl⟩ (by decide) rfl (.inl (by decide))
    (by
      intro attr hmem
      simp only [sampleAttrs, mem_cons, not_mem_nil, or_false] at hmem
      rcases hmem with rfl | rfl | rfl | rfl | rfl | rfl
      · exact ⟨by decide, nofun, trivial, by decide⟩
      · exact ⟨by decide, rfl, trivial, by decide⟩
      · exact ⟨by decide, trivial, trivial, by decide⟩
      · exact ⟨by decide, trivial, trivial, by decide⟩
      · exact ⟨by decide, trivial, show (4 : UInt8) ≤ 7 by decide, by decide⟩
      · exact ⟨by decide, trivial, trivial, by decide⟩)
    (by decide)
  exact h

/-! ## Received messages -/

/-- The stored attributes are as long as the objects they were read into. -/
def AllSpecified (owner : TransactionId) (attrs : List StunAttribute) : Prop :=
  ∀ attr ∈ attrs, attr.value.Specified (some owner)

theorem not_specified_unspec (owner : Option TransactionId) (port : UInt16) :
    ¬StunAttributeValue.Specified owner (.xorAddress ⟨.unspec, port⟩) := by
  cases owner <;> exact fun h => h rfl

theorem parsed_balance {entries : List AttributeEntry} (h : Parsed messageClass owner c entries)
    (hspec : AllSpecified owner (storedAttrs entries)) :
    ((∀ entry ∈ entries, messageClass.readValueType entry.type ≠ .unknown) ∧
      c.remaining ≤ wireSizes (storedAttrs entries) ∧
      wireSizes (storedAttrs entries) ≤ c.remaining + 3) ∨
    ((∃ entry ∈ entries, messageClass.readValueType entry.type = .unknown) ∧
      wireSizes (storedAttrs entries) < c.remaining) := by
  induction h with
  | done h => exact .inl ⟨nofun, Nat.le_of_eq h, Nat.zero_le _⟩
  | @step c c₁ entry entries hmore hread hrest ih =>
    obtain ⟨hfour, -, -, -, -, k, hshape, hc₁⟩ := readAttribute_shape hread
    have hremaining : c₁.remaining = c.remaining - (4 + k) := by rw [hc₁, advance_remaining]
    rw [storedAttrs_cons] at hspec ⊢
    have hrestSpec : AllSpecified owner (storedAttrs entries) :=
      fun attr hmem => hspec attr (mem_append_right _ hmem)
    have hbalance := ih hrestSpec
    cases hshape with
    | skipped hcreate hattr hfits =>
      have hunknown : messageClass.readValueType entry.type = .unknown :=
        create_eq_none_iff.1 hcreate
      rw [hattr]
      refine .inr ⟨⟨entry, mem_cons_self, hunknown⟩, ?_⟩
      simp only [Option.toList_none, nil_append]
      rcases hbalance with ⟨-, -, hle⟩ | ⟨-, hlt⟩ <;> omega
    | stored blank value hcreate hattr hfits hvalue =>
      have hknown : messageClass.readValueType entry.type ≠ .unknown := by
        intro hunknown
        rw [MessageClass.createAttribute, create_eq_none_iff.2 hunknown] at hcreate
        cases hcreate
      rw [hattr] at hspec ⊢
      have hvalueSpec : value.Specified (some owner) := hspec ⟨entry.type, value⟩ mem_cons_self
      have hsize : value.size = blank.length.toNat := by
        rcases hvalue.2.2 with ⟨hsize, -⟩ | ⟨port, rfl⟩
        · exact hsize
        · exact absurd hvalueSpec (not_specified_unspec _ _)
      have hpadLe := paddedLength_le blank.length.toNat
      simp only [Option.toList_some, singleton_append, wireSizes_cons,
        StunAttribute.wireSize, hsize, forall_mem_cons]
      by_cases hpad : paddedLength blank.length.toNat ≤ c.remaining - 4
      · rw [bodyConsumed, if_pos hpad] at hremaining
        rcases hbalance with ⟨hall, hle, hge⟩ | ⟨⟨e, hmem, he⟩, hlt⟩
        · exact .inl ⟨⟨hknown, hall⟩, by omega, by omega⟩
        · exact .inr ⟨⟨e, mem_cons_of_mem _ hmem, he⟩, by omega⟩
      · -- The padding is missing, so this was the last attribute.
        rw [bodyConsumed, if_neg hpad] at hremaining
        obtain ⟨hzero, rfl⟩ := hrest.eq_nil_of_lt (by omega)
        have hnone : wireSizes (storedAttrs []) = 0 := rfl
        exact .inl ⟨⟨hknown, nofun⟩, by omega, by omega⟩

theorem Parsed.readable {entries : List AttributeEntry} (h : Parsed messageClass owner c entries) :
    ∀ attr ∈ storedAttrs entries, Readable messageClass attr ∧
      (attr.value.Specified (some owner) ∨ ∃ port, attr.value = .xorAddress ⟨.unspec, port⟩) := by
  induction h with
  | done h => exact nofun
  | @step c c₁ entry entries hmore hread hrest ih =>
    intro attr hmem
    obtain ⟨-, -, -, -, -, k, hshape, -⟩ := readAttribute_shape hread
    rw [storedAttrs_cons, mem_append] at hmem
    rcases hmem with hmem | hmem
    · cases hshape with
      | skipped hcreate hattr hfits =>
        rw [hattr] at hmem
        cases hmem
      | stored blank value hcreate hattr hfits hvalue =>
        rw [hattr, Option.toList_some, mem_singleton] at hmem
        subst hmem
        obtain ⟨htype, hclass, hsize⟩ := hvalue
        have hlt := blank.length.toNat_lt
        have hvalueType := htype.trans (create_valueType hcreate)
        rcases hsize with ⟨hsize, hspec⟩ | ⟨port, rfl⟩
        · exact ⟨⟨hvalueType, hclass, by simp only; omega⟩, .inl hspec⟩
        · exact ⟨⟨hvalueType, hclass, show 0 < 65536 by decide⟩, .inr ⟨port, rfl⟩⟩
    · exact ih attr hmem

theorem wordAt_packetId (hsize : kStunHeaderSize ≤ bytes.length)
    (hlegacy : (packetId bytes).length = kStunLegacyTransactionIdLength) :
    wordAt (packetId bytes) 0 ≠ kStunMagicCookie := by
  unfold kStunHeaderSize at hsize
  unfold kStunLegacyTransactionIdLength at hlegacy
  by_cases hcookie : wordAt ((bytes.drop 4).take 4) 0 ≠ kStunMagicCookie
  · rw [packetId, if_pos hcookie]
    rw [wordAt, drop_zero] at hcookie ⊢
    rwa [take_append_of_le_length (by simp; omega)]
  · rw [packetId, if_neg hcookie] at hlegacy
    simp [kStunTransactionIdLength] at hlegacy
    omega

def StunMessage.clone (m : StunMessage) : Option StunMessage := do
  let bytes ← m.write
  match (createNew m.messageClass).read bytes with
  | (some _, copy) => some copy
  | (none, _) => none

/-- `Clone` made a copy, as far as the wire format goes. -/
def ClonesFaithfully (m : StunMessage) : Prop :=
  ∃ copy, m.clone = some copy ∧ copy.type = m.type ∧
    copy.transactionId = m.transactionId ∧ copy.attrs = m.attrs

theorem clone_eq_some_iff {copy : StunMessage} :
    m.clone = some copy ↔ ∃ bytes entries, m.write = some bytes ∧
      (createNew m.messageClass).read bytes = (some entries, copy) := by
  unfold clone
  simp only [Option.bind_eq_bind, Option.bind_eq_some_iff]
  constructor
  · rintro ⟨bytes, hwrite, hread⟩
    split at hread
    case h_1 entries copy' hcopy =>
      cases hread
      exact ⟨bytes, entries, hwrite, hcopy⟩
    case h_2 => cases hread
  · rintro ⟨bytes, entries, hwrite, hread⟩
    exact ⟨bytes, hwrite, by rw [hread]⟩

theorem writeAttributes_forall (h : writeAttributes owner attrs = some w) :
    AllSpecified owner attrs := by
  induction attrs generalizing w with
  | nil => exact nofun
  | cons attr attrs ih =>
    obtain ⟨body, rest, hbody, hrest, -⟩ := writeAttributes_cons_eq_some_iff.1 h
    intro a hmem
    cases hmem with
    | head => exact StunAttribute.specified_of_write hbody
    | tail _ hmem => exact ih hrest a hmem

private theorem ClonesFaithfully.length_eq (h : ClonesFaithfully m)
    (hsize : ∀ attr ∈ m.attrs, attr.value.size < 65536) :
    AllSpecified m.transactionId m.attrs ∧ m.length.toNat = wireSizes m.attrs ∧
      (m.isLegacy ∨ m.stunMagicCookie = kStunMagicCookie) := by
  obtain ⟨copy, hclone, -, hcopyId, -⟩ := h
  obtain ⟨bytes, entries, hwrite, hread⟩ := clone_eq_some_iff.1 hclone
  obtain ⟨id, haccepts, rfl⟩ := read_eq_some_iff.1 hread
  obtain ⟨body, hbody, rfl⟩ := write_eq_some_iff.1 hwrite
  refine ⟨writeAttributes_forall hbody, ?_, ?_⟩
  · have hlength := haccepts.length
    rw [(m.write_header body).2, length_append, m.writeHeader_length,
      writeAttributes_length hbody hsize] at hlength
    omega
  · by_cases hlegacy : m.isLegacy
    · exact .inl hlegacy
    · refine .inr (Decidable.byContradiction fun hcookie => ?_)
      have hid := haccepts.id_eq
      have hidEq : id = m.transactionId := hcopyId
      rw [write_packetId_of_not_legacy body hlegacy, if_pos hcookie, hidEq] at hid
      have hlengths := congrArg List.length hid
      rw [length_append, writeUInt32_length] at hlengths
      omega

/-- **Which received messages `Clone` copies.**  The attributes a class does
not know, missing padding at the end of the packet and XOR addresses that
could not be unmasked are lost in the message but not in its length field, or
cannot be written. -/
theorem clone_read_iff {m received : StunMessage} {bytes : List UInt8}
    {entries : List AttributeEntry} (hread : m.read bytes = (some entries, received))
    (hvalid : ∀ attr ∈ received.attrs, lengthValid attr.type attr.length.toNat) :
    ClonesFaithfully received ↔
      (∀ entry ∈ entries, m.messageClass.readValueType entry.type ≠ .unknown) ∧
      bytes.length % 4 = 0 ∧
      (∀ attr ∈ received.attrs, ∀ port, attr.value ≠ .xorAddress ⟨.unspec, port⟩) ∧
      (received.isLegacy ∨ received.stunMagicCookie = kStunMagicCookie) := by
  obtain ⟨id, haccepts, rfl⟩ := read_eq_some_iff.1 hread
  have hreadable := haccepts.parsed.readable
  have hremaining : ((start bytes).advance kStunHeaderSize).remaining =
      (getBE16 bytes 2).toNat := by
    rw [advance_remaining]
    exact Nat.sub_eq_of_eq_add haccepts.length.symm
  have hmod := wireSizes_mod (storedAttrs entries)
  have hsize := haccepts.length
  unfold kStunHeaderSize at hsize
  constructor
  · intro hclone
    obtain ⟨hspec, hlength, hcookie⟩ := hclone.length_eq
      fun attr hmem => (hreadable attr hmem).1.size
    have hlength' : (getBE16 bytes 2).toNat = wireSizes (storedAttrs entries) := hlength
    rcases parsed_balance haccepts.parsed hspec with ⟨hall, -, -⟩ | ⟨-, hlt⟩
    · refine ⟨hall, by omega, ?_, hcookie⟩
      intro attr hmem port hport
      have hattrSpec := hspec attr hmem
      rw [hport] at hattrSpec
      exact not_specified_unspec _ _ hattrSpec
    · omega
  · rintro ⟨hall, hfour, hports, hcookie⟩
    have hspec : AllSpecified id (storedAttrs entries) := by
      intro attr hmem
      rcases (hreadable attr hmem).2 with h | ⟨port, hport⟩
      · exact h
      · exact absurd hport (hports attr hmem port)
    have hlength : (getBE16 bytes 2).toNat = wireSizes (storedAttrs entries) := by
      rcases parsed_balance haccepts.parsed hspec with
        ⟨-, hle, hge⟩ | ⟨⟨entry, hmem, hunknown⟩, -⟩
      · omega
      · exact absurd hunknown (hall entry hmem)
    have hid : (m.withPacket bytes id (storedAttrs entries)).isLegacy →
        wordAt id.val 0 ≠ kStunMagicCookie := by
      intro hlegacy
      have hlegacyLen := isLegacy_iff.1 hlegacy
      rw [haccepts.id_eq]
      exact wordAt_packetId haccepts.size (haccepts.id_eq ▸ hlegacyLen)
    obtain ⟨copyBytes, hwrite⟩ := write_isSome (m := m.withPacket bytes id (storedAttrs entries))
      fun attr hmem => StunAttribute.write_isSome (hspec attr hmem) (hvalid attr hmem)
    obtain ⟨copyEntries, copy, hcopy, htypeEq, -, hidEq, hattrsEq⟩ :=
      read_write hwrite (createNew m.messageClass) rfl
        haccepts.type hcookie hid (fun attr hmem => (hreadable attr hmem).1)
        hlength
    exact ⟨copy, clone_eq_some_iff.2 ⟨copyBytes, copyEntries, hwrite, hcopy⟩,
      htypeEq, hidEq, hattrsEq⟩

/-- A binding request with one attribute of four bytes. -/
def oneAttributePacket (attrType : UInt8) : List UInt8 :=
  [0, 1, 0, 8, 0x21, 0x12, 0xA4, 0x42, 0, 1, 2, 3, 4, 5, 6, 7, 8, 9, 10, 11,
   0, attrType, 0, 4, 97, 98, 99, 100]

/-- What a fresh `StunMessage` holds after it has read that packet. -/
def oneAttributeMessage (attrType : UInt8) : StunMessage :=
  ((createNew .stunMessage).read (oneAttributePacket attrType)).2

theorem clone_read_username : ClonesFaithfully (oneAttributeMessage 6) := by
  have hread : (createNew .stunMessage).read (oneAttributePacket 6) =
      (some [⟨20, 28, 6, 4, some ⟨6, .byteString [97, 98, 99, 100]⟩⟩], oneAttributeMessage 6) := by
    decide +kernel
  have hattrs : (oneAttributeMessage 6).attrs = [⟨6, .byteString [97, 98, 99, 100]⟩] := by
    decide +kernel
  refine (clone_read_iff hread ?_).2
    ⟨by decide +kernel, by decide +kernel, ?_, .inr (by decide +kernel)⟩
  · decide
  · intro attr hmem port
    rw [hattrs, mem_singleton] at hmem
    rw [hmem]
    nofun

/-- The attribute type `0x0002` is unknown: `Read` skips the attribute and
keeps the length field, so `Clone` writes a packet that `Read` refuses. -/
theorem clone_unknown_attribute :
    ((createNew .stunMessage).read (oneAttributePacket 2)).1 = some [⟨20, 28, 2, 4, none⟩] ∧
      (oneAttributeMessage 2).attrs = [] ∧
      ¬ClonesFaithfully (oneAttributeMessage 2) := by
  refine ⟨by decide +kernel, by decide +kernel, ?_⟩
  rintro ⟨copy, hcopy, -⟩
  cases hcopy

end WebrtcCore.Ports.Stun
