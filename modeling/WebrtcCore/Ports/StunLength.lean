import WebrtcCore.Ports.StunCompare
import WebrtcCore.Ports.StunFingerprint
import WebrtcCore.Verified.Simulation

/-!
# The length field (`api/transport/stun.cc`)

`AddAttribute` adds the padded length of its attribute to `length_` and
`RemoveAttribute` takes it off again, both in 16 bits.  The length of an
attribute is a 16-bit number as well; an error code with a long reason and a
long list of attribute types have more bytes than it says, and `Write` emits
them all.
-/

namespace WebrtcCore.Ports.Stun

open Verified.Simulation Ports.ByteBuffer List StunMessage

/-- The size of the attributes by their length fields: for each of them a header
and the length rounded up to a multiple of four. -/
def bodySize (attrs : List StunAttribute) : Nat :=
  (attrs.map fun attr => 4 + paddedLength attr.length.toNat).sum

@[simp] theorem bodySize_cons (attr : StunAttribute) (attrs : List StunAttribute) :
    bodySize (attr :: attrs) = 4 + paddedLength attr.length.toNat + bodySize attrs := rfl

theorem bodySize_append (attrs attrs' : List StunAttribute) :
    bodySize (attrs ++ attrs') = bodySize attrs + bodySize attrs' := by
  simp [bodySize]

/-! ## What is emitted -/

theorem StunAttribute.write_length_eq {attr : StunAttribute} {owner : Option TransactionId}
    {w : List UInt8} (h : attr.write owner = some w) :
    w.length = attr.shown.size + (writePadding attr.length).length := by
  obtain ⟨body, rfl, hbody⟩ := StunAttribute.write_body h
  rw [length_append]
  congr 1
  rcases hbody with ⟨htype, hsame⟩ | ⟨bytes, hvalue, rfl⟩
  · rw [hsame, value_eq_of_shown attr htype]
  · rw [StunAttribute.shown, hvalue]
    rfl

theorem shown_size_mod (attr : StunAttribute) : attr.shown.size % 65536 = attr.length.toNat := by
  rw [← (shown_write attr none).1, StunAttribute.length, UInt16.toNat_ofNat']

theorem StunAttribute.write_length_iff {attr : StunAttribute} {owner : Option TransactionId}
    {w : List UInt8} (h : attr.write owner = some w) :
    paddedLength attr.length.toNat ≤ w.length ∧
      (w.length = paddedLength attr.length.toNat ↔ attr.shown.size < 65536) := by
  have hlength := StunAttribute.write_length_eq h
  have hmod := shown_size_mod attr
  have hpad := writePadding_length attr.length
  omega

theorem writeAttributes_length_iff {owner : TransactionId} {attrs : List StunAttribute}
    {w : List UInt8} (h : writeAttributes owner attrs = some w) :
    bodySize attrs ≤ w.length ∧
      (w.length = bodySize attrs ↔ ∀ attr ∈ attrs, attr.shown.size < 65536) := by
  induction attrs generalizing w with
  | nil =>
    cases h
    simp [bodySize]
  | cons attr attrs ih =>
    obtain ⟨body, rest, hbody, hrest, rfl⟩ := writeAttributes_cons_eq_some_iff.1 h
    obtain ⟨hle, hiff⟩ := StunAttribute.write_length_iff hbody
    obtain ⟨hrestLe, hrestIff⟩ := ih hrest
    have hlength : (writeUInt16 attr.type ++ writeUInt16 attr.length ++ body ++ rest).length =
        4 + body.length + rest.length := by
      simp
      omega
    rw [forall_mem_cons, ← hrestIff, bodySize_cons]
    omega

/-! ## The edits -/

/-- The calls that change the attributes of a message. -/
inductive Edit
  | addAttribute (attr : StunAttribute)
  | removeAttribute (type : UInt16)
  | clearAttributes
  | addMessageIntegrity (kind : IntegrityKind) (password : List UInt8)
  | addFingerprint

def StunMessage.edit (hmac : Hmac) (m : StunMessage) : Edit → StunMessage
  | .addAttribute attr => m.addAttribute attr
  | .removeAttribute type => (m.removeAttribute type).2
  | .clearAttributes => m.clearAttributes
  | .addMessageIntegrity kind password => (kind.add hmac m password).2
  | .addFingerprint => m.addFingerprint.2

/-- The length field counts the attributes. -/
def StunMessage.Counted (m : StunMessage) : Prop := m.length = UInt16.ofNat (bodySize m.attrs)

section Edits

variable {m : StunMessage}

theorem lengthStep_eq_bodySize (attr : StunAttribute) :
    lengthStep attr = UInt16.ofNat (bodySize [attr]) := by
  rw [lengthStep, Nat.add_comm]
  rfl

theorem StunMessage.Counted.append (h : m.Counted) {m₁ : StunMessage}
    {attr dummy : StunAttribute} (hlength : m₁.length = m.length + lengthStep dummy)
    (hattrs : m₁.attrs = m.attrs ++ [attr]) (hsame : attr.length = dummy.length) :
    m₁.Counted := by
  have hstep : lengthStep dummy = lengthStep attr := by rw [lengthStep, lengthStep, hsame]
  unfold StunMessage.Counted
  rw [hlength, hattrs, hstep, bodySize_append, UInt16.ofNat_add, ← lengthStep_eq_bodySize, ← h]

theorem StunMessage.Counted.addAttribute (h : m.Counted) (attr : StunAttribute) :
    (m.addAttribute attr).Counted :=
  h.append rfl rfl rfl

theorem removeLast_eq_some {type : UInt16} {attrs rest : List StunAttribute}
    {removed : StunAttribute} (h : removeLast type attrs = some (removed, rest)) :
    bodySize attrs = bodySize rest + bodySize [removed] := by
  induction attrs generalizing rest with
  | nil => cases h
  | cons attr attrs ih =>
    simp only [removeLast] at h
    split at h
    case h_1 removed' rest' hrest =>
      cases h
      rw [bodySize_cons, ih hrest, bodySize_cons attr rest', ← Nat.add_assoc]
    case h_2 =>
      split at h
      · cases h
        simp [bodySize]
        omega
      · cases h

theorem StunMessage.Counted.removeAttribute (h : m.Counted) (type : UInt16) :
    (m.removeAttribute type).2.Counted := by
  unfold StunMessage.removeAttribute
  split
  case h_1 removed rest hremoved =>
    show m.length - lengthStep removed = UInt16.ofNat (bodySize rest)
    rw [lengthStep_eq_bodySize, h, removeLast_eq_some hremoved, UInt16.ofNat_add,
      UInt16.add_sub_cancel]
  case h_2 => exact h

theorem StunMessage.Counted.addMessageIntegrity (h : m.Counted) (hmac : Hmac)
    (kind : IntegrityKind) (password : List UInt8) :
    (kind.add hmac m password).2.Counted := by
  rw [kind.add_eq]
  unfold addMessageIntegrityOfType
  simp only
  split
  · exact h.addAttribute _
  · refine h.append rfl rfl ?_
    rw [StunAttribute.length]
    simp only [StunAttributeValue.size, length_take, hmac.length_compute]
    cases kind <;> rfl

theorem StunMessage.Counted.addFingerprint (h : m.Counted) : m.addFingerprint.2.Counted := by
  unfold StunMessage.addFingerprint
  simp only
  split
  · exact h.addAttribute _
  · exact h.append rfl rfl rfl

theorem StunMessage.Counted.edit (h : m.Counted) (hmac : Hmac) (e : Edit) :
    (m.edit hmac e).Counted := by
  cases e with
  | addAttribute attr => exact h.addAttribute attr
  | removeAttribute type => exact h.removeAttribute type
  | clearAttributes => rfl
  | addMessageIntegrity kind password => exact h.addMessageIntegrity hmac kind password
  | addFingerprint => exact h.addFingerprint

theorem removeLast_append (attrs : List StunAttribute) (attr : StunAttribute) :
    removeLast attr.type (attrs ++ [attr]) = some (attr, attrs) := by
  induction attrs with
  | nil => simp [removeLast]
  | cons head tail ih => simp only [cons_append, removeLast, ih]

theorem removeAttribute_addAttribute (m : StunMessage) (attr : StunAttribute) :
    (m.addAttribute attr).removeAttribute attr.type = (some attr, m) := by
  simp [StunMessage.removeAttribute, addAttribute, removeLast_append]

end Edits

theorem StunMessage.Counted.write_length_iff {m : StunMessage} (h : m.Counted)
    {data : List UInt8} (hwrite : m.write = some data) (hsize : bodySize m.attrs < 65536) :
    data.length = kStunHeaderSize + m.length.toNat ↔ ∀ attr ∈ m.attrs, attr.shown.size < 65536 := by
  obtain ⟨w, hw, rfl⟩ := write_eq_some_iff.1 hwrite
  have hlength : m.length.toNat = bodySize m.attrs := by
    rw [h, UInt16.toNat_ofNat', Nat.mod_eq_of_lt hsize]
  rw [← (writeAttributes_length_iff hw).2, length_append, m.writeHeader_length, hlength,
    Nat.add_right_inj]

/-- **The length field.**  After any edits of a new message it is the size of the
attributes modulo `2 ^ 16`; if that is a 16-bit number, `Write` emits as many bytes
after the header, provided that no attribute has more than its own length field says;
and an attribute that has just been added can be removed again. -/
theorem length_edit (hmac : Hmac) (messageClass : MessageClass) (edits : List Edit)
    {m : StunMessage} (hm : m = edits.foldl (edit hmac) (createNew messageClass)) :
    m.length.toNat = bodySize m.attrs % 2 ^ 16 ∧
      (∀ data, m.write = some data → bodySize m.attrs < 65536 →
        (data.length = 20 + m.length.toNat ↔ ∀ attr ∈ m.attrs, attr.shown.size < 65536)) ∧
      ∀ attr, (m.addAttribute attr).removeAttribute attr.type = (some attr, m) := by
  have hcounted : m.Counted := by
    rw [hm]
    exact foldl_keeps (fun _ e h => h.edit hmac e) edits rfl
  refine ⟨?_, fun data hwrite hsize => hcounted.write_length_iff hwrite hsize,
    removeAttribute_addAttribute m⟩
  rw [hcounted, UInt16.toNat_ofNat']

/-- A message with a user name, signed. -/
theorem length_edit_username :
    ∃ m data, m = [Edit.addAttribute ⟨stunAttrUsername, .byteString [97, 98, 99]⟩,
          .addMessageIntegrity .messageIntegrity [112, 119]].foldl
            (edit checksumHmac) (createNew .stunMessage) ∧
      m.write = some data ∧ data.length = 20 + m.length.toNat := by
  refine ⟨_, _, rfl, rfl, ?_⟩
  refine ((length_edit checksumHmac .stunMessage [.addAttribute
    ⟨stunAttrUsername, .byteString [97, 98, 99]⟩,
    .addMessageIntegrity .messageIntegrity [112, 119]] rfl).2.1 _ rfl ?_).2 ?_
  · decide +kernel
  · decide +kernel

/-- A message with a list of unknown attributes. -/
def unknownAttributes (attrTypes : List UInt16) : StunMessage :=
  (createNew .stunMessage).addAttribute
    ⟨stunAttrUnknownAttributes, .uint16List attrTypes⟩

theorem unknownAttributes_length {attrTypes : List UInt16} (h : attrTypes.length = 32768) :
    ∃ data, (unknownAttributes attrTypes).write = some data ∧
      bodySize (unknownAttributes attrTypes).attrs = 4 ∧
      (unknownAttributes attrTypes).length = 4 ∧ data.length = 20 + 4 + 65536 := by
  have hlength : (StunAttribute.mk stunAttrUnknownAttributes (.uint16List attrTypes)).length =
      0 := by
    rw [StunAttribute.length, StunAttributeValue.size, h]
    rfl
  refine ⟨_, write_eq_some_iff.2 ⟨_, writeAttributes_cons_eq_some_iff.2
    ⟨_, [], rfl, rfl, rfl⟩, rfl⟩, ?_, ?_, ?_⟩
  · show bodySize [_] = 4
    rw [bodySize_cons, hlength]
    rfl
  · show 0 + lengthStep _ = 4
    rw [lengthStep, hlength]
    rfl
  · simp only [length_append, writeHeader_length, hlength, flatMap_writeUInt16_length, h]
    rfl

/-- The message says four bytes and `Write` emits more. -/
theorem length_unknownAttributes :
    ∃ data, (unknownAttributes (List.replicate 32768 0)).write = some data ∧
      bodySize (unknownAttributes (List.replicate 32768 0)).attrs < 65536 ∧
      (unknownAttributes (List.replicate 32768 0)).length.toNat = 4 ∧
      data.length = 20 + 4 + 65536 := by
  obtain ⟨data, hwrite, hsize, hlength, hdata⟩ :=
    unknownAttributes_length (length_replicate (n := 32768) (a := (0 : UInt16)))
  exact ⟨data, hwrite, by rw [hsize]; decide, by rw [hlength]; decide, hdata⟩

end WebrtcCore.Ports.Stun
