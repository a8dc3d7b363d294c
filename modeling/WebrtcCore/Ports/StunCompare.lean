import WebrtcCore.Ports.StunRoundTrip

/-!
# Comparing and copying attributes (`api/transport/stun.cc`)

`EqualAttributes` compares two messages by the bodies that `Write` produces for
their attributes, and `CopyStunAttribute` copies an attribute by writing it and
reading it back.  Neither looks at the fields of the attributes, and both
inherit what the wire format leaves out: a body does not tell its length from
its padding, a lookup by type finds the first attribute only, and a copy that is
read without an owner has nothing to unmask a XOR address with.
-/

namespace WebrtcCore.Ports.Stun

open Verified Cursor Ports.ByteBuffer List Option

namespace StunMessage

/-- What an attribute of the message leaves in a cleared buffer.  A `Write` that
fails does so before it has written anything. -/
def body (m : StunMessage) (attr : StunAttribute) : List UInt8 :=
  (attr.write (some m.transactionId)).getD []

def equalAttributes (m other : StunMessage) (attributeTypeMask : UInt16 → Bool) : Bool :=
  (m.attrs.all fun attr =>
    !attributeTypeMask attr.type ||
      match other.getAttribute attr.type with
      | none => false
      | some otherAttr => m.body attr = other.body otherAttr) &&
  -- the values have been compared by now
  other.attrs.all fun attr =>
    !attributeTypeMask attr.type || (m.getAttribute attr.type).isSome

end StunMessage

/-! ## Finding an attribute -/

section Lookup

variable {m : StunMessage} {attr : StunAttribute} {type : UInt16}

theorem mem_of_getAttribute (h : m.getAttribute type = some attr) :
    attr ∈ m.attrs ∧ attr.type = type := by
  refine ⟨mem_of_find?_eq_some h, ?_⟩
  simpa only [decide_eq_true_eq] using find?_some h

theorem getAttribute_isSome (h : attr ∈ m.attrs) :
    ∃ first, m.getAttribute attr.type = some first := by
  cases hfind : m.getAttribute attr.type with
  | some first => exact ⟨first, rfl⟩
  | none =>
    have hnone := find?_eq_none.1 hfind attr h
    simp at hnone

/-- No type occurs twice. -/
def StunMessage.TypesDistinct (m : StunMessage) : Prop :=
  m.attrs.Pairwise fun x y => x.type ≠ y.type
  deriving Decidable

theorem getAttribute_of_mem (h : m.TypesDistinct) (hmem : attr ∈ m.attrs) :
    m.getAttribute attr.type = some attr := by
  unfold StunMessage.TypesDistinct at h
  unfold StunMessage.getAttribute
  generalize m.attrs = attrs at h hmem
  induction attrs with
  | nil => cases hmem
  | cons head tail ih =>
    rw [pairwise_cons] at h
    cases hmem with
    | head => simp
    | tail _ htail =>
      rw [find?_cons_of_neg (by simpa using h.1 attr htail)]
      exact ih h.2 htail

theorem eq_of_type_eq (h : m.TypesDistinct) {attr' : StunAttribute} (hmem : attr ∈ m.attrs)
    (hmem' : attr' ∈ m.attrs) (htype : attr.type = attr'.type) : attr = attr' := by
  have hfound := getAttribute_of_mem h hmem
  rw [htype, getAttribute_of_mem h hmem'] at hfound
  exact (some.inj hfound).symm

end Lookup

/-! ## What is compared -/

section Compare

variable {a b c : StunMessage} {mask : UInt16 → Bool}

theorem equalAttributes_iff : a.equalAttributes b mask = true ↔
    (∀ x ∈ a.attrs, mask x.type → ∃ y, b.getAttribute x.type = some y ∧ a.body x = b.body y) ∧
      ∀ y ∈ b.attrs, mask y.type → ∃ x, a.getAttribute y.type = some x := by
  unfold StunMessage.equalAttributes
  rw [Bool.and_eq_true, List.all_eq_true, List.all_eq_true]
  refine and_congr (forall_congr' fun x => forall_congr' fun _ => ?_)
    (forall_congr' fun y => forall_congr' fun _ => ?_)
  · rw [Bool.or_eq_true, Bool.not_eq_true', ← Bool.not_eq_true, ← Decidable.imp_iff_not_or]
    cases b.getAttribute x.type <;> simp
  · rw [Bool.or_eq_true, Bool.not_eq_true', ← Bool.not_eq_true, ← Decidable.imp_iff_not_or,
      isSome_iff_exists]

/-! ### Values -/

/-- The bytes of the value: what `Write` puts in front of the padding. -/
def StunMessage.valueBytes (m : StunMessage) (attr : StunAttribute) : List UInt8 :=
  (m.body attr).take ((m.body attr).length - (writePadding attr.length).length)

/-- Every attribute can be written. -/
def StunMessage.Writable (m : StunMessage) : Prop :=
  ∀ attr ∈ m.attrs, (attr.write (some m.transactionId)).isSome
  deriving Decidable

theorem body_eq_valueBytes {m : StunMessage} (h : m.Writable) {attr : StunAttribute}
    (hmem : attr ∈ m.attrs) :
    m.body attr = m.valueBytes attr ++ writePadding attr.length := by
  obtain ⟨w, hw⟩ := isSome_iff_exists.1 (h attr hmem)
  obtain ⟨value, rfl, -⟩ := StunAttribute.write_body hw
  have hbody : m.body attr = value ++ writePadding attr.length := by
    rw [StunMessage.body, hw, getD_some]
  rw [StunMessage.valueBytes, hbody, length_append, Nat.add_sub_cancel, take_left]

/-- Neither message has an attribute of the type. -/
def BothLack (a b : StunMessage) (type : UInt16) : Prop :=
  (∀ x ∈ a.attrs, x.type ≠ type) ∧ ∀ y ∈ b.attrs, y.type ≠ type

/-- Both messages have an attribute of the type, with the same length and the same
bytes of the value, or neither has one. -/
def SameValue (a b : StunMessage) (type : UInt16) : Prop :=
  (∃ x ∈ a.attrs, ∃ y ∈ b.attrs, x.type = type ∧ y.type = type ∧
    x.length = y.length ∧ a.valueBytes x = b.valueBytes y) ∨ BothLack a b type

/-- Both messages have an attribute of the type, with different lengths, but the
padding makes one body of them. -/
def PaddingHides (a b : StunMessage) (type : UInt16) : Prop :=
  ∃ x ∈ a.attrs, ∃ y ∈ b.attrs, x.type = type ∧ y.type = type ∧
    x.length ≠ y.length ∧ a.body x = b.body y

/-- What the comparison sees of a type. -/
def SameBody (a b : StunMessage) (type : UInt16) : Prop :=
  (∃ x ∈ a.attrs, ∃ y ∈ b.attrs, x.type = type ∧ y.type = type ∧ a.body x = b.body y) ∨
    BothLack a b type

theorem sameBody_iff (ha : a.Writable) (hb : b.Writable) {type : UInt16} :
    SameBody a b type ↔ SameValue a b type ∨ PaddingHides a b type := by
  constructor
  · rintro (⟨x, hx, y, hy, hxt, hyt, hbody⟩ | hlack)
    · by_cases hlen : x.length = y.length
      · refine .inl (.inl ⟨x, hx, y, hy, hxt, hyt, hlen, ?_⟩)
        rw [body_eq_valueBytes ha hx, body_eq_valueBytes hb hy, hlen] at hbody
        exact append_cancel_right hbody
      · exact .inr ⟨x, hx, y, hy, hxt, hyt, hlen, hbody⟩
    · exact .inl (.inr hlack)
  · rintro ((⟨x, hx, y, hy, hxt, hyt, hlen, hvalue⟩ | hlack) | ⟨x, hx, y, hy, hxt, hyt, -, hbody⟩)
    · refine .inl ⟨x, hx, y, hy, hxt, hyt, ?_⟩
      rw [body_eq_valueBytes ha hx, body_eq_valueBytes hb hy, hlen, hvalue]
    · exact .inr hlack
    · exact .inl ⟨x, hx, y, hy, hxt, hyt, hbody⟩

theorem equalAttributes_iff_sameBody (ha : a.TypesDistinct) (hb : b.TypesDistinct) :
    a.equalAttributes b mask = true ↔ ∀ type, mask type → SameBody a b type := by
  rw [equalAttributes_iff]
  constructor
  · rintro ⟨hfirst, hsecond⟩ type htype
    by_cases hlack : BothLack a b type
    · exact .inr hlack
    · refine .inl ?_
      have hx : ∃ x ∈ a.attrs, x.type = type := by
        refine Classical.byContradiction fun hnone => hlack ⟨fun x hx hxt => hnone ⟨x, hx, hxt⟩, ?_⟩
        intro y hy hyt
        obtain ⟨x, hfound⟩ := hsecond y hy (hyt ▸ htype)
        obtain ⟨hx, hxt⟩ := mem_of_getAttribute hfound
        exact hnone ⟨x, hx, hxt.trans hyt⟩
      obtain ⟨x, hx, rfl⟩ := hx
      obtain ⟨y, hfound, hbody⟩ := hfirst x hx htype
      obtain ⟨hy, hyt⟩ := mem_of_getAttribute hfound
      exact ⟨x, hx, y, hy, rfl, hyt, hbody⟩
  · intro hsame
    refine ⟨fun x hx hmask => ?_, fun y hy hmask => ?_⟩
    · rcases hsame x.type hmask with ⟨x', hx', y, hy, hxt, hyt, hbody⟩ | ⟨hnone, -⟩
      · have heq : x' = x := eq_of_type_eq ha hx' hx hxt
        exact ⟨y, hyt ▸ getAttribute_of_mem hb hy, heq ▸ hbody⟩
      · exact absurd rfl (hnone x hx)
    · rcases hsame y.type hmask with ⟨x, hx, _, _, hxt, -, -⟩ | ⟨-, hnone⟩
      · exact ⟨x, hxt ▸ getAttribute_of_mem ha hx⟩
      · exact absurd rfl (hnone y hy)

theorem PaddingHides.not_sameValue (ha : a.TypesDistinct) (hb : b.TypesDistinct) {type : UInt16}
    (h : PaddingHides a b type) : ¬SameValue a b type := by
  obtain ⟨x, hx, y, hy, hxt, hyt, hlen, -⟩ := h
  rintro (⟨x', hx', y', hy', hxt', hyt', hlen', -⟩ | ⟨hnone, -⟩)
  · obtain rfl := eq_of_type_eq ha hx hx' (hxt.trans hxt'.symm)
    obtain rfl := eq_of_type_eq hb hy hy' (hyt.trans hyt'.symm)
    exact hlen hlen'
  · exact hnone x hx hxt

/-- **`EqualAttributes` on values.**  Without repeated types it tells whether the
masked types agree in presence, length and value, except when all of them have the
same bodies and the padding hides a difference. -/
theorem equalAttributes_iff_sameValue (ha : a.TypesDistinct) (hb : b.TypesDistinct)
    (hwa : a.Writable) (hwb : b.Writable) :
    (a.equalAttributes b mask = true ↔ ∀ type, mask type → SameValue a b type) ↔
      ¬((∀ type, mask type → SameBody a b type) ∧ ∃ type, mask type ∧ PaddingHides a b type) := by
  rw [equalAttributes_iff_sameBody ha hb]
  constructor
  · rintro h ⟨hsame, type, htype, hhides⟩
    exact hhides.not_sameValue ha hb (h.1 hsame type htype)
  · intro hnone
    constructor
    · intro hsame type htype
      have hvisible : ¬PaddingHides a b type := fun h => hnone ⟨hsame, type, htype, h⟩
      exact (or_iff_left hvisible).1 ((sameBody_iff hwa hwb).1 (hsame type htype))
    · exact fun h type htype => (sameBody_iff hwa hwb).2 (.inl (h type htype))

end Compare

/-- A binding request with the given user names. -/
def usernameMessage (names : List (List UInt8)) : StunMessage :=
  names.foldl (fun m name => m.addAttribute ⟨stunAttrUsername, .byteString name⟩)
    ((StunMessage.createNew .stunMessage).setTransactionID sampleId)

/-- A binding request with a realm and a user name. -/
def realmMessage (realm username : List UInt8) : StunMessage :=
  (usernameMessage [username]).addAttribute ⟨stunAttrRealm, .byteString realm⟩

/-- The user names differ in their padding only, but the realms tell the messages apart. -/
theorem equalAttributes_realms :
    ((realmMessage [0x78] [0x61]).equalAttributes
        (realmMessage [0x79] [0x61, 0]) (fun _ => true) = true ↔
      ∀ type, SameValue (realmMessage [0x78] [0x61]) (realmMessage [0x79] [0x61, 0]) type) := by
  have h := (@equalAttributes_iff_sameValue _ _ (fun _ => true)
    (show (realmMessage [0x78] [0x61]).TypesDistinct by decide)
    (show (realmMessage [0x79] [0x61, 0]).TypesDistinct by decide) (by decide) (by decide)).2 (by
      rintro ⟨hsame, -⟩
      have hequal := (equalAttributes_iff_sameBody (by decide) (by decide)).2 hsame
      exact absurd hequal (by decide))
  simpa only [true_implies] using h

/-- The user names `a` and `a` followed by a zero byte are told to be equal. -/
theorem equalAttributes_padding :
    (usernameMessage [[0x61]]).TypesDistinct ∧ (usernameMessage [[0x61, 0]]).TypesDistinct ∧
      (usernameMessage [[0x61]]).Writable ∧ (usernameMessage [[0x61, 0]]).Writable ∧
      (usernameMessage [[0x61]]).equalAttributes (usernameMessage [[0x61, 0]])
        (fun _ => true) = true ∧
      ¬SameValue (usernameMessage [[0x61]]) (usernameMessage [[0x61, 0]]) stunAttrUsername := by
  refine ⟨by decide, by decide, by decide, by decide, by decide, ?_⟩
  rintro (⟨x, hx, y, hy, -, -, hlen, -⟩ | ⟨hnone, -⟩)
  · cases mem_singleton.1 hx
    cases mem_singleton.1 hy
    exact absurd hlen (by decide)
  · exact hnone _ (mem_singleton.2 rfl) rfl

/-! ### Repeated types -/

section Repeated

variable {a b c : StunMessage} {mask : UInt16 → Bool}

/-- All attributes of a masked type have the same body. -/
def Uniform (mask : UInt16 → Bool) (m : StunMessage) : Prop :=
  ∀ x ∈ m.attrs, ∀ y ∈ m.attrs, mask x.type → x.type = y.type → m.body x = m.body y
  deriving Decidable

theorem uniform_of_equalAttributes (h : a.equalAttributes b mask = true) : Uniform mask a := by
  intro x hx y hy hmask htype
  obtain ⟨hfirst, -⟩ := equalAttributes_iff.1 h
  obtain ⟨x', hx', hbody⟩ := hfirst x hx hmask
  obtain ⟨y', hy', hbody'⟩ := hfirst y hy (htype ▸ hmask)
  rw [← htype, hx'] at hy'
  rw [hbody, hbody', some.inj hy']

theorem equalAttributes_self_iff : a.equalAttributes a mask = true ↔ Uniform mask a := by
  refine ⟨uniform_of_equalAttributes, fun huniform => equalAttributes_iff.2 ⟨?_, ?_⟩⟩
  · intro x hx hmask
    obtain ⟨first, hfirst⟩ := getAttribute_isSome hx
    obtain ⟨hmem, htype⟩ := mem_of_getAttribute hfirst
    exact ⟨first, hfirst, huniform x hx first hmem hmask htype.symm⟩
  · exact fun y hy _ => getAttribute_isSome hy

theorem equalAttributes_symm (h : a.equalAttributes b mask = true) (hb : Uniform mask b) :
    b.equalAttributes a mask = true := by
  obtain ⟨hfirst, hsecond⟩ := equalAttributes_iff.1 h
  refine equalAttributes_iff.2 ⟨fun y hy hmask => ?_, fun x hx hmask => ?_⟩
  · obtain ⟨x, hfound⟩ := hsecond y hy hmask
    obtain ⟨hx, htype⟩ := mem_of_getAttribute hfound
    obtain ⟨y', hfound', hbody⟩ := hfirst x hx (htype ▸ hmask)
    obtain ⟨hy', htype'⟩ := mem_of_getAttribute hfound'
    exact ⟨x, hfound, by rw [hbody, hb y hy y' hy' hmask (htype'.trans htype).symm]⟩
  · obtain ⟨y, hfound, -⟩ := hfirst x hx hmask
    exact ⟨y, hfound⟩

theorem equalAttributes_trans (hab : a.equalAttributes b mask = true)
    (hbc : b.equalAttributes c mask = true) : a.equalAttributes c mask = true := by
  obtain ⟨hab₁, hab₂⟩ := equalAttributes_iff.1 hab
  obtain ⟨hbc₁, hbc₂⟩ := equalAttributes_iff.1 hbc
  refine equalAttributes_iff.2 ⟨fun x hx hmask => ?_, fun z hz hmask => ?_⟩
  · obtain ⟨y, hy, hbody⟩ := hab₁ x hx hmask
    obtain ⟨hmem, htype⟩ := mem_of_getAttribute hy
    obtain ⟨z, hz, hbody'⟩ := hbc₁ y hmem (htype ▸ hmask)
    exact ⟨z, htype ▸ hz, hbody.trans hbody'⟩
  · obtain ⟨y, hy⟩ := hbc₂ z hz hmask
    obtain ⟨hmem, htype⟩ := mem_of_getAttribute hy
    obtain ⟨x, hx⟩ := hab₂ y hmem (htype ▸ hmask)
    exact ⟨x, htype ▸ hx⟩

/-- **How far `EqualAttributes` is an equivalence.**  It is transitive; a message
equals itself when its masked attributes of one type have one body, and among such
messages the order of the two does not matter. -/
theorem equalAttributes_equivalence (mask : UInt16 → Bool) (a b c : StunMessage) :
    (a.equalAttributes a mask = true ↔ Uniform mask a) ∧
      (a.equalAttributes b mask = true → (b.equalAttributes a mask = true ↔ Uniform mask b)) ∧
      (Uniform mask a → Uniform mask b →
        (a.equalAttributes b mask = true ↔ b.equalAttributes a mask = true)) ∧
      (a.equalAttributes b mask = true → b.equalAttributes c mask = true →
        a.equalAttributes c mask = true) :=
  ⟨equalAttributes_self_iff, fun h => ⟨uniform_of_equalAttributes, equalAttributes_symm h⟩,
    fun ha hb => ⟨fun h => equalAttributes_symm h hb, fun h => equalAttributes_symm h ha⟩,
    equalAttributes_trans⟩

/-- A message with two user names differs from itself, and from a message with the
first of them, which in turn does not differ from it. -/
theorem equalAttributes_two_usernames :
    (usernameMessage [[0x61]]).Writable ∧ (usernameMessage [[0x61], [0x62]]).Writable ∧
      (usernameMessage [[0x61], [0x62]]).equalAttributes (usernameMessage [[0x61], [0x62]])
        (fun _ => true) = false ∧
      (usernameMessage [[0x61]]).equalAttributes (usernameMessage [[0x61], [0x62]])
        (fun _ => true) = true ∧
      (usernameMessage [[0x61], [0x62]]).equalAttributes (usernameMessage [[0x61]])
        (fun _ => true) = false := by
  decide

end Repeated

/-! ## Copying -/

/-- `CopyStunAttribute` of an attribute with the given owner.  The copy is created
and read without one. -/
def copyStunAttribute (attr : StunAttribute) (owner : Option TransactionId) :
    Option StunAttribute := do
  let blank ← StunAttribute.create attr.value.valueType attr.type attr.length
  let tmpBuffer ← attr.write owner
  let value ← (blank.read none (Cursor.start tmpBuffer)).1
  some ⟨attr.type, value⟩

/-- The value as the accessors show it: of a byte string the first `length()`
bytes. -/
def StunAttribute.shown (attr : StunAttribute) : StunAttributeValue :=
  match attr.value with
  | .byteString bytes => .byteString (bytes.take attr.length.toNat)
  | value => value

/-- A copy with the type, the kind, the length and the value of the original. -/
def CopiedAs (attr copy : StunAttribute) : Prop :=
  copy.type = attr.type ∧ copy.value.valueType = attr.value.valueType ∧
    copy.length = attr.length ∧ copy.shown = attr.shown

def Copyable : StunAttributeValue → Prop
  | .xorAddress _ => False
  | .errorCode eclass _ reason => eclass ≤ 7 ∧ 4 + reason.length < 65536
  | .uint16List attrTypes => attrTypes.length * 2 < 65536
  | _ => True

open StunAttribute

section Copy

variable {attr copy : StunAttribute} {owner : Option TransactionId}

theorem copyStunAttribute_eq_some_iff :
    copyStunAttribute attr owner = some copy ↔ ∃ blank buf value c,
      create attr.value.valueType attr.type attr.length = some blank ∧
      attr.write owner = some buf ∧
      blank.read none (Cursor.start buf) = (some value, c) ∧ copy = ⟨attr.type, value⟩ := by
  unfold copyStunAttribute
  simp only [bind_eq_bind, bind_eq_some_iff]
  constructor
  · rintro ⟨blank, hblank, buf, hbuf, value, hvalue, hcopy⟩
    exact ⟨blank, buf, value, _, hblank, hbuf, Prod.ext hvalue rfl, (some.inj hcopy).symm⟩
  · rintro ⟨blank, buf, value, c, hblank, hbuf, hread, rfl⟩
    exact ⟨blank, hblank, buf, hbuf, value, by rw [hread], rfl⟩

theorem BlankAttribute.read_owner {blank : BlankAttribute}
    (h : blank.valueType ≠ .xorAddress) (owner : Option TransactionId) :
    blank.read none = blank.read owner := by
  rcases blank with ⟨valueType, type, length⟩
  cases valueType <;> first | rfl | exact absurd rfl h

theorem shown_write (attr : StunAttribute) (owner : Option TransactionId) :
    (⟨attr.type, attr.shown⟩ : StunAttribute).length = attr.length ∧
      (⟨attr.type, attr.shown⟩ : StunAttribute).write owner = attr.write owner := by
  rcases attr with ⟨type, value⟩
  cases value with
  | byteString bytes =>
    have hlen : (mk type (.byteString (bytes.take
        (mk type (.byteString bytes)).length.toNat))).length =
        (mk type (.byteString bytes)).length := by
      apply UInt16.toNat_inj.1
      simp only [StunAttribute.length, StunAttributeValue.size, UInt16.toNat_ofNat', length_take]
      omega
    refine ⟨hlen, ?_⟩
    simp only [shown, write, hlen, take_take, Nat.min_self]
  | _ => exact ⟨rfl, rfl⟩

theorem shown_valueType (attr : StunAttribute) : attr.shown.valueType = attr.value.valueType := by
  rcases attr with ⟨type, value⟩
  cases value <;> rfl

theorem shown_shown (attr : StunAttribute) :
    (⟨attr.type, attr.shown⟩ : StunAttribute).shown = attr.shown := by
  have hlen := (shown_write attr none).1
  rcases attr with ⟨type, value⟩
  cases value with
  | byteString bytes =>
    simp only [shown] at hlen ⊢
    rw [hlen, take_take, Nat.min_self]
  | _ => rfl

theorem value_eq_of_shown (attr : StunAttribute) (h : attr.value.valueType ≠ .byteString) :
    attr.shown = attr.value := by
  rcases attr with ⟨type, value⟩
  cases value <;> first | rfl | exact absurd rfl h

theorem Copyable.shown_size_lt (h : Copyable attr.value) : attr.shown.size < 65536 := by
  rcases attr with ⟨type, value⟩
  have haddress : ∀ ip : IPAddress, ip.attrSize < 65536 := by
    intro ip
    cases ip <;> simp [IPAddress.attrSize]
  cases value with
  | address addr | xorAddress addr => exact haddress addr.ip
  | uint32 bits => exact (show 4 < 65536 by decide)
  | uint64 bits => exact (show 8 < 65536 by decide)
  | byteString bytes =>
    have hlen := (mk type (.byteString bytes)).length.toNat_lt
    simp only [shown, StunAttributeValue.size, length_take]
    omega
  | errorCode eclass number reason => exact h.2
  | uint16List attrTypes => exact h

theorem Copyable.shown_errorClassOk (h : Copyable attr.value) : attr.shown.ErrorClassOk := by
  rcases attr with ⟨type, value⟩
  cases value with
  | errorCode eclass number reason => exact h.1
  | _ => trivial

theorem copiedAs_of_copyable (h : copyStunAttribute attr owner = some copy)
    (hcopyable : Copyable attr.value) : CopiedAs attr copy := by
  obtain ⟨blank, buf, value, c, hblank, hbuf, hread, rfl⟩ := copyStunAttribute_eq_some_iff.1 h
  obtain ⟨hlen, hwrite⟩ := shown_write attr owner
  obtain ⟨blank', hblank', hreads⟩ := read_write (hwrite.trans hbuf)
    hcopyable.shown_size_lt hcopyable.shown_errorClassOk
  rw [hlen, shown_valueType, hblank] at hblank'
  obtain rfl := some.inj hblank'
  have hxor : blank.valueType ≠ .xorAddress := by
    rw [create_valueType hblank]
    intro hkind
    cases hvalue : attr.value <;> simp [hvalue, StunAttributeValue.valueType] at hkind
    rw [hvalue] at hcopyable
    exact hcopyable
  have hshown := hreads (Cursor.start buf) [] (append_nil buf).symm
  rw [← BlankAttribute.read_owner hxor owner, hread] at hshown
  obtain rfl : value = attr.shown := some.inj (Prod.mk.inj hshown).1
  exact ⟨rfl, shown_valueType attr, hlen, shown_shown attr⟩

theorem copyable_of_copiedAs (h : copyStunAttribute attr owner = some copy)
    (hcopied : CopiedAs attr copy) : Copyable attr.value := by
  obtain ⟨blank, buf, value, c, hblank, hbuf, hread, rfl⟩ := copyStunAttribute_eq_some_iff.1 h
  obtain ⟨-, -, hclass, hrest⟩ := BlankAttribute.read_consumes hread
  obtain ⟨-, hkind, -, hshown⟩ := hcopied
  have hlt := blank.length.toNat_lt
  have hspec := specified_of_write hbuf
  by_cases hbytes : attr.value.valueType = .byteString
  · cases hvalue : attr.value <;> simp [hvalue, StunAttributeValue.valueType] at hbytes
    trivial
  have hvalue : value = attr.value := by
    rw [← value_eq_of_shown attr hbytes, ← hshown]
    have hother : value.valueType ≠ .byteString := hkind ▸ hbytes
    exact (value_eq_of_shown ⟨attr.type, value⟩ hother).symm
  subst hvalue
  cases hval : attr.value with
  | xorAddress addr =>
    rw [hval] at hrest hspec
    rcases hrest with ⟨-, hnone⟩ | ⟨port, hport⟩
    · exact absurd rfl hnone
    · rw [hport] at hspec
      exact absurd hspec (not_specified_unspec owner port)
  | errorCode eclass number reason =>
    rw [hval] at hrest hclass
    rcases hrest with ⟨hsize, -⟩ | ⟨port, hport⟩
    · rw [← hsize] at hlt
      exact ⟨hclass, hlt⟩
    · cases hport
  | uint16List attrTypes =>
    rw [hval] at hrest
    rcases hrest with ⟨hsize, -⟩ | ⟨port, hport⟩
    · rw [← hsize] at hlt
      exact hlt
    · cases hport
  | _ => trivial

/-- **Which copies are copies.** -/
theorem copyStunAttribute_faithful_iff (h : copyStunAttribute attr owner = some copy) :
    CopiedAs attr copy ↔ Copyable attr.value :=
  ⟨copyable_of_copiedAs h, copiedAs_of_copyable h⟩

/-- A software name. -/
theorem copyStunAttribute_software :
    ∃ copy, copyStunAttribute ⟨stunAttrSoftware, .byteString [0x61, 0x62]⟩ (some sampleId) =
        some copy ∧ CopiedAs ⟨stunAttrSoftware, .byteString [0x61, 0x62]⟩ copy :=
  ⟨_, rfl, (copyStunAttribute_faithful_iff
    (show copyStunAttribute ⟨stunAttrSoftware, .byteString [0x61, 0x62]⟩ (some sampleId) =
      some _ from rfl)).2 trivial⟩

/-- The copy of a mapped address has no address. -/
theorem copyStunAttribute_xorAddress :
    ∃ copy, copyStunAttribute
        ⟨stunAttrXorMappedAddress, .xorAddress ⟨.v4 0x01020304, 5000⟩⟩ (some sampleId) = some copy ∧
      copy = ⟨stunAttrXorMappedAddress, .xorAddress ⟨.unspec, 5000⟩⟩ ∧ copy.length = 0 ∧
      ¬CopiedAs ⟨stunAttrXorMappedAddress, .xorAddress ⟨.v4 0x01020304, 5000⟩⟩ copy :=
  ⟨_, rfl, by decide, by decide, fun h => absurd h.2.2.1 (by decide)⟩

end Copy

end WebrtcCore.Ports.Stun
