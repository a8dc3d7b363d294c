import WebrtcCore.Ports.StunMessage

/-!
# Two walks over a STUN packet

`Read` finds the next attribute where the present one's reader stopped; the
integrity check finds it by adding the declared length, rounded up to a
multiple of four.  `declaredHeaders` is the second walk.  The two agree unless
an attribute declares a length its reader does not respect: the integer
classes read four or eight bytes whatever was declared, and a skipped
attribute is padded in 16-bit arithmetic.
-/

namespace WebrtcCore.Ports.Stun

open Verified Bytes Cursor Ports.ByteBuffer List

/-- An attribute header and where it stands. -/
structure AttributeHeader where
  offset : Nat
  type : UInt16
  length : UInt16
  deriving DecidableEq, Repr

/-- The headers from `pos` on, by declared lengths. -/
def declaredWalk (bytes : List UInt8) : Nat → Nat → List AttributeHeader
  | 0, _ => []
  | fuel + 1, pos =>
    if pos + 4 ≤ bytes.length then
      ⟨pos, getBE16 bytes pos, getBE16 bytes (pos + 2)⟩ ::
        declaredWalk bytes fuel
          (pos + 4 + paddedLength (getBE16 bytes (pos + 2)).toNat)
    else []

/-- The headers of a packet, by declared lengths.  Every step moves forward,
so there is fuel enough. -/
def declaredHeaders (bytes : List UInt8) : List AttributeHeader :=
  declaredWalk bytes bytes.length kStunHeaderSize

/-- The reader of an attribute of this type stays within its declared
length and padding. -/
def DeclaredSizeOk (messageClass : MessageClass) (type length : UInt16) : Prop :=
  match messageClass.readValueType type with
  | .uint32 => 1 ≤ length.toNat ∧ length.toNat ≤ 4
  | .uint64 => 5 ≤ length.toNat ∧ length.toNat ≤ 8
  | .unknown => length.toNat ≤ 65532
  | _ => True

instance (messageClass : MessageClass) (type length : UInt16) :
    Decidable (DeclaredSizeOk messageClass type length) := by
  unfold DeclaredSizeOk
  split <;> infer_instance

/-! ## One step of each walk -/

theorem declaredWalk_of_lt {bytes : List UInt8} {pos : Nat} (fuel : Nat)
    (h : bytes.length < pos + 4) : declaredWalk bytes fuel pos = [] := by
  cases fuel with
  | zero => rfl
  | succ fuel => exact if_neg (by omega)

theorem declaredWalk_of_le {bytes : List UInt8} {pos : Nat} (fuel : Nat)
    (h : pos + 4 ≤ bytes.length) :
    declaredWalk bytes (fuel + 1) pos =
      ⟨pos, getBE16 bytes pos, getBE16 bytes (pos + 2)⟩ ::
        declaredWalk bytes fuel (pos + 4 + paddedLength (getBE16 bytes (pos + 2)).toNat) :=
  if_pos h

theorem skippedLength_toNat (length : UInt16) :
    (skippedLength length).toNat =
      if length.toNat ≤ 65532 then paddedLength length.toNat else 0 := by
  have hlt := length.toNat_lt
  unfold skippedLength paddedLength
  by_cases hmod : length.toNat % 4 ≠ 0
  · rw [if_pos hmod, UInt16.toNat_add, UInt16.toNat_ofNat']
    split <;> omega
  · rw [if_neg hmod, if_neg hmod, if_pos (by omega)]

/-- The bytes a reader takes for a value of the given declared length. -/
def StunAttributeValueType.readLength (length : Nat) :
    StunAttributeValueType → Nat
  | .uint32 => 4
  | .uint64 => 8
  | _ => length

theorem MessageClass.readLength_cases (messageClass : MessageClass) (type : UInt16) :
    (∃ n, n % 4 = 0 ∧ (∀ length, (messageClass.readValueType type).readLength length = n) ∧
      ∀ length, DeclaredSizeOk messageClass type length ↔ n - 3 ≤ length.toNat ∧ length.toNat ≤ n) ∨
    ((∀ length, (messageClass.readValueType type).readLength length = length) ∧
      (messageClass.readValueType type ≠ .unknown →
        ∀ length, DeclaredSizeOk messageClass type length)) := by
  unfold DeclaredSizeOk
  cases messageClass.readValueType type with
  | uint32 => exact .inl ⟨4, rfl, fun _ => rfl, fun _ => Iff.rfl⟩
  | uint64 => exact .inl ⟨8, rfl, fun _ => rfl, fun _ => Iff.rfl⟩
  | unknown => exact .inr ⟨fun _ => rfl, fun h => absurd rfl h⟩
  | _ => exact .inr ⟨fun _ => rfl, fun _ _ => trivial⟩

theorem create_length {valueType : StunAttributeValueType} {type length : UInt16}
    {blank : BlankAttribute} (h : StunAttribute.create valueType type length = some blank) :
    blank.length.toNat = valueType.readLength length.toNat := by
  cases valueType <;> simp [StunAttribute.create] at h <;> rw [← h] <;> rfl

theorem EntryShape.consumes {messageClass : MessageClass} {owner : TransactionId}
    {remaining k : Nat} {entry : AttributeEntry}
    (h : EntryShape messageClass owner remaining entry k) :
    (messageClass.readValueType entry.type = .unknown ∧
      k = (skippedLength entry.length).toNat ∧ k ≤ remaining) ∨
    (messageClass.readValueType entry.type ≠ .unknown ∧
      k = bodyConsumed ((messageClass.readValueType entry.type).readLength
        entry.length.toNat) remaining ∧
      (messageClass.readValueType entry.type).readLength entry.length.toNat ≤ remaining) := by
  cases h with
  | skipped hcreate hattr hfits =>
    exact .inl ⟨create_eq_none_iff.1 hcreate, rfl, hfits⟩
  | stored blank value hcreate hattr hfits hvalue =>
    have hlength := create_length hcreate
    refine .inr ⟨?_, by rw [hlength], hlength ▸ hfits⟩
    intro hunknown
    rw [MessageClass.createAttribute, create_eq_none_iff.2 hunknown] at hcreate
    cases hcreate

/-! ## The walks together -/

section Sync

variable {messageClass : MessageClass} {owner : TransactionId}
  {c c₁ : ByteBufferReader} {entry : AttributeEntry}
  {entries : List AttributeEntry}

/-- Where the declared length of an entry puts the next header. -/
def AttributeEntry.next (entry : AttributeEntry) : Nat :=
  entry.offset + 4 + paddedLength entry.length.toNat

theorem sync_of_sizeOk (hread : readAttribute messageClass owner c = (some entry, c₁))
    (hok : DeclaredSizeOk messageClass entry.type entry.length) :
    entry.offset + 4 + entry.length.toNat ≤ c.cells.length ∧ entry.stop ≤ entry.next ∧
      (c₁.pos = entry.next ∨ c₁.remaining < 4 ∧ c.cells.length < entry.next + 4) := by
  obtain ⟨hfour, hoffset, hstop, -, -, k, hshape, hc₁⟩ := readAttribute_shape hread
  have hremaining : c.remaining = c.cells.length - c.pos := rfl
  have hremaining₁ : c₁.remaining = c.remaining - (4 + k) := by rw [hc₁, Cursor.advance_remaining]
  have hadvance (hk : 4 + k ≤ c.remaining) : c₁.pos = c.pos + (4 + k) := hc₁ ▸ Cursor.advance_pos hk
  have hpad := paddedLength_eq entry.length.toNat
  unfold AttributeEntry.next
  rcases hshape.consumes with ⟨hvt, hk, hle⟩ | ⟨-, hk, hle⟩
  · simp only [DeclaredSizeOk, hvt] at hok
    rw [skippedLength_toNat, if_pos hok] at hk
    omega
  · rcases messageClass.readLength_cases entry.type with
      ⟨n, hn, hfixed, hiff⟩ | ⟨hlength, -⟩
    · rw [hiff] at hok
      rw [hfixed] at hk hle
      rw [bodyConsumed_of_mod_eq hn] at hk
      omega
    · rw [hlength] at hk hle
      unfold bodyConsumed at hk
      split at hk <;> omega

theorem pos_eq_of_offsets (fuel pos : Nat) (hfuel : 0 < fuel)
    (hparsed : Parsed messageClass owner c entries)
    (h : entries.map (·.offset) = (declaredWalk c.cells fuel pos).map (·.offset)) :
    c.pos = pos ∨ c.remaining = 0 ∧ c.cells.length < pos + 4 := by
  obtain ⟨fuel, rfl⟩ : ∃ k, fuel = k + 1 := ⟨fuel - 1, by omega⟩
  by_cases hpos : pos + 4 ≤ c.cells.length
  · rw [declaredWalk_of_le fuel hpos] at h
    cases hparsed with
    | done hdone => cases h
    | step hmore hread hrest =>
      have hoffset := (readAttribute_shape hread).2.1
      simp only [map_cons, cons.injEq] at h
      exact .inl (hoffset.symm.trans h.1)
  · rw [declaredWalk_of_lt _ (by omega)] at h
    cases hparsed with
    | done hdone => exact .inr ⟨hdone, by omega⟩
    | step hmore hread hrest => cases h

theorem sizeOk_of_sync (hread : readAttribute messageClass owner c = (some entry, c₁))
    (hstart : kStunHeaderSize ≤ c.pos) (hsize : c.cells.length ≤ kStunHeaderSize + 65535)
    (hinside : entry.offset + 4 + entry.length.toNat ≤ c.cells.length)
    (hnext : c₁.pos = entry.next ∨ c₁.remaining = 0 ∧ c.cells.length < entry.next + 4) :
    DeclaredSizeOk messageClass entry.type entry.length := by
  obtain ⟨hfour, hoffset, -, -, -, k, hshape, hc₁⟩ := readAttribute_shape hread
  have hremaining : c.remaining = c.cells.length - c.pos := rfl
  have hremaining₁ : c₁.remaining = c.remaining - (4 + k) := by rw [hc₁, Cursor.advance_remaining]
  have hpad := paddedLength_eq entry.length.toNat
  unfold AttributeEntry.next at hnext
  rcases hshape.consumes with ⟨hvt, hk, hle⟩ | ⟨hknown, hk, hle⟩
  · simp only [DeclaredSizeOk, hvt]
    omega
  · rcases messageClass.readLength_cases entry.type with
      ⟨n, hn, hfixed, hiff⟩ | ⟨-, hany⟩
    · rw [hfixed] at hk hle
      rw [bodyConsumed_of_mod_eq hn] at hk
      have hpos : c₁.pos = c.pos + (4 + k) := hc₁ ▸ Cursor.advance_pos (by omega)
      rw [hiff]
      omega
    · exact hany hknown entry.length

/-- The parse and the walk by declared lengths see the same attributes: the
headers are at the same offsets, every declared value lies in the packet, and
no attribute is read from bytes beyond its own declared ones. -/
structure SeesDeclared (bytes : List UInt8) (headers : List AttributeHeader)
    (entries : List AttributeEntry) : Prop where
  offsets : entries.map (·.offset) = headers.map (·.offset)
  inside : ∀ header ∈ headers,
    header.offset + 4 + header.length.toNat ≤ bytes.length
  within : ∀ entry ∈ entries, entry.stop ≤ entry.next

theorem parsed_sync_iff (h : Parsed messageClass owner c entries) (hstart : kStunHeaderSize ≤ c.pos)
    (hsize : c.cells.length ≤ kStunHeaderSize + 65535) (fuel : Nat) (hfuel : c.remaining ≤ fuel) :
    SeesDeclared c.cells (declaredWalk c.cells fuel c.pos) entries ↔
      ∀ header ∈ declaredWalk c.cells fuel c.pos,
        DeclaredSizeOk messageClass header.type header.length := by
  induction h generalizing fuel with
  | @done c hdone =>
    have hnil : declaredWalk c.cells fuel c.pos = [] :=
      declaredWalk_of_lt fuel (by unfold Cursor.remaining at hdone; omega)
    rw [hnil]
    exact ⟨fun _ => nofun, fun _ => ⟨rfl, nofun, nofun⟩⟩
  | @step c c₁ entry entries hmore hread hrest ih =>
    obtain ⟨hfour, hoffset, -, htype, hlength, k, -, hc₁⟩ := readAttribute_shape hread
    obtain ⟨fuel, rfl⟩ : ∃ k, fuel = k + 1 := ⟨fuel - 1, by omega⟩
    have hcells : c₁.cells = c.cells := hc₁ ▸ Cursor.advance_cells _ _
    have hremaining : c.remaining = c.cells.length - c.pos := rfl
    have hless : c₁.remaining ≤ fuel := by
      rw [hc₁, Cursor.advance_remaining]
      omega
    have hforward : c.pos ≤ c₁.pos := by
      rw [hc₁, Cursor.advance]
      simp only
      omega
    have hih := ih (by omega) (by rw [hcells]; exact hsize) fuel hless
    have hwalk : declaredWalk c.cells (fuel + 1) c.pos =
        ⟨entry.offset, entry.type, entry.length⟩ :: declaredWalk c.cells fuel entry.next := by
      rw [declaredWalk_of_le fuel (by omega), AttributeEntry.next, hoffset, htype, hlength]
    rw [hwalk]
    rw [hcells] at hih
    constructor
    · rintro ⟨hoffsets, hinside, hwithin⟩
      simp only [map_cons, cons.injEq, true_and] at hoffsets
      simp only [forall_mem_cons] at hinside hwithin
      have hnext := pos_eq_of_offsets fuel entry.next (by omega) hrest
        (by rw [hcells]; exact hoffsets)
      rw [hcells] at hnext
      have hok := sizeOk_of_sync hread hstart hsize hinside.1 hnext
      simp only [forall_mem_cons]
      refine ⟨hok, ?_⟩
      rcases hnext with hnext | ⟨-, hend⟩
      · rw [← hnext] at hoffsets hinside ⊢
        exact hih.1 ⟨hoffsets, hinside.2, hwithin.2⟩
      · rw [declaredWalk_of_lt fuel hend]
        exact nofun
    · intro hall
      simp only [forall_mem_cons] at hall
      obtain ⟨hinside, hwithin, hnext⟩ := sync_of_sizeOk hread hall.1
      rcases hnext with hnext | ⟨hshort, hend⟩
      · rw [← hnext] at hall ⊢
        obtain ⟨hoffsets, hinsides, hwithins⟩ := hih.2 hall.2
        refine ⟨by simp [hoffsets], ?_, ?_⟩
        · exact forall_mem_cons.2 ⟨hinside, hinsides⟩
        · exact forall_mem_cons.2 ⟨hwithin, hwithins⟩
      · rw [declaredWalk_of_lt fuel hend, (hrest.eq_nil_of_lt hshort).2]
        exact ⟨rfl, forall_mem_cons.2 ⟨hinside, nofun⟩, forall_mem_cons.2 ⟨hwithin, nofun⟩⟩

end Sync

/-- **The parser and the integrity check see the same attributes** of an
accepted packet exactly when no attribute on the walk by declared lengths
declares a length its reader does not respect. -/
theorem read_sees_declared_iff {m m' : StunMessage} {bytes : List UInt8}
    {entries : List AttributeEntry} (hread : m.read bytes = (some entries, m')) :
    SeesDeclared bytes (declaredHeaders bytes) entries ↔
      ∀ header ∈ declaredHeaders bytes,
        DeclaredSizeOk m.messageClass header.type header.length := by
  obtain ⟨id, haccepts, -⟩ := StunMessage.read_eq_some_iff.1 hread
  have hlength := haccepts.length
  have hlt := (getBE16 bytes 2).toNat_lt
  have hpos : ((Cursor.start bytes).advance kStunHeaderSize).pos =
      kStunHeaderSize :=
    (Cursor.advance_pos haccepts.size).trans (Nat.zero_add _)
  have hsync := parsed_sync_iff haccepts.parsed (Nat.le_of_eq hpos.symm)
    (by rw [Cursor.advance_cells]; simp only [Cursor.start]; omega)
    bytes.length (by rw [Cursor.advance_remaining]; exact Nat.sub_le _ _)
  rw [hpos] at hsync
  exact hsync

/-- A binding request with a FINGERPRINT attribute of the given declared
length; the four bytes of its value look like an empty USERNAME. -/
def fingerprintPacket (length : UInt8) : List UInt8 :=
  [0, 1, 0, 8, 0x21, 0x12, 0xA4, 0x42, 0, 1, 2, 3, 4, 5, 6, 7, 8, 9, 10, 11,
   0x80, 0x28, 0, length, 0, 6, 0, 0]

/-- What `Read` makes of it: the class reads four bytes in any case. -/
def fingerprintEntry (length : UInt16) : AttributeEntry :=
  ⟨20, 28, stunAttrFingerprint, length, some ⟨stunAttrFingerprint, .uint32 0x60000⟩⟩

theorem read_sees_declared_fingerprint :
    SeesDeclared (fingerprintPacket 4) (declaredHeaders (fingerprintPacket 4))
      [fingerprintEntry 4] := by
  have hread : (StunMessage.createNew .stunMessage).read (fingerprintPacket 4) =
      (some [fingerprintEntry 4],
        ((StunMessage.createNew .stunMessage).read (fingerprintPacket 4)).2) := by
    decide +kernel
  exact (read_sees_declared_iff hread).2 (by decide +kernel)

/-- With a declared length of zero the integrity check takes the value of the
fingerprint for another attribute. -/
theorem read_misses_declared_header :
    ((StunMessage.createNew .stunMessage).read (fingerprintPacket 0)).1 =
        some [fingerprintEntry 0] ∧
      ¬SeesDeclared (fingerprintPacket 0) (declaredHeaders (fingerprintPacket 0))
        [fingerprintEntry 0] := by
  refine ⟨by decide +kernel, fun h => ?_⟩
  have h := h.offsets
  cases h

end WebrtcCore.Ports.Stun
