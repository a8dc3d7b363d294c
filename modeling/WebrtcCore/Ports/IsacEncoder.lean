import WebrtcCore.Ports.IsacArith

/-!
# The iSAC encoder computes with ranges

The bytes that `WebRtcIsac_EncHistMulti` has written, followed by `streamval`,
are the lower end of the range of the symbols so far, and `W_upper` is its
width.  `Represents` is this relation.
-/

namespace WebrtcCore.Ports.Isac

open Verified Digits RangeCoder Option BitVec

/-! ## Registers -/

theorem cdfBound_toNat (wUpper : BitVec 32) (cdf : BitVec 16) :
    (cdfBound wUpper cdf).toNat = wUpper.toNat * cdf.toNat / 65536 := by
  have hmask : (wUpper &&& 0x0000FFFF#32).toNat = wUpper.toNat % 65536 := by
    exact Nat.and_two_pow_sub_one_eq_mod _ 16
  have hcdf : (cdf.setWidth 32).toNat = cdf.toNat := rfl
  have hmsb : wUpper.toNat / 65536 * cdf.toNat ≤ 65535 * 65535 :=
    Nat.mul_le_mul (by omega) (by omega)
  have hlsb : wUpper.toNat % 65536 * cdf.toNat ≤ 65535 * 65535 :=
    Nat.mul_le_mul (by omega) (by omega)
  have hsplit : wUpper.toNat * cdf.toNat =
      65536 * (wUpper.toNat / 65536 * cdf.toNat) + wUpper.toNat % 65536 * cdf.toNat := by
    rw [← Nat.mul_assoc, ← Nat.add_mul, Nat.div_add_mod]
  unfold cdfBound widthBelow
  simp only [toNat_add, toNat_mul, toNat_ushiftRight, hmask,
    hcdf, Nat.shiftRight_eq_div_pow, Nat.reducePow]
  omega

theorem belowTopByte_iff {wUpper : BitVec 32} {width : Nat} (h : wUpper.toNat = width) :
    belowTopByte wUpper ↔ width < 256 ^ 3 := by
  have hmask : wUpper &&& 0xFF000000#32 = (wUpper >>> 24) <<< 24 :=
    (shiftLeft_ushiftRight (x := wUpper) (n := 24)).symm
  unfold belowTopByte
  rw [← toNat_inj, hmask]
  simp only [toNat_shiftLeft, toNat_ushiftRight, toNat_ofNat]
  omega

theorem ne_zero_of_wide {wUpper : BitVec 32} (h : 256 ^ 3 ≤ wUpper.toNat) : wUpper ≠ 0#32 := by
  rintro rfl
  exact absurd h (by decide)

theorem shiftByte_toNat {x : BitVec 32} (h : x.toNat < 256 ^ 3) :
    (x <<< 8).toNat = x.toNat * 256 := by
  simp only [toNat_shiftLeft]
  omega

variable (x : BitVec 32)

theorem topByte_toNat : ((x >>> 24).setWidth 8).toNat = x.toNat / 256 ^ 3 := by
  simp only [toNat_setWidth, toNat_ushiftRight]
  omega

theorem nextByte_toNat :
    (((x >>> 16) &&& 0x00FF#32).setWidth 8).toNat = x.toNat / 256 ^ 2 % 256 := by
  have hmask : ((x >>> 16) &&& 0x00FF#32).toNat = x.toNat / 256 ^ 2 % 256 := by
    rw [toNat_and, toNat_ushiftRight, Nat.shiftRight_eq_div_pow]
    exact Nat.and_two_pow_sub_one_eq_mod _ 8
  rw [toNat_setWidth]
  omega

theorem topByte_split :
    256 ^ 4 * ((x >>> 24).setWidth 8).toNat + (x <<< 8).toNat = x.toNat * 256 := by
  rw [topByte_toNat, toNat_shiftLeft]
  omega

/-! ## Tables -/

/-- A cdf table: strictly increasing from 0 to 65535. -/
structure CdfTable where
  entries : List (BitVec 16)
  first : entries[0]? = some 0#16
  last : entries.getLast? = some 65535#16
  increasing : entries.Pairwise (· < ·)

/-- A table and the index of one of its intervals. -/
structure CodedSymbol where
  table : CdfTable
  data : Nat
  lt : data + 1 < table.entries.length

/-- A table with one improbable and one probable symbol. -/
def skewedTable : CdfTable where
  entries := [0#16, 1#16, 65535#16]
  first := rfl
  last := rfl
  increasing := by decide

/-- The improbable symbol. -/
def improbable : CodedSymbol := ⟨skewedTable, 0, by decide⟩

/-- An entry of a table. -/
def CdfTable.entry (table : CdfTable) (i : Nat) : BitVec 16 := table.entries.getD i 0#16

variable {i : Nat} {cdfLo cdfHi : BitVec 16} {s : Bitstr} {r : Range} {wUpper : BitVec 32}

variable (table : CdfTable)

theorem CdfTable.entry_eq (h : i < table.entries.length) : table.entry i = table.entries[i] := by
  rw [CdfTable.entry, List.getD_eq_getElem?_getD, List.getElem?_eq_getElem h]
  rfl

theorem CdfTable.getElem?_entries (h : i < table.entries.length) :
    table.entries[i]? = some (table.entry i) := by
  rw [List.getElem?_eq_getElem h, table.entry_eq h]

theorem CdfTable.entry_lt {j : Nat} (hij : i < j) (hj : j < table.entries.length) :
    (table.entry i).toNat < (table.entry j).toNat := by
  rw [table.entry_eq (Nat.lt_trans hij hj), table.entry_eq hj]
  exact List.pairwise_iff_getElem.1 table.increasing i j _ hj hij

/-- The part of a range that a symbol takes. -/
def CodedSymbol.slot (c : CodedSymbol) : Slot where
  lo w := w * (c.table.entry c.data).toNat / 65536
  hi w := w * (c.table.entry (c.data + 1)).toNat / 65536

theorem bound_gap {w lo hi : Nat} (hw : 256 ^ 3 ≤ w) (h : lo < hi) :
    w * lo / 65536 + 256 ≤ w * hi / 65536 := by
  have hmul : w * (lo + 1) ≤ w * hi := Nat.mul_le_mul_left w h
  rw [Nat.mul_add] at hmul
  omega

/-- The part of a range between two values of a cdf. -/
def cdfSlot (cdfLo cdfHi : BitVec 16) : Slot where
  lo w := w * cdfLo.toNat / 65536
  hi w := w * cdfHi.toNat / 65536

theorem cdfSlot_fits (h : cdfLo.toNat < cdfHi.toNat) : (cdfSlot cdfLo cdfHi).Fits 256 3 := by
  intro w hw
  have hmul : w * cdfHi.toNat ≤ w * 65536 := Nat.mul_le_mul_left w (by omega)
  have hgap := bound_gap hw h
  constructor
  · show w * cdfLo.toNat / 65536 + 1 < w * cdfHi.toNat / 65536
    omega
  · show w * cdfHi.toNat / 65536 ≤ w
    omega

variable (c : CodedSymbol)

theorem CodedSymbol.entry_lt : (c.table.entry c.data).toNat < (c.table.entry (c.data + 1)).toNat :=
  c.table.entry_lt (Nat.lt_add_one c.data) c.lt

theorem CodedSymbol.fits : c.slot.Fits 256 3 := cdfSlot_fits c.entry_lt

/-- The range before the first symbol. -/
def fullRange : Range := ⟨0, 256 ^ 4 - 1, 0⟩

theorem fullRange_ready : fullRange.Ready 256 3 := by constructor <;> decide

/-- The range of a list of symbols. -/
def rangeOf (symbols : List CodedSymbol) : Range :=
  fullRange.encodeAll 256 3 (symbols.map CodedSymbol.slot)

theorem rangeOf_ready (symbols : List CodedSymbol) : (rangeOf symbols).Ready 256 3 := by
  apply fullRange_ready.encodeAll (by decide)
  intro slot hslot
  obtain ⟨c, -, rfl⟩ := List.mem_map.1 hslot
  exact c.fits

/-! ## The stream -/

/-- The stream and the registers hold the range. -/
structure Represents (s : Bitstr) (r : Range) : Prop where
  index : s.streamIndex = r.shifts
  inside : r.shifts ≤ streamSizeMax
  width : s.wUpper.toNat = r.width
  low : 256 ^ 4 * leading 256 (digits s.stream) r.shifts + s.streamval.toNat = r.low

/-- A result of the encoder: it holds the range, or the range has more bytes
than the stream. -/
def Refines (result : Option Bitstr) (r : Range) : Prop :=
  match result with
  | some s => Represents s r
  | none => streamSizeMax < r.shifts

variable (stream : Vector (BitVec 8) streamSizeMax)

theorem start_represents : Represents (.start stream) fullRange := by
  refine ⟨rfl, Nat.zero_le _, ?_, ?_⟩ <;>
  simp [fullRange, Bitstr.start, leading]

theorem Represents.shift (h : Represents s r) (hwidth : r.width < 256 ^ 3)
    (hinside : r.shifts < streamSizeMax) :
    ∃ stream, store s.stream s.streamIndex ((s.streamval >>> 24).setWidth 8) = some stream ∧
      Represents ⟨stream, s.wUpper <<< 8, s.streamval <<< 8, s.streamIndex + 1⟩ (r.shift 256) := by
  have hindex : s.streamIndex < streamSizeMax := by rw [h.index]; exact hinside
  refine ⟨_, dif_pos hindex, ?_, hinside, ?_, ?_⟩
  · exact congrArg (· + 1) h.index
  · rw [shiftByte_toNat (by rw [h.width]; exact hwidth), h.width]
    rfl
  · have hset : leading 256 (digits (s.stream.set s.streamIndex
        ((s.streamval >>> 24).setWidth 8) hindex)) (s.streamIndex + 1) =
        leading 256 (digits s.stream) s.streamIndex * 256 +
          ((s.streamval >>> 24).setWidth 8).toNat :=
      leading_set_succ s.stream hindex _
    have hsplit := topByte_split s.streamval
    have hlow := h.low
    rw [← h.index] at hlow
    simp only [Range.shift]
    rw [← h.index]
    omega

theorem renormalizeEnc_refines (rounds : Nat) (h : Represents s r)
    (hwide : 256 ^ 3 ≤ r.width * 256 ^ rounds) :
    Refines (renormalizeEnc (rounds + 1) s) (r.renormalize 256 (256 ^ 3) rounds) := by
  refine Range.renormalize_rule (f := renormalizeEnc) (Q := Refines) ?_ ?_ h hwide
    (Nat.lt_succ_self _)
  · intro fuel s r h hwide
    rw [renormalizeEnc, if_neg (mt (belowTopByte_iff h.width).1 hwide)]
    exact h
  · intro fuel s r rounds h hbelow hmono ih
    rw [renormalizeEnc, if_pos ((belowTopByte_iff h.width).2 hbelow)]
    by_cases hinside : r.shifts < streamSizeMax
    · obtain ⟨stream, hstore, hnext⟩ := h.shift hbelow hinside
      rw [hstore]
      exact ih _ hnext
    · have hfull : store s.stream s.streamIndex ((s.streamval >>> 24).setWidth 8) = none :=
        dif_neg (by rw [h.index]; exact hinside)
      rw [hfull]
      exact Nat.lt_of_le_of_lt (Nat.not_lt.1 hinside) hmono

theorem add_register {front low shifts : Nat} {streamval value : BitVec 32}
    (hlow : 256 ^ 4 * front + streamval.toNat = low)
    (hroom : low + value.toNat < 256 ^ (shifts + 4)) :
    if streamval + value < value then
      front + 1 < 256 ^ shifts ∧
        256 ^ 4 * (front + 1) + (streamval + value).toNat = low + value.toNat
    else 256 ^ 4 * front + (streamval + value).toNat = low + value.toNat := by
  have hsum : (streamval + value).toNat = (streamval.toNat + value.toNat) % 256 ^ 4 := toNat_add _ _
  rw [Nat.pow_add] at hroom
  split
  case isTrue hcarry =>
    rw [lt_def] at hcarry
    omega
  case isFalse hcarry =>
    rw [lt_def] at hcarry
    omega

theorem Represents.add (h : Represents s r) (value : BitVec 32)
    (hroom : r.low + value.toNat < 256 ^ (r.shifts + 4)) :
    ∃ stream, addCarry s.stream s.streamIndex (s.streamval + value) value = some stream ∧
      256 ^ 4 * leading 256 (digits stream) r.shifts +
        (s.streamval + value).toNat = r.low + value.toNat := by
  have hadd := add_register h.low hroom
  unfold addCarry
  split at hadd
  case isTrue hcarry =>
    obtain ⟨stream, hstream, hlead, -⟩ := carry_spec s.stream h.inside hadd.1
    have hlead' : leading 256 (digits stream) r.shifts =
        leading 256 (digits s.stream) r.shifts + 1 := hlead
    refine ⟨stream, by rw [if_pos hcarry, h.index, hstream], ?_⟩
    rw [hlead']
    exact hadd.2
  case isFalse hcarry => exact ⟨s.stream, if_neg hcarry, hadd⟩

/-! ## Symbols -/

theorem cdfSlot_registers (hcdf : cdfLo.toNat < cdfHi.toNat) (hr : r.Ready 256 3)
    (hwidth : wUpper.toNat = r.width) :
    (cdfBound wUpper cdfLo + 1#32).toNat = (cdfSlot cdfLo cdfHi).lo r.width + 1 ∧
      (cdfBound wUpper cdfHi - (cdfBound wUpper cdfLo + 1#32)).toNat =
        (r.part (cdfSlot cdfLo cdfHi)).width ∧
      r.low + (cdfBound wUpper cdfLo + 1#32).toNat < 256 ^ (r.shifts + 4) := by
  obtain ⟨hlo, hhi⟩ := cdfSlot_fits hcdf r.width hr.wide
  have hlower : (cdfBound wUpper cdfLo).toNat = (cdfSlot cdfLo cdfHi).lo r.width :=
    hwidth ▸ cdfBound_toNat _ _
  have hupper : (cdfBound wUpper cdfHi).toNat = (cdfSlot cdfLo cdfHi).hi r.width :=
    hwidth ▸ cdfBound_toNat _ _
  have hsum : (cdfBound wUpper cdfLo + 1#32).toNat = (cdfSlot cdfLo cdfHi).lo r.width + 1 := by
    rw [toNat_add, hlower]
    exact Nat.mod_eq_of_lt (by rw [toNat_ofNat]; omega)
  refine ⟨hsum, ?_, Nat.lt_of_le_of_lt (by omega) hr.bounded⟩
  rw [toNat_sub_of_le (by rw [le_def]; omega), hsum, hupper]
  rfl

theorem Represents.narrow (h : Represents s r) (hr : r.Ready 256 3)
    (hcdf : cdfLo.toNat < cdfHi.toNat) :
    ∃ stream, addCarry s.stream s.streamIndex
        (s.streamval + (cdfBound s.wUpper cdfLo + 1#32)) (cdfBound s.wUpper cdfLo + 1#32) =
        some stream ∧
      Represents
        ⟨stream, cdfBound s.wUpper cdfHi - (cdfBound s.wUpper cdfLo + 1#32),
          s.streamval + (cdfBound s.wUpper cdfLo + 1#32), s.streamIndex⟩
        (r.part (cdfSlot cdfLo cdfHi)) := by
  obtain ⟨hlower, hupper, hroom⟩ := cdfSlot_registers hcdf hr h.width
  obtain ⟨stream, hstream, hlow⟩ := h.add _ hroom
  exact ⟨stream, hstream, h.index, h.inside, hupper, hlow.trans (congrArg _ hlower)⟩

theorem encHist_refines (h : Represents s r) (hr : r.Ready 256 3) (c : CodedSymbol) :
    Refines (encHist s c.table.entries c.data) (r.encode 256 3 c.slot) := by
  obtain ⟨stream, hstream, hnarrow⟩ := h.narrow hr c.entry_lt
  have hloop := renormalizeEnc_refines 3 hnarrow (hr.part_wide c.fits)
  unfold encHist
  rw [c.table.getElem?_entries (by have := c.lt; omega), c.table.getElem?_entries c.lt]
  simp only [bind_eq_bind, bind_some, hstream]
  exact hloop

/-- What `WebRtcIsac_EncHistMulti` is given for a symbol. -/
def CodedSymbol.input (c : CodedSymbol) : List (BitVec 16) × Nat := (c.table.entries, c.data)

theorem encHistMulti_refines (h : Represents s r) (hr : r.Ready 256 3)
    (symbols : List CodedSymbol) :
    Refines (encHistMulti s (symbols.map CodedSymbol.input))
      (r.encodeAll 256 3 (symbols.map CodedSymbol.slot)) := by
  induction symbols generalizing s r with
  | nil => exact h
  | cons c symbols ih =>
    have hstep := encHist_refines h hr c
    show Refines (encHist s c.table.entries c.data >>= _) _
    cases hresult : encHist s c.table.entries c.data with
    | none =>
      rw [hresult] at hstep
      exact Nat.lt_of_lt_of_le hstep (Range.shifts_le_encodeAll _)
    | some s' =>
      rw [hresult] at hstep
      exact ih hstep (hr.encode (by decide) c.fits)

theorem encode_refines (symbols : List CodedSymbol) :
    Refines (encHistMulti (.start stream) (symbols.map CodedSymbol.input)) (rangeOf symbols) :=
  encHistMulti_refines (start_represents stream) fullRange_ready symbols

/-! ## Ending the stream -/

/-- The bytes of a code, the ones that end it included. -/
def codeLength (r : Range) : Nat := r.shifts + if 2 * 256 ^ 3 ≤ r.width then 1 else 2

/-- The number they stand for. -/
def codeValue (r : Range) : Nat :=
  if 2 * 256 ^ 3 ≤ r.width then r.low / 256 ^ 3 + 1 else r.low / 256 ^ 2 + 1

theorem contains_of_code {σ : Nat → Nat} (hr : r.Ready 256 3) (hσ : ∀ i, σ i < 256)
    (h : leading 256 σ (codeLength r) = codeValue r) :
    r.Contains 256 3 σ := by
  unfold codeLength codeValue at h
  have hwide := hr.wide
  split at h
  case isTrue hwide => exact Range.contains_of_leading (m := 3) rfl hσ hwide h
  case isFalse => exact Range.contains_of_leading (m := 2) rfl hσ (by omega) h

theorem store_eq_some (h : i < streamSizeMax) (byte : BitVec 8) :
    ∃ stream', store stream i byte = some stream' ∧
      leading 256 (digits stream') (i + 1) = leading 256 (digits stream) i * 256 + byte.toNat :=
  ⟨_, dif_pos h, leading_set_succ stream h byte⟩

theorem store_eq_none (h : streamSizeMax ≤ i) (byte : BitVec 8) : store stream i byte = none :=
  dif_neg (by omega)

theorem wide_iff {width : Nat} (h : wUpper.toNat = width) :
    wUpper > 0x01FFFFFF#32 ↔ 2 * 256 ^ 3 ≤ width := by
  rw [gt_iff_lt, lt_def, h]
  exact Iff.rfl

theorem encTerminate_wide (h : Represents s r) (hr : r.Ready 256 3)
    (hwide : 2 * 256 ^ 3 ≤ r.width) :
    (∃ t, encTerminate s = some (r.shifts + 1, t) ∧
      leading 256 (digits t.stream) (r.shifts + 1) = r.low / 256 ^ 3 + 1) ∨
    (streamSizeMax < r.shifts + 1 ∧ encTerminate s = none) := by
  have hgt : s.wUpper > 0x01FFFFFF#32 := (wide_iff h.width).2 hwide
  obtain ⟨stream, hcarry, hlow⟩ := h.add 0x01000000#32
    (Nat.lt_of_le_of_lt (Nat.add_le_add_left hr.wide _) hr.bounded)
  rw [encTerminate, if_pos hgt]
  simp only [hcarry, bind_eq_bind, bind_some]
  rw [← h.index] at hlow ⊢
  by_cases hroom : s.streamIndex < streamSizeMax
  · obtain ⟨stream', hstore, hlead⟩ := store_eq_some stream hroom
      (((s.streamval + 0x01000000#32) >>> 24).setWidth 8)
    left
    rw [hstore]
    refine ⟨_, rfl, ?_⟩
    rw [toNat_ofNat] at hlow
    rw [hlead, topByte_toNat]
    omega
  · right
    rw [store_eq_none stream (by omega)]
    exact ⟨by omega, rfl⟩

theorem encTerminate_narrow (h : Represents s r) (hr : r.Ready 256 3)
    (hnarrow : ¬2 * 256 ^ 3 ≤ r.width) :
    (∃ t, encTerminate s = some (r.shifts + 2, t) ∧
      leading 256 (digits t.stream) (r.shifts + 2) = r.low / 256 ^ 2 + 1) ∨
    (streamSizeMax < r.shifts + 2 ∧ encTerminate s = none) := by
  have hle : ¬s.wUpper > 0x01FFFFFF#32 := mt (wide_iff h.width).1 hnarrow
  have hwide : (0x00010000#32).toNat ≤ r.width := Nat.le_trans (by decide) hr.wide
  obtain ⟨stream, hcarry, hlow⟩ := h.add 0x00010000#32
    (Nat.lt_of_le_of_lt (Nat.add_le_add_left hwide _) hr.bounded)
  rw [encTerminate, if_neg hle]
  simp only [hcarry, bind_eq_bind, bind_some]
  rw [← h.index] at hlow ⊢
  by_cases hroom : s.streamIndex + 1 < streamSizeMax
  · obtain ⟨stream', hstore, hlead⟩ := store_eq_some stream (Nat.lt_of_succ_lt hroom)
      (((s.streamval + 0x00010000#32) >>> 24).setWidth 8)
    obtain ⟨stream'', hstore', hlead'⟩ := store_eq_some stream' hroom
      ((((s.streamval + 0x00010000#32) >>> 16) &&& 0x00FF#32).setWidth 8)
    left
    rw [hstore, bind_some, hstore']
    refine ⟨_, rfl, ?_⟩
    rw [toNat_ofNat] at hlow
    rw [hlead', hlead, topByte_toNat, nextByte_toNat]
    omega
  · right
    refine ⟨by omega, ?_⟩
    cases store stream s.streamIndex (((s.streamval + 0x00010000#32) >>> 24).setWidth 8) with
    | none => rfl
    | some stream' =>
      rw [bind_some, store_eq_none stream' (by omega)]
      rfl

theorem encTerminate_spec (h : Represents s r) (hr : r.Ready 256 3) :
    (∃ t, encTerminate s = some (codeLength r, t) ∧
      leading 256 (digits t.stream) (codeLength r) = codeValue r) ∨
    (streamSizeMax < codeLength r ∧ encTerminate s = none) := by
  unfold codeLength codeValue
  split
  case isTrue hwide => exact encTerminate_wide h hr hwide
  case isFalse hnarrow => exact encTerminate_narrow h hr hnarrow

theorem encode_ends {symbols : List CodedSymbol}
    (h : codeLength (rangeOf symbols) ≤ streamSizeMax) :
    ∃ s t, encHistMulti (.start stream) (symbols.map CodedSymbol.input) = some s ∧
      encTerminate s = some (codeLength (rangeOf symbols), t) ∧
      leading 256 (digits t.stream) (codeLength (rangeOf symbols)) =
        codeValue (rangeOf symbols) := by
  have hrefines := encode_refines stream symbols
  cases hresult : encHistMulti (.start stream) (symbols.map CodedSymbol.input) with
  | none =>
    rw [hresult] at hrefines
    exact absurd (Nat.lt_of_lt_of_le hrefines (Nat.le_add_right _ _)) (Nat.not_lt.2 h)
  | some s =>
    rw [hresult] at hrefines
    rcases encTerminate_spec hrefines (rangeOf_ready symbols) with ⟨t, hend, hcode⟩ | ⟨hlong, -⟩
    · exact ⟨s, t, rfl, hend, hcode⟩
    · exact absurd hlong (Nat.not_lt.2 h)

end WebrtcCore.Ports.Isac
