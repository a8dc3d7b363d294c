import WebrtcCore.Ports.IsacSearch
import WebrtcCore.Verified.Bits

/-!
# The iSAC histogram coder is lossless

A decoder that reads a stream in the range of some symbols keeps the distance
of the stream from the lower end of the range in `streamval`.  `Follows` is
this relation between a decoder's registers and a range; the symbol that a
search finds is the encoder's, and the renormalisation reads as many bytes as
the encoder wrote.
-/

namespace WebrtcCore.Ports.Isac

open Verified Digits RangeCoder Bits BitVec

/-! ## Reading -/

section Reading

variable (stream : Vector (BitVec 8) streamSizeMax)

theorem getElem?_stream {i : Nat} (h : i < streamSizeMax) :
    ∃ byte, stream[i]? = some byte ∧ byte.toNat = digits stream i := by
  refine ⟨stream[i], Vector.getElem?_eq_getElem h, ?_⟩
  rw [digits, dif_pos h]

theorem shiftIn_toNat {x : BitVec 32} (hx : x.toNat < 256 ^ 3) (byte : BitVec 8) :
    (x <<< 8 ||| byte.setWidth 32).toNat = x.toNat * 256 + byte.toNat := by
  have hbyte : (byte.setWidth 32).toNat = byte.toNat := toNat_setWidth_of_le (by decide)
  have hpush : (x <<< 8 ||| byte.setWidth 32).toNat = x.toNat * 2 ^ 8 + (byte.setWidth 32).toNat :=
    shiftLeft_or_toNat_of_lt (by omega) (by rw [hbyte]; exact byte.isLt)
  omega

theorem readWord_eq :
    ∃ word, readWord stream 0 = some word ∧ word.toNat = leading 256 (digits stream) 4 := by
  obtain ⟨byte0, h0, hv0⟩ := getElem?_stream stream (i := 0) (by decide)
  obtain ⟨byte1, h1, hv1⟩ := getElem?_stream stream (i := 1) (by decide)
  obtain ⟨byte2, h2, hv2⟩ := getElem?_stream stream (i := 2) (by decide)
  obtain ⟨byte3, h3, hv3⟩ := getElem?_stream stream (i := 3) (by decide)
  have hnested : byte0.setWidth 32 <<< 24 ||| byte1.setWidth 32 <<< 16 |||
      byte2.setWidth 32 <<< 8 ||| byte3.setWidth 32 =
      (((byte0.setWidth 32 <<< 8 ||| byte1.setWidth 32) <<< 8 |||
        byte2.setWidth 32) <<< 8 ||| byte3.setWidth 32) := by
    simp [shiftLeft_or_distrib]
  have hword0 : (byte0.setWidth 32).toNat = byte0.toNat := toNat_setWidth_of_le (by decide)
  have hword1 := shiftIn_toNat (x := byte0.setWidth 32) (by omega) byte1
  have hword2 := shiftIn_toNat (x := byte0.setWidth 32 <<< 8 ||| byte1.setWidth 32) (by omega) byte2
  have hword3 := shiftIn_toNat
    (x := (byte0.setWidth 32 <<< 8 ||| byte1.setWidth 32) <<< 8 |||
      byte2.setWidth 32) (by omega) byte3
  have hread : readWord stream 0 = some (byte0.setWidth 32 <<< 24 |||
      byte1.setWidth 32 <<< 16 ||| byte2.setWidth 32 <<< 8 |||
      byte3.setWidth 32) := by
    simp [readWord, h0, h1, h2, h3]
  refine ⟨_, hread, ?_⟩
  rw [hnested, hword3, hword2, hword1, hword0, hv0, hv1, hv2, hv3]
  simp [leading]

end Reading

/-! ## Following a range -/

/-- The decoder has read the stream up to its look-ahead, and `streamval` is
its distance from the lower end of the range. -/
structure Follows (stream : Vector (BitVec 8) streamSizeMax) (d : DecState)
    (r : Range) : Prop where
  ptr : d.streamPtr = r.shifts + 3
  inside : r.shifts + 3 < streamSizeMax
  width : d.wUpper.toNat = r.width
  value : r.low + d.streamval.toNat = leading 256 (digits stream) (r.shifts + 4)

/-- A result of the decoder: it follows the range, or the look-ahead is behind
the stream. -/
def FollowsOr (stream : Vector (BitVec 8) streamSizeMax) (result : Option DecState)
    (r : Range) : Prop :=
  match result with
  | some d => Follows stream d r
  | none => streamSizeMax ≤ r.shifts + 3

/-- The registers after one round of the renormalisation loop. -/
def DecState.shiftIn (d : DecState) (byte : BitVec 8) : DecState :=
  { d with
    streamPtr := d.streamPtr + 1
    wUpper := d.wUpper <<< 8
    streamval := d.streamval <<< 8 ||| byte.setWidth 32 }

variable {stream : Vector (BitVec 8) streamSizeMax} {d : DecState} {r : Range}

theorem Follows.shift (h : Follows stream d r) (hbelow : r.width < 256 ^ 3)
    (hcontains : r.Contains 256 3 (digits stream)) (hinside : r.shifts + 4 < streamSizeMax) :
    ∃ byte, stream[d.streamPtr + 1]? = some byte ∧
      Follows stream (d.shiftIn byte) (r.shift 256) := by
  have hvalue := h.value
  have hsmall : d.streamval.toNat < 256 ^ 3 := by
    have hle : leading 256 (digits stream) (r.shifts + 4) ≤ r.low + r.width := hcontains.2
    omega
  obtain ⟨byte, hbyte, hdigit⟩ := getElem?_stream stream hinside
  refine ⟨byte, by rw [h.ptr]; exact hbyte, ?_, ?_, ?_, ?_⟩
  · show d.streamPtr + 1 = r.shifts + 1 + 3
    rw [h.ptr]
  · show r.shifts + 1 + 3 < streamSizeMax
    omega
  · show (d.wUpper <<< 8).toNat = r.width * 256
    rw [shiftByte_toNat (by rw [h.width]; exact hbelow), h.width]
  · show r.low * 256 + (d.streamval <<< 8 ||| byte.setWidth 32).toNat =
      leading 256 (digits stream) (r.shifts + 1 + 4)
    rw [shiftIn_toNat hsmall, leading]
    omega

theorem renormalizeDec_follows (rounds : Nat) (h : Follows stream d r)
    (hwide : 256 ^ 3 ≤ r.width * 256 ^ rounds)
    (hcontains : (r.renormalize 256 (256 ^ 3) rounds).Contains 256 3 (digits stream)) :
    FollowsOr stream (renormalizeDec stream (rounds + 1) d)
      (r.renormalize 256 (256 ^ 3) rounds) := by
  refine Range.renormalize_rule (f := renormalizeDec stream)
    (Q := fun result r => r.Contains 256 3 (digits stream) → FollowsOr stream result r)
    ?_ ?_ h hwide (Nat.lt_succ_self _) hcontains
  · intro fuel d r h hwide _
    rw [renormalizeDec, if_neg (mt (belowTopByte_iff h.width).1 hwide)]
    exact h
  · intro fuel d r rounds h hbelow hmono ih hcontains
    have hr := (Range.Contains.of_renormalize (digits_lt stream) hcontains).of_shift
      (digits_lt stream)
    rw [renormalizeDec, if_pos ((belowTopByte_iff h.width).2 hbelow)]
    by_cases hinside : r.shifts + 4 < streamSizeMax
    · obtain ⟨byte, hbyte, hnext⟩ := h.shift hbelow hr hinside
      rw [hbyte]
      exact ih _ hnext hcontains
    · have hend : stream[d.streamPtr + 1]? = none := by
        rw [h.ptr]
        exact Vector.getElem?_eq_none (by omega)
      rw [hend]
      exact Nat.le_trans (by omega) (Nat.add_le_add_right hmono 3)

/-! ## Symbols -/

variable (h : Follows stream d r)
include h

theorem Follows.inSlot (hr : r.Ready 256 3) {slot : Slot} (hslot : slot.Fits 256 3)
    (hcontains : (r.encode 256 3 slot).Contains 256 3 (digits stream)) :
    slot.lo r.width < d.streamval.toNat ∧ d.streamval.toNat ≤ slot.hi r.width := by
  have hvalue : r.low + d.streamval.toNat =
      leading 256 (digits stream) (r.shifts + (3 + 1)) := h.value
  obtain ⟨hlo, hhi⟩ := hcontains.of_encode hr (digits_lt stream) hslot
  omega

theorem Follows.encloses (hr : r.Ready 256 3) (c : CodedSymbol)
    (hcontains : (r.encode 256 3 c.slot).Contains 256 3 (digits stream)) :
    Encloses c.table d.wUpper d.streamval c.data := by
  obtain ⟨hlo, hhi⟩ := h.inSlot hr c.fits hcontains
  have hlower : (c.table.bound d.wUpper c.data).toNat = c.slot.lo r.width := by
    rw [cdfBound_toNat, h.width]
    rfl
  have hupper : (c.table.bound d.wUpper (c.data + 1)).toNat = c.slot.hi r.width := by
    rw [cdfBound_toNat, h.width]
    rfl
  refine ⟨by rw [h.width]; exact hr.wide, c.lt, ?_, ?_⟩
  · rw [lt_def, hlower]
    exact hlo
  · rw [le_def, hupper]
    exact hhi

theorem Follows.narrow (hr : r.Ready 256 3) {cdfLo cdfHi : BitVec 16}
    (hcdf : cdfLo.toNat < cdfHi.toNat)
    (hcontains : (r.encode 256 3 (cdfSlot cdfLo cdfHi)).Contains 256 3 (digits stream)) :
    Follows stream
        { d with
          wLower := cdfBound d.wUpper cdfLo + 1#32
          wUpper := cdfBound d.wUpper cdfHi - (cdfBound d.wUpper cdfLo + 1#32)
          streamval := d.streamval - (cdfBound d.wUpper cdfLo + 1#32) }
        (r.part (cdfSlot cdfLo cdfHi)) := by
  obtain ⟨hlower, hupper, -⟩ := cdfSlot_registers hcdf hr h.width
  have hvalue := h.value
  have hcode : r.low + (cdfSlot cdfLo cdfHi).lo r.width <
      leading 256 (digits stream) (r.shifts + 4) :=
    (hcontains.of_encode hr (digits_lt stream) (cdfSlot_fits hcdf)).1
  refine ⟨h.ptr, h.inside, hupper, ?_⟩
  show r.low + ((cdfSlot cdfLo cdfHi).lo r.width + 1) + (d.streamval -
    (cdfBound d.wUpper cdfLo + 1#32)).toNat = _
  rw [toNat_sub_of_le (by rw [le_def]; omega)]
  show _ = leading 256 (digits stream) (r.shifts + 4)
  omega

theorem narrowDec_follows (hr : r.Ready 256 3) (c : CodedSymbol)
    (hcontains : (r.encode 256 3 c.slot).Contains 256 3 (digits stream)) :
    FollowsOr stream (narrowDec stream d (foundAt c.table d.wUpper c.data))
      (r.encode 256 3 c.slot) := by
  have hnarrow := h.narrow hr c.entry_lt hcontains
  exact renormalizeDec_follows 3 hnarrow (hr.part_wide c.fits) hcontains

omit h

/-- A step of a decoder that finds the encoder's symbol. -/
def DecodesStep {ι : Type}
    (step : Vector (BitVec 8) streamSizeMax → DecState → ι →
      Option (Except Int (Int × DecState)))
    (c : CodedSymbol) (i : ι) : Prop :=
  ∀ stream d r, Follows stream d r → r.Ready 256 3 →
    (r.encode 256 3 c.slot).Contains 256 3 (digits stream) →
    (∃ d', step stream d i = some (.ok (c.data, d')) ∧
      Follows stream d' (r.encode 256 3 c.slot)) ∨
    (step stream d i = none ∧
      streamSizeMax ≤ (r.encode 256 3 c.slot).shifts + 3)

theorem decHistOneStep_decodes (c : CodedSymbol) {initIndex : BitVec 16}
    (hinit : initIndex.toNat < c.table.entries.length) :
    DecodesStep decHistOneStep c (c.table.entries, initIndex) := by
  intro stream d r h hr hcontains
  have hnext := narrowDec_follows h hr c hcontains
  rw [decHistOneStep, oneStepSearch_eq (h.encloses hr c hcontains) hinit]
  simp only [Option.bind_eq_bind, Option.bind_some]
  generalize narrowDec stream d (foundAt c.table d.wUpper c.data) = result at hnext ⊢
  cases result with
  | none => exact .inr ⟨rfl, hnext⟩
  | some d' => exact .inl ⟨d', rfl, hnext⟩

theorem decHistBisect_decodes (c : CodedSymbol) {k : Nat} (hk : 2 ≤ k)
    (hlength : c.table.entries.length + 1 = 2 ^ k) {cdfSize : BitVec 16}
    (hsize : cdfSize.toNat = 2 ^ k) :
    DecodesStep decHistBisect c (c.table.entries, cdfSize) := by
  intro stream d r h hr hcontains
  have hnext := narrowDec_follows h hr c hcontains
  have hready := hr.encode (by decide) c.fits
  rw [decHistBisect]
  simp only [bisect_cut (h.encloses hr c hcontains).isCut hk hlength hsize, foundCut_succ c.lt,
    Option.bind_eq_bind, Option.bind_some]
  generalize narrowDec stream d (foundAt c.table d.wUpper c.data) = result at hnext ⊢
  cases result with
  | none => exact .inr ⟨rfl, hnext⟩
  | some d' =>
    have hne : d'.wUpper ≠ 0#32 := ne_zero_of_wide (by rw [hnext.width]; exact hready.wide)
    left
    refine ⟨d', ?_, hnext⟩
    rw [Option.bind_some, if_neg hne]
    rfl

/-! ## Runs -/

theorem decodeLoop_follows {ι : Type}
    {step : Vector (BitVec 8) streamSizeMax → DecState → ι → Option (Except Int (Int × DecState))}
    {decoderInput : CodedSymbol × BitVec 16 → ι} (input : List (CodedSymbol × BitVec 16))
    (hstep : ∀ i ∈ input, DecodesStep step i.1 (decoderInput i)) (h : Follows stream d r)
    (hr : r.Ready 256 3)
    (hcontains : (r.encodeAll 256 3 (input.map fun i => i.1.slot)).Contains 256 3 (digits stream)) :
    (∃ d', decodeLoop (step stream) d (input.map decoderInput) =
        some (input.map fun i => (i.1.data : Int), .ok d') ∧
      Follows stream d' (r.encodeAll 256 3 (input.map fun i => i.1.slot))) ∨
    (decodeLoop (step stream) d (input.map decoderInput) = none ∧
      streamSizeMax ≤ (r.encodeAll 256 3 (input.map fun i => i.1.slot)).shifts + 3) := by
  induction input generalizing d r with
  | nil => exact .inl ⟨d, rfl, h⟩
  | cons i input ih =>
    have hready := hr.encode (by decide) i.1.fits
    have hslots : ∀ slot ∈ input.map (fun i => i.1.slot), slot.Fits 256 3 := by
      intro slot hslot
      obtain ⟨j, -, rfl⟩ := List.mem_map.1 hslot
      exact j.1.fits
    have hfirst : (r.encode 256 3 i.1.slot).Contains 256 3 (digits stream) :=
      Range.Contains.of_encodeAll hready (by decide) (digits_lt stream) hslots hcontains
    rw [List.map_cons, decodeLoop]
    rcases hstep i List.mem_cons_self stream d r h hr hfirst with
      ⟨d', hok, hnext⟩ | ⟨hnone, hout⟩
    · rcases ih (fun j hj => hstep j (List.mem_cons_of_mem _ hj)) hnext hready
        hcontains with ⟨d'', hloop, hend⟩ | ⟨hloop, hout⟩
      · exact .inl ⟨d'', by rw [hok]; simp [hloop], hend⟩
      · exact .inr ⟨by rw [hok]; simp [hloop], hout⟩
    · have hmono := Range.shifts_le_encodeAll (b := 256) (k := 3)
        (r := r.encode 256 3 i.1.slot) (input.map fun i => i.1.slot)
      exact .inr ⟨by rw [hnone]; rfl, Nat.le_trans hout (Nat.add_le_add_right hmono 3)⟩

/-- What a decoder leaves of a stream with the given symbols. -/
def Decodes (n : Nat) (symbols : List CodedSymbol) (result : Option Decoded) : Prop :=
  ∃ s, result = some ⟨n, symbols.map fun c => (c.data : Int), s⟩

theorem start_follows (stream : Vector (BitVec 8) streamSizeMax) :
    ∃ d, startDec (.start stream) = some d ∧ Follows stream d fullRange := by
  obtain ⟨word, hread, hword⟩ := readWord_eq stream
  refine ⟨⟨3, 0#32, 0xFFFFFFFF#32, word⟩, ?_, rfl, by decide, ?_, ?_⟩
  · simp [startDec, Bitstr.start, hread]
  · exact (by decide : (0xFFFFFFFF#32).toNat = 256 ^ 4 - 1)
  · rw [hword]
    exact Nat.zero_add _

theorem Follows.length_eq (h : Follows stream d r) :
    (if d.wUpper > 0x01FFFFFF#32 then (d.streamPtr : Int) - 2
      else (d.streamPtr : Int) - 1) = codeLength r := by
  have hiff := wide_iff h.width
  have hptr := h.ptr
  unfold codeLength
  by_cases hwide : 2 * 256 ^ 3 ≤ r.width
  · rw [if_pos (hiff.2 hwide), if_pos hwide]
    omega
  · rw [if_neg (fun hgt => hwide (hiff.1 hgt)), if_neg hwide]
    omega

/-- A list whose code, with the look-ahead of the decoders, fits the stream. -/
def Fits (symbols : List CodedSymbol) : Prop :=
  (rangeOf symbols).shifts + 4 ≤ streamSizeMax
  deriving Decidable

/-! ## Losslessness -/

/-- Initial indices inside the tables, one for each symbol. -/
def InitIndices (symbols : List CodedSymbol)
    (input : List (CodedSymbol × BitVec 16)) : Prop :=
  input.map Prod.fst = symbols ∧
    ∀ i ∈ input, i.2.toNat < i.1.table.entries.length

/-- Sizes plus one of tables with `2 ^ k - 1` entries. -/
def CdfSizes (symbols : List CodedSymbol)
    (input : List (CodedSymbol × BitVec 16)) : Prop :=
  input.map Prod.fst = symbols ∧
    ∀ i ∈ input, ∃ k, 2 ≤ k ∧ i.1.table.entries.length + 1 = 2 ^ k ∧
      i.2.toNat = 2 ^ k

/-- What a decoder is given for a symbol. -/
def decoderInput (i : CodedSymbol × BitVec 16) : List (BitVec 16) × BitVec 16 :=
  (i.1.table.entries, i.2)

def Lossless (stream : Vector (BitVec 8) streamSizeMax)
    (calls : List (List CodedSymbol)) : Prop :=
  ∃ s n t,
    calls.foldlM (fun s symbols => encHistMulti s (symbols.map CodedSymbol.input))
      (.start stream) = some s ∧
    encTerminate s = some (n, t) ∧
    ∀ received : Vector (BitVec 8) streamSizeMax,
      received.toList.take n = t.stream.toList.take n →
      (∀ input, InitIndices calls.flatten input →
        Decodes n calls.flatten
          (decHistOneStepMulti (.start received) (input.map decoderInput))) ∧
      (∀ input, CdfSizes calls.flatten input →
        Decodes n calls.flatten
          (decHistBisectMulti (.start received) (input.map decoderInput)))

theorem encode_calls (calls : List (List CodedSymbol)) (s : Bitstr) :
    calls.foldlM (fun s symbols => encHistMulti s (symbols.map CodedSymbol.input)) s =
      encHistMulti s (calls.flatten.map CodedSymbol.input) := by
  induction calls generalizing s with
  | nil => rfl
  | cons symbols calls ih =>
    rw [List.foldlM_cons, List.flatten_cons, List.map_append, encHistMulti,
      encHistMulti, List.foldlM_append]
    congr 1
    funext s'
    exact ih s'

theorem contains_of_take (hr : r.Ready 256 3) {sent received : Vector (BitVec 8) streamSizeMax}
    (hsent : leading 256 (digits sent) (codeLength r) = codeValue r)
    (htake : received.toList.take (codeLength r) = sent.toList.take (codeLength r)) :
    r.Contains 256 3 (digits received) := by
  apply contains_of_code hr (digits_lt received)
  rw [← hsent]
  exact leading_congr (digits_of_take htake)

theorem decodeHist_decodes {step : Vector (BitVec 8) streamSizeMax → DecState → List (BitVec 16) ×
      BitVec 16 → Option (Except Int (Int × DecState))} {symbols : List CodedSymbol}
    {input : List (CodedSymbol × BitVec 16)} (hinput : input.map Prod.fst = symbols)
    (hstep : ∀ i ∈ input, DecodesStep step i.1 (decoderInput i))
    (hcontains : (rangeOf symbols).Contains 256 3 (digits stream)) :
    (Fits symbols ∧ Decodes (codeLength (rangeOf symbols)) symbols
        (decodeHist step (.start stream) (input.map decoderInput))) ∨
    (¬Fits symbols ∧ decodeHist step (.start stream) (input.map decoderInput) = none) := by
  have hrange : rangeOf symbols = fullRange.encodeAll 256 3 (input.map fun i => i.1.slot) := by
    rw [← hinput, rangeOf, List.map_map]
    rfl
  unfold Fits
  rw [hrange] at hcontains ⊢
  obtain ⟨d, hd, hstart⟩ := start_follows stream
  have hhist : decodeHist step (.start stream) (input.map decoderInput) =
      (decodeLoop (step stream) d (input.map decoderInput)).map (endDec (.start stream)) := by
    rw [decodeHist, hd]
    exact Option.map_eq_bind.symm
  rcases decodeLoop_follows input hstep hstart fullRange_ready hcontains with
    ⟨d', hloop, hend⟩ | ⟨hloop, hout⟩
  · left
    refine ⟨hend.inside, ⟨stream, d'.wUpper, d'.streamval, d'.streamPtr⟩, ?_⟩
    rw [hhist, hloop, Option.map_some, endDec, hend.length_eq, ← hinput, List.map_map]
    rfl
  · right
    refine ⟨by omega, ?_⟩
    rw [hhist, hloop]
    rfl

theorem codeLength_le (r : Range) : codeLength r ≤ r.shifts + 2 := by
  unfold codeLength
  split <;> omega

theorem lossless_of_fits (stream : Vector (BitVec 8) streamSizeMax)
    {calls : List (List CodedSymbol)} (h : Fits calls.flatten) :
    Lossless stream calls := by
  have hle := codeLength_le (rangeOf calls.flatten)
  have hroom : codeLength (rangeOf calls.flatten) ≤ streamSizeMax := by
    unfold Fits at h
    omega
  obtain ⟨s, t, hencode, hend, hcode⟩ := encode_ends stream hroom
  refine ⟨s, _, t, (encode_calls calls _).trans hencode, hend, ?_⟩
  intro received hreceived
  have hcontains := contains_of_take (rangeOf_ready calls.flatten) hcode hreceived
  constructor
  · intro input hinput
    have hstep := fun i hi => decHistOneStep_decodes i.1 (hinput.2 i hi)
    exact ((decodeHist_decodes hinput.1 hstep hcontains).resolve_right fun hlong => hlong.1 h).2
  · intro input hinput
    have hstep : ∀ i ∈ input, DecodesStep decHistBisect i.1 (decoderInput i) := by
      intro i hi
      obtain ⟨k, hk, hlength, hsize⟩ := hinput.2 i hi
      exact decHistBisect_decodes i.1 hk hlength hsize
    exact ((decodeHist_decodes hinput.1 hstep hcontains).resolve_right fun hlong => hlong.1 h).2

theorem Lossless.fits {stream : Vector (BitVec 8) streamSizeMax}
    {calls : List (List CodedSymbol)} (h : Lossless stream calls) :
    Fits calls.flatten := by
  obtain ⟨s, n, t, hencode, hend, hdecode⟩ := h
  rw [encode_calls] at hencode
  have hrep := encode_refines stream calls.flatten
  rw [hencode] at hrep
  rcases encTerminate_spec hrep (rangeOf_ready calls.flatten) with
    ⟨t', hend', hcode⟩ | ⟨-, hnone⟩
  · rw [hend] at hend'
    obtain ⟨rfl, rfl⟩ := Prod.mk.inj (Option.some.inj hend')
    have hcontains := contains_of_take (rangeOf_ready calls.flatten) hcode rfl
    let input := calls.flatten.map fun c => (c, 0#16)
    have hinput : InitIndices calls.flatten input := by
      constructor
      · rw [List.map_map]
        exact List.map_id _
      · intro i hi
        obtain ⟨c, -, rfl⟩ := List.mem_map.1 hi
        exact Nat.lt_of_le_of_lt (Nat.zero_le _) c.lt
    rcases decodeHist_decodes hinput.1 (fun i hi =>
      decHistOneStep_decodes i.1 (hinput.2 i hi)) hcontains with
      ⟨hfits, -⟩ | ⟨-, hnone⟩
    · exact hfits
    · obtain ⟨s', hsome⟩ := (hdecode t.stream rfl).1 input hinput
      rw [decHistOneStepMulti, hnone] at hsome
      cases hsome
  · rw [hend] at hnone
    cases hnone

/-- **The iSAC histogram coder is lossless and self-delimiting** exactly on the
lists whose code, with the three bytes that the decoders read ahead, fits the
stream. -/
theorem lossless_iff_fits (stream : Vector (BitVec 8) streamSizeMax)
    (calls : List (List CodedSymbol)) :
    Lossless stream calls ↔ Fits calls.flatten :=
  ⟨Lossless.fits, lossless_of_fits stream⟩

/-- Three hundred improbable symbols need more bytes than the stream has. -/
theorem not_lossless_improbable :
    ¬Lossless (Vector.replicate streamSizeMax 0#8) [List.replicate 300 improbable] := by
  intro h
  exact absurd h.fits (by decide +kernel)

end WebrtcCore.Ports.Isac
