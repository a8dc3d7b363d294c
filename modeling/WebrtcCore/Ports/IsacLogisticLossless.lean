import WebrtcCore.Ports.IsacLogisticEncoder
import WebrtcCore.Ports.IsacLossless

/-!
# When the iSAC logistic coder is lossless

The decoder reads the range of the clipped coefficients as the histogram decoders
do, but it can fail in two ways.  Its search passes candidates that the encoder
never looked at, and takes two neighbours of the same cdf for an error.  And it
reads three bytes ahead of the encoder, with the same limit of 400 bytes.
-/

namespace WebrtcCore.Ports.Isac

open Verified Digits RangeCoder Walk BitVec

/-! ## Bounds -/

section Bounds

variable {wUpper : BitVec 32} {envQ8 : BitVec 16} {c c' : Int}

theorem logisticBound_eq (wUpper : BitVec 32) (envQ8 : BitVec 16) (c : Int) :
    logisticBound wUpper envQ8 c = cdfBound wUpper (edgeEntry envQ8 c) := by
  unfold logisticBound cdfBound
  rw [edgeEntry_setWidth]

theorem logisticBound_toNat (wUpper : BitVec 32) (envQ8 : BitVec 16) (c : Int) :
    (logisticBound wUpper envQ8 c).toNat = wUpper.toNat * (edgeEntry envQ8 c).toNat / 65536 := by
  rw [logisticBound_eq, cdfBound_toNat]

theorem logisticBound_mono (h : c ≤ c') :
    (logisticBound wUpper envQ8 c).toNat ≤ (logisticBound wUpper envQ8 c').toNat := by
  rw [logisticBound_toNat, logisticBound_toNat]
  exact Nat.div_le_div_right (Nat.mul_le_mul_left _ (edgeEntry_mono envQ8 h))

theorem logisticBound_eq_iff (hw : 256 ^ 3 ≤ wUpper.toNat) :
    logisticBound wUpper envQ8 c = logisticBound wUpper envQ8 c' ↔
      piecewise (c * envQ8.toNat) = piecewise (c' * envQ8.toNat) := by
  refine ⟨fun h => ?_, logisticBound_congr⟩
  have hbounds := congrArg BitVec.toNat h
  rw [logisticBound_toNat, logisticBound_toNat] at hbounds
  rw [← edgeEntry_toNat, ← edgeEntry_toNat]
  rcases Nat.lt_trichotomy (edgeEntry envQ8 c).toNat (edgeEntry envQ8 c').toNat with
    hlt | heq | hgt
  · have hgap := bound_gap hw hlt
    omega
  · rw [heq]
  · have hgap := bound_gap hw hgt
    omega

end Bounds

/-! ## The search -/

/-- The candidates `first + step`, `first + 2 * step` and so on up to the `rounds`-th have
another cdf than the candidates behind them. -/
def NoEqualNeighbours (envQ8 : BitVec 16) (first step : Int) (rounds : Nat) : Prop :=
  ∀ i ≤ rounds, 1 ≤ i →
    piecewise ((first + step * (i : Nat)) * envQ8.toNat) ≠
      piecewise ((first + step * ((i + 1 : Nat) : Int)) * envQ8.toNat)
  deriving Decidable

def PathClear (envQ8 : BitVec 16) (ditherQ7 dataQ7 : Int) : Prop :=
  NoEqualNeighbours envQ8 (-ditherQ7 + 64) 128 ((dataQ7 + ditherQ7) / 128 - 1).toNat ∧
    NoEqualNeighbours envQ8 (-ditherQ7 + 64) (-128) (-((dataQ7 + ditherQ7) / 128)).toNat
  deriving Decidable

theorem noEqualNeighbours_zero (envQ8 : BitVec 16) (first step : Int) :
    NoEqualNeighbours envQ8 first step 0 := by
  intro i hi hpos
  omega

section Search

variable {wUpper streamval : BitVec 32} {envQ8 : BitVec 16} {goOn : BitVec 32 → Bool}
  {fuel : Nat} {first step : Int} {j : Nat}

theorem walk_candidates (hw : 256 ^ 3 ≤ wUpper.toNat)
    (hrange : ∀ i ≤ j + 1, -32768 ≤ first + step * (i : Nat) ∧ first + step * (i : Nat) < 32768)
    (hgo : ∀ i ≤ j, goOn (logisticBound wUpper envQ8 (first + step * (i : Nat))) = true)
    (hend : goOn (logisticBound wUpper envQ8 (first + step * ((j + 1 : Nat) : Int))) = false)
    (hfuel : j < fuel) :
    goOn (logisticBound wUpper envQ8 first) = true ∧
    walk (logisticBound wUpper envQ8) (fun c => toInt16 (c + step)) goOn fuel
        (logisticBound wUpper envQ8 first) (toInt16 (first + step)) =
      some (if NoEqualNeighbours envQ8 first step j then
        .stopped (logisticBound wUpper envQ8 (first + step * (j : Nat)))
          (first + step * ((j + 1 : Nat) : Int))
      else .stuck) := by
  have hpath : ∀ i ≤ j, toInt16 (first + step * (i : Nat) + step) =
      first + step * ((i + 1 : Nat) : Int) := fun i hi => toInt16_step (hrange (i + 1) (by omega))
  have hzero : first + step * ((0 : Nat) : Int) = first := by simp
  have hone := hpath 0 (Nat.zero_le _)
  have hfirst := hgo 0 (Nat.zero_le _)
  rw [hzero] at hone hfirst
  have hwalk := @walk_path Int _ _ (logisticBound wUpper envQ8)
    (fun c => toInt16 (c + step)) goOn (fun i => first + step * (i : Nat)) j hpath
    (fun i hi _ => hgo i hi) hend fuel hfuel
  simp only [hzero, ne_eq, logisticBound_eq_iff hw] at hwalk
  rw [hone]
  exact ⟨hfirst, hwalk⟩

end Search

namespace ClippedCoefficient

/-- The coefficient and its bounds. -/
def found (c : ClippedCoefficient) (wUpper : BitVec 32) : Found :=
  ⟨c.dataQ7, cdfBound wUpper c.cdfLo, cdfBound wUpper c.cdfHi⟩

variable {c : ClippedCoefficient} {wUpper streamval : BitVec 32} {fuel : Nat}

variable (hw : 256 ^ 3 ≤ wUpper.toNat) (hlo : cdfBound wUpper c.cdfLo < streamval)
  (hhi : streamval ≤ cdfBound wUpper c.cdfHi) (hfuel : 512 ≤ fuel)
include hw hlo hhi hfuel

theorem logisticSearch_spec :
    logisticSearch fuel wUpper streamval c.envQ8 c.ditherQ7 =
      some (if PathClear c.envQ8 c.ditherQ7 c.dataQ7 then .ok (c.found wUpper)
        else .error (-1)) := by
  obtain ⟨hdata, hdata'⟩ := c.data_range
  obtain ⟨hdither, hdither'⟩ := c.dither_range
  have haligned := c.aligned
  unfold found
  rw [cdfLo, ← logisticBound_eq] at hlo ⊢
  rw [cdfHi, ← logisticBound_eq] at hhi ⊢
  rw [lt_def] at hlo
  rw [le_def] at hhi
  rw [logisticSearch, toInt16_of_range (show -32768 ≤ -c.ditherQ7 + 64 by omega) (by omega)]
  unfold PathClear
  by_cases habove : 1 ≤ (c.dataQ7 + c.ditherQ7) / 128
  · have hnone : (-((c.dataQ7 + c.ditherQ7) / 128)).toNat = 0 := by omega
    obtain ⟨j, hj⟩ : ∃ j, ((c.dataQ7 + c.ditherQ7) / 128 - 1).toNat = j := ⟨_, rfl⟩
    have hlower : -c.ditherQ7 + 64 + 128 * (j : Int) = c.dataQ7 - 64 := by omega
    have hlast : -c.ditherQ7 + 64 + 128 * ((j + 1 : Nat) : Int) = c.dataQ7 + 64 := by omega
    -- All candidates up to the lower edge have bounds below `streamval`, as the cdf rises.
    have hgo : ∀ i ≤ j, streamval > logisticBound wUpper c.envQ8
        (-c.ditherQ7 + 64 + 128 * (i : Nat)) := by
      intro i hi
      exact Nat.lt_of_le_of_lt (logisticBound_mono (by omega)) hlo
    obtain ⟨hfirst, hwalk⟩ := @walk_candidates wUpper c.envQ8 (fun wTmp => streamval > wTmp) fuel
      (-c.ditherQ7 + 64) 128 j hw (by omega) (fun i hi => decide_eq_true (hgo i hi))
      (by
        rw [hlast]
        exact decide_eq_false (by rw [gt_iff_lt, lt_def]; omega)) (by omega)
    simp only [if_pos (of_decide_eq_true hfirst), hwalk, Option.map_some,
      hj, hnone, noEqualNeighbours_zero, and_true]
    by_cases hclear : NoEqualNeighbours c.envQ8 (-c.ditherQ7 + 64) 128 j
    · simp only [if_pos hclear, hlast, hlower, Int.add_sub_cancel]
      rw [toInt16_of_range (by omega) (by omega)]
    · simp only [if_neg hclear]
  · have hnone : ((c.dataQ7 + c.ditherQ7) / 128 - 1).toNat = 0 := by omega
    obtain ⟨j, hj⟩ : ∃ j, (-((c.dataQ7 + c.ditherQ7) / 128)).toNat = j := ⟨_, rfl⟩
    have hupper : -c.ditherQ7 + 64 + -128 * (j : Int) = c.dataQ7 + 64 := by omega
    have hlast : -c.ditherQ7 + 64 + -128 * ((j + 1 : Nat) : Int) = c.dataQ7 - 64 := by omega
    have hgo : ∀ i ≤ j, ¬streamval > logisticBound wUpper c.envQ8
        (-c.ditherQ7 + 64 + -128 * (i : Nat)) := by
      intro i hi
      rw [gt_iff_lt, lt_def, Nat.not_lt]
      exact Nat.le_trans hhi (logisticBound_mono (by omega))
    obtain ⟨hfirst, hwalk⟩ := @walk_candidates wUpper c.envQ8 (fun wTmp => ¬streamval > wTmp) fuel
      (-c.ditherQ7 + 64) (-128) j hw (by omega) (fun i hi => decide_eq_true (hgo i hi))
      (by
        rw [hlast]
        exact decide_eq_false (by rw [gt_iff_lt, lt_def]; omega)) (by omega)
    simp only [← Int.sub_eq_add_neg] at hwalk
    simp only [if_neg (of_decide_eq_true hfirst), hwalk, Option.map_some, hj, hnone,
      noEqualNeighbours_zero, true_and]
    by_cases hclear : NoEqualNeighbours c.envQ8 (-c.ditherQ7 + 64) (-128) j
    · simp only [if_pos hclear, hlast, hupper, Int.sub_add_cancel]
      rw [toInt16_of_range (by omega) (by omega)]
    · simp only [if_neg hclear]

omit hw hlo hhi hfuel

end ClippedCoefficient

/-! ## Following a range -/

variable {stream : Vector (BitVec 8) streamSizeMax} {d : DecState} {r : Range} {fuel : Nat}

/-- A result of the loop: it follows the range below the limit of the look-ahead, and is
minus one above it. -/
def FollowsBelow (stream : Vector (BitVec 8) streamSizeMax) (result : Option (Except Int DecState))
    (r : Range) : Prop :=
  (∃ d', result = some (.ok d') ∧ Follows stream d' r ∧ r.shifts + 3 < streamSizeMax60) ∨
    (result = some (.error (-1)) ∧ streamSizeMax60 ≤ r.shifts + 3)

theorem renormalizeLogistic_follows (rounds : Nat) (h : Follows stream d r)
    (hbelow : r.shifts + 3 < streamSizeMax60) (hwide : 256 ^ 3 ≤ r.width * 256 ^ rounds)
    (hcontains : (r.renormalize 256 (256 ^ 3) rounds).Contains 256 3 (digits stream))
    (hfuel : rounds < fuel) :
    FollowsBelow stream (renormalizeLogistic stream fuel d)
      (r.renormalize 256 (256 ^ 3) rounds) := by
  refine Range.renormalize_rule (f := renormalizeLogistic stream)
    (R := fun d r => Follows stream d r ∧ r.shifts + 3 < streamSizeMax60)
    (Q := fun result r => r.Contains 256 3 (digits stream) → FollowsBelow stream result r)
    ?_ ?_ ⟨h, hbelow⟩ hwide hfuel hcontains
  · rintro fuel d r ⟨h, hbelow⟩ hwide -
    rw [renormalizeLogistic, if_neg (mt (belowTopByte_iff h.width).1 hwide)]
    exact .inl ⟨d, rfl, h, hbelow⟩
  · rintro fuel d r rounds ⟨h, hbelow⟩ hnarrow hmono ih hcontains
    have hr := (Range.Contains.of_renormalize (digits_lt stream) hcontains).of_shift
      (digits_lt stream)
    rw [renormalizeLogistic, if_pos ((belowTopByte_iff h.width).2 hnarrow), h.ptr]
    by_cases hlimit : streamSizeMax60 ≤ r.shifts + 3 + 1
    · exact .inr ⟨if_pos hlimit, by omega⟩
    · obtain ⟨byte, hbyte, hnext⟩ := h.shift hnarrow hr
        (Nat.lt_trans (Nat.lt_of_not_le hlimit) (by decide))
      rw [DecState.shiftIn, h.ptr] at hnext
      rw [h.ptr] at hbyte
      rw [if_neg hlimit, hbyte]
      exact ih _ ⟨hnext, show r.shifts + 1 + 3 < _ by omega⟩ hcontains

namespace ClippedCoefficient

/-- Nothing keeps the search from the coefficient. -/
def Reachable (c : ClippedCoefficient) : Prop := PathClear c.envQ8 c.ditherQ7 c.dataQ7
  deriving Decidable

theorem decLogistic_follows (c : ClippedCoefficient) (hfuel : 512 ≤ fuel)
    (h : Follows stream d r) (hr : r.Ready 256 3) (hbelow : r.shifts + 3 < streamSizeMax60)
    (hcontains : (r.encode 256 3 c.slot).Contains 256 3 (digits stream)) :
    (∃ d', decLogistic fuel stream d (c.envQ8, c.ditherQ7) = some (.ok (c.dataQ7, d')) ∧
      Follows stream d' (r.encode 256 3 c.slot) ∧
      (r.encode 256 3 c.slot).shifts + 3 < streamSizeMax60 ∧ c.Reachable) ∨
    (decLogistic fuel stream d (c.envQ8, c.ditherQ7) = some (.error (-1)) ∧
      ¬((r.encode 256 3 c.slot).shifts + 3 < streamSizeMax60 ∧ c.Reachable)) := by
  have hw : 256 ^ 3 ≤ d.wUpper.toNat := by
    rw [h.width]
    exact hr.wide
  obtain ⟨hlo, hhi⟩ := h.inSlot hr c.fits hcontains
  have hsearch := @logisticSearch_spec c d.wUpper d.streamval fuel hw
    (by rw [lt_def, cdfBound_toNat, h.width]; exact hlo)
    (by rw [le_def, cdfBound_toNat, h.width]; exact hhi) hfuel
  unfold decLogistic
  rw [hsearch]
  by_cases hclear : PathClear c.envQ8 c.ditherQ7 c.dataQ7
  · rw [if_pos hclear]
    rcases renormalizeLogistic_follows 3 (h.narrow hr c.cdf_lt hcontains) hbelow
      (hr.part_wide c.fits) hcontains
      (show 3 < streamSizeMax60 by decide) with ⟨d', hloop, hnext, hroom⟩ | ⟨hloop, hlong⟩
    · left
      refine ⟨d', ?_, hnext, hroom, hclear⟩
      simp only [Option.bind_eq_bind, Option.bind_some, found, hloop]
      rfl
    · right
      refine ⟨?_, fun hall => Nat.not_lt_of_le hlong hall.1⟩
      simp only [Option.bind_eq_bind, Option.bind_some, found, hloop]
      rfl
  · right
    rw [if_neg hclear]
    exact ⟨rfl, fun hall => hclear hall.2⟩

end ClippedCoefficient

/-- What `WebRtcIsac_DecLogisticMulti2` is given for a coefficient. -/
def Coefficient.decoderInput (c : Coefficient) : BitVec 16 × Int := (c.envQ8, c.ditherQ7)

/-- The look-ahead stays below the limit, and the search finds the coefficients. -/
def Legible (r : Range) (coefficients : List Coefficient) : Prop :=
  (r.encodeAll 256 3 (coefficients.map fun c => c.clipped.slot)).shifts + 3 < streamSizeMax60 ∧
    ∀ c ∈ coefficients, c.clipped.Reachable

theorem decodeLoop_logistic (hfuel : 512 ≤ fuel) (coefficients : List Coefficient)
    (h : Follows stream d r) (hr : r.Ready 256 3) (hbelow : r.shifts + 3 < streamSizeMax60)
    (hcontains : (r.encodeAll 256 3 (coefficients.map fun c => c.clipped.slot)).Contains 256 3
      (digits stream)) :
    (∃ d', decodeLoop (decLogistic fuel stream) d (coefficients.map Coefficient.decoderInput) =
        some (coefficients.map fun c => c.clipped.dataQ7, .ok d') ∧
      Follows stream d' (r.encodeAll 256 3 (coefficients.map fun c => c.clipped.slot)) ∧
      Legible r coefficients) ∨
    (∃ datas, decodeLoop (decLogistic fuel stream) d
        (coefficients.map Coefficient.decoderInput) = some (datas, .error (-1)) ∧
      ¬Legible r coefficients) := by
  induction coefficients generalizing d r with
  | nil => exact .inl ⟨d, rfl, h, hbelow, by simp⟩
  | cons c coefficients ih =>
    have hready := hr.encode (by decide) c.clipped.fits
    have hfirst : (r.encode 256 3 c.clipped.slot).Contains 256 3 (digits stream) :=
      Range.Contains.of_encodeAll hready (by decide) (digits_lt stream)
        (slots_fit coefficients) hcontains
    have hmono := @Range.shifts_le_encodeAll 256 3 (r.encode 256 3 c.clipped.slot)
      (coefficients.map fun c => c.clipped.slot)
    rw [List.map_cons, decodeLoop]
    rcases c.clipped.decLogistic_follows hfuel h hr hbelow hfirst with
      ⟨d', hstep, hnext, hroom, hreach⟩ | ⟨hstep, hfails⟩
    · rw [show decLogistic fuel stream d c.decoderInput = _ from hstep]
      rcases ih hnext hready hroom hcontains with
        ⟨d'', hloop, hend, hshort, hreaches⟩ | ⟨datas, hloop, hfails⟩
      · refine .inl ⟨d'', by simp [hloop], hend, hshort, ?_⟩
        exact List.forall_mem_cons.2 ⟨hreach, hreaches⟩
      · refine .inr ⟨_, by simp [hloop]; rfl, fun hboth => hfails ⟨hboth.1, ?_⟩⟩
        exact (List.forall_mem_cons.1 hboth.2).2
    · rw [show decLogistic fuel stream d c.decoderInput = _ from hstep]
      -- The range only gets longer, so that the reason of this failure stays one.
      refine .inr ⟨[], rfl, fun hboth => hfails ⟨?_, (List.forall_mem_cons.1 hboth.2).1⟩⟩
      exact Nat.lt_of_le_of_lt (Nat.add_le_add_right hmono 3) hboth.1

/-! ## Spectra -/

namespace Spectrum

/-- The stream as `WebRtcIsac_EncTerminate` ends it, with anything behind it, gives back the
data that the encoder has left. -/
def DecodesBack (p : Spectrum) (fuel : Nat) (result : Encoded) : Prop :=
  ∃ length ended, encTerminate result.streamdata = some (length, ended) ∧
    ∀ received : Vector (BitVec 8) streamSizeMax,
      received.toList.take length = ended.stream.toList.take length →
      ∃ s, p.decode fuel received = some ⟨length, result.dataQ7, s⟩

/-- It makes the decoder return minus one. -/
def DecodingFails (p : Spectrum) (fuel : Nat) (result : Encoded) : Prop :=
  ∃ length ended, encTerminate result.streamdata = some (length, ended) ∧
    ∀ received : Vector (BitVec 8) streamSizeMax,
      received.toList.take length = ended.stream.toList.take length →
      ∃ decoded, p.decode fuel received = some decoded ∧ decoded.returned = -1

/-- The look-ahead of the decoder stays below 400 bytes, and its search finds each of the
clipped coefficients. -/
def Readable (p : Spectrum) (result : Encoded) : Prop :=
  result.streamdata.streamIndex ≤ 396 ∧
    ∀ k < p.n, ∀ dataQ7, result.dataQ7[k]? = some dataQ7 →
      PathClear (p.envQ8 (envelopeIndex p.isSWB12kHz k)) (p.ditherQ7 k) dataQ7

variable (p : Spectrum)

theorem getElem?_clipped (k : Fin p.n) :
    p.clipped[(k : Nat)]? = some (p.coefficient k).clipped.dataQ7 := by
  have hlength : (k : Nat) < p.coefficients.length := by
    rw [coefficients, List.length_ofFn]
    exact k.isLt
  have hcoefficient : p.coefficients[(k : Nat)] = p.coefficient k := List.getElem_ofFn _
  rw [clipped, List.getElem?_map, List.getElem?_eq_getElem hlength, hcoefficient]
  rfl

theorem length_clipped : p.clipped.length = p.n := by
  rw [clipped, List.length_map, coefficients, List.length_ofFn]

theorem readable_iff {p : Spectrum} {result : Encoded} (hdata : result.dataQ7 = p.clipped)
    (hrep : Represents result.streamdata p.range) :
    p.Readable result ↔ Legible fullRange p.coefficients := by
  have hindex : result.streamdata.streamIndex ≤ 396 ↔ p.range.shifts + 3 < 400 := by
    rw [hrep.index]
    omega
  refine and_congr hindex ⟨?_, ?_⟩
  · intro hall c hc
    obtain ⟨k, rfl⟩ := List.mem_ofFn.1 hc
    exact hall k k.isLt _ (by rw [hdata, p.getElem?_clipped k])
  · intro hall k hk dataQ7 hget
    have hcoefficient := hall (p.coefficient ⟨k, hk⟩) (List.mem_ofFn.2 ⟨⟨k, hk⟩, rfl⟩)
    have hvalue := p.getElem?_clipped ⟨k, hk⟩
    rw [hdata, hvalue] at hget
    obtain rfl := Option.some.inj hget
    exact hcoefficient

theorem decode_spec {fuel : Nat} (hfuel : 512 ≤ fuel)
    (hcontains : p.range.Contains 256 3 (digits stream)) :
    ((∃ s, p.decode fuel stream = some ⟨codeLength p.range, p.clipped, s⟩) ∧
      Legible fullRange p.coefficients) ∨
    ((∃ decoded, p.decode fuel stream = some decoded ∧ decoded.returned = -1) ∧
      ¬Legible fullRange p.coefficients) := by
  obtain ⟨d, hd, hstart⟩ := start_follows stream
  have hinput := @map_range_eq _ p (fun k => (p.envQ8 (envelopeIndex p.isSWB12kHz k),
    p.ditherQ7 k)) Coefficient.decoderInput fun _ => rfl
  have hdecode : p.decode fuel stream =
      (decodeLoop (decLogistic fuel stream) d (p.coefficients.map Coefficient.decoderInput)).map
        (endDec (.start stream)) := by
    rw [decode, decLogisticMulti2, hd, hinput]
    exact Option.map_eq_bind.symm
  rcases decodeLoop_logistic hfuel p.coefficients hstart fullRange_ready (by decide)
    hcontains with ⟨d', hloop, hend, hreadable⟩ | ⟨datas, hloop, hfails⟩
  · left
    refine ⟨⟨⟨stream, d'.wUpper, d'.streamval, d'.streamPtr⟩, ?_⟩, hreadable⟩
    rw [hdecode, hloop, Option.map_some, endDec, hend.length_eq]
    rfl
  · right
    refine ⟨⟨_, by rw [hdecode, hloop, Option.map_some], rfl⟩, hfails⟩

theorem decodes_or_fails {fuel : Nat} (hfuel : 512 ≤ fuel) {result : Encoded}
    (hdata : result.dataQ7 = p.clipped) (hrep : Represents result.streamdata p.range)
    (hbelow : p.range.shifts < streamSizeMax60) :
    (p.Readable result ∧ p.DecodesBack fuel result) ∨
      (¬p.Readable result ∧ p.DecodingFails fuel result) := by
  have hready : p.range.Ready 256 3 := rangeOfCoefficients_ready p.coefficients
  rcases encTerminate_spec hrep hready with ⟨ended, hend, hcode⟩ | ⟨hlong, -⟩
  · rw [readable_iff hdata hrep]
    have hspec := fun received hreceived =>
      @decode_spec received p fuel hfuel (contains_of_take hready hcode hreceived)
    by_cases hreadable : Legible fullRange p.coefficients
    · refine .inl ⟨hreadable, _, ended, hend, fun received hreceived => ?_⟩
      rw [hdata]
      exact ((hspec received hreceived).resolve_right fun h => h.2 hreadable).1
    · refine .inr ⟨hreadable, _, ended, hend, fun received hreceived => ?_⟩
      exact ((hspec received hreceived).resolve_left fun h => hreadable h.2).1
  · have hle := codeLength_le p.range
    have hfits : p.range.shifts + 2 ≤ streamSizeMax :=
      Nat.le_trans (Nat.add_le_add_right (Nat.le_of_lt hbelow) 2) (by decide)
    omega

theorem DecodingFails.not_decodesBack {p : Spectrum} {fuel : Nat} {result : Encoded}
    (h : p.DecodingFails fuel result) : ¬p.DecodesBack fuel result := by
  rintro ⟨length, ended, hend, hdecodes⟩
  obtain ⟨length', ended', hend', hfails⟩ := h
  rw [hend] at hend'
  obtain ⟨rfl, rfl⟩ := Prod.mk.inj (Option.some.inj hend')
  obtain ⟨s, hs⟩ := hdecodes ended.stream rfl
  obtain ⟨decoded, hdecoded, hreturned⟩ := hfails ended.stream rfl
  rw [hs] at hdecoded
  obtain rfl := Option.some.inj hdecoded
  have hnegative : (length : Int) = -1 := hreturned
  omega

/-- A spectrum whose values are the same in all rounds. -/
def constant (dataQ7 : Int) (envQ8 : BitVec 16) (ditherQ7 : Int) (n : Nat)
    (henv : 1 ≤ envQ8.toNat) (hdither : -64 ≤ ditherQ7 ∧ ditherQ7 ≤ 64)
    (hdata : -32640 ≤ dataQ7 ∧ dataQ7 ≤ 32640) (haligned : (128 : Int) ∣ dataQ7 + ditherQ7) :
    Spectrum where
  dataQ7 _ := dataQ7
  envQ8 _ := envQ8
  ditherQ7 _ := ditherQ7
  n := n
  isSWB12kHz := false
  env_pos _ _ := henv
  dither_range _ _ := hdither
  data_range _ _ := hdata
  aligned _ _ := haligned

end Spectrum

/-- **The logistic coder.**  The encoder returns.  Its clip loops end at coefficients with two
units of the cdf, and when it returns zero these are what it leaves.  Then the decoder gives
them back exactly when the spectrum is readable, and returns minus one otherwise. -/
theorem logistic_roundTrips_iff (p : Spectrum) (stream : Vector (BitVec 8) streamSizeMax)
    {fuel : Nat} (hfuel : 512 ≤ fuel) :
    ∃ result, p.encode fuel stream = some result ∧
      (∀ k < p.n, ∃ c, clip fuel (p.envQ8 (envelopeIndex p.isSWB12kHz k)) (p.dataQ7 k) = some c ∧
        TowardsZero (p.dataQ7 k) c.dataQ7 ∧ c.cdfLo.toNat + 2 ≤ c.cdfHi.toNat ∧
        (result.returned = 0 → result.dataQ7[k]? = some c.dataQ7)) ∧
      (result.returned = 0 → result.dataQ7.length = p.n ∧
        (p.DecodesBack fuel result ↔ p.Readable result) ∧
        (¬p.Readable result → p.DecodingFails fuel result)) := by
  obtain ⟨result, hencode, hresult⟩ := encLogisticMulti2_spec p stream (by omega : 256 ≤ fuel)
  have hok (hzero : result.returned = 0) := hresult.resolve_right fun hfailed =>
    absurd (hzero.symm.trans hfailed.1) (by decide)
  refine ⟨result, hencode, ?_, ?_⟩
  · intro k hk
    obtain ⟨hclip, htowards, hcodable⟩ := clip_spec (p.coefficient ⟨k, hk⟩) (by omega : 256 ≤ fuel)
    refine ⟨_, hclip, htowards, ?_, ?_⟩
    · show ((edgeEntry _ _).setWidth 32).toNat + 2 ≤ ((edgeEntry _ _).setWidth 32).toNat
      exact hcodable
    · intro hzero
      rw [(hok hzero).2.1]
      exact p.getElem?_clipped ⟨k, hk⟩
  · intro hzero
    obtain ⟨-, hdata, hrep, hbelow⟩ := hok hzero
    refine ⟨by rw [hdata, p.length_clipped], ?_⟩
    rcases p.decodes_or_fails hfuel hdata hrep hbelow with ⟨hread, hback⟩ | ⟨hnot, hfails⟩
    · exact ⟨iff_of_true hback hread, fun hnot => absurd hread hnot⟩
    · exact ⟨iff_of_false hfails.not_decodesBack hnot, fun _ => hfails⟩

/-- Five coefficients in one envelope. -/
def clearSpectrum : Spectrum :=
  .constant 310 256#16 (-54) 5 (by decide) (by decide) (by decide) (by decide)

/-- They take three bytes and are read back. -/
theorem logistic_roundTrips_clear :
    ∃ result, clearSpectrum.encode 512 (Vector.replicate streamSizeMax 0#8) = some result ∧
      result.returned = 0 ∧ clearSpectrum.DecodesBack 512 result := by
  obtain ⟨result, hencode, -, hresult⟩ := logistic_roundTrips_iff clearSpectrum
    (Vector.replicate streamSizeMax 0#8) (Nat.le_refl 512)
  have heval : (clearSpectrum.encode 512 (Vector.replicate streamSizeMax 0#8)).map
      (fun r => (r.returned, r.dataQ7, r.streamdata.streamIndex)) =
        some (0, List.replicate 5 310, 3) := by
    decide +kernel
  rw [hencode, Option.map_some, Option.some_inj, Prod.mk.injEq, Prod.mk.injEq] at heval
  obtain ⟨hzero, hdata, hindex⟩ := heval
  have hclear : ∀ k < 5, ∀ dataQ7, (List.replicate 5 (310 : Int))[k]? = some dataQ7 →
      PathClear 256#16 (-54) dataQ7 := by
    intro k hk dataQ7 hget
    obtain ⟨-, rfl⟩ := List.mem_replicate.1 (List.mem_of_getElem? hget)
    decide +kernel
  refine ⟨result, hencode, hzero, (hresult hzero).2.1.2 ⟨by omega, ?_⟩⟩
  rw [hdata]
  exact hclear

theorem Spectrum.not_decodesBack_of_range {p : Spectrum} (stream : Vector (BitVec 8) streamSizeMax)
    (hbelow : p.range.shifts < streamSizeMax60) (hnot : ¬Legible fullRange p.coefficients) :
    ∃ result, p.encode 512 stream = some result ∧ result.returned = 0 ∧
      ¬p.DecodesBack 512 result := by
  obtain ⟨result, hencode, ⟨hzero, hdata, hrep, -⟩ | ⟨-, hlong⟩⟩ :=
    encLogisticMulti2_spec p stream (show 256 ≤ 512 by decide)
  · refine ⟨result, hencode, hzero, ?_⟩
    rcases p.decodes_or_fails (Nat.le_refl 512) hdata hrep hbelow with ⟨hread, -⟩ | ⟨-, hfails⟩
    · exact absurd ((readable_iff hdata hrep).1 hread) hnot
    · exact hfails.not_decodesBack
  · exact absurd hlong (Nat.not_le_of_lt hbelow)

/-- One coefficient that can be coded behind candidates of the same cdf. -/
def flatSpectrum : Spectrum :=
  .constant 18895 7#16 49 1 (by decide) (by decide) (by decide) (by decide)

/-- Coefficients with two units of the cdf each, for 397 bytes. -/
def longSpectrum : Spectrum :=
  .constant 1280 256#16 0 212 (by decide) (by decide) (by decide) (by decide)

/-- Neither is read back. -/
theorem logistic_not_read_back :
    (∃ result, flatSpectrum.encode 512 (Vector.replicate streamSizeMax 0#8) = some result ∧
      result.returned = 0 ∧ ¬flatSpectrum.DecodesBack 512 result) ∧
    (∃ result, longSpectrum.encode 512 (Vector.replicate streamSizeMax 0#8) = some result ∧
      result.returned = 0 ∧ ¬longSpectrum.DecodesBack 512 result) := by
  constructor
  · apply Spectrum.not_decodesBack_of_range _ (by decide +kernel)
    rintro ⟨-, hall⟩
    have hflat : ¬(flatSpectrum.coefficient ⟨0, by decide⟩).clipped.Reachable := by decide +kernel
    exact hflat (hall _ (List.mem_ofFn.2 ⟨⟨0, by decide⟩, rfl⟩))
  · have hshifts : longSpectrum.range.shifts = 397 := by decide +kernel
    apply Spectrum.not_decodesBack_of_range _ (by rw [hshifts]; decide)
    rintro ⟨hshort, -⟩
    have hlimit : longSpectrum.range.shifts + 3 < streamSizeMax60 := hshort
    rw [hshifts] at hlimit
    exact absurd hlimit (by decide)

end WebrtcCore.Ports.Isac
