import WebrtcCore.Ports.IsacEncoder
import WebrtcCore.Ports.IsacLogistic
import Mathlib.Order.Monotone.Basic

/-!
# The iSAC logistic encoder (`isac/main/source/arith_routines_logist.c`)

A spectral coefficient takes the part of the range between the cdf at its two
edges, 64 on either side.  Far from the middle the cdf is flat and that part may
have less than two units of it; `WebRtcIsac_EncLogisticMulti2` then moves the
coefficient towards zero by 128 and looks again.  Unlike the histogram encoder it
gives up when it has written 400 bytes.
-/

namespace WebrtcCore.Ports.Isac

open Verified Digits RangeCoder BitVec

/-! ## Encoding -/

def isacDisallowedBitstreamLength : Int := 6440

/-- The cdf at an edge of a coefficient.  The product is an `int`. -/
def edgeCdf (envQ8 : BitVec 16) (edgeQ7 : Int) : Option (BitVec 32) :=
  let xinQ15 := edgeQ7 * envQ8.toNat
  if -0x80000000 ≤ xinQ15 ∧ xinQ15 < 0x80000000 then
    some (BitVec.ofInt 32 (piecewise xinQ15))
  else none

/-- The variables of the clip loop. -/
structure Clip where
  dataQ7 : Int
  cdfLo : BitVec 32
  cdfHi : BitVec 32
  deriving DecidableEq, Repr

/-- The clip loop.  Of the two values of the cdf one is kept from the coefficient
before. -/
def clipLoop (envQ8 : BitVec 16) : Nat → Clip → Option Clip
  | 0, _ => none
  | fuel + 1, c =>
    if c.cdfLo + 1#32 ≥ c.cdfHi then
      if c.dataQ7 > 0 then do
        let dataQ7 := toInt16 (c.dataQ7 - 128)
        let cdfLo ← edgeCdf envQ8 (dataQ7 - 64)
        clipLoop envQ8 fuel ⟨dataQ7, cdfLo, c.cdfLo⟩
      else do
        let dataQ7 := toInt16 (c.dataQ7 + 128)
        let cdfHi ← edgeCdf envQ8 (dataQ7 + 64)
        clipLoop envQ8 fuel ⟨dataQ7, c.cdfHi, cdfHi⟩
    else some c

/-- A coefficient and its cdf values after the clip loop. -/
def clip (fuel : Nat) (envQ8 : BitVec 16) (dataQ7 : Int) : Option Clip := do
  let cdfLo ← edgeCdf envQ8 (dataQ7 - 64)
  let cdfHi ← edgeCdf envQ8 (dataQ7 + 64)
  clipLoop envQ8 fuel ⟨dataQ7, cdfLo, cdfHi⟩

/-- The renormalisation loop, which returns from the function when the stream gets too
long.  `streamIndex` is `stream_ptr`. -/
def renormalizeEncLogistic : Nat → Bitstr → Option (Except Bitstr Bitstr)
  | 0, _ => none
  | fuel + 1, s =>
    if belowTopByte s.wUpper then do
      let stream ← store s.stream s.streamIndex ((s.streamval >>> 24).setWidth 8)
      let s' : Bitstr := ⟨stream, s.wUpper <<< 8, s.streamval, s.streamIndex + 1⟩
      if s'.streamIndex > streamSizeMax60 - 1 then return .error s'
      else renormalizeEncLogistic fuel { s' with streamval := s.streamval <<< 8 }
    else some (.ok s)

/-- The body of the loop of `WebRtcIsac_EncLogisticMulti2`, after the clip loop. -/
def encLogistic (s : Bitstr) (c : Clip) : Option (Except Bitstr Bitstr) := do
  let wLower := widthBelow s.wUpper c.cdfLo + 1#32
  let wUpper := widthBelow s.wUpper c.cdfHi - wLower
  let streamval := s.streamval + wLower
  let stream ← addCarry s.stream s.streamIndex streamval wLower
  renormalizeEncLogistic streamSizeMax60 ⟨stream, wUpper, streamval, s.streamIndex⟩

/-- The loop over the coefficients.  They are clipped in place; the ones behind an error
stay as they are. -/
def encodeLoop (fuel : Nat) :
    Bitstr → List (BitVec 16 × Int) → Option (List Int × Except Bitstr Bitstr)
  | s, [] => some ([], .ok s)
  | s, (envQ8, dataQ7) :: rest => do
      let c ← clip fuel envQ8 dataQ7
      match ← encLogistic s c with
      | .error s' => return (c.dataQ7 :: rest.map Prod.snd, .error s')
      | .ok s' =>
        let (datas, result) ← encodeLoop fuel s' rest
        return (c.dataQ7 :: datas, result)

/-- What the encoder leaves: the value it returns, the clipped data, and the stream. -/
structure Encoded where
  returned : Int
  dataQ7 : List Int
  streamdata : Bitstr

def encLogisticMulti2 (fuel : Nat) (s : Bitstr) (dataQ7 : Nat → Int)
    (envQ8 : Nat → BitVec 16) (n : Nat) (isSWB12kHz : Bool) : Option Encoded := do
  let (datas, result) ← encodeLoop fuel s
    ((List.range n).map fun k => (envQ8 (envelopeIndex isSWB12kHz k), dataQ7 k))
  match result with
  | .error s' =>
    return ⟨-isacDisallowedBitstreamLength, datas,
      { s with stream := s'.stream, streamval := s'.streamval }⟩
  | .ok s' => return ⟨0, datas, s'⟩

/-! ## The cdf rises -/

theorem segment_eq_iff {x : Int} {i : Nat} (hx : -327680 ≤ x) :
    segment x = i ↔ (i : Int) * 65536 ≤ (x + 327680) * 5 ∧ (x + 327680) * 5 < (i + 1) * 65536 := by
  show (((x - -327680) * 5) >>> (16 : Nat)).toNat = i ↔ _
  rw [Int.shiftRight_eq_div_pow]
  omega

theorem piecewise_of_segment {x : Int} {i : Nat} (hlo : -327680 ≤ x) (hhi : x ≤ 327680)
    (hseg : segment x = i) :
    piecewise x =
      kCdfQ16.getD i 0 + kCdfSlopeQ0.getD i 0 * (x - kHistEdgesQ15.getD i 0) / 32768 := by
  have hclamp : clampQ15 x = x := by
    rw [clampQ15_eq]
    omega
  simp only [piecewise, hclamp, hseg, Int.shiftRight_eq_div_pow]
  rfl

theorem slope_nonneg : ∀ i ≤ 50, 0 ≤ kCdfSlopeQ0.getD i 0 := by decide

theorem segments_joined : ∀ i < 50,
    piecewise (((i + 1 : Nat) * 65536 - 1) / 5 - 327680) ≤
      piecewise (((i + 1 : Nat) * 65536 - 1) / 5 - 327680 + 1) := by
  decide

theorem piecewise_le_succ (x : Int) : piecewise x ≤ piecewise (x + 1) := by
  by_cases hin : -327680 ≤ x ∧ x < 327680
  · obtain ⟨hfrom, hto⟩ := (segment_eq_iff hin.1).1 (Eq.refl (segment x))
    by_cases hinside : (x + 1 + 327680) * 5 < (segment x + 1) * 65536
    · have hsame : segment (x + 1) = segment x := (segment_eq_iff (by omega)).2 (by omega)
      rw [piecewise_of_segment hin.1 (by omega) rfl,
        piecewise_of_segment (by omega) (by omega) hsame]
      have hrise := Int.mul_le_mul_of_nonneg_left
        (show x - kHistEdgesQ15.getD (segment x) 0 ≤ x + 1 - kHistEdgesQ15.getD (segment x) 0 by
          omega) (slope_nonneg (segment x) (by omega))
      exact Int.add_le_add_left (Int.ediv_le_ediv (by decide) hrise) _
    · have hlast : ((segment x + 1 : Nat) * 65536 - 1) / 5 - 327680 = x := by omega
      have hjoined := segments_joined (segment x) (by omega)
      rwa [hlast] at hjoined
  · refine Int.le_of_eq (piecewise_congr ?_)
    rw [clampQ15_eq, clampQ15_eq]
    omega

theorem piecewise_mono {x y : Int} (h : x ≤ y) : piecewise x ≤ piecewise y :=
  monotone_int_of_le_succ piecewise_le_succ h

theorem piecewise_range (x : Int) : 0 ≤ piecewise x ∧ piecewise x ≤ 65535 := by
  have hfirst : piecewise (min x (-327680)) = 0 := by
    rw [@piecewise_congr _ (-327680) (by rw [clampQ15_eq, clampQ15_eq]; omega)]
    decide
  have hlast : piecewise (max x 327680) = 65535 := by
    rw [@piecewise_congr _ 327680 (by rw [clampQ15_eq, clampQ15_eq]; omega)]
    decide
  have hlo := piecewise_mono (show min x (-327680) ≤ x by omega)
  have hhi := piecewise_mono (show x ≤ max x 327680 by omega)
  omega

/-- The cdf at an edge has 16 bits. -/
def edgeEntry (envQ8 : BitVec 16) (edgeQ7 : Int) : BitVec 16 :=
  BitVec.ofInt 16 (piecewise (edgeQ7 * envQ8.toNat))

variable (envQ8 : BitVec 16)

theorem edgeEntry_toNat (edgeQ7 : Int) :
    ((edgeEntry envQ8 edgeQ7).toNat : Int) = piecewise (edgeQ7 * envQ8.toNat) := by
  obtain ⟨hlo, hhi⟩ := piecewise_range (edgeQ7 * envQ8.toNat)
  rw [edgeEntry, toNat_ofInt]
  omega

theorem edgeEntry_setWidth (edgeQ7 : Int) :
    (edgeEntry envQ8 edgeQ7).setWidth 32 = BitVec.ofInt 32 (piecewise (edgeQ7 * envQ8.toNat)) := by
  apply eq_of_toNat_eq
  have hentry := edgeEntry_toNat envQ8 edgeQ7
  rw [toNat_setWidth_of_le (by decide), toNat_ofInt]
  omega

theorem edgeEntry_mono {c c' : Int} (h : c ≤ c') :
    (edgeEntry envQ8 c).toNat ≤ (edgeEntry envQ8 c').toNat := by
  have hmono := piecewise_mono (Int.mul_le_mul_of_nonneg_right h (Int.natCast_nonneg envQ8.toNat))
  have hc := edgeEntry_toNat envQ8 c
  have hc' := edgeEntry_toNat envQ8 c'
  omega

/-! ## Clipping -/

section Clip

variable {envQ8 : BitVec 16} {x : Int} {fuel : Nat}

/-- A coefficient that can be coded: its part of the cdf has at least two units. -/
def Codable (envQ8 : BitVec 16) (dataQ7 : Int) : Prop :=
  (edgeEntry envQ8 (dataQ7 - 64)).toNat + 2 ≤ (edgeEntry envQ8 (dataQ7 + 64)).toNat

/-- The variables of the clip loop at a coefficient. -/
def Clip.at (envQ8 : BitVec 16) (dataQ7 : Int) : Clip where
  dataQ7 := dataQ7
  cdfLo := (edgeEntry envQ8 (dataQ7 - 64)).setWidth 32
  cdfHi := (edgeEntry envQ8 (dataQ7 + 64)).setWidth 32

theorem edgeCdf_eq {edgeQ7 : Int} (hlo : -32704 ≤ edgeQ7) (hhi : edgeQ7 ≤ 32704) :
    edgeCdf envQ8 edgeQ7 = some ((edgeEntry envQ8 edgeQ7).setWidth 32) := by
  have hupper : edgeQ7 * envQ8.toNat ≤ 32704 * 65535 :=
    Int.le_trans (Int.mul_le_mul_of_nonneg_right hhi (by omega))
      (Int.mul_le_mul_of_nonneg_left (by omega) (by omega))
  have hlower : -edgeQ7 * envQ8.toNat ≤ 32704 * 65535 :=
    Int.le_trans (Int.mul_le_mul_of_nonneg_right (show -edgeQ7 ≤ 32704 by omega) (by omega))
      (Int.mul_le_mul_of_nonneg_left (by omega) (by omega))
  rw [Int.neg_mul] at hlower
  rw [edgeEntry_setWidth]
  exact if_pos (by omega)

theorem Clip.at_narrow_iff :
    (Clip.at envQ8 x).cdfLo + 1#32 ≥ (Clip.at envQ8 x).cdfHi ↔ ¬Codable envQ8 x := by
  show (edgeEntry envQ8 (x + 64)).setWidth 32 ≤ (edgeEntry envQ8 (x - 64)).setWidth 32 + 1#32 ↔ _
  rw [le_def, toNat_add, toNat_setWidth_of_le (by decide),
    toNat_setWidth_of_le (by decide), toNat_ofNat, Codable]
  omega

theorem codable_of_small (henv : 1 ≤ envQ8.toNat) (hlo : -64 ≤ x) (hhi : x ≤ 64) :
    Codable envQ8 x := by
  have hlower := edgeEntry_toNat envQ8 (x - 64)
  have hupper := edgeEntry_toNat envQ8 (x + 64)
  have hzero : piecewise 0 = 33336 := by decide
  have hneg : (x - 64) * (envQ8.toNat : Int) = -((64 - x) * envQ8.toNat) := by
    rw [← Int.neg_mul, Int.neg_sub]
  unfold Codable
  rcases Int.le_total 0 x with hx | hx
  · have hright : piecewise 64 = 33408 := by decide
    have hmul : (64 : Int) * 1 ≤ (x + 64) * envQ8.toNat :=
      Int.mul_le_mul (by omega) (by omega) (by omega) (by omega)
    have hmul' : 0 ≤ (64 - x) * (envQ8.toNat : Int) := Int.mul_nonneg (by omega) (by omega)
    have h₁ := piecewise_mono (show (64 : Int) ≤ (x + 64) * envQ8.toNat by omega)
    have h₂ := piecewise_mono (show (x - 64) * (envQ8.toNat : Int) ≤ 0 by omega)
    omega
  · have hleft : piecewise (-64) = 33264 := by decide
    have hmul : 0 ≤ (x + 64) * (envQ8.toNat : Int) := Int.mul_nonneg (by omega) (by omega)
    have hmul' : (64 : Int) * 1 ≤ (64 - x) * envQ8.toNat :=
      Int.mul_le_mul (by omega) (by omega) (by omega) (by omega)
    have h₁ := piecewise_mono hmul
    have h₂ := piecewise_mono (show (x - 64) * (envQ8.toNat : Int) ≤ -64 by omega)
    omega

/-- From `x` to `x'` in steps of 128 in the direction of zero, and not further away
from it on the other side. -/
def TowardsZero (x x' : Int) : Prop :=
  (∃ j : Nat, x' = if 0 < x then x - 128 * j else x + 128 * j) ∧ x'.natAbs ≤ x.natAbs

theorem TowardsZero.refl (x : Int) : TowardsZero x x := ⟨⟨0, by split <;> omega⟩, Nat.le_refl _⟩

theorem TowardsZero.step {x' : Int} (hfar : 64 < x.natAbs)
    (h : TowardsZero (if 0 < x then x - 128 else x + 128) x') : TowardsZero x x' := by
  obtain ⟨⟨j, hj⟩, hle⟩ := h
  -- A step across zero ends less than 64 from it, and `j` is zero then.
  refine ⟨⟨j + 1, ?_⟩, by omega⟩
  split at hj <;> omega

theorem clipLoop_step (hlo : -32640 ≤ x) (hhi : x ≤ 32640) (hnot : ¬Codable envQ8 x) :
    clipLoop envQ8 (fuel + 1) (Clip.at envQ8 x) =
      clipLoop envQ8 fuel (Clip.at envQ8 (if 0 < x then x - 128 else x + 128)) := by
  rw [clipLoop, if_pos (Clip.at_narrow_iff.2 hnot)]
  by_cases hx : 0 < x
  · have hdata : toInt16 (x - 128) = x - 128 := toInt16_of_range (by omega) (by omega)
    rw [if_pos (show (Clip.at envQ8 x).dataQ7 > 0 from hx), if_pos hx]
    show (edgeCdf envQ8 (toInt16 (x - 128) - 64)).bind _ = _
    rw [edgeCdf_eq (by omega) (by omega)]
    show clipLoop envQ8 fuel ⟨toInt16 (x - 128), _, (edgeEntry envQ8 (x - 64)).setWidth 32⟩ = _
    rw [hdata, show x - 64 = x - 128 + 64 by omega]
    rfl
  · have hdata : toInt16 (x + 128) = x + 128 := toInt16_of_range (by omega) (by omega)
    rw [if_neg (show ¬(Clip.at envQ8 x).dataQ7 > 0 from hx), if_neg hx]
    show (edgeCdf envQ8 (toInt16 (x + 128) + 64)).bind _ = _
    rw [edgeCdf_eq (by omega) (by omega)]
    show clipLoop envQ8 fuel ⟨toInt16 (x + 128), (edgeEntry envQ8 (x + 64)).setWidth 32, _⟩ = _
    rw [hdata, show x + 64 = x + 128 - 64 by omega]
    rfl

theorem clipLoop_codable (h : Codable envQ8 x) :
    clipLoop envQ8 (fuel + 1) (Clip.at envQ8 x) = some (Clip.at envQ8 x) := by
  rw [clipLoop, if_neg fun hnarrow => Clip.at_narrow_iff.1 hnarrow h]

theorem clipLoop_spec (henv : 1 ≤ envQ8.toNat) (hlo : -32640 ≤ x) (hhi : x ≤ 32640) {rounds : Nat}
    (hrounds : x.natAbs ≤ 64 + 128 * rounds) :
    ∃ x', (∀ fuel, rounds ≤ fuel →
        clipLoop envQ8 (fuel + 1) (Clip.at envQ8 x) = some (Clip.at envQ8 x')) ∧
      TowardsZero x x' ∧ Codable envQ8 x' := by
  induction rounds generalizing x with
  | zero =>
    have hcodable : Codable envQ8 x := codable_of_small henv (by omega) (by omega)
    exact ⟨x, fun _ _ => clipLoop_codable hcodable, .refl x, hcodable⟩
  | succ rounds ih =>
    by_cases hcodable : Codable envQ8 x
    · exact ⟨x, fun _ _ => clipLoop_codable hcodable, .refl x, hcodable⟩
    · have hfar : 64 < x.natAbs := by
        apply Nat.lt_of_not_le
        intro hnear
        exact hcodable (codable_of_small henv (by omega) (by omega))
      obtain ⟨x', hloop, htowards, hcodable'⟩ :=
        @ih (if 0 < x then x - 128 else x + 128) (by split <;> omega) (by split <;> omega)
          (by split <;> omega)
      refine ⟨x', ?_, htowards.step hfar, hcodable'⟩
      intro fuel hfuel
      obtain ⟨fuel, rfl⟩ : ∃ n, fuel = n + 1 := ⟨fuel - 1, by omega⟩
      rw [clipLoop_step hlo hhi hcodable, hloop fuel (by omega)]

theorem clip_eq_clipLoop (hlo : -32640 ≤ x) (hhi : x ≤ 32640) :
    clip fuel envQ8 x = clipLoop envQ8 fuel (Clip.at envQ8 x) := by
  unfold clip
  rw [edgeCdf_eq (by omega) (by omega), edgeCdf_eq (by omega) (by omega)]
  rfl

end Clip

/-! ## Coefficients -/

/-- A coefficient that the encoder is given, with what the decoder is given for it. -/
structure Coefficient where
  envQ8 : BitVec 16
  ditherQ7 : Int
  dataQ7 : Int
  env_pos : 1 ≤ envQ8.toNat
  dither_range : -64 ≤ ditherQ7 ∧ ditherQ7 ≤ 64
  data_range : -32640 ≤ dataQ7 ∧ dataQ7 ≤ 32640
  aligned : (128 : Int) ∣ dataQ7 + ditherQ7

/-- A coefficient behind the clip loop. -/
structure ClippedCoefficient extends Coefficient where
  codable : Codable envQ8 dataQ7

/-- The coefficient that the clip loop ends at. -/
def clippedData (envQ8 : BitVec 16) (dataQ7 : Int) : Int :=
  ((clip 256 envQ8 dataQ7).map Clip.dataQ7).getD dataQ7

theorem clip_spec (c : Coefficient) {fuel : Nat} (hfuel : 256 ≤ fuel) :
    clip fuel c.envQ8 c.dataQ7 = some (Clip.at c.envQ8 (clippedData c.envQ8 c.dataQ7)) ∧
      TowardsZero c.dataQ7 (clippedData c.envQ8 c.dataQ7) ∧
      Codable c.envQ8 (clippedData c.envQ8 c.dataQ7) := by
  obtain ⟨hlo, hhi⟩ := c.data_range
  obtain ⟨x', hloop, htowards, hcodable⟩ :=
    @clipLoop_spec c.envQ8 c.dataQ7 c.env_pos hlo hhi 255 (by omega)
  obtain ⟨fuel, rfl⟩ : ∃ n, fuel = n + 1 := ⟨fuel - 1, by omega⟩
  have hclipped : clippedData c.envQ8 c.dataQ7 = x' := by
    rw [clippedData, clip_eq_clipLoop hlo hhi, hloop 255 (Nat.le_refl _)]
    rfl
  rw [hclipped, clip_eq_clipLoop hlo hhi]
  exact ⟨hloop fuel (by omega), htowards, hcodable⟩

/-- The coefficient that is coded. -/
def Coefficient.clipped (c : Coefficient) : ClippedCoefficient where
  envQ8 := c.envQ8
  ditherQ7 := c.ditherQ7
  dataQ7 := clippedData c.envQ8 c.dataQ7
  env_pos := c.env_pos
  dither_range := c.dither_range
  data_range := by
    have hrange := c.data_range
    have htowards := (clip_spec c (Nat.le_refl 256)).2.1.2
    omega
  aligned := by
    obtain ⟨⟨j, hj⟩, -⟩ := (clip_spec c (Nat.le_refl 256)).2.1
    have haligned := c.aligned
    rw [hj]
    split <;> omega
  codable := (clip_spec c (Nat.le_refl 256)).2.2

namespace ClippedCoefficient

def cdfLo (c : ClippedCoefficient) : BitVec 16 := edgeEntry c.envQ8 (c.dataQ7 - 64)

def cdfHi (c : ClippedCoefficient) : BitVec 16 := edgeEntry c.envQ8 (c.dataQ7 + 64)

theorem cdf_lt (c : ClippedCoefficient) : c.cdfLo.toNat < c.cdfHi.toNat :=
  Nat.lt_of_succ_lt c.codable

/-- The part of a range that a coefficient takes. -/
def slot (c : ClippedCoefficient) : Slot := cdfSlot c.cdfLo c.cdfHi

theorem fits (c : ClippedCoefficient) : c.slot.Fits 256 3 := cdfSlot_fits c.cdf_lt

end ClippedCoefficient

/-- The range of a list of coefficients. -/
def rangeOfCoefficients (coefficients : List Coefficient) : Range :=
  fullRange.encodeAll 256 3 (coefficients.map fun c => c.clipped.slot)

theorem slots_fit (coefficients : List Coefficient) :
    ∀ slot ∈ coefficients.map (fun c => c.clipped.slot), slot.Fits 256 3 := by
  intro slot hslot
  obtain ⟨c, -, rfl⟩ := List.mem_map.1 hslot
  exact c.clipped.fits

theorem rangeOfCoefficients_ready (coefficients : List Coefficient) :
    (rangeOfCoefficients coefficients).Ready 256 3 :=
  fullRange_ready.encodeAll (by decide) (slots_fit coefficients)

/-! ## The encoder computes with ranges -/

/-- A result of the encoder: it holds the range, which has fewer than 400 bytes, or the
range has more. -/
def RefinesBelow (result : Option (Except Bitstr Bitstr)) (r : Range) : Prop :=
  match result with
  | some (.ok s) => Represents s r ∧ r.shifts < streamSizeMax60
  | some (.error _) => streamSizeMax60 ≤ r.shifts
  | none => False

theorem renormalizeEncLogistic_refines {s : Bitstr} {r : Range} (rounds : Nat)
    (h : Represents s r) (hbelow : r.shifts < streamSizeMax60)
    (hwide : 256 ^ 3 ≤ r.width * 256 ^ rounds) {fuel : Nat} (hfuel : rounds < fuel) :
    RefinesBelow (renormalizeEncLogistic fuel s) (r.renormalize 256 (256 ^ 3) rounds) := by
  refine Range.renormalize_rule (f := renormalizeEncLogistic) (Q := RefinesBelow)
    (R := fun s r => Represents s r ∧ r.shifts < streamSizeMax60) ?_ ?_ ⟨h, hbelow⟩ hwide hfuel
  · intro fuel s r h hwide
    rw [renormalizeEncLogistic, if_neg (mt (belowTopByte_iff h.1.width).1 hwide)]
    exact h
  · rintro fuel s r rounds ⟨h, hbelow⟩ hnarrow hmono ih
    obtain ⟨stream, hstore, hnext⟩ := h.shift hnarrow (Nat.lt_trans hbelow (by decide))
    rw [h.index] at hstore hnext
    rw [renormalizeEncLogistic, if_pos ((belowTopByte_iff h.width).2 hnarrow)]
    simp only [h.index, hstore, Option.bind_eq_bind, Option.bind_some]
    by_cases hlong : r.shifts + 1 > streamSizeMax60 - 1
    · rw [if_pos hlong]
      exact Nat.le_trans (by omega) hmono
    · rw [if_neg hlong]
      exact ih _ ⟨hnext, show r.shifts + 1 < _ by omega⟩

theorem encLogistic_refines {s : Bitstr} {r : Range} (h : Represents s r)
    (hr : r.Ready 256 3) (hbelow : r.shifts < streamSizeMax60) (c : ClippedCoefficient) :
    RefinesBelow (encLogistic s (Clip.at c.envQ8 c.dataQ7)) (r.encode 256 3 c.slot) := by
  obtain ⟨stream, hstream, hnarrow⟩ := h.narrow hr c.cdf_lt
  have hlo : widthBelow s.wUpper (Clip.at c.envQ8 c.dataQ7).cdfLo = cdfBound s.wUpper c.cdfLo := rfl
  unfold encLogistic
  simp only [hlo, hstream]
  exact renormalizeEncLogistic_refines 3 hnarrow hbelow (hr.part_wide c.fits) (by decide)

/-- What `WebRtcIsac_EncLogisticMulti2` is given for a coefficient. -/
def Coefficient.encoderInput (c : Coefficient) : BitVec 16 × Int := (c.envQ8, c.dataQ7)

theorem encodeLoop_refines {fuel : Nat} (hfuel : 256 ≤ fuel) {s : Bitstr} {r : Range}
    (h : Represents s r) (hr : r.Ready 256 3) (hbelow : r.shifts < streamSizeMax60)
    (coefficients : List Coefficient) :
    (∃ s', encodeLoop fuel s (coefficients.map Coefficient.encoderInput) =
        some (coefficients.map fun c => c.clipped.dataQ7, .ok s') ∧
      Represents s' (r.encodeAll 256 3 (coefficients.map fun c => c.clipped.slot)) ∧
      (r.encodeAll 256 3 (coefficients.map fun c => c.clipped.slot)).shifts < streamSizeMax60) ∨
    (∃ datas s', encodeLoop fuel s (coefficients.map Coefficient.encoderInput) =
        some (datas, .error s') ∧
      streamSizeMax60 ≤ (r.encodeAll 256 3 (coefficients.map fun c => c.clipped.slot)).shifts) := by
  induction coefficients generalizing s r with
  | nil => exact .inl ⟨s, rfl, h, hbelow⟩
  | cons c coefficients ih =>
    have hclip := (clip_spec c hfuel).1
    have hstep := encLogistic_refines h hr hbelow c.clipped
    show (∃ s', encodeLoop fuel s ((c.envQ8, c.dataQ7) :: _) = _ ∧ _) ∨
      (∃ datas s', encodeLoop fuel s ((c.envQ8, c.dataQ7) :: _) = _ ∧ _)
    rw [encodeLoop, hclip]
    -- The variables that the clip loop leaves are those of the clipped coefficient.
    have hat : Clip.at c.envQ8 (clippedData c.envQ8 c.dataQ7) =
        Clip.at c.clipped.envQ8 c.clipped.dataQ7 := rfl
    rw [hat]
    simp only [Option.bind_eq_bind, Option.bind_some]
    cases hresult : encLogistic s (Clip.at c.clipped.envQ8 c.clipped.dataQ7) with
    | none =>
      rw [hresult] at hstep
      exact hstep.elim
    | some result =>
      rw [hresult] at hstep
      cases result with
      | error s' =>
        exact .inr ⟨_, s', rfl, Nat.le_trans hstep (Range.shifts_le_encodeAll _)⟩
      | ok s' =>
        rcases ih hstep.1 (hr.encode (by decide) c.clipped.fits) hstep.2 with
          ⟨t, hloop, hrest⟩ | ⟨datas, t, hloop, hlong⟩
        · exact .inl ⟨t, by simp only [Option.bind_some, hloop]; rfl, hrest⟩
        · exact .inr ⟨_, t, by simp only [Option.bind_some, hloop]; rfl, hlong⟩

/-! ## Spectra -/

/-- What the encoder and the decoder are called with.  `dataQ7`, `envQ8` and `ditherQ7` are
what stands from the pointers on; of the envelope every second or every fourth round uses
a new value. -/
structure Spectrum where
  dataQ7 : Nat → Int
  envQ8 : Nat → BitVec 16
  ditherQ7 : Nat → Int
  n : Nat
  isSWB12kHz : Bool
  env_pos : ∀ k < n, 1 ≤ (envQ8 (envelopeIndex isSWB12kHz k)).toNat
  dither_range : ∀ k < n, -64 ≤ ditherQ7 k ∧ ditherQ7 k ≤ 64
  data_range : ∀ k < n, -32640 ≤ dataQ7 k ∧ dataQ7 k ≤ 32640
  aligned : ∀ k < n, (128 : Int) ∣ dataQ7 k + ditherQ7 k

namespace Spectrum

def coefficient (p : Spectrum) (k : Fin p.n) : Coefficient where
  envQ8 := p.envQ8 (envelopeIndex p.isSWB12kHz k)
  ditherQ7 := p.ditherQ7 k
  dataQ7 := p.dataQ7 k
  env_pos := p.env_pos k k.isLt
  dither_range := p.dither_range k k.isLt
  data_range := p.data_range k k.isLt
  aligned := p.aligned k k.isLt

def coefficients (p : Spectrum) : List Coefficient := List.ofFn p.coefficient

/-- The range of a spectrum. -/
def range (p : Spectrum) : Range := rangeOfCoefficients p.coefficients

/-- The data behind the clip loops. -/
def clipped (p : Spectrum) : List Int := p.coefficients.map fun c => c.clipped.dataQ7

/-- `WebRtcIsac_EncLogisticMulti2` at the beginning of a stream. -/
def encode (p : Spectrum) (fuel : Nat) (stream : Vector (BitVec 8) streamSizeMax) :
    Option Encoded :=
  encLogisticMulti2 fuel (.start stream) p.dataQ7 p.envQ8 p.n p.isSWB12kHz

/-- `WebRtcIsac_DecLogisticMulti2` at the beginning of a stream. -/
def decode (p : Spectrum) (fuel : Nat) (stream : Vector (BitVec 8) streamSizeMax) :
    Option Decoded :=
  decLogisticMulti2 fuel (.start stream) p.envQ8 p.ditherQ7 p.n p.isSWB12kHz

theorem map_range_eq {α : Type} (p : Spectrum) {f : Nat → α} {g : Coefficient → α}
    (h : ∀ k : Fin p.n, f k = g (p.coefficient k)) :
    (List.range p.n).map f = p.coefficients.map g := by
  apply List.ext_getElem
  · rw [coefficients, List.length_map, List.length_map, List.length_range, List.length_ofFn]
  · intro k hk hk'
    rw [List.getElem_map, List.getElem_map, List.getElem_range]
    have hlt : k < p.n := by
      rw [List.length_map, List.length_range] at hk
      exact hk
    rw [h ⟨k, hlt⟩]
    congr 1
    exact (List.getElem_ofFn _).symm

end Spectrum

theorem encLogisticMulti2_spec (p : Spectrum) (stream : Vector (BitVec 8) streamSizeMax)
    {fuel : Nat} (hfuel : 256 ≤ fuel) :
    ∃ result, p.encode fuel stream = some result ∧
      ((result.returned = 0 ∧ result.dataQ7 = p.clipped ∧
          Represents result.streamdata p.range ∧ p.range.shifts < streamSizeMax60) ∨
        (result.returned = -isacDisallowedBitstreamLength ∧ streamSizeMax60 ≤ p.range.shifts)) := by
  unfold Spectrum.encode encLogisticMulti2
  rw [@Spectrum.map_range_eq _ p _ Coefficient.encoderInput fun _ => rfl]
  rcases encodeLoop_refines hfuel (start_represents stream) fullRange_ready (by decide)
    p.coefficients with ⟨s', hloop, hrep, hbelow⟩ | ⟨datas, s', hloop, hlong⟩
  · rw [hloop]
    exact ⟨_, rfl, .inl ⟨rfl, rfl, hrep, hbelow⟩⟩
  · rw [hloop]
    exact ⟨_, rfl, .inr ⟨rfl, hlong⟩⟩

end WebrtcCore.Ports.Isac
