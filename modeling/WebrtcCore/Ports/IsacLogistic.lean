import WebrtcCore.Ports.IsacArith
import WebrtcCore.Verified.Walk

/-!
# The iSAC logistic decoder (`isac/main/source/arith_routines_logist.c`)

A spectral coefficient is decoded by walking through candidates in steps of 128 until the bound
of a candidate passes `streamval`.  The bound is a piecewise linear cdf at the candidate times the
envelope; when two neighbours have the same bound the decoder gives up.  The candidate is a
16-bit variable and wraps.
-/

namespace WebrtcCore.Ports.Isac

open Verified.Walk Option BitVec

/-! ## The cdf -/

def kHistEdgesQ15 : List Int :=
  [-327680, -314573, -301466, -288359, -275252, -262144, -249037, -235930, -222823, -209716,
   -196608, -183501, -170394, -157287, -144180, -131072, -117965, -104858, -91751, -78644,
   -65536, -52429, -39322, -26215, -13108, 0, 13107, 26214, 39321, 52428,
   65536, 78643, 91750, 104857, 117964, 131072, 144179, 157286, 170393, 183500,
   196608, 209715, 222822, 235929, 249036, 262144, 275251, 288358, 301465, 314572,
   327680]

def kCdfSlopeQ0 : List Int :=
  [5, 5, 5, 5, 5, 5, 5, 5, 5, 5,
   5, 5, 13, 23, 47, 87, 154, 315, 700, 1088,
   2471, 6064, 14221, 21463, 36634, 36924, 19750, 13270, 5806, 2312,
   1095, 660, 316, 145, 86, 41, 32, 5, 5, 5,
   5, 5, 5, 5, 5, 5, 5, 5, 5, 2, 0]

def kCdfQ16 : List Int :=
  [0, 2, 4, 6, 8, 10, 12, 14, 16, 18,
   20, 22, 24, 29, 38, 57, 92, 153, 279, 559,
   994, 1983, 4408, 10097, 18682, 33336, 48105, 56005, 61313, 63636,
   64560, 64998, 65262, 65389, 65447, 65481, 65497, 65510, 65512, 65514,
   65516, 65518, 65520, 65522, 65524, 65526, 65528, 65530, 65532, 65534,
   65535]

/-- The two comparisons at the beginning of `piecewise`. -/
def clampQ15 (xinQ15 : Int) : Int :=
  let qtmp2 := xinQ15
  let qtmp2 := if qtmp2 < kHistEdgesQ15.getD 0 0 then kHistEdgesQ15.getD 0 0 else qtmp2
  if qtmp2 > kHistEdgesQ15.getD 50 0 then kHistEdgesQ15.getD 50 0 else qtmp2

/-- `ind`: the segment of a value between the outer edges, at most 50. -/
def segment (qtmp2 : Int) : Nat := (((qtmp2 - kHistEdgesQ15.getD 0 0) * 5) >>> (16 : Nat)).toNat

def piecewise (xinQ15 : Int) : Int :=
  let qtmp2 := clampQ15 xinQ15
  let ind := segment qtmp2
  let qtmp1 := qtmp2 - kHistEdgesQ15.getD ind 0
  let qtmp2 := kCdfSlopeQ0.getD ind 0 * qtmp1
  let qtmp3 := qtmp2 >>> (15 : Nat)
  kCdfQ16.getD ind 0 + qtmp3

example : piecewise 0 = 33336 ∧ piecewise 400000 = 65535 ∧ piecewise (-400000) = 0 := by decide

/-! ## Decoding -/

def streamSizeMax60 : Nat := 400

/-- The conversion to `int16_t`. -/
def toInt16 (x : Int) : Int := Int.bmod x (2 ^ 16)

/-- `W_tmp`: the part of the width below the cdf of a candidate. -/
def logisticBound (wUpper : BitVec 32) (envQ8 : BitVec 16) (candQ7 : Int) : BitVec 32 :=
  widthBelow wUpper (BitVec.ofInt 32 (piecewise (candQ7 * envQ8.toNat)))

def logisticSearch (fuel : Nat) (wUpper streamval : BitVec 32) (envQ8 : BitVec 16)
    (ditherQ7 : Int) : Option (Except Int Found) :=
  let bound := logisticBound wUpper envQ8
  let candQ7 := toInt16 (-ditherQ7 + 64)
  if streamval > bound candQ7 then
    let up := fun candQ7 => toInt16 (candQ7 + 128)
    (walk bound up (fun wTmp => streamval > wTmp) fuel (bound candQ7) (up candQ7)).map fun
      | .stuck => .error (-1)
      | .stopped wLower candQ7 => .ok ⟨toInt16 (candQ7 - 64), wLower, bound candQ7⟩
  else
    let down := fun candQ7 => toInt16 (candQ7 - 128)
    (walk bound down (fun wTmp => ¬streamval > wTmp) fuel (bound candQ7) (down candQ7)).map fun
      | .stuck => .error (-1)
      | .stopped wUpper candQ7 => .ok ⟨toInt16 (candQ7 + 64), bound candQ7, wUpper⟩

/-- The renormalisation loop, which does not read past the data. -/
def renormalizeLogistic (stream : Vector (BitVec 8) streamSizeMax) :
    Nat → DecState → Option (Except Int DecState)
  | 0, _ => none
  | fuel + 1, d =>
    if belowTopByte d.wUpper then
      if streamSizeMax60 ≤ d.streamPtr + 1 then some (.error (-1))
      else do
        let byte ← stream[d.streamPtr + 1]?
        renormalizeLogistic stream fuel
          { d with
            streamPtr := d.streamPtr + 1
            wUpper := d.wUpper <<< 8
            streamval := d.streamval <<< 8 ||| byte.setWidth 32 }
    else some (.ok d)

/-- The body of the loop of `WebRtcIsac_DecLogisticMulti2`. -/
def decLogistic (fuel : Nat) (stream : Vector (BitVec 8) streamSizeMax) (d : DecState)
    (input : BitVec 16 × Int) : Option (Except Int (Int × DecState)) := do
  match ← logisticSearch fuel d.wUpper d.streamval input.1 input.2 with
  | .error code => return .error code
  | .ok found =>
    let wLower := found.wLower + 1#32
    let d' ← renormalizeLogistic stream streamSizeMax60
      { d with
        wLower := wLower
        wUpper := found.wUpper - wLower
        streamval := d.streamval - wLower }
    match d' with
    | .error code => return .error code
    | .ok d' => return .ok (found.data, d')

/-- Where `envQ8` points in round `k`: it moves on every second or every fourth round. -/
def envelopeIndex (isSWB12kHz : Bool) : Nat → Nat
  | 0 => 0
  | k + 1 =>
    envelopeIndex isSWB12kHz k +
      if isSWB12kHz then k &&& 1 else (k &&& 1) &&& (k >>> 1)

def decLogisticMulti2 (fuel : Nat) (s : Bitstr) (envQ8 : Nat → BitVec 16)
    (ditherQ7 : Nat → Int) (n : Nat) (isSWB12kHz : Bool) : Option Decoded :=
  if s.streamIndex = 0 ∧ streamSizeMax60 ≤ s.streamIndex + 3 then some ⟨-1, [], s⟩
  else do
    let d ← startDec s
    let result ← decodeLoop (decLogistic fuel s.stream) d
      ((List.range n).map fun k => (envQ8 (envelopeIndex isSWB12kHz k), ditherQ7 k))
    return endDec s result

/-! ## Candidates -/

theorem clampQ15_eq (x : Int) : clampQ15 x = max (-327680) (min x 327680) := by
  show (if (if x < -327680 then -327680 else x) > 327680 then 327680
    else if x < -327680 then -327680 else x) = _
  split <;> split <;> omega

theorem piecewise_congr {x y : Int} (h : clampQ15 x = clampQ15 y) : piecewise x = piecewise y := by
  unfold piecewise
  rw [h]

theorem toInt16_of_range {x : Int} (hlo : -32768 ≤ x) (hhi : x < 32768) : toInt16 x = x :=
  Int.bmod_eq_of_le (by omega) (by omega)

theorem toInt16_step {c step : Int} {i : Nat}
    (h : -32768 ≤ c + step * ((i + 1 : Nat) : Int) ∧ c + step * ((i + 1 : Nat) : Int) < 32768) :
    toInt16 (c + step * (i : Nat) + step) = c + step * ((i + 1 : Nat) : Int) := by
  have hnext : c + step * (i : Nat) + step = c + step * ((i + 1 : Nat) : Int) := by
    rw [Int.natCast_add, Int.mul_add, Int.add_assoc]
    simp
  rw [hnext, toInt16_of_range h.1 h.2]

theorem logisticBound_congr {wUpper : BitVec 32} {envQ8 : BitVec 16} {c c' : Int}
    (h : piecewise (c * envQ8.toNat) = piecewise (c' * envQ8.toNat)) :
    logisticBound wUpper envQ8 c = logisticBound wUpper envQ8 c' := by
  unfold logisticBound
  rw [h]

end WebrtcCore.Ports.Isac
