import WebrtcCore.Verified.CArray
import WebrtcCore.Verified.FloatArithmetic
import WebrtcCore.Verified.Lanes

/-!
# The binary delay estimator of the echo canceller

`modules/audio_processing/utility/delay_estimator.cc` with the functions of
`delay_estimator_wrapper.cc` that reach it.  For each delay the estimator smooths the number of
bits in which the spectra of the near end and the far end differ, and takes the delay with the
smallest mean.  What it found before is kept as an index into arrays that
`WebRtc_set_history_size` reallocates.

An access outside of an array is undefined (`none`), and so is a lookahead or a counter that
leaves the range of `int`.  No index depends on floating point numbers, so their type and
operations are arbitrary.
-/

namespace WebrtcCore.Ports.BinaryDelayEstimator

open List Option
open WebrtcCore.Verified (FloatArithmetic)
open Verified CMemory CArray Lanes Simulation

/-! ## Arithmetic -/

def kShiftsAtZero : Int := 13
def kShiftsLinearSlope : Int := 3
def kMaxBitCountsQ9 : Int := 32 * 2 ^ 9
def kProbabilityOffset : Int := 1024
def kProbabilityLowerLimit : Int := 8704
def kProbabilityMinSpread : Int := 2816
def kMinRequiredHits : Int := 10
def kMaxHitsWhenPossiblyNonCausal : Int := 10
def kMaxHitsWhenPossiblyCausal : Int := 1000

section Constants

variable {F : Type} (a : FloatArithmetic F)

def kHistogramMax : F := a.ofRat 3000
def kLastHistogramMax : F := a.ofRat 250
def kMinHistogramThreshold : F := a.ofRat (3 / 2)
def kQ14Scaling : F := a.ofRat (1 / 16384)
def kFractionSlope : F := a.ofRat (1 / 20)
def kMinFractionWhenPossiblyCausal : F := a.ofRat (1 / 2)
def kMinFractionWhenPossiblyNonCausal : F := a.ofRat (1 / 4)

end Constants

/-- `BitCount`: the number of ones among the 32 bits. -/
def bitCount (u32 : UInt32) : Int :=
  let tmp := u32 - (u32 >>> 1 &&& (0o33333333333 : UInt32)) -
    (u32 >>> 2 &&& (0o11111111111 : UInt32))
  let tmp := tmp + tmp >>> 3 &&& (0o30707070707 : UInt32)
  let tmp := tmp + tmp >>> 6
  let tmp := tmp + tmp >>> 12 + tmp >>> 24 &&& (0o77 : UInt32)
  tmp.toNat

/-- `WebRtc_MeanEstimatorFix`; a shift by a negative number or by the width of an `int` is
undefined behaviour. -/
def meanEstimatorFix (newValue factor meanValue : Int) : Option Int :=
  if 0 ≤ factor ∧ factor < 32 then
    let diff := newValue - meanValue
    if diff < 0 then some (meanValue + -(-diff / 2 ^ factor.toNat))
    else some (meanValue + diff / 2 ^ factor.toNat)
  else none

/-! ## The estimator -/

structure Farend where
  farBitCounts : List Int
  binaryFarHistory : List UInt32
  historySize : Nat

/-- `BinaryDelayEstimator`, with the far end that it alone uses. -/
structure Estimator (F : Type) where
  meanBitCounts : List Int
  bitCounts : List Int
  binaryNearHistory : List UInt32
  nearHistorySize : Nat
  historySize : Nat
  minimumProbability : Int
  lastDelayProbability : Int
  lastDelay : Int
  robustValidationEnabled : Bool
  allowedOffset : Int
  lastCandidateDelay : Int
  compareDelay : Int
  candidateHits : Int
  histogram : List F
  lastDelayHistogram : F
  lookahead : Int
  farend : Farend

/-- What new memory holds. -/
structure Fresh (F : Type) where
  binaryFarHistory : Nat → UInt32
  farBitCounts : Nat → Int
  binaryNearHistory : Nat → UInt32
  meanBitCounts : Nat → Int
  bitCounts : Nat → Int
  histogram : Nat → F

variable {F : Type}

/-! ### Memory -/

/-- `realloc` to `n` elements, and zeros where the array of `size` elements has grown; the
array itself has `extra` elements more. -/
def regrow {α : Type} (zero : α) (fresh : Nat → α) (xs : List α) (size n extra : Nat) :
    Option (List α) :=
  let xs := realloc fresh xs (n + extra)
  if size < n then fill xs size (n - size) zero else some xs

def allocateFarendBufferMemory (fresh : Fresh F) (far : Farend) (historySize : Nat) :
    Option Farend := do
  let history ← regrow 0 fresh.binaryFarHistory far.binaryFarHistory far.historySize historySize 0
  let counts ← regrow 0 fresh.farBitCounts far.farBitCounts far.historySize historySize 0
  some ⟨counts, history, historySize⟩

/-- `WebRtc_CreateBinaryDelayEstimatorFarend`; `none` is a null pointer. -/
def createBinaryDelayEstimatorFarend (fresh : Fresh F) (historySize : Int) : Option Farend :=
  if historySize > 1 then allocateFarendBufferMemory fresh ⟨[], [], 0⟩ historySize.toNat
  else none

def initBinaryDelayEstimatorFarend (far : Farend) : Option Farend := do
  let history ← fill far.binaryFarHistory 0 far.historySize 0
  let counts ← fill far.farBitCounts 0 far.historySize 0
  some ⟨counts, history, far.historySize⟩

def allocateHistoryBufferMemory (a : FloatArithmetic F) (fresh : Fresh F) (s : Estimator F)
    (historySize : Nat) : Option (Estimator F) := do
  demand (InInt (historySize + 1))
  let far ← (if historySize ≠ s.farend.historySize then
      allocateFarendBufferMemory fresh s.farend historySize
    else some s.farend)
  let means ← regrow 0 fresh.meanBitCounts s.meanBitCounts s.historySize historySize 1
  let counts ← regrow 0 fresh.bitCounts s.bitCounts s.historySize historySize 0
  let histogram ← regrow (a.ofRat 0) fresh.histogram s.histogram s.historySize historySize 1
  some { s with
    farend := far, meanBitCounts := means, bitCounts := counts, histogram := histogram,
    historySize := historySize }

/-- `WebRtc_CreateBinaryDelayEstimator`; `block` is what the new block of memory holds. -/
def createBinaryDelayEstimator (a : FloatArithmetic F) (fresh : Fresh F) (block : Estimator F)
    (far : Farend) (maxLookahead : Int) : Option (Estimator F) :=
  if maxLookahead ≥ 0 then do
    let nearHistorySize ← intAdd maxLookahead 1
    allocateHistoryBufferMemory a fresh
      { block with
        farend := far, nearHistorySize := nearHistorySize.toNat, historySize := 0,
        robustValidationEnabled := false, allowedOffset := 0, lookahead := maxLookahead,
        meanBitCounts := [], bitCounts := [], histogram := [],
        binaryNearHistory := realloc fresh.binaryNearHistory [] nearHistorySize.toNat }
      far.historySize
  else none

def initBinaryDelayEstimator (a : FloatArithmetic F) (s : Estimator F) :
    Option (Estimator F) := do
  let counts ← fill s.bitCounts 0 s.historySize 0
  let near ← fill s.binaryNearHistory 0 s.nearHistorySize 0
  let means ← updateRange (fun _ _ => some (20 * 2 ^ 9)) (s.historySize + 1) s.meanBitCounts
  let histogram ← updateRange (fun _ _ => some (a.ofRat 0)) (s.historySize + 1) s.histogram
  some { s with
    bitCounts := counts, binaryNearHistory := near, meanBitCounts := means,
    histogram := histogram, minimumProbability := kMaxBitCountsQ9,
    lastDelayProbability := kMaxBitCountsQ9, lastDelay := -2, lastCandidateDelay := -2,
    compareDelay := s.historySize, candidateHits := 0, lastDelayHistogram := a.ofRat 0 }

/-! ### The histories -/

/-- One buffer of `WebRtc_SoftResetBinaryDelayEstimatorFarend`. -/
def shiftBuffer {α : Type} (zero : α) (xs : List α) (size : Nat) (delayShift : Int) :
    Option (List α) :=
  let absShift := delayShift.natAbs
  let shiftSize := size - absShift
  let destIndex := if delayShift > 0 then absShift else 0
  let srcIndex := if delayShift < 0 then absShift else 0
  let paddingIndex := if delayShift < 0 then shiftSize else 0
  do
    let block ← memcpyFrom xs srcIndex shiftSize
    let moved ← memcpyTo xs destIndex block
    fill moved paddingIndex absShift zero

/-- `WebRtc_SoftResetBinaryDelayEstimatorFarend`, with its check that something of the
history is left. -/
def softResetBinaryDelayEstimatorFarend (far : Farend) (delayShift : Int) : Option Farend :=
  if delayShift.natAbs < far.historySize then
    if delayShift = 0 then some far
    else do
      let history ← shiftBuffer 0 far.binaryFarHistory far.historySize delayShift
      let counts ← shiftBuffer 0 far.farBitCounts far.historySize delayShift
      some ⟨counts, history, far.historySize⟩
  else none

def addBinaryFarSpectrum (far : Farend) (binaryFarSpectrum : UInt32) : Option Farend := do
  let history ← shiftIn far.binaryFarHistory far.historySize binaryFarSpectrum
  let counts ← shiftIn far.farBitCounts far.historySize (bitCount binaryFarSpectrum)
  some ⟨counts, history, far.historySize⟩

/-- `WebRtc_SoftResetBinaryDelayEstimator`: the actual shifts and the new state. -/
def softResetBinaryDelayEstimator (s : Estimator F) (delayShift : Int) :
    Option (Int × Estimator F) := do
  let lookahead ← intSub s.lookahead delayShift
  let lookahead := if lookahead < 0 then 0 else lookahead
  let lookahead :=
    if lookahead > s.nearHistorySize - 1 then (s.nearHistorySize : Int) - 1 else lookahead
  some (s.lookahead - lookahead, { s with lookahead := lookahead })

/-! ### Estimating the delay -/

def bitCountComparison (binaryVector : UInt32) (binaryMatrix : List UInt32) (matrixSize : Nat)
    (bitCounts : List Int) : Option (List Int) :=
  updateRange (fun n _ => (load binaryMatrix n).map fun row => bitCount (binaryVector ^^^ row))
    matrixSize bitCounts

/-- The near-end spectrum, delayed by the lookahead, and the near-end history. -/
def delayNearSpectrum (s : Estimator F) (binaryNearSpectrum : UInt32) :
    Option (UInt32 × List UInt32) :=
  if s.nearHistorySize > 1 then do
    let history ← shiftIn s.binaryNearHistory s.nearHistorySize binaryNearSpectrum
    let delayed ← load history s.lookahead
    some (delayed, history)
  else some (binaryNearSpectrum, s.binaryNearHistory)

/-- The body of the loop that smooths the bit counts. -/
def smoothBitCount (farBitCounts bitCounts : List Int) (i : Nat) (mean : Int) : Option Int := do
  let count ← load bitCounts i
  let far ← load farBitCounts i
  if far > 0 then
    meanEstimatorFix (count * 2 ^ 9) (kShiftsAtZero - kShiftsLinearSlope * far / 2 ^ 4) mean
  else some mean

/-- The part of `WebRtc_ProcessBinarySpectrum` up to the smoothed bit counts. -/
def smoothBitCounts (s : Estimator F) (binaryNearSpectrum : UInt32) : Option (Estimator F) := do
  let (delayed, history) ← delayNearSpectrum s binaryNearSpectrum
  let counts ← bitCountComparison delayed s.farend.binaryFarHistory s.historySize s.bitCounts
  let means ← updateRange (smoothBitCount s.farend.farBitCounts counts) s.historySize
    s.meanBitCounts
  some { s with binaryNearHistory := history, bitCounts := counts, meanBitCounts := means }

/-- `candidate_delay`, `value_best_candidate` and `value_worst_candidate` -/
structure Candidate where
  delay : Int
  best : Int
  worst : Int

def Candidate.valleyDepth (c : Candidate) : Int := c.worst - c.best

/-- The loop that finds the candidate. -/
def findCandidate (meanBitCounts : List Int) (historySize : Nat) : Option Candidate :=
  exec (fun c (i : Nat) => (load meanBitCounts i).map fun mean =>
      { delay := if mean < c.best then i else c.delay
        best := if mean < c.best then mean else c.best
        worst := if mean > c.worst then mean else c.worst })
    ⟨-1, kMaxBitCountsQ9, 0⟩ (List.range historySize)

/-- The thresholds that `WebRtc_ProcessBinarySpectrum` adapts in each call. -/
def updateProbabilities (s : Estimator F) (c : Candidate) : Option (Estimator F) := do
  let threshold := max (c.best + kProbabilityOffset) kProbabilityLowerLimit
  let probability ← intAdd s.lastDelayProbability 1
  some { s with
    minimumProbability :=
      if s.minimumProbability > kProbabilityLowerLimit ∧ c.valleyDepth > kProbabilityMinSpread ∧
          s.minimumProbability > threshold then threshold
      else s.minimumProbability
    lastDelayProbability := probability }

/-- `valid_candidate` before the robust validation. -/
def isInstantaneousValid (s : Estimator F) (c : Candidate) : Bool :=
  c.valleyDepth > kProbabilityOffset &&
    (c.best < s.minimumProbability || c.best < s.lastDelayProbability)

/-- The body of the loop over the histogram in `UpdateRobustValidationStatistics`. -/
def decreaseBin (a : FloatArithmetic F) (lastDelay candidateDelay : Int)
    (decreaseInLastSet valleyDepth : F) (i : Nat) (bin : F) : F :=
  let isInLastSet : Bool :=
    (i : Int) ≥ lastDelay - 2 && (i : Int) ≤ lastDelay + 1 && (i : Int) ≠ candidateDelay
  let isInCandidateSet : Bool := (i : Int) ≥ candidateDelay - 2 && (i : Int) ≤ candidateDelay + 1
  let bin := a.sub bin
    (a.add (a.mul decreaseInLastSet (a.ofInt isInLastSet.toInt))
      (a.mul valleyDepth (a.ofInt (!isInLastSet && !isInCandidateSet).toInt)))
  if a.lt bin (a.ofRat 0) then a.ofRat 0 else bin

def updateRobustValidationStatistics (a : FloatArithmetic F) (s : Estimator F)
    (candidateDelay valleyDepthQ14 valleyLevelQ14 : Int) : Option (Estimator F) := do
  let valleyDepth := a.mul (a.ofInt valleyDepthQ14) (kQ14Scaling a)
  let maxHitsForSlowChange :=
    if candidateDelay < s.lastDelay then kMaxHitsWhenPossiblyNonCausal
    else kMaxHitsWhenPossiblyCausal
  let hits := if candidateDelay ≠ s.lastCandidateDelay then 0 else s.candidateHits
  let hits ← intAdd hits 1
  let bin ← load s.histogram candidateDelay
  let raised := a.add bin valleyDepth
  let histogram ← store s.histogram candidateDelay
    (if a.lt (kHistogramMax a) raised then kHistogramMax a else raised)
  let decreaseInLastSet ← (if hits < maxHitsForSlowChange then
      (load s.meanBitCounts s.compareDelay).map fun mean =>
        a.mul (a.ofInt (mean - valleyLevelQ14)) (kQ14Scaling a)
    else some valleyDepth)
  let histogram ← updateRange (fun i bin => some <|
      decreaseBin a s.lastDelay candidateDelay decreaseInLastSet valleyDepth i bin)
    s.historySize histogram
  some { s with
    lastCandidateDelay := candidateDelay, candidateHits := hits, histogram := histogram }

/-- The fraction of the histogram at the last delay that a candidate has to reach. -/
def thresholdFraction (a : FloatArithmetic F) (delayDifference allowedOffset : Int) : F :=
  if delayDifference > allowedOffset then
    let fraction := a.sub (a.ofRat 1)
      (a.mul (kFractionSlope a) (a.ofInt (delayDifference - allowedOffset)))
    if a.lt (kMinFractionWhenPossiblyCausal a) fraction then fraction
    else kMinFractionWhenPossiblyCausal a
  else if delayDifference < 0 then
    let fraction := a.sub (kMinFractionWhenPossiblyNonCausal a)
      (a.mul (kFractionSlope a) (a.ofInt delayDifference))
    if a.lt (a.ofRat 1) fraction then a.ofRat 1 else fraction
  else a.ofRat 1

def histogramBasedValidation (a : FloatArithmetic F) (s : Estimator F) (candidateDelay : Int) :
    Option Bool := do
  let threshold ← load s.histogram s.compareDelay
  let threshold := a.mul threshold
    (thresholdFraction a (candidateDelay - s.lastDelay) s.allowedOffset)
  let threshold :=
    if a.lt (kMinHistogramThreshold a) threshold then threshold else kMinHistogramThreshold a
  let bin ← load s.histogram candidateDelay
  some (a.le threshold bin && s.candidateHits > kMinRequiredHits)

def robustValidation (a : FloatArithmetic F) (s : Estimator F) (candidateDelay : Int)
    (isInstantaneousValid isHistogramValid : Bool) : Option Bool := do
  let isStrong ← (if isHistogramValid then
      (load s.histogram candidateDelay).map fun bin => a.lt s.lastDelayHistogram bin
    else some false)
  some (s.lastDelay < 0 && (isInstantaneousValid || isHistogramValid) ||
    isInstantaneousValid && isHistogramValid || isStrong)

/-- The histogram when the delay changes, although it was not the most likely one. -/
def adjustHistogram (a : FloatArithmetic F) (s : Estimator F) (candidateDelay : Int) :
    Option (Estimator F) := do
  let bin ← load s.histogram candidateDelay
  let compared ← load s.histogram s.compareDelay
  let histogram ←
    (if a.lt bin compared then store s.histogram s.compareDelay bin else some s.histogram)
  some { s with
    histogram := histogram
    lastDelayHistogram := if a.lt (kLastHistogramMax a) bin then kLastHistogramMax a else bin }

/-- The update of the delay estimate. -/
def acceptCandidate (a : FloatArithmetic F) (s : Estimator F) (c : Candidate) :
    Option (Estimator F) := do
  let s ← (if c.delay ≠ s.lastDelay then adjustHistogram a s c.delay else some s)
  some { s with
    lastDelay := c.delay, compareDelay := c.delay
    lastDelayProbability :=
      if c.best < s.lastDelayProbability then c.best else s.lastDelayProbability }

/-- The part of `WebRtc_ProcessBinarySpectrum` after the search. -/
def judgeCandidate (a : FloatArithmetic F) (s : Estimator F) (c : Candidate) :
    Option (Estimator F) := do
  let s ← updateProbabilities s c
  let instantaneous := isInstantaneousValid s c
  let counts ← memcpyFrom s.farend.farBitCounts 0 s.historySize
  let nonStationaryFarend := counts.any (· > 0)
  let s ← (if nonStationaryFarend then
      updateRobustValidationStatistics a s c.delay c.valleyDepth c.best
    else some s)
  let validCandidate ← (if s.robustValidationEnabled then
      (histogramBasedValidation a s c.delay).bind (robustValidation a s c.delay instantaneous)
    else some instantaneous)
  if nonStationaryFarend && validCandidate then acceptCandidate a s c else some s

def processBinarySpectrum (a : FloatArithmetic F) (s : Estimator F)
    (binaryNearSpectrum : UInt32) : Option (Int × Estimator F) :=
  if s.farend.historySize ≠ s.historySize then some (-1, s)
  else do
    let s ← smoothBitCounts s binaryNearSpectrum
    let c ← findCandidate s.meanBitCounts s.historySize
    let s ← judgeCandidate a s c
    some (s.lastDelay, s)

/-! ### Settings -/

def setHistorySize (a : FloatArithmetic F) (fresh : Fresh F) (s : Estimator F)
    (historySize : Int) : Option (Int × Estimator F) :=
  if historySize ≤ 1 then some (-1, s)
  else (allocateHistoryBufferMemory a fresh s historySize.toNat).map fun s => (s.historySize, s)

def setLookahead (s : Estimator F) (lookahead : Int) : Int × Estimator F :=
  if lookahead > s.nearHistorySize - 1 ∨ lookahead < 0 then (-1, s)
  else (lookahead, { s with lookahead := lookahead })

def setAllowedOffset (s : Estimator F) (allowedOffset : Int) : Int × Estimator F :=
  if allowedOffset < 0 then (-1, s) else (0, { s with allowedOffset := allowedOffset })

def enableRobustValidation (s : Estimator F) (enable : Int) : Int × Estimator F :=
  if enable < 0 ∨ enable > 1 then (-1, s)
  else (0, { s with robustValidationEnabled := enable ≠ 0 })

/-! ### Runs -/

inductive Call (F : Type) where
  | addFar (binaryFarSpectrum : UInt32)
  | process (binaryNearSpectrum : UInt32)
  | softResetFarend (delayShift : Int)
  | softReset (delayShift : Int)
  | setHistorySize (historySize : Int) (fresh : Fresh F)
  | setLookahead (lookahead : Int)
  | setAllowedOffset (allowedOffset : Int)
  | enableRobustValidation (enable : Int)
  | initFarend
  | init

def step (a : FloatArithmetic F) (s : Estimator F) : Call F → Option (Estimator F)
  | .addFar spectrum =>
    (addBinaryFarSpectrum s.farend spectrum).map fun far => { s with farend := far }
  | .process spectrum => (processBinarySpectrum a s spectrum).map Prod.snd
  | .softResetFarend shift =>
    (softResetBinaryDelayEstimatorFarend s.farend shift).map fun far => { s with farend := far }
  | .softReset shift => (softResetBinaryDelayEstimator s shift).map Prod.snd
  | .setHistorySize size fresh => (setHistorySize a fresh s size).map Prod.snd
  | .setLookahead lookahead => some (setLookahead s lookahead).2
  | .setAllowedOffset offset => some (setAllowedOffset s offset).2
  | .enableRobustValidation enable => some (enableRobustValidation s enable).2
  | .initFarend => (initBinaryDelayEstimatorFarend s.farend).map fun far => { s with farend := far }
  | .init => initBinaryDelayEstimator a s

/-- Creation and initialisation of the far end and of the estimator. -/
def start (a : FloatArithmetic F) (fresh : Fresh F) (block : Estimator F)
    (historySize maxLookahead : Int) : Option (Estimator F) := do
  let far ← createBinaryDelayEstimatorFarend fresh historySize
  let s ← createBinaryDelayEstimator a fresh block far maxLookahead
  let far ← initBinaryDelayEstimatorFarend s.farend
  initBinaryDelayEstimator a { s with farend := far }

/-! ## Bit counts -/

/-- The first line of `BitCount` on twelve bits: the number of ones of each octal digit. -/
def digitOnes (a : Nat) : Nat := a - (a / 2 &&& 0o3333) - (a / 4 &&& 0o1111)

/-- The second line: the number of ones of the low and of the high six bits. -/
def pairOnes (a : Nat) : Nat := digitOnes a + digitOnes a / 8 &&& 0o707

theorem pairOnes_bounds {a : Nat} (ha : a < 4096) :
    digitOnes a % 8 ≤ 3 ∧ digitOnes a ≤ 0o3333 ∧ pairOnes a % 64 ≤ 6 ∧ pairOnes a / 64 ≤ 6 := by
  have hall : ∀ high < 64, ∀ low < 64, digitOnes (low + 64 * high) % 8 ≤ 3 ∧
      digitOnes (low + 64 * high) ≤ 0o3333 ∧ pairOnes (low + 64 * high) % 64 ≤ 6 ∧
      pairOnes (low + 64 * high) / 64 ≤ 6 := by
    decide +kernel
  have hlane := hall (a / 64) (by omega) (a % 64) (by omega)
  rwa [Nat.mod_add_div] at hlane

theorem pairOnes_top : ∀ c < 256, c - (c / 2 &&& 0o333) - (c / 4 &&& 0o111) = digitOnes c ∧
    digitOnes c + digitOnes c / 8 &&& 0o307 = pairOnes c ∧ digitOnes c ≤ 0o233 ∧
    pairOnes c / 64 ≤ 2 := by
  decide +kernel

theorem digitOnes_lane {a : Nat} (ha : a < 4096) (x m n : Nat) :
    a + 4096 * x - ((a + 4096 * x) / 2 &&& 0o3333 + 4096 * m) -
        ((a + 4096 * x) / 4 &&& 0o1111 + 4096 * n) =
      digitOnes a + 4096 * (x - (x / 2 &&& m) - (x / 4 &&& n)) := by
  have hhalf : a / 2 + 2048 * (x % 2) + 4096 * (x / 2) &&& 0o3333 + 4096 * m =
      (a / 2 &&& 0o3333) + 4096 * (x / 2 &&& m) :=
    land_lane_of_mod (w := 12) (v := 11) (by decide) (by decide) (by omega) (by omega) _ _
  have hquarter : a / 4 + 1024 * (x % 4) + 4096 * (x / 4) &&& 0o1111 + 4096 * n =
      (a / 4 &&& 0o1111) + 4096 * (x / 4 &&& n) :=
    land_lane_of_mod (w := 12) (v := 10) (by decide) (by decide) (by omega) (by omega) _ _
  rw [show (a + 4096 * x) / 2 = a / 2 + 2048 * (x % 2) + 4096 * (x / 2) by omega,
    show (a + 4096 * x) / 4 = a / 4 + 1024 * (x % 4) + 4096 * (x / 4) by omega, digitOnes]
  have hle := Nat.and_le_left (n := a / 2) (m := 0o3333)
  have hle' := Nat.and_le_left (n := a / 4) (m := 0o1111)
  have hrest := Nat.and_le_left (n := x / 2) (m := m)
  have hrest' := Nat.and_le_left (n := x / 4) (m := n)
  omega

theorem pairOnes_lane {t x : Nat} (ht : t ≤ 0o3333) (hx : x % 8 ≤ 3) (m : Nat) :
    t + 4096 * x + (t + 4096 * x) / 8 &&& 0o707 + 4096 * m =
      (t + t / 8 &&& 0o707) + 4096 * (x + x / 8 &&& m) := by
  rw [show t + 4096 * x + (t + 4096 * x) / 8 =
    t + t / 8 + 512 * (x % 8) + 2 ^ 12 * (x + x / 8) by omega]
  exact land_lane_of_mod (w := 12) (v := 9) (by decide) (by decide) (by omega) (by omega) _ _

theorem toNat_shiftRight_and (u k m : UInt32) (hk : k.toNat < 32) :
    (u >>> k &&& m).toNat = u.toNat / 2 ^ k.toNat &&& m.toNat := by
  rw [UInt32.toNat_and, UInt32.toNat_shiftRight, Nat.mod_eq_of_lt hk, Nat.shiftRight_eq_div_pow]

theorem toNat_count (u : UInt32) :
    (u - (u >>> 1 &&& (0o33333333333 : UInt32)) - (u >>> 2 &&& (0o11111111111 : UInt32))).toNat =
      u.toNat - (u.toNat / 2 &&& 0o33333333333) - (u.toNat / 4 &&& 0o11111111111) := by
  have hhalf := toNat_shiftRight_and u 1 0o33333333333 (by decide)
  have hquarter := toNat_shiftRight_and u 2 0o11111111111 (by decide)
  have hle := Nat.and_le_left (n := u.toNat / 2) (m := 0o33333333333)
  have hle' := Nat.and_le_left (n := u.toNat / 4) (m := 0o11111111111)
  change _ = u.toNat / 2 &&& 0o33333333333 at hhalf
  change _ = u.toNat / 4 &&& 0o11111111111 at hquarter
  have hlt := u.toNat_lt
  rw [UInt32.toNat_sub, UInt32.toNat_sub]
  omega

theorem toNat_add_shiftRight (t k : UInt32) (hk : k.toNat < 32)
    (h : t.toNat + t.toNat / 2 ^ k.toNat < 2 ^ 32) :
    (t + t >>> k).toNat = t.toNat + t.toNat / 2 ^ k.toNat := by
  rw [UInt32.toNat_add, UInt32.toNat_shiftRight, Nat.mod_eq_of_lt hk,
    Nat.shiftRight_eq_div_pow, Nat.mod_eq_of_lt h]

theorem toNat_sum (z : UInt32) :
    (z + z >>> 12 + z >>> 24 &&& (0o77 : UInt32)).toNat =
      (z.toNat + z.toNat / 4096 + z.toNat / 16777216) % 64 := by
  have hmask : (0o77 : UInt32).toNat = 2 ^ 6 - 1 := rfl
  have htwelve : (z >>> 12).toNat = z.toNat / 4096 := by
    rw [UInt32.toNat_shiftRight, Nat.shiftRight_eq_div_pow]
    rfl
  have htwentyFour : (z >>> 24).toNat = z.toNat / 16777216 := by
    rw [UInt32.toNat_shiftRight, Nat.shiftRight_eq_div_pow]
    rfl
  rw [UInt32.toNat_and, hmask, Nat.and_two_pow_sub_one_eq_mod, UInt32.toNat_add, UInt32.toNat_add]
  omega

theorem sum_pairs {p p' q q' r r' y : Nat} (hp : p ≤ 6 ∧ p' ≤ 6) (hq : q ≤ 6 ∧ q' ≤ 6)
    (hr : r ≤ 6 ∧ r' ≤ 2) (hy : y = p + 64 * p' + 4096 * (q + 64 * q' + 4096 * (r + 64 * r'))) :
    y + y / 64 < 2 ^ 32 ∧
      (y + y / 64 + (y + y / 64) / 4096 + (y + y / 64) / 16777216) % 64 ≤ 32 := by
  have hz : y + y / 64 =
      p + p' + 64 * (p' + q + 64 * (q + q' + 64 * (q' + r + 64 * (r + r' + 64 * r')))) := by
    omega
  have htwo : (y + y / 64) / 4096 = q + q' + 64 * (q' + r + 64 * (r + r' + 64 * r')) := by omega
  have hfour : (y + y / 64) / 16777216 = r + r' + 64 * r' := by omega
  refine ⟨by omega, ?_⟩
  -- modulo 64 only the lowest lane of each summand counts
  rw [htwo, hfour, hz, Nat.add_mod, Nat.add_mod (p + p' + _), Nat.add_mul_mod_self_left,
    Nat.add_mul_mod_self_left, Nat.add_mul_mod_self_left]
  clear hy hz htwo hfour
  omega

theorem bitCount_bounds (u : UInt32) : 0 ≤ bitCount u ∧ bitCount u ≤ 32 := by
  have hlt : u.toNat < 2 ^ 32 := u.toNat_lt
  obtain ⟨a, b, c, hu, ha, hb, hc⟩ : ∃ a b c, u.toNat = a + 4096 * (b + 4096 * c) ∧ a < 4096 ∧
      b < 4096 ∧ c < 256 :=
    ⟨u.toNat % 4096, u.toNat / 4096 % 4096, u.toNat / 4096 / 4096, by omega, by omega, by omega,
      by omega⟩
  obtain ⟨-, hones, hlow, hhigh⟩ := pairOnes_bounds ha
  obtain ⟨hdigit, hones', hlow', hhigh'⟩ := pairOnes_bounds hb
  obtain ⟨hdigit', -, hlow'', -⟩ := pairOnes_bounds (show c < 4096 by omega)
  obtain ⟨hcount, hpair, htop, hhigh''⟩ := pairOnes_top c hc
  have hfirst := toNat_count u
  rw [hu, show 0o33333333333 = 0o3333 + 4096 * (0o3333 + 4096 * 0o333) by decide,
    show 0o11111111111 = 0o1111 + 4096 * (0o1111 + 4096 * 0o111) by decide,
    digitOnes_lane ha, digitOnes_lane hb, hcount] at hfirst
  rw [bitCount]
  generalize u - (u >>> 1 &&& (0o33333333333 : UInt32)) -
    (u >>> 2 &&& (0o11111111111 : UInt32)) = t at hfirst ⊢
  have hsecond : (t + t >>> 3 &&& (0o30707070707 : UInt32)).toNat =
      pairOnes a + 4096 * (pairOnes b + 4096 * pairOnes c) := by
    have hroom : t.toNat + t.toNat / 8 < 2 ^ 32 := by omega
    rw [UInt32.toNat_and, toNat_add_shiftRight t 3 (by decide) hroom, hfirst]
    change _ + _ / 8 &&& 0o707 + 4096 * (0o707 + 4096 * 0o307) = _
    rw [pairOnes_lane hones (by omega), pairOnes_lane hones' hdigit', hpair]
    rfl
  generalize t + t >>> 3 &&& (0o30707070707 : UInt32) = y at hsecond ⊢
  rw [← Nat.mod_add_div (pairOnes a) 64, ← Nat.mod_add_div (pairOnes b) 64,
    ← Nat.mod_add_div (pairOnes c) 64] at hsecond
  have hsum := sum_pairs ⟨hlow, hhigh⟩ ⟨hlow', hhigh'⟩ ⟨hlow'', hhigh''⟩ hsecond
  have hthird : (y + y >>> 6).toNat = y.toNat + y.toNat / 64 :=
    toNat_add_shiftRight y 6 (by decide) hsum.1
  rw [toNat_sum]
  omega

/-! ## Means -/

/-- The range of a mean bit count. -/
def InQ9 (mean : Int) : Prop := 0 ≤ mean ∧ mean < kMaxBitCountsQ9

theorem meanEstimatorFix_bounds {value factor mean : Int} (h0 : 0 ≤ value)
    (hvalue : value ≤ kMaxBitCountsQ9) (hfactor : 1 ≤ factor ∧ factor < 32) (hmean : InQ9 mean) :
    ∃ next, meanEstimatorFix value factor mean = some next ∧ InQ9 next := by
  have hpow : (2 : Int) ≤ 2 ^ factor.toNat := by
    have hle : 2 ^ 1 ≤ 2 ^ factor.toNat := Nat.pow_le_pow_right Nat.two_pos (by omega)
    exact_mod_cast hle
  have hhalf : ∀ {d : Int}, 0 ≤ d → 0 ≤ d / 2 ^ factor.toNat ∧ 2 * (d / 2 ^ factor.toNat) ≤ d := by
    intro d hd
    have hq : 0 ≤ d / 2 ^ factor.toNat := Int.ediv_nonneg hd (by omega)
    have hmul : d / 2 ^ factor.toNat * 2 ^ factor.toNat ≤ d := Int.ediv_mul_le d (by omega)
    have hdouble := Int.mul_le_mul_of_nonneg_left hpow hq
    omega
  unfold InQ9 at hmean ⊢
  rw [meanEstimatorFix, if_pos (by omega)]
  dsimp only
  split
  · next hneg =>
      have hdown := hhalf (d := -(value - mean)) (by omega)
      exact ⟨_, rfl, by omega, by omega⟩
  · next hpos =>
      have hup := hhalf (d := value - mean) (by omega)
      exact ⟨_, rfl, by omega, by omega⟩

/-! ## The invariant -/

/-- A far end with buffers of `n` elements. -/
structure FarSound (far : Farend) (n : Nat) : Prop where
  size : far.historySize = n
  history : far.binaryFarHistory.length = n
  counts : far.farBitCounts.length = n
  bounds : ∀ b ∈ far.farBitCounts, 0 ≤ b ∧ b ≤ 32

/-- The arrays have their sizes, and the lookahead is inside of the near-end history. -/
structure Sized (s : Estimator F) : Prop where
  pos : 0 < s.historySize
  farend : FarSound s.farend s.historySize
  near : s.binaryNearHistory.length = s.nearHistorySize
  counts : s.bitCounts.length = s.historySize
  means : s.meanBitCounts.length = s.historySize + 1
  histogram : s.histogram.length = s.historySize + 1
  lookahead : 0 ≤ s.lookahead ∧ s.lookahead < s.nearHistorySize

/-- In addition, what is remembered is an index, and every mean that can be examined is in
its range: those of the delays, and the extra one while `compare_delay` is its index. -/
structure Sound (s : Estimator F) : Prop extends Sized s where
  bounds : ∀ i m, i < s.historySize ∨ (i : Int) = s.compareDelay →
    s.meanBitCounts[i]? = some m → InQ9 m
  compareDelay : 0 ≤ s.compareDelay ∧ s.compareDelay ≤ s.historySize
  lastDelay : s.lastDelay = -2 ∨ 0 ≤ s.lastDelay ∧ s.lastDelay < s.historySize

/-- Neither counter of `WebRtc_ProcessBinarySpectrum` is at its end. -/
def CountersFit (s : Estimator F) : Prop :=
  InInt (s.lastDelayProbability + 1) ∧ InInt (s.candidateHits + 1)
  deriving Decidable

/-! ### Estimating the delay -/

theorem bitCountComparison_spec {matrix : List UInt32} {counts : List Int} (vector : UInt32)
    (hlength : counts.length = matrix.length) :
    ∃ counts', bitCountComparison vector matrix matrix.length counts = some counts' ∧
      counts'.length = counts.length ∧ ∀ b ∈ counts', 0 ≤ b ∧ b ≤ 32 := by
  have hbody : ∀ (i : Nat) (x : Int), i < matrix.length → counts[i]? = some x →
      ∃ y, ((load matrix i).map fun row => bitCount (vector ^^^ row)) = some y ∧
        0 ≤ y ∧ y ≤ 32 := by
    intro i x hi _
    rw [load_ofNat, getElem?_eq_getElem hi]
    exact ⟨_, rfl, bitCount_bounds _⟩
  obtain ⟨counts', hsome, hlength', hbounds, _⟩ :=
    updateRange_spec (Nat.le_of_eq hlength.symm) hbody
  refine ⟨counts', hsome, hlength', ?_⟩
  intro b hb
  obtain ⟨i, hi⟩ := mem_iff_getElem?.1 hb
  have hlt := (List.getElem?_eq_some_iff.1 hi).1
  exact hbounds i b (by omega) hi

theorem delayNearSpectrum_spec {s : Estimator F} (h : Sound s) (spectrum : UInt32) :
    ∃ delayed history, delayNearSpectrum s spectrum = some (delayed, history) ∧
      history.length = s.nearHistorySize := by
  unfold delayNearSpectrum
  split
  · obtain ⟨history, hhistory, hlength, _⟩ := shiftIn_spec h.near (by omega) spectrum
    obtain ⟨delayed, hdelayed⟩ := load_eq_some h.lookahead.1 (hlength ▸ h.lookahead.2)
    refine ⟨delayed, history, ?_, hlength⟩
    rw [hhistory, bind_eq_bind, bind_some, hdelayed]
    rfl
  · exact ⟨_, _, rfl, h.near⟩

theorem smoothBitCount_spec {farCounts counts : List Int} {i : Nat} {mean : Int}
    (hfar : i < farCounts.length) (hfarBounds : ∀ b ∈ farCounts, 0 ≤ b ∧ b ≤ 32)
    (hcounts : i < counts.length) (hcountBounds : ∀ b ∈ counts, 0 ≤ b ∧ b ≤ 32)
    (hmean : InQ9 mean) :
    ∃ next, smoothBitCount farCounts counts i mean = some next ∧ InQ9 next := by
  have hcount := hcountBounds _ (getElem_mem hcounts)
  have hbits := hfarBounds _ (getElem_mem hfar)
  simp only [smoothBitCount, load_ofNat, getElem?_eq_getElem hfar,
    getElem?_eq_getElem hcounts, bind_eq_bind, bind_some]
  split
  · apply meanEstimatorFix_bounds _ _ _ hmean
    · omega
    · unfold kMaxBitCountsQ9
      omega
    · -- at least 13 - (3 * 32 >> 4) = 7 shifts
      unfold kShiftsAtZero kShiftsLinearSlope
      omega
  · exact ⟨mean, rfl, hmean⟩

theorem smoothBitCounts_spec {s : Estimator F} (h : Sound s) (spectrum : UInt32) :
    ∃ t, smoothBitCounts s spectrum = some t ∧ Sound t ∧ t.historySize = s.historySize ∧
      t.compareDelay = s.compareDelay ∧ (CountersFit s → CountersFit t) := by
  obtain ⟨delayed, history, hnear, hhistory⟩ := delayNearSpectrum_spec h spectrum
  obtain ⟨counts, hcompare, hcounts, hbounds⟩ :=
    bitCountComparison_spec delayed (h.counts.trans h.farend.history.symm)
  rw [h.farend.history] at hcompare
  have hbody : ∀ i mean, i < s.historySize → s.meanBitCounts[i]? = some mean →
      ∃ next, smoothBitCount s.farend.farBitCounts counts i mean = some next ∧ InQ9 next := by
    intro i mean hi hmean
    apply smoothBitCount_spec _ h.farend.bounds _ hbounds (h.bounds i mean (.inl hi) hmean)
    · rw [h.farend.counts]
      exact hi
    · rw [hcounts, h.counts]
      exact hi
  obtain ⟨means, hmeans, hlength, hupdated, hkept⟩ :=
    updateRange_spec (by rw [h.means]; omega) hbody
  refine ⟨{ s with binaryNearHistory := history, bitCounts := counts, meanBitCounts := means },
    ?_, ?_, rfl, rfl, id⟩
  · simp [smoothBitCounts, hnear, hcompare, hmeans]
  · refine { h with near := hhistory, counts := hcounts.trans h.counts,
                    means := hlength.trans h.means, bounds := ?_ }
    intro i m hi hm
    cases Nat.lt_or_ge i s.historySize with
    | inl hlt => exact hupdated i m hlt hm
    | inr hge => exact h.bounds i m hi (hkept i hge ▸ hm)

/-- The search has seen a candidate as soon as it has seen a mean. -/
def Found (historySize : Nat) (done : List Nat) (c : Candidate) : Prop :=
  done = [] ∧ c.best = kMaxBitCountsQ9 ∨ 0 ≤ c.delay ∧ c.delay < historySize

theorem findCandidate_spec {means : List Int} {n : Nat} (hn : 0 < n)
    (hmeans : ∀ i < n, ∃ m, means[i]? = some m ∧ InQ9 m) :
    ∃ c, findCandidate means n = some c ∧ 0 ≤ c.delay ∧ c.delay < n := by
  have hloop : ∃ c, findCandidate means n = some c ∧ Found n (range n) c := by
    apply exec_done _ (.inl ⟨rfl, rfl⟩)
    intro done i rest c hall hc
    have hi : i < n := by
      rw [← mem_range, hall]
      simp
    obtain ⟨m, hm, hq9⟩ := hmeans i hi
    rw [load_ofNat, hm]
    refine ⟨_, rfl, .inr ?_⟩
    dsimp only
    unfold InQ9 at hq9
    cases hc with
    | inl hfirst =>
      omega
    | inr hfound => split <;> omega
  obtain ⟨c, hsome, hfound⟩ := hloop
  cases hfound with
  | inl hnone =>
    have hzero := congrArg length hnone.1
    rw [length_range, length_nil] at hzero
    omega
  | inr hfound => exact ⟨c, hsome, hfound⟩

section Judge

variable {s : Estimator F} {d : Int}

theorem Sound.load_histogram (h : Sound s) (h0 : 0 ≤ d) (hd : d ≤ s.historySize) :
    ∃ bin, load s.histogram d = some bin :=
  load_eq_some h0 (by rw [h.histogram]; omega)

theorem Sound.store_histogram (h : Sound s) (h0 : 0 ≤ d) (hd : d ≤ s.historySize) (bin : F) :
    ∃ histogram, store s.histogram d bin = some histogram ∧
      histogram.length = s.historySize + 1 := by
  have hlt : d < s.histogram.length := by
    rw [h.histogram]
    omega
  obtain ⟨histogram, hstore, hlength⟩ := store_eq_some h0 hlt bin
  exact ⟨histogram, hstore, hlength.trans h.histogram⟩

/-- A part of a call is defined, and keeps the invariant and the history size. -/
def Keeps (s : Estimator F) (result : Option (Estimator F)) : Prop :=
  ∃ t, result = some t ∧ Sound t ∧ t.historySize = s.historySize

theorem Keeps.ite {p : Prop} [Decidable p] {result : Option (Estimator F)} (h : Sound s)
    (hresult : Keeps s result) : Keeps s (if p then result else some s) := by
  split
  · exact hresult
  · exact ⟨s, rfl, h, rfl⟩

theorem Sound.load_compareDelay (h : Sound s) :
    ∃ mean, load s.meanBitCounts s.compareDelay = some mean ∧ InQ9 mean := by
  have hrange := h.compareDelay
  have hlt : s.compareDelay.toNat < s.meanBitCounts.length := by
    rw [h.means]
    omega
  refine ⟨s.meanBitCounts[s.compareDelay.toNat], ?_, ?_⟩
  · rw [load, if_pos hrange.1, getElem?_eq_getElem hlt]
  · apply h.bounds s.compareDelay.toNat _ (.inr (by omega))
    exact getElem?_eq_getElem hlt

variable (a : FloatArithmetic F)

variable (h : Sound s) (h0 : 0 ≤ d) (hd : d < s.historySize)
include h h0 hd

theorem updateRobustValidationStatistics_spec (hhits : InInt (s.candidateHits + 1))
    (depth level : Int) :
    Keeps s (updateRobustValidationStatistics a s d depth level) := by
  obtain ⟨bin, hbin⟩ := h.load_histogram h0 (by omega)
  obtain ⟨mean, hmean, _⟩ := h.load_compareDelay
  have hcount : InInt ((if d ≠ s.lastCandidateDelay then 0 else s.candidateHits) + 1) := by
    split
    · decide
    · exact hhits
  simp only [updateRobustValidationStatistics, hbin, hmean, intAdd_eq_some hcount, bind_eq_bind,
    bind_some, map_some]
  generalize (if a.lt (kHistogramMax a) _ then kHistogramMax a else _) = raised
  obtain ⟨histogram, hstore, hlength⟩ := h.store_histogram h0 (by omega) raised
  rw [hstore, bind_some, ← apply_ite some, bind_some]
  have hfits : s.historySize ≤ histogram.length := by omega
  obtain ⟨histogram', hupdate, hlength'⟩ :=
    updateRange_eq_some (decreaseBin a s.lastDelay d _ _) hfits
  rw [hupdate]
  exact ⟨_, rfl, { h with histogram := hlength'.trans hlength }, rfl⟩

theorem histogramBasedValidation_eq_some :
    ∃ valid, histogramBasedValidation a s d = some valid := by
  obtain ⟨bin, hbin⟩ := h.load_histogram h0 (by omega)
  obtain ⟨compared, hcompared⟩ := h.load_histogram h.compareDelay.1 h.compareDelay.2
  simp [histogramBasedValidation, hbin, hcompared]

theorem robustValidation_eq_some (instantaneous valid : Bool) :
    ∃ robust, robustValidation a s d instantaneous valid = some robust := by
  obtain ⟨bin, hbin⟩ := h.load_histogram h0 (by omega)
  cases valid <;> simp [robustValidation, hbin]

theorem adjustHistogram_spec : Keeps s (adjustHistogram a s d) := by
  obtain ⟨bin, hbin⟩ := h.load_histogram h0 (by omega)
  obtain ⟨compared, hcompared⟩ := h.load_histogram h.compareDelay.1 h.compareDelay.2
  obtain ⟨histogram, hstore, hlength⟩ := h.store_histogram h.compareDelay.1 h.compareDelay.2 bin
  simp only [adjustHistogram, hbin, hcompared, hstore, bind_eq_bind, bind_some]
  split
  · exact ⟨_, rfl, { h with histogram := hlength }, rfl⟩
  · exact ⟨_, rfl, { h with }, rfl⟩

omit h h0 hd

theorem acceptCandidate_spec {c : Candidate} (h : Sound s) (h0 : 0 ≤ c.delay)
    (hd : c.delay < s.historySize) : Keeps s (acceptCandidate a s c) := by
  obtain ⟨t, ht, hsound, hsize⟩ :=
    Keeps.ite (p := c.delay ≠ s.lastDelay) h (adjustHistogram_spec a h h0 hd)
  simp only [acceptCandidate, ht]
  rw [← hsize] at hd
  refine ⟨_, rfl, { hsound with
    bounds := ?_, compareDelay := ⟨h0, Int.le_of_lt hd⟩, lastDelay := .inr ⟨h0, hd⟩ }, hsize⟩
  intro i m hi hm
  change i < t.historySize ∨ (i : Int) = c.delay at hi
  exact hsound.bounds i m (.inl (by omega)) hm

theorem judgeCandidate_spec {c : Candidate} (h : Sound s) (h0 : 0 ≤ c.delay)
    (hd : c.delay < s.historySize) (hfit : CountersFit s) : Keeps s (judgeCandidate a s c) := by
  obtain ⟨s', hupdate, hs, hsize, hhits⟩ : ∃ s', updateProbabilities s c = some s' ∧ Sound s' ∧
      s'.historySize = s.historySize ∧ InInt (s'.candidateHits + 1) := by
    simp only [updateProbabilities, intAdd_eq_some hfit.1]
    exact ⟨_, rfl, { h with }, rfl, hfit.2⟩
  have hcounts : memcpyFrom s'.farend.farBitCounts 0 s'.historySize =
      some s'.farend.farBitCounts := by
    rw [← hs.farend.counts, memcpyFrom_eq_some (by omega), drop_zero, take_length]
  simp only [judgeCandidate, hupdate, hcounts, bind_eq_bind, bind_some]
  rw [← hsize] at hd
  unfold Keeps
  rw [← hsize]
  generalize s'.farend.farBitCounts.any (fun b => decide (b > 0)) = nonStationary
  generalize isInstantaneousValid s' c = instantaneous
  obtain ⟨t, ht, hsound, hsize⟩ := Keeps.ite (p := nonStationary) hs
    (updateRobustValidationStatistics_spec a hs h0 hd hhits c.valleyDepth c.best)
  rw [← hsize] at hd
  have hvalidation : ∃ valid, (if t.robustValidationEnabled then
      (histogramBasedValidation a t c.delay).bind (robustValidation a t c.delay instantaneous)
        else some instantaneous) = some valid := by
    split
    · obtain ⟨valid, hvalid⟩ := histogramBasedValidation_eq_some a hsound h0 hd
      rw [hvalid]
      exact robustValidation_eq_some a hsound h0 hd instantaneous valid
    · exact ⟨_, rfl⟩
  obtain ⟨valid, hvalid⟩ := hvalidation
  rw [ht, bind_some, hvalid, bind_some]
  split
  · rw [← hsize]
    exact acceptCandidate_spec a hsound h0 hd
  · exact ⟨t, rfl, hsound, hsize⟩

/-- What a call examines is in range, and so is what it returns. -/
structure Inside (a : FloatArithmetic F) (s : Estimator F) (spectrum : UInt32) : Prop where
  lookahead : 0 ≤ s.lookahead ∧ s.lookahead < s.nearHistorySize
  compareDelay : 0 ≤ s.compareDelay ∧ s.compareDelay ≤ s.historySize
  means : ∀ i < s.historySize, ∃ mean, s.meanBitCounts[i]? = some mean ∧ InQ9 mean
  candidate : ∃ t c, smoothBitCounts s spectrum = some t ∧
    findCandidate t.meanBitCounts s.historySize = some c ∧
    (∀ i < s.historySize, ∃ mean, t.meanBitCounts[i]? = some mean ∧ InQ9 mean) ∧
    (∃ mean, load t.meanBitCounts s.compareDelay = some mean ∧ InQ9 mean) ∧
    0 ≤ c.delay ∧ c.delay < s.historySize
  returned : ∃ delay t, processBinarySpectrum a s spectrum = some (delay, t) ∧
    (delay = -2 ∨ 0 ≤ delay ∧ delay < s.historySize) ∧
    0 ≤ t.compareDelay ∧ t.compareDelay ≤ s.historySize

theorem Sound.mean_bounds (h : Sound s) :
    ∀ i < s.historySize, ∃ mean, s.meanBitCounts[i]? = some mean ∧ InQ9 mean := by
  intro i hi
  have hlt : i < s.meanBitCounts.length := by
    rw [h.means]
    omega
  exact ⟨_, getElem?_eq_getElem hlt, h.bounds i _ (.inl hi) (getElem?_eq_getElem hlt)⟩

theorem processBinarySpectrum_spec (h : Sound s) (hfit : CountersFit s) (spectrum : UInt32) :
    Inside a s spectrum ∧
      ∃ delay t, processBinarySpectrum a s spectrum = some (delay, t) ∧ Sound t := by
  obtain ⟨t, ht, hsound, hsize, hcompare, hkept⟩ := smoothBitCounts_spec h spectrum
  obtain ⟨c, hc, h0, hd⟩ := findCandidate_spec hsound.pos hsound.mean_bounds
  obtain ⟨t', ht', hsound', hsize'⟩ := judgeCandidate_spec a hsound h0 hd (hkept hfit)
  have hprocess : processBinarySpectrum a s spectrum = some (t'.lastDelay, t') := by
    rw [processBinarySpectrum, if_neg (fun hne => hne h.farend.size)]
    simp [ht, hc, ht']
  have hmeans := hsound.mean_bounds
  have hcompared := hsound.load_compareDelay
  have hlast := hsound'.lastDelay
  have hcompare' := hsound'.compareDelay
  rw [hsize', hsize] at hlast hcompare'
  rw [hsize] at hc hd hmeans
  rw [hcompare] at hcompared
  exact ⟨⟨h.lookahead, h.compareDelay, h.mean_bounds, ⟨t, c, ht, hc, hmeans, hcompared, h0, hd⟩,
    ⟨_, _, hprocess, hlast, hcompare'⟩⟩, ⟨_, _, hprocess, hsound'⟩⟩

end Judge

/-! ### Memory -/

section Memory

variable {α : Type} {xs ys : List α} {size n extra : Nat} {zero : α} {fresh : Nat → α}

theorem regrow_spec (zero : α) (fresh : Nat → α) (xs : List α) (size n extra : Nat) :
    ∃ ys, regrow zero fresh xs size n extra = some ys ∧ ys.length = n + extra ∧
      ∀ i < n + extra, ys[i]? =
        some (if size ≤ i ∧ i < n then zero else xs[i]?.getD (fresh i)) := by
  unfold regrow
  split
  · next hgrow =>
      have hfits : size + (n - size) ≤ (realloc fresh xs (n + extra)).length := by
        rw [length_realloc]
        omega
      obtain ⟨ys, hfill, hlength, -, hget⟩ := fill_spec hfits zero
      refine ⟨ys, hfill, hlength.trans (length_realloc ..), ?_⟩
      intro i hi
      rw [hget, getElem?_realloc fresh xs hi, show size + (n - size) = n by omega]
      split <;> rfl
  · refine ⟨_, rfl, length_realloc .., ?_⟩
    intro i hi
    rw [getElem?_realloc fresh xs hi, if_neg (by omega)]

theorem shiftBuffer_spec {shift : Int} (zero : α) (hlength : xs.length = size)
    (hshift : shift.natAbs < size) :
    ∃ ys, shiftBuffer zero xs size shift = some ys ∧ ys.length = size ∧
      ∀ y ∈ ys, y = zero ∨ y ∈ xs := by
  let source := if shift < 0 then shift.natAbs else 0
  let dest := if shift > 0 then shift.natAbs else 0
  let padding := if shift < 0 then size - shift.natAbs else 0
  let block := (xs.drop source).take (size - shift.natAbs)
  have hfrom : memcpyFrom xs source (size - shift.natAbs) = some block := by
    apply memcpyFrom_eq_some
    simp only [source]
    split <;> omega
  have hblock : block.length = size - shift.natAbs := by
    simp only [block, length_take, length_drop, source]
    split <;> omega
  have hfits : dest + block.length ≤ xs.length := by
    simp only [dest]
    split <;> omega
  have hmoved := overwrite_length hfits
  have hpadding : padding + shift.natAbs ≤ (overwrite xs dest block).length := by
    simp only [padding]
    split <;> omega
  obtain ⟨ys, hfill, hfilled, hmem, -⟩ := fill_spec hpadding zero
  refine ⟨ys, ?_, hfilled.trans (hmoved.trans hlength), ?_⟩
  · change ((memcpyFrom xs source (size - shift.natAbs)).bind fun block =>
      (memcpyTo xs dest block).bind fun moved => fill moved padding shift.natAbs zero) = _
    rw [hfrom, bind_some, memcpyTo_eq_some hfits]
    exact hfill
  · intro y hy
    apply (hmem y hy).imp_right
    intro hmoved
    cases mem_of_mem_overwrite hmoved with
    | inl hold => exact hold
    | inr hnew => exact mem_of_mem_drop (mem_of_mem_take hnew)

end Memory

section Farend

variable {far : Farend} {n : Nat}

theorem FarSound.zero_or_old (h : FarSound far n) {b : Int} (hb : b = 0 ∨ b ∈ far.farBitCounts) :
    0 ≤ b ∧ b ≤ 32 := by
  cases hb with
  | inl hzero =>
    rw [hzero]
    decide
  | inr hold => exact h.bounds b hold

theorem addBinaryFarSpectrum_spec (hn : 0 < n) (h : FarSound far n) (spectrum : UInt32) :
    ∃ far', addBinaryFarSpectrum far spectrum = some far' ∧ FarSound far' n := by
  obtain ⟨history, hhistory, hlength, _⟩ := shiftIn_spec h.history hn spectrum
  obtain ⟨counts, hcounts, hcountsLength, hmem⟩ := shiftIn_spec h.counts hn (bitCount spectrum)
  refine ⟨⟨counts, history, n⟩, ?_, rfl, hlength, hcountsLength, ?_⟩
  · simp [addBinaryFarSpectrum, h.size, hhistory, hcounts]
  · intro b hb
    cases hmem b hb with
    | inl hnew => exact hnew ▸ bitCount_bounds spectrum
    | inr hold => exact h.bounds b hold

theorem softResetBinaryDelayEstimatorFarend_spec {shift : Int} (h : FarSound far n)
    (hshift : shift.natAbs < n) :
    ∃ far', softResetBinaryDelayEstimatorFarend far shift = some far' ∧ FarSound far' n := by
  obtain ⟨history, hhistory, hlength, _⟩ := shiftBuffer_spec 0 h.history hshift
  obtain ⟨counts, hcounts, hcountsLength, hmem⟩ := shiftBuffer_spec 0 h.counts hshift
  rw [softResetBinaryDelayEstimatorFarend, h.size, if_pos hshift]
  split
  · exact ⟨far, rfl, h⟩
  · refine ⟨⟨counts, history, n⟩, ?_, rfl, hlength, hcountsLength, ?_⟩
    · simp [hhistory, hcounts]
    · exact fun b hb => h.zero_or_old (hmem b hb)

theorem initBinaryDelayEstimatorFarend_spec (h : FarSound far n) :
    ∃ far', initBinaryDelayEstimatorFarend far = some far' ∧ FarSound far' n := by
  refine ⟨⟨replicate n 0, replicate n 0, n⟩, ?_, rfl, length_replicate, length_replicate, ?_⟩
  · simp [initBinaryDelayEstimatorFarend, h.size, fill_all h.history, fill_all h.counts]
  · exact fun b hb => h.zero_or_old (.inl (eq_of_mem_replicate hb))

theorem allocateFarendBufferMemory_spec (fresh : Fresh F) (n' : Nat) (h : FarSound far n) :
    ∃ far', allocateFarendBufferMemory fresh far n' = some far' ∧ FarSound far' n' := by
  obtain ⟨history, hhistory, hlength, _⟩ :=
    regrow_spec 0 fresh.binaryFarHistory far.binaryFarHistory n n' 0
  obtain ⟨counts, hcounts, hcountsLength, hget⟩ :=
    regrow_spec 0 fresh.farBitCounts far.farBitCounts n n' 0
  refine ⟨⟨counts, history, n'⟩, ?_, rfl, hlength, hcountsLength, ?_⟩
  · simp [allocateFarendBufferMemory, h.size, hhistory, hcounts]
  · intro b hb
    obtain ⟨i, hi⟩ := mem_iff_getElem?.1 hb
    have hlt : i < n' + 0 := by
      rw [← hcountsLength]
      exact (List.getElem?_eq_some_iff.1 hi).1
    rw [hget i hlt, some.injEq] at hi
    apply h.zero_or_old
    split at hi
    · exact .inl hi.symm
    · next hold =>
        have hin : i < far.farBitCounts.length := by
          rw [h.counts]
          omega
        rw [getElem?_eq_getElem hin] at hi
        exact .inr (hi ▸ getElem_mem hin)

end Farend

section Estimator

variable {s : Estimator F}

/-- The estimator with other arrays. -/
def Estimator.withArrays (s : Estimator F) (far : Farend) (means counts : List Int)
    (histogram : List F) (n : Nat) : Estimator F :=
  { s with
    farend := far, meanBitCounts := means, bitCounts := counts, histogram := histogram,
    historySize := n }

variable (a : FloatArithmetic F)

variable (fresh : Fresh F)

theorem allocateHistoryBufferMemory_spec {m : Nat} (h : FarSound s.farend m) {n : Nat}
    (hn : InInt (n + 1)) :
    ∃ far means counts histogram, allocateHistoryBufferMemory a fresh s n =
        some (s.withArrays far means counts histogram n) ∧
      FarSound far n ∧ counts.length = n ∧ means.length = n + 1 ∧ histogram.length = n + 1 ∧
      ∀ i < n + 1, means[i]? = some (if s.historySize ≤ i ∧ i < n then 0 else
        s.meanBitCounts[i]?.getD (fresh.meanBitCounts i)) := by
  have hfar : ∃ far, (if n ≠ s.farend.historySize then
      allocateFarendBufferMemory fresh s.farend n else some s.farend) = some far ∧
      FarSound far n := by
    split
    · exact allocateFarendBufferMemory_spec fresh n h
    · next hsame =>
        have hm : m = n := h.size.symm.trans (Decidable.not_not.1 hsame).symm
        exact ⟨s.farend, rfl, hm ▸ h⟩
  obtain ⟨far, hfar, hsound⟩ := hfar
  obtain ⟨means, hmeans, hmeansLength, hget⟩ :=
    regrow_spec 0 fresh.meanBitCounts s.meanBitCounts s.historySize n 1
  obtain ⟨counts, hcounts, hcountsLength, _⟩ :=
    regrow_spec 0 fresh.bitCounts s.bitCounts s.historySize n 0
  obtain ⟨histogram, hhistogram, hhistogramLength, _⟩ :=
    regrow_spec (a.ofRat 0) fresh.histogram s.histogram s.historySize n 1
  refine ⟨far, means, counts, histogram, ?_, hsound, hcountsLength, hmeansLength,
    hhistogramLength, hget⟩
  simp only [allocateHistoryBufferMemory, demand_of hn, hfar, hmeans, hcounts, hhistogram]
  rfl

theorem setHistorySize_sound_iff (h : Sound s) {size : Int} (hsize : 2 ≤ size)
    (hint : InInt (size + 1)) :
    ∃ t, setHistorySize a fresh s size = some (size, t) ∧
      (Sound t ↔ s.lastDelay < size ∧ s.compareDelay ≤ size) := by
  have hcast : (size.toNat : Int) = size := Int.toNat_of_nonneg (by omega)
  obtain ⟨far, means, counts, histogram, halloc, hfar, hcounts, hmeans, hhistogram, hget⟩ :=
    allocateHistoryBufferMemory_spec a fresh h.farend (n := size.toNat) (hcast ▸ hint)
  refine ⟨s.withArrays far means counts histogram size.toNat, ?_, ?_, ?_⟩
  · rw [setHistorySize, if_neg (by omega), halloc]
    exact congrArg (fun n => some (n, _)) hcast
  · intro ht
    have hlast := ht.lastDelay
    have hcompare := ht.compareDelay.2
    dsimp only [Estimator.withArrays] at hlast hcompare
    omega
  · intro hcond
    have hlast := h.lastDelay
    have hcompare := h.compareDelay
    refine { h with
      farend := hfar, counts := hcounts, means := hmeans, histogram := hhistogram,
      pos := ?_, compareDelay := ?_, lastDelay := ?_, bounds := ?_ }
    all_goals dsimp only [Estimator.withArrays]
    · omega
    · intro i m hi hm
      rw [hget i (by omega), some.injEq] at hm
      split at hm
      · rw [← hm]
        exact ⟨by decide, by decide⟩
      · have hin : i < s.meanBitCounts.length := by
          rw [h.means]
          omega
        have hold := getElem?_eq_getElem hin
        rw [hold] at hm
        exact h.bounds i m (by omega) (hm ▸ hold)
    · omega
    · omega

theorem initBinaryDelayEstimator_spec (h : Sized s) :
    ∃ t, initBinaryDelayEstimator a s = some t ∧ Sound t := by
  obtain ⟨means, hmeans, hmeansLength, hbounds, _⟩ :=
    updateRange_spec (f := fun _ _ => some (20 * 2 ^ 9)) (Q := fun _ => InQ9)
      (Nat.le_of_eq h.means.symm) fun i x _ _ => ⟨_, rfl, by decide, by decide⟩
  obtain ⟨histogram, hhistogram, hhistogramLength⟩ :=
    updateRange_eq_some (fun _ _ => a.ofRat 0) (Nat.le_of_eq h.histogram.symm)
  simp only [initBinaryDelayEstimator, fill_all h.counts, fill_all h.near, hmeans, hhistogram]
  refine ⟨_, rfl, { h with
    near := length_replicate
    counts := length_replicate
    means := hmeansLength.trans h.means
    histogram := hhistogramLength.trans h.histogram
    lastDelay := .inl rfl
    compareDelay := ⟨Int.natCast_nonneg _, Int.le_refl _⟩
    bounds := ?_ }⟩
  intro i m hi hm
  change i < s.historySize ∨ (i : Int) = s.historySize at hi
  exact hbounds i m (by omega) hm

theorem softResetBinaryDelayEstimator_spec (h : Sound s) {shift : Int}
    (hshift : InInt (s.lookahead - shift)) :
    ∃ actual t, softResetBinaryDelayEstimator s shift = some (actual, t) ∧ Sound t := by
  have hlookahead := h.lookahead
  simp only [softResetBinaryDelayEstimator, intSub_eq_some hshift]
  refine ⟨_, _, rfl, { h with lookahead := ?_ }⟩
  dsimp only
  omega

theorem sound_of_setting {refused : Prop} [Decidable refused] {code : Int} {t : Estimator F}
    (h : Sound s) (ht : ¬refused → Sound t) :
    Sound (if refused then ((-1 : Int), s) else (code, t)).2 := by
  split
  · exact h
  · next hset => exact ht hset

theorem createBinaryDelayEstimator_spec (block : Estimator F) {far : Farend} {n : Nat} (hn : 0 < n)
    (hint : InInt (n + 1)) (h : FarSound far n) {maxLookahead : Int}
    (hlookahead : 0 ≤ maxLookahead) (hint' : InInt (maxLookahead + 1)) :
    ∃ s, createBinaryDelayEstimator a fresh block far maxLookahead = some s ∧ Sized s := by
  unfold createBinaryDelayEstimator
  rw [if_pos hlookahead, h.size, intAdd_eq_some hint', bind_eq_bind, bind_some]
  generalize hblank : Estimator.mk .. = blank
  have hblankFar : FarSound blank.farend n := hblank ▸ h
  obtain ⟨far', means, counts, histogram, halloc, hfar, hcounts, hmeans, hhistogram, _⟩ :=
    allocateHistoryBufferMemory_spec a fresh hblankFar hint
  refine ⟨_, halloc, ⟨hn, hfar, ?_, hcounts, hmeans, hhistogram, ?_⟩⟩
  · subst hblank
    exact length_realloc ..
  · subst hblank
    dsimp only [Estimator.withArrays]
    omega

theorem start_sound (block : Estimator F) {historySize maxLookahead : Int} (hsize : 2 ≤ historySize)
    (hint : InInt (historySize + 1)) (hlookahead : 0 ≤ maxLookahead)
    (hint' : InInt (maxLookahead + 1)) :
    ∃ s, start a fresh block historySize maxLookahead = some s ∧ Sound s := by
  have hempty : FarSound ⟨[], [], 0⟩ 0 := ⟨rfl, rfl, rfl, by simp⟩
  obtain ⟨far, hfar, hfarSound⟩ := allocateFarendBufferMemory_spec fresh historySize.toNat hempty
  have hcreate : createBinaryDelayEstimatorFarend fresh historySize = some far := by
    rw [createBinaryDelayEstimatorFarend, if_pos (by omega), hfar]
  obtain ⟨s, hs, hsized⟩ :=
    createBinaryDelayEstimator_spec a fresh block (by omega)
      (by rwa [Int.toNat_of_nonneg (by omega)]) hfarSound hlookahead hint'
  obtain ⟨far', hinit, hfarSound'⟩ := initBinaryDelayEstimatorFarend_spec hsized.farend
  have hready : Sized { s with farend := far' } := { hsized with farend := hfarSound' }
  simp only [start, hcreate, hs, hinit, bind_eq_bind, bind_some]
  exact initBinaryDelayEstimator_spec a hready

end Estimator

/-! ## Runs -/

def Allowed (s : Estimator F) : Call F → Prop
  | .process _ => CountersFit s
  | .softResetFarend shift => shift.natAbs < s.farend.historySize
  | .softReset shift => InInt (s.lookahead - shift)
  | .setHistorySize size _ =>
    2 ≤ size → InInt (size + 1) ∧ s.lastDelay < size ∧ s.compareDelay ≤ size
  | _ => True

instance (s : Estimator F) (call : Call F) : Decidable (Allowed s call) := by
  cases call <;> unfold Allowed <;> infer_instance

theorem Sound.map_farend {s : Estimator F} (h : Sound s) {far : Option Farend}
    (hfar : ∃ far', far = some far' ∧ FarSound far' s.historySize) :
    ∃ t, far.map (fun far => { s with farend := far }) = some t ∧ Sound t := by
  obtain ⟨far', rfl, hsound⟩ := hfar
  exact ⟨{ s with farend := far' }, rfl, { h with farend := hsound }⟩

theorem step_sound (a : FloatArithmetic F) {s : Estimator F} {call : Call F} (h : Sound s)
    (hallowed : Allowed s call) : ∃ t, step a s call = some t ∧ Sound t := by
  cases call with
  | addFar spectrum => exact h.map_farend (addBinaryFarSpectrum_spec h.pos h.farend spectrum)
  | process spectrum =>
    obtain ⟨_, delay, t, ht, hsound⟩ := processBinarySpectrum_spec a h hallowed spectrum
    exact ⟨t, by rw [step, ht]; rfl, hsound⟩
  | softResetFarend shift =>
    have hshift : shift.natAbs < s.historySize := h.farend.size ▸ hallowed
    exact h.map_farend (softResetBinaryDelayEstimatorFarend_spec h.farend hshift)
  | softReset shift =>
    obtain ⟨actual, t, ht, hsound⟩ := softResetBinaryDelayEstimator_spec h hallowed
    exact ⟨t, by rw [step, ht]; rfl, hsound⟩
  | setHistorySize size fresh =>
    cases Int.lt_or_le size 2 with
    | inl hsmall => exact ⟨s, by rw [step, setHistorySize, if_pos (by omega)]; rfl, h⟩
    | inr hlarge =>
      obtain ⟨hint, hcond⟩ := hallowed hlarge
      obtain ⟨t, ht, hiff⟩ := setHistorySize_sound_iff a fresh h hlarge hint
      exact ⟨t, by rw [step, ht]; rfl, hiff.2 hcond⟩
  | setLookahead lookahead =>
    refine ⟨_, rfl, sound_of_setting h fun _ => { h with lookahead := ?_ }⟩
    dsimp only
    omega
  | setAllowedOffset _ | enableRobustValidation _ =>
    exact ⟨_, rfl, sound_of_setting h fun _ => { h with }⟩
  | initFarend => exact h.map_farend (initBinaryDelayEstimatorFarend_spec h.farend)
  | init => exact initBinaryDelayEstimator_spec a h.toSized

/-- **The estimator indexes inside of its arrays.**  From creation on, in every run in which
nothing overflows and the history is never made shorter than the delays that are remembered,
every call is defined, and every spectrum that is processed in a state reached finds its
candidate, compares it with what is remembered and answers inside of the history. -/
theorem estimator_indexes_inside (a : FloatArithmetic F) (fresh : Fresh F) (block : Estimator F)
    {historySize maxLookahead : Int} (hsize : 2 ≤ historySize) (hint : InInt (historySize + 1))
    (hlookahead : 0 ≤ maxLookahead) (hint' : InInt (maxLookahead + 1)) :
    (∃ s, start a fresh block historySize maxLookahead = some s) ∧
      ∀ s, start a fresh block historySize maxLookahead = some s →
        ∀ calls, ExecAlong (step a) Allowed s calls →
          ∃ t, exec (step a) s calls = some t ∧
            ∀ spectrum, Allowed t (.process spectrum) → Inside a t spectrum := by
  obtain ⟨s, hs, hsound⟩ := start_sound a fresh block hsize hint hlookahead hint'
  refine ⟨⟨s, hs⟩, ?_⟩
  intro s' hs' calls halong
  cases hs.symm.trans hs'
  obtain ⟨t, ht, hsound'⟩ := exec_keeps_along (fun s call => step_sound a) calls hsound halong
  exact ⟨t, ht, fun spectrum hfit => (processBinarySpectrum_spec a hsound' hfit spectrum).1⟩

/-- Memory that holds sevens. -/
def sevens : Fresh Rat := ⟨fun _ => 7, fun _ => 7, fun _ => 7, fun _ => 7, fun _ => 7, fun _ => 7⟩

def sevensBlock : Estimator Rat where
  meanBitCounts := []
  bitCounts := []
  binaryNearHistory := []
  nearHistorySize := 7
  historySize := 7
  minimumProbability := 7
  lastDelayProbability := 7
  lastDelay := 7
  robustValidationEnabled := true
  allowedOffset := 7
  lastCandidateDelay := 7
  compareDelay := 7
  candidateHits := 7
  histogram := []
  lastDelayHistogram := 7
  lookahead := 7
  farend := ⟨[], [], 7⟩

/-- A run that makes every call, with a history that grows and shrinks. -/
def sampleCalls : List (Call Rat) :=
  [.addFar 5, .process 5, .setHistorySize 6 sevens, .enableRobustValidation 1,
    .setAllowedOffset 2, .process 9, .softResetFarend 3, .softReset 1, .process 1,
    .setLookahead 1, .initFarend, .addFar 3, .process 3, .setHistorySize 5 sevens, .process 7,
    .init, .softResetFarend (-2)]

theorem estimator_indexes_inside_sample :
    ∃ s t, start .rational sevens sevensBlock 4 1 = some s ∧
      exec (step .rational) s sampleCalls = some t ∧ Inside .rational t 11 := by
  have hstart : start .rational sevens sevensBlock 4 1 = some _ := rfl
  obtain ⟨t, ht, hinside⟩ := (estimator_indexes_inside .rational sevens sevensBlock
    (by decide) (by decide) (by decide) (by decide)).2 _ hstart sampleCalls (by decide +kernel)
  have hfit : ((start .rational sevens sevensBlock 4 1).bind fun s =>
      (exec (step .rational) s sampleCalls).map fun t => decide (CountersFit t)) = some true := by
    decide +kernel
  rw [hstart, bind_some, ht, map_some, some.injEq, decide_eq_true_eq] at hfit
  exact ⟨_, t, hstart, ht, hinside 11 hfit⟩

/-- Before there is an estimate, `compare_delay` is the old history size: with a shorter
history it is outside of the arrays, and the next call reads there. -/
theorem process_reads_outside :
    (start .rational sevens sevensBlock 4 0).bind (fun s =>
      (exec (step .rational) s [.addFar 1, .setHistorySize 2 sevens]).map fun t =>
        (t.historySize, t.compareDelay, (processBinarySpectrum .rational t 0).isNone)) =
      some (2, 4, true) := by
  decide +kernel

end WebrtcCore.Ports.BinaryDelayEstimator
