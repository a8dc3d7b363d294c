import WebrtcCore.Verified.CMemory
import WebrtcCore.Verified.CircularIndex
import WebrtcCore.Verified.Simulation

/-!
# The render delay buffer (`modules/audio_processing/aec3/render_delay_buffer.cc`)

`RenderDelayBufferImpl` keeps the render signal in four rings: blocks, their spectra and
transforms, and samples at a lower rate.  How far the reader is behind the writer in the spectrum
ring is the total delay, in the low-rate ring the latency, and `Delay()` is the difference.

The port has the indices and leaves the contents out; whether an inserted block is active is an
argument.  A function gives `none` if a check fails.  `Rings` says what the indices stand for: two
delays that never wrap, on which each call is a sum or a difference.
-/

namespace WebrtcCore.Ports

open Verified CMemory CircularIndex Simulation Option

namespace RenderDelayBuffer

abbrev kBlockSize : Nat := 64

abbrev kMatchedFilterWindowSizeSubBlocks : Nat := 32

abbrev kMatchedFilterAlignmentShiftSizeSubBlocks : Nat := kMatchedFilterWindowSizeSubBlocks * 3 / 4

/-- The members of `EchoCanceller3Config` that the buffer uses. -/
structure Config where
  downSamplingFactor : Nat
  numFilters : Nat
  lengthBlocks : Nat
  defaultDelay : Nat
  excessRenderDetectionIntervalBlocks : Nat
  maxAllowedExcessRenderBlocks : Nat

def getDownSampledBufferSize (downSamplingFactor numMatchedFilters : Nat) : Nat :=
  kBlockSize / downSamplingFactor *
    (kMatchedFilterAlignmentShiftSizeSubBlocks * numMatchedFilters +
      kMatchedFilterWindowSizeSubBlocks + 1)

def getRenderDelayBufferSize (downSamplingFactor numMatchedFilters filterLengthBlocks : Nat) :
    Nat :=
  getDownSampledBufferSize downSamplingFactor numMatchedFilters /
      (kBlockSize / downSamplingFactor) + filterLengthBlocks + 1

/-- `BlockBuffer`, `SpectrumBuffer`, `FftBuffer` and `DownsampledRenderBuffer` without
their contents. -/
structure Ring where
  size : Int
  write : Int
  read : Int
  deriving DecidableEq

namespace Ring

variable (r : Ring)

def incIndex (index : Int) : Int := inc r.size index

def decIndex (index : Int) : Int := dec r.size index

def offsetIndex (index offset : Int) : Option Int :=
  if offset ≤ r.size then some (CircularIndex.offset r.size index offset) else none

/-- The one of `SpectrumBuffer` checks the sum too. -/
def spectrumOffsetIndex (index offset : Int) : Option Int :=
  if offset ≤ r.size ∧ 0 ≤ r.size + index + offset then
    some (CircularIndex.offset r.size index offset)
  else none

def updateWriteIndex (offset : Int) : Option Ring :=
  (r.offsetIndex r.write offset).map fun write => { r with write }

def incWriteIndex : Ring := { r with write := r.incIndex r.write }

def decWriteIndex : Ring := { r with write := r.decIndex r.write }

def updateReadIndex (offset : Int) : Option Ring :=
  (r.offsetIndex r.read offset).map fun read => { r with read }

def incReadIndex : Ring := { r with read := r.incIndex r.read }

def decReadIndex : Ring := { r with read := r.decIndex r.read }

/-- The reader is put at an offset from the writer. -/
def alignRead (offset : Int) : Option Ring :=
  (r.offsetIndex r.write offset).map fun read => { r with read }

end Ring

inductive BufferingEvent
  | kNone
  | kRenderUnderrun
  | kRenderOverrun
  deriving DecidableEq, Repr

end RenderDelayBuffer

open RenderDelayBuffer in
/-- The members of `RenderDelayBufferImpl`.  `clamped` is not one of them: it says
whether the last `Reset` or alignment that set `delay_` was limited by `MaxDelay()`. -/
structure RenderDelayBuffer where
  config : Config
  updateCaptureCallCounterOnSkippedBlocks : Bool
  subBlockSize : Int
  blocks : Ring
  spectra : Ring
  ffts : Ring
  delay : Option Nat
  lowRate : Ring
  bufferHeadroom : Int
  lastCallWasRender : Bool
  numApiCallsInARow : Int
  maxObservedJitter : Int
  captureCallCounter : Int
  renderCallCounter : Int
  renderActivity : Bool
  renderActivityCounter : Nat
  removerRenderActivity : Bool
  externalAudioBufferDelay : Option Int
  externalAudioBufferDelayVerifiedAfterReset : Bool
  minLatencyBlocks : Nat
  excessRenderDetectionCounter : Nat
  clamped : Bool

namespace RenderDelayBuffer

section Program

variable (s : RenderDelayBuffer)

def maxDelay : Int := s.blocks.size - 1 - s.bufferHeadroom

def bufferLatency : Int :=
  ((s.lowRate.size + s.lowRate.read - s.lowRate.write) % s.lowRate.size).tdiv s.subBlockSize

def computeDelay : Int :=
  let internalDelay := ahead s.spectra.size s.spectra.read s.spectra.write
  internalDelay - s.bufferLatency

/-- `Delay`. -/
def delayBlocks : Nat := sizeOfInt s.computeDelay

def mapDelayToTotalDelay (externalDelayBlocks : Nat) : Int :=
  s.bufferLatency + intOfSize externalDelayBlocks

def applyTotalDelay (delay : Int) : Option RenderDelayBuffer := do
  let blocks ← s.blocks.alignRead (-delay)
  let spectraRead ← s.spectra.spectrumOffsetIndex s.spectra.write delay
  let ffts ← s.ffts.alignRead delay
  some { s with blocks, spectra := { s.spectra with read := spectraRead }, ffts }

/-- What `Reset` does first. -/
def clearCounters : RenderDelayBuffer :=
  { s with
    lastCallWasRender := false
    numApiCallsInARow := 1
    minLatencyBlocks := 0
    excessRenderDetectionCounter := 0 }

/-- `audio_buffer_delay_to_set` of `Reset`, before it is limited. -/
def audioBufferDelayToSet (external : Int) : Int := if external ≤ 2 then 1 else external - 2

def reset : Option RenderDelayBuffer := do
  let s := s.clearCounters
  -- Initialize the read index to one sub-block before the write index.
  let lowRate ← s.lowRate.alignRead s.subBlockSize
  let s := { s with lowRate }
  match s.externalAudioBufferDelay with
  | some external =>
    let s ← s.applyTotalDelay (min (audioBufferDelayToSet external) s.maxDelay)
    some { s with
      delay := some (sizeOfInt s.computeDelay)
      externalAudioBufferDelayVerifiedAfterReset := false
      clamped := decide (s.maxDelay < audioBufferDelayToSet external) }
  | none =>
    let s ← s.applyTotalDelay s.config.defaultDelay
    some { s with delay := none, clamped := false }

/-- The counting of calls in a row at the start of `Insert` and
`PrepareCaptureProcessing`. -/
def countCall (render : Bool) : RenderDelayBuffer :=
  if s.delay = none then s
  else if s.lastCallWasRender ≠ render then
    { s with lastCallWasRender := render, numApiCallsInARow := 1 }
  else
    { s with
      numApiCallsInARow := s.numApiCallsInARow + 1
      maxObservedJitter := max s.maxObservedJitter (s.numApiCallsInARow + 1) }

def incrementWriteIndices : Option RenderDelayBuffer :=
  (s.lowRate.updateWriteIndex (-s.subBlockSize)).map fun lowRate =>
    { s with
      lowRate
      blocks := s.blocks.incWriteIndex
      spectra := s.spectra.decWriteIndex
      ffts := s.ffts.decWriteIndex }

def incrementLowRateReadIndices : Option RenderDelayBuffer :=
  (s.lowRate.updateReadIndex (-s.subBlockSize)).map fun lowRate => { s with lowRate }

def incrementReadIndices : RenderDelayBuffer :=
  if s.blocks.read ≠ s.blocks.write then
    { s with
      blocks := s.blocks.incReadIndex
      spectra := s.spectra.decReadIndex
      ffts := s.ffts.decReadIndex }
  else s

def renderOverrun : Bool :=
  decide (s.lowRate.read = s.lowRate.write) || decide (s.blocks.read = s.blocks.write)

def renderUnderrun : Bool := decide (s.lowRate.read = s.lowRate.write)

/-- The detection of render activity in `Insert`. -/
def detectActivity (active : Bool) : RenderDelayBuffer :=
  if s.renderActivity then s
  else
    let counter := s.renderActivityCounter + if active then 1 else 0
    { s with renderActivityCounter := counter, renderActivity := decide (20 ≤ counter) }

def insert (active : Bool) : Option (BufferingEvent × RenderDelayBuffer) := do
  let s := { s with renderCallCounter := s.renderCallCounter + 1 }.countCall true
  let s ← s.incrementWriteIndices
  let event := if s.renderOverrun then BufferingEvent.kRenderOverrun else .kNone
  let s := s.detectActivity active
  let s ← if event ≠ .kNone then s.reset else some s
  some (event, s)

def handleSkippedCaptureProcessing : RenderDelayBuffer :=
  if s.updateCaptureCallCounterOnSkippedBlocks then
    { s with captureCallCounter := s.captureCallCounter + 1 }
  else s

def detectExcessRenderBlocks : Bool × RenderDelayBuffer :=
  let latencyBlocks := sizeOfInt s.bufferLatency
  let minLatencyBlocks := min s.minLatencyBlocks latencyBlocks
  let counter := s.excessRenderDetectionCounter + 1
  if s.config.excessRenderDetectionIntervalBlocks ≤ counter then
    (decide (s.config.maxAllowedExcessRenderBlocks < minLatencyBlocks),
      { s with minLatencyBlocks := latencyBlocks, excessRenderDetectionCounter := 0 })
  else (false, { s with minLatencyBlocks, excessRenderDetectionCounter := counter })

/-- `delay_` after an underrun. -/
def reduceDelay : RenderDelayBuffer :=
  match s.delay with
  | some delay => if 0 < delay then { s with delay := some (delay - 1) } else s
  | none => s

/-- The end of `PrepareCaptureProcessing`. -/
def passActivity : RenderDelayBuffer :=
  let s := { s with removerRenderActivity := s.renderActivity }
  if s.renderActivity then { s with renderActivityCounter := 0, renderActivity := false } else s

def prepareCaptureProcessing : Option (BufferingEvent × RenderDelayBuffer) := do
  let s := { s with captureCallCounter := s.captureCallCounter + 1 }.countCall false
  let (excess, s) := s.detectExcessRenderBlocks
  if excess then
    let s ← s.reset
    some (.kRenderOverrun, s.passActivity)
  else if s.renderUnderrun then
    -- The low-rate reader has nowhere to go.
    some (.kRenderUnderrun, s.incrementReadIndices.reduceDelay.passActivity)
  else
    let s ← s.incrementLowRateReadIndices
    some (.kNone, s.incrementReadIndices.passActivity)

/-- The start of `AlignFromDelay`. -/
def verifyExternalDelay : RenderDelayBuffer :=
  if s.externalAudioBufferDelayVerifiedAfterReset = false ∧
      s.externalAudioBufferDelay ≠ none ∧ s.delay ≠ none then
    { s with externalAudioBufferDelayVerifiedAfterReset := true }
  else s

def alignFromDelay (delay : Nat) : Option (Bool × RenderDelayBuffer) := do
  let s := s.verifyExternalDelay
  if s.delay = some delay then some (false, s)
  else
    let s := { s with delay := some delay }
    let totalDelay := s.mapDelayToTotalDelay delay
    let s ← s.applyTotalDelay (min s.maxDelay (max totalDelay 0))
    some (true, { s with clamped := decide (s.maxDelay < totalDelay) })

def setAudioBufferDelay (delayMs : Int) : RenderDelayBuffer :=
  { s with externalAudioBufferDelay := some (delayMs.tdiv 4) }

end Program

def create (config : Config) (updateCaptureCallCounterOnSkippedBlocks : Bool) :
    Option RenderDelayBuffer :=
  let size : Int := getRenderDelayBufferSize config.downSamplingFactor config.numFilters
    config.lengthBlocks
  RenderDelayBuffer.reset
    { config, updateCaptureCallCounterOnSkippedBlocks
      subBlockSize :=
        if 0 < config.downSamplingFactor then ((kBlockSize / config.downSamplingFactor : Nat) : Int)
        else kBlockSize
      blocks := ⟨size, 0, 0⟩
      spectra := ⟨size, 0, 0⟩
      ffts := ⟨size, 0, 0⟩
      delay := some config.defaultDelay
      lowRate := ⟨getDownSampledBufferSize config.downSamplingFactor config.numFilters, 0, 0⟩
      bufferHeadroom := config.lengthBlocks
      lastCallWasRender := false
      numApiCallsInARow := 0
      maxObservedJitter := 1
      captureCallCounter := 0
      renderCallCounter := 0
      renderActivity := false
      renderActivityCounter := 0
      removerRenderActivity := false
      externalAudioBufferDelay := none
      externalAudioBufferDelayVerifiedAfterReset := false
      minLatencyBlocks := 0
      excessRenderDetectionCounter := 0
      clamped := false }

inductive Call
  | insert (active : Bool)
  | prepareCaptureProcessing
  | handleSkippedCaptureProcessing
  | setAudioBufferDelay (delayMs : Int)
  | reset
  | alignFromDelay (delay : Nat)

/-- What a call returns. -/
inductive Answer
  | event (event : BufferingEvent)
  | aligned (changed : Bool)
  | done
  deriving DecidableEq

def step (s : RenderDelayBuffer) : Call → Option (Answer × RenderDelayBuffer)
  | .insert active => (s.insert active).map fun r => (.event r.1, r.2)
  | .prepareCaptureProcessing => s.prepareCaptureProcessing.map fun r => (.event r.1, r.2)
  | .handleSkippedCaptureProcessing => some (.done, s.handleSkippedCaptureProcessing)
  | .setAudioBufferDelay delayMs => some (.done, s.setAudioBufferDelay delayMs)
  | .reset => s.reset.map fun s => (.done, s)
  | .alignFromDelay delay => (s.alignFromDelay delay).map fun r => (.aligned r.1, r.2)

/-! ## Rings as positions that never wrap -/

/-- `n` sub-blocks fit into the low-rate ring; the writers have got `w` and `v` blocks,
and the readers are `internal` and `latency` blocks behind, each up to full turns. -/
structure Rings (n : Int) (s : RenderDelayBuffer) (internal latency : Int) : Prop where
  two_le : 2 ≤ n
  subBlock_pos : 0 < s.subBlockSize
  headroom_pos : 0 < s.bufferHeadroom
  size : s.blocks.size = n + s.bufferHeadroom + 1
  default_le : s.config.defaultDelay ≤ n
  external_lt : ∀ external, s.externalAudioBufferDelay = some external → external < 2 ^ 30
  blocks : ∃ w, s.blocks.write = w % s.blocks.size ∧
    s.blocks.read = (w - internal) % s.blocks.size ∧
    s.spectra = ⟨s.blocks.size, -w % s.blocks.size, (internal - w) % s.blocks.size⟩
  ffts : s.ffts = s.spectra
  lowRate : ∃ v, s.lowRate =
    ⟨s.subBlockSize * n, s.subBlockSize * (-v % n), s.subBlockSize * ((latency - v) % n)⟩

section Rings

variable {n internal latency : Int} {s : RenderDelayBuffer}

variable (h : Rings n s internal latency)
include h

theorem Rings.size_pos : 0 < s.blocks.size := by
  have hsize := h.size
  have hheadroom := h.headroom_pos
  have hn := h.two_le
  omega

theorem Rings.maxDelay_eq : s.maxDelay = n := by
  have hsize := h.size
  unfold maxDelay
  omega

theorem Rings.bufferLatency_eq : s.bufferLatency = latency % n := by
  obtain ⟨v, hlowRate⟩ := h.lowRate
  have hpos := h.subBlock_pos
  rw [bufferLatency, hlowRate]
  rw [← Int.mul_add, ← Int.mul_sub, Int.mul_emod_mul_of_pos _ _ hpos,
    Int.mul_tdiv_cancel_left _ (Int.ne_of_gt hpos), distance_emod]
  congr 1
  omega

theorem Rings.computeDelay_eq : s.computeDelay = internal % s.blocks.size - latency % n := by
  obtain ⟨w, _, _, hspectra⟩ := h.blocks
  rw [computeDelay, h.bufferLatency_eq, hspectra]
  rw [ahead_emod h.size_pos]
  congr 2
  omega

theorem Rings.lowRate_meet_iff : s.lowRate.read = s.lowRate.write ↔ latency % n = 0 := by
  obtain ⟨v, hlowRate⟩ := h.lowRate
  rw [hlowRate]
  rw [Int.mul_eq_mul_left_iff (Int.ne_of_gt h.subBlock_pos),
    Int.emod_eq_emod_iff_emod_sub_eq_zero, show latency - v - -v = latency by omega]

theorem Rings.blocks_meet_iff : s.blocks.read = s.blocks.write ↔ internal % s.blocks.size = 0 := by
  obtain ⟨w, hwrite, hread, _⟩ := h.blocks
  rw [hread, hwrite, eq_comm, Int.emod_eq_emod_iff_emod_sub_eq_zero,
    show w - (w - internal) = internal by omega]

omit h

theorem spectrumOffsetIndex_eq {r : Ring} (hsize : 0 < r.size) (x : Int) {k : Int} (hlow : 0 ≤ k)
    (hhigh : k ≤ r.size) : r.spectrumOffsetIndex (x % r.size) k = some ((x + k) % r.size) := by
  have hindex := Int.emod_nonneg x (Int.ne_of_gt hsize)
  rw [Ring.spectrumOffsetIndex, if_pos ⟨hhigh, by omega⟩, offset_emod hsize x (by omega)]

theorem alignRead_eq {r : Ring} {x : Int} (hsize : 0 < r.size) (hwrite : r.write = x % r.size)
    {k : Int} (hlow : -r.size ≤ k) (hhigh : k ≤ r.size) :
    r.alignRead k = some { r with read := (x + k) % r.size } := by
  rw [Ring.alignRead, Ring.offsetIndex, if_pos hhigh, hwrite, offset_emod hsize x hlow]
  rfl

variable (h : Rings n s internal latency)
include h

theorem Rings.offsetIndex_lowRate (x : Int) {k : Int} (hlow : -n ≤ k) (hhigh : k ≤ n) :
    s.lowRate.offsetIndex (s.subBlockSize * (x % n)) (s.subBlockSize * k) =
      some (s.subBlockSize * ((x + k) % n)) := by
  obtain ⟨v, hlowRate⟩ := h.lowRate
  have hn := h.two_le
  have hle := Int.mul_le_mul_of_nonneg_left hhigh (Int.le_of_lt h.subBlock_pos)
  rw [Ring.offsetIndex, hlowRate, if_pos hle]
  rw [offset_mul h.subBlock_pos, offset_emod (by omega) x hlow]

theorem applyTotalDelay_rings (delay : Int) (hlow : 0 ≤ delay) (hhigh : delay ≤ n) :
    ∃ blocks spectra ffts, s.applyTotalDelay delay = some { s with blocks, spectra, ffts } ∧
      Rings n { s with blocks, spectra, ffts } delay latency := by
  obtain ⟨w, hwrite, hread, hspectra⟩ := h.blocks
  have hsize := h.size
  have hpos := h.size_pos
  have hheadroom := h.headroom_pos
  have halign := alignRead_eq hpos hwrite (k := -delay) (by omega) (by omega)
  have halign' := alignRead_eq (r := ⟨s.blocks.size, -w % s.blocks.size,
    (internal - w) % s.blocks.size⟩) hpos rfl (k := delay) (by dsimp only; omega)
    (by dsimp only; omega)
  have hspectrum := spectrumOffsetIndex_eq (r := ⟨s.blocks.size, -w % s.blocks.size,
    (internal - w) % s.blocks.size⟩) hpos (-w) hlow (by dsimp only; omega)
  refine ⟨{ s.blocks with read := (w + -delay) % s.blocks.size },
    ⟨s.blocks.size, -w % s.blocks.size, (-w + delay) % s.blocks.size⟩,
    ⟨s.blocks.size, -w % s.blocks.size, (-w + delay) % s.blocks.size⟩, ?_, ?_⟩
  · rw [applyTotalDelay, halign, h.ffts, hspectra, halign', hspectrum]
    rfl
  · refine { h with
      blocks := ⟨w, hwrite, congrArg (· % s.blocks.size) ?_, ?_⟩
      ffts := rfl }
    · omega
    · rw [show delay - w = -w + delay by omega]

theorem incrementWriteIndices_rings :
    ∃ lowRate blocks spectra ffts,
      s.incrementWriteIndices = some { s with lowRate, blocks, spectra, ffts } ∧
      Rings n { s with lowRate, blocks, spectra, ffts } (internal + 1) (latency + 1) := by
  obtain ⟨w, hwrite, hread, hspectra⟩ := h.blocks
  obtain ⟨v, hlowRate⟩ := h.lowRate
  have hpos := h.size_pos
  have hn := h.two_le
  refine ⟨⟨s.subBlockSize * n, s.subBlockSize * ((-v - 1) % n),
      s.subBlockSize * ((latency - v) % n)⟩, s.blocks.incWriteIndex, s.spectra.decWriteIndex,
    s.ffts.decWriteIndex, ?_, ?_⟩
  · have hoffset : s.lowRate.updateWriteIndex (-s.subBlockSize) =
        some ⟨s.subBlockSize * n, s.subBlockSize * ((-v - 1) % n),
          s.subBlockSize * ((latency - v) % n)⟩ := by
      have hindex := h.offsetIndex_lowRate (-v) (k := -1) (by omega) (by omega)
      rw [Int.mul_neg, Int.mul_one, hlowRate] at hindex
      rw [hlowRate, Ring.updateWriteIndex, hindex]
      rfl
    rw [incrementWriteIndices, hoffset, map_some]
  · refine { h with
      size := h.size
      blocks := ⟨w + 1, ?_, ?_, ?_⟩
      ffts := ?_
      lowRate := ⟨v + 1, ?_⟩ }
    · show inc s.blocks.size s.blocks.write = _
      rw [hwrite, inc_emod hpos]
      rfl
    · show s.blocks.read = (w + 1 - (internal + 1)) % s.blocks.size
      rw [hread]
      congr 1
      omega
    · show Ring.mk s.spectra.size (dec s.spectra.size s.spectra.write) s.spectra.read = _
      rw [hspectra]
      rw [dec_emod hpos, show -w - 1 = -(w + 1) by omega,
        show internal - w = internal + 1 - (w + 1) by omega]
      rfl
    · show s.ffts.decWriteIndex = s.spectra.decWriteIndex
      rw [h.ffts]
    · rw [show -v - 1 = -(v + 1) by omega, show latency - v = latency + 1 - (v + 1) by omega]

theorem incrementReadIndices_rings (hlow : 0 ≤ internal) (hhigh : internal < s.blocks.size) :
    ∃ blocks spectra ffts, s.incrementReadIndices = { s with blocks, spectra, ffts } ∧
      Rings n { s with blocks, spectra, ffts } (max (internal - 1) 0) latency := by
  have hmeet := h.blocks_meet_iff
  rw [Int.emod_eq_of_lt hlow hhigh] at hmeet
  rw [incrementReadIndices]
  split
  case isTrue hne =>
    have hpositive : max (internal - 1) 0 = internal - 1 := by omega
    obtain ⟨w, hwrite, hread, hspectra⟩ := h.blocks
    have hpos := h.size_pos
    refine ⟨_, _, _, rfl, ?_⟩
    rw [hpositive]
    refine { h with
      size := h.size
      blocks := ⟨w, hwrite, ?_, ?_⟩
      ffts := ?_ }
    · show inc s.blocks.size s.blocks.read = (w - (internal - 1)) % s.blocks.size
      rw [hread, inc_emod hpos]
      congr 1
      omega
    · show Ring.mk s.spectra.size s.spectra.write (dec s.spectra.size s.spectra.read) = _
      rw [hspectra]
      rw [dec_emod hpos, show internal - w - 1 = internal - 1 - w by omega]
      rfl
    · show s.ffts.decReadIndex = s.spectra.decReadIndex
      rw [h.ffts]
  case isFalse heq =>
    have hzero : max (internal - 1) 0 = internal := by omega
    refine ⟨s.blocks, s.spectra, s.ffts, rfl, ?_⟩
    rw [hzero]
    exact h

theorem incrementLowRateReadIndices_rings :
    ∃ lowRate, s.incrementLowRateReadIndices = some { s with lowRate } ∧
      Rings n { s with lowRate } internal (latency - 1) := by
  obtain ⟨v, hlowRate⟩ := h.lowRate
  have hn := h.two_le
  refine ⟨⟨s.subBlockSize * n, s.subBlockSize * (-v % n),
      s.subBlockSize * ((latency - v - 1) % n)⟩, ?_, ?_⟩
  · have hindex := h.offsetIndex_lowRate (latency - v) (k := -1) (by omega) (by omega)
    rw [Int.mul_neg, Int.mul_one, hlowRate] at hindex
    rw [incrementLowRateReadIndices, hlowRate, Ring.updateReadIndex, hindex]
    rfl
  · refine { h with lowRate := ⟨v, ?_⟩ }
    rw [show latency - v - 1 = latency - 1 - v by omega]

omit h

end Rings

/-! ## What holds between calls -/

/-- The members that the delays depend on. -/
def core (s : RenderDelayBuffer) :
    Config × Int × Ring × Ring × Ring × Ring × Int × Option Nat × Option Int × Bool :=
  (s.config, s.subBlockSize, s.blocks, s.spectra, s.ffts, s.lowRate, s.bufferHeadroom, s.delay,
    s.externalAudioBufferDelay, s.clamped)

def Keeps (s s' : RenderDelayBuffer) : Prop := s'.core = s.core

section Keeps

variable (s : RenderDelayBuffer)

theorem clearCounters_keeps : Keeps s s.clearCounters := rfl

theorem countCall_keeps (render : Bool) : Keeps s (s.countCall render) := by
  unfold countCall
  split
  · rfl
  · split <;> rfl

theorem detectActivity_keeps (active : Bool) : Keeps s (s.detectActivity active) := by
  unfold detectActivity
  split <;> rfl

theorem detectExcessRenderBlocks_keeps : Keeps s s.detectExcessRenderBlocks.2 := by
  unfold detectExcessRenderBlocks
  dsimp only
  split <;> rfl

theorem passActivity_keeps : Keeps s s.passActivity := by
  unfold passActivity
  dsimp only
  split <;> rfl

theorem verifyExternalDelay_keeps : Keeps s s.verifyExternalDelay := by
  unfold verifyExternalDelay
  split <;> rfl

theorem handleSkippedCaptureProcessing_keeps : Keeps s s.handleSkippedCaptureProcessing := by
  unfold handleSkippedCaptureProcessing
  split <;> rfl

end Keeps

theorem Keeps.rings {s s' : RenderDelayBuffer} {n internal latency : Int} (h : Keeps s s')
    (hrings : Rings n s internal latency) : Rings n s' internal latency := by
  cases s
  cases s'
  obtain ⟨rfl, rfl, rfl, rfl, rfl, rfl, rfl, -, rfl, -⟩ := h
  exact { hrings with }

/-- The readers are less than a turn behind, and `delay_`, if it is set and was not
clamped, is the total delay less the latency. -/
structure Sound (n : Int) (s : RenderDelayBuffer) (internal latency : Int) : Prop where
  rings : Rings n s internal latency
  internal_nonneg : 0 ≤ internal
  internal_lt : internal < s.blocks.size
  latency_nonneg : 0 ≤ latency
  latency_lt : latency < n
  delay_lt : ∀ delay, s.delay = some delay → delay < 2 ^ 30
  honest : s.clamped = false → ∀ delay, s.delay = some delay → (delay : Int) = internal - latency

/-- The buffer is sound for some delays. -/
def Settled (n : Int) (s : RenderDelayBuffer) : Prop :=
  ∃ internal latency, Sound n s internal latency

section Sound

variable {n internal latency : Int} {s : RenderDelayBuffer}

theorem Keeps.sound {s' : RenderDelayBuffer} (h : Keeps s s')
    (hsound : Sound n s internal latency) : Sound n s' internal latency := by
  have hrings := h.rings hsound.rings
  cases s
  cases s'
  obtain ⟨-, -, rfl, -, -, -, -, rfl, -, rfl⟩ := h
  exact { hsound with rings := hrings }

theorem Keeps.settled {s' : RenderDelayBuffer} (h : Keeps s s') (hsettled : Settled n s) :
    Settled n s' := by
  obtain ⟨internal, latency, hsound⟩ := hsettled
  exact ⟨internal, latency, h.sound hsound⟩

theorem resetLowRate_rings (h : Rings n s internal latency) :
    ∃ lowRate, s.lowRate.alignRead s.subBlockSize = some lowRate ∧
      Rings n { s with lowRate } internal 1 := by
  obtain ⟨v, hlowRate⟩ := h.lowRate
  have hn := h.two_le
  refine ⟨⟨s.subBlockSize * n, s.subBlockSize * (-v % n), s.subBlockSize * ((1 - v) % n)⟩, ?_, ?_⟩
  · have hindex := h.offsetIndex_lowRate (-v) (k := 1) (by omega) (by omega)
    rw [Int.mul_one, hlowRate, show -v + 1 = 1 - v by omega] at hindex
    rw [hlowRate, Ring.alignRead, hindex]
    rfl
  · exact { h with lowRate := ⟨v, rfl⟩ }

theorem reset_settled (h : Rings n s internal latency) :
    ∃ s', s.reset = some s' ∧ Settled n s' := by
  obtain ⟨lowRate, halign, hrings⟩ := resetLowRate_rings ((clearCounters_keeps s).rings h)
  have hn := h.two_le
  have hheadroom := h.headroom_pos
  rw [reset, halign, bind_eq_bind, bind_some]
  dsimp only
  split
  case h_1 external hsome =>
    have hlt := h.external_lt external hsome
    have hwanted : 1 ≤ audioBufferDelayToSet external ∧
        audioBufferDelayToSet external < 2 ^ 30 := by
      unfold audioBufferDelayToSet
      split <;> omega
    have hmax : { s.clearCounters with lowRate }.maxDelay = n := hrings.maxDelay_eq
    rw [hmax]
    obtain ⟨blocks, spectra, ffts, happly, hrings'⟩ := applyTotalDelay_rings hrings
      (min (audioBufferDelayToSet external) n) (by omega) (by omega)
    have hcompute := hrings'.computeDelay_eq
    have hblocks : blocks.size = n + s.bufferHeadroom + 1 := hrings'.size
    rw [happly]
    refine ⟨_, rfl, min (audioBufferDelayToSet external) n, 1, ?_⟩
    rw [Int.emod_eq_of_lt (by omega) (by dsimp only; omega),
      Int.emod_eq_of_lt (by omega) (by omega)] at hcompute
    have hset := sizeOfInt_of_nonneg
      (by omega : 0 ≤ min (audioBufferDelayToSet external) n - 1) (by omega)
    refine ⟨{ hrings' with }, by omega, by show _ < blocks.size; omega, by omega, by omega, ?_, ?_⟩
    · intro delay hdelay
      rw [hcompute, some.injEq] at hdelay
      omega
    · intro _ delay hdelay
      rw [hcompute, some.injEq] at hdelay
      omega
  case h_2 hnone =>
    obtain ⟨blocks, spectra, ffts, happly, hrings'⟩ := applyTotalDelay_rings hrings
      s.clearCounters.config.defaultDelay (by omega) h.default_le
    have hblocks : blocks.size = n + s.bufferHeadroom + 1 := hrings'.size
    have hdefault := h.default_le
    rw [happly]
    refine ⟨_, rfl, s.config.defaultDelay, 1, ?_⟩
    refine ⟨{ hrings' with }, by omega, by show _ < blocks.size; omega, by omega, by omega, ?_, ?_⟩
    · intro delay hdelay
      cases hdelay
    · intro _ delay hdelay
      cases hdelay

end Sound

section Calls

variable {n internal latency : Int} {s : RenderDelayBuffer}

theorem renderOverrun_iff (h : Rings n s internal latency) :
    s.renderOverrun = true ↔ latency % n = 0 ∨ internal % s.blocks.size = 0 := by
  rw [renderOverrun, Bool.or_eq_true, decide_eq_true_eq, decide_eq_true_eq,
    h.lowRate_meet_iff, h.blocks_meet_iff]

theorem insert_settled (active : Bool) (h : Settled n s) :
    ∃ event s', s.insert active = some (event, s') ∧ Settled n s' := by
  obtain ⟨internal, latency, hsound⟩ := h
  have hcounted :
      Keeps s (countCall { s with renderCallCounter := s.renderCallCounter + 1 } true) :=
    countCall_keeps _ true
  rw [insert]
  generalize countCall { s with renderCallCounter := s.renderCallCounter + 1 } true = s₁ at hcounted
  obtain ⟨hrings₁, hlow, hinternal, hlow', hlatency, hdelay, hhonest⟩ := hcounted.sound hsound
  obtain ⟨lowRate, blocks, spectra, ffts, hincrement, hrings⟩ := incrementWriteIndices_rings hrings₁
  have hblocks : blocks.size = s₁.blocks.size := hrings.size.trans hrings₁.size.symm
  have hkeeps := detectActivity_keeps { s₁ with lowRate, blocks, spectra, ffts } active
  rw [hincrement, bind_eq_bind, bind_some]
  by_cases hover : renderOverrun { s₁ with lowRate, blocks, spectra, ffts } = true
  · obtain ⟨s', hs', hsettled⟩ := reset_settled (hkeeps.rings hrings)
    refine ⟨.kRenderOverrun, s', ?_, hsettled⟩
    rw [if_pos hover, if_pos (by decide), hs']
    rfl
  · refine ⟨.kNone, _, ?_, hkeeps.settled ⟨internal + 1, latency + 1, ?_⟩⟩
    · rw [if_neg hover]
      rfl
    · rw [renderOverrun_iff hrings, emod_eq_zero_iff (by omega) (by omega),
        emod_eq_zero_iff (by omega) (by dsimp only; omega)] at hover
      dsimp only at hover
      refine ⟨hrings, by omega, by dsimp only; omega, by omega, by omega, hdelay, ?_⟩
      intro hclamped delay hsome
      have heq := hhonest hclamped delay hsome
      omega

theorem underrun_settled (h : Sound n s internal 0) :
    Settled n s.incrementReadIndices.reduceDelay := by
  obtain ⟨hrings₁, hlow, hhigh, -, hpos, hdelay_lt, hhonest⟩ := h
  obtain ⟨blocks, spectra, ffts, hread, hrings⟩ := incrementReadIndices_rings hrings₁ hlow hhigh
  have hsize : blocks.size = s.blocks.size := hrings.size.trans hrings₁.size.symm
  refine ⟨max (internal - 1) 0, 0, ?_⟩
  rw [hread, reduceDelay]
  split
  case h_1 delay hdelay =>
    split
    case isTrue =>
      have hlt := hdelay_lt delay hdelay
      refine ⟨{ hrings with }, by omega, by dsimp only; omega, by omega, hpos, ?_, ?_⟩
      · intro delay' hdelay'
        cases hdelay'
        omega
      · intro hclamped delay' hdelay'
        have heq := hhonest hclamped delay hdelay
        cases hdelay'
        omega
    case isFalse =>
      refine ⟨hrings, by omega, by dsimp only; omega, by omega, hpos, hdelay_lt, ?_⟩
      intro hclamped delay' hdelay'
      have heq := hhonest hclamped delay hdelay
      cases hdelay.symm.trans hdelay'
      omega
  case h_2 hnone =>
    refine ⟨hrings, by omega, by dsimp only; omega, by omega, hpos, hdelay_lt, ?_⟩
    intro _ delay hdelay
    cases hnone.symm.trans hdelay

theorem advance_settled (h : Sound n s internal latency) (hpos : 0 < latency) :
    ∃ s', s.incrementLowRateReadIndices = some s' ∧ Settled n s'.incrementReadIndices := by
  obtain ⟨hrings₁, hlow, hhigh, -, hlatency, hdelay_lt, hhonest⟩ := h
  obtain ⟨lowRate, hincrement, hrings⟩ := incrementLowRateReadIndices_rings hrings₁
  obtain ⟨blocks, spectra, ffts, hread, hrings'⟩ := incrementReadIndices_rings hrings hlow hhigh
  have hsize : blocks.size = s.blocks.size := hrings'.size.trans hrings₁.size.symm
  refine ⟨_, hincrement, max (internal - 1) 0, latency - 1, ?_⟩
  rw [hread]
  refine ⟨hrings', by omega, by dsimp only; omega, by omega, by omega, hdelay_lt, ?_⟩
  intro hclamped delay hdelay
  have heq := hhonest hclamped delay hdelay
  omega

theorem prepareCapture_settled (h : Settled n s) :
    ∃ event s', s.prepareCaptureProcessing = some (event, s') ∧ Settled n s' := by
  obtain ⟨internal, latency, hsound⟩ := h
  have hcounted :
      Keeps s (countCall { s with captureCallCounter := s.captureCallCounter + 1 } false) :=
    countCall_keeps _ false
  rw [prepareCaptureProcessing]
  generalize countCall { s with captureCallCounter := s.captureCallCounter + 1 } false = s₁
    at hcounted
  have hdetected := (detectExcessRenderBlocks_keeps s₁).sound (hcounted.sound hsound)
  generalize s₁.detectExcessRenderBlocks = detected at hdetected
  obtain ⟨excess, s₂⟩ := detected
  dsimp only at hdetected ⊢
  cases excess with
  | true =>
    obtain ⟨s', hs', hsettled⟩ := reset_settled hdetected.rings
    refine ⟨.kRenderOverrun, s'.passActivity, ?_, (passActivity_keeps s').settled hsettled⟩
    rw [hs']
    rfl
  | false =>
    rw [if_neg (by decide)]
    have hunderrun : s₂.renderUnderrun = true ↔ latency = 0 := by
      have hmeet := hdetected.rings.lowRate_meet_iff
      rw [Int.emod_eq_of_lt hdetected.latency_nonneg hdetected.latency_lt] at hmeet
      rw [renderUnderrun, decide_eq_true_eq, hmeet]
    by_cases hzero : latency = 0
    · subst hzero
      refine ⟨.kRenderUnderrun, _, ?_, (passActivity_keeps _).settled (underrun_settled hdetected)⟩
      rw [if_pos (hunderrun.2 rfl)]
    · have hnonneg := hdetected.latency_nonneg
      obtain ⟨s', hs', hsettled⟩ := advance_settled hdetected (by omega)
      refine ⟨.kNone, _, ?_, (passActivity_keeps _).settled hsettled⟩
      rw [if_neg fun hunder => hzero (hunderrun.1 hunder), hs']
      rfl

theorem alignFromDelay_settled {delay : Nat} (hdelay : delay < 2 ^ 30) (h : Settled n s) :
    ∃ changed s', s.alignFromDelay delay = some (changed, s') ∧ Settled n s' := by
  obtain ⟨internal, latency, hsound⟩ := (verifyExternalDelay_keeps s).settled h
  rw [alignFromDelay]
  generalize s.verifyExternalDelay = s₁ at hsound
  dsimp only
  split
  case isTrue => exact ⟨false, s₁, rfl, internal, latency, hsound⟩
  case isFalse =>
    have hrings : Rings n { s₁ with delay := some delay } internal latency :=
      { hsound.rings with }
    have hlow := hsound.latency_nonneg
    have hhigh := hsound.latency_lt
    have htotal : mapDelayToTotalDelay { s₁ with delay := some delay } delay = latency + delay := by
      rw [mapDelayToTotalDelay, hrings.bufferLatency_eq, Int.emod_eq_of_lt hlow hhigh,
        intOfSize_of_lt (by omega)]
    rw [htotal, hrings.maxDelay_eq]
    obtain ⟨blocks, spectra, ffts, happly, hrings'⟩ :=
      applyTotalDelay_rings hrings (min n (max (latency + delay) 0)) (by omega) (by omega)
    have hsize : blocks.size = n + s₁.bufferHeadroom + 1 := hrings'.size
    have hheadroom := hsound.rings.headroom_pos
    have hmax := hrings'.maxDelay_eq
    rw [happly]
    refine ⟨true, _, rfl, min n (max (latency + delay) 0), latency, ?_⟩
    refine ⟨{ hrings' with }, by omega, by dsimp only; omega, hlow, hhigh, ?_, ?_⟩
    · intro delay' hdelay'
      cases hdelay'
      exact hdelay
    · intro hclamped delay' hdelay'
      rw [decide_eq_false_iff_not] at hclamped
      cases hdelay'
      omega

theorem setAudioBufferDelay_settled {delayMs : Int} (hdelay : InInt delayMs) (h : Settled n s) :
    Settled n (s.setAudioBufferDelay delayMs) := by
  obtain ⟨internal, latency, hsound⟩ := h
  refine ⟨internal, latency, { hsound with rings := { hsound.rings with external_lt := ?_ } }⟩
  intro external hexternal
  cases hexternal
  have hhigh := hdelay.2
  rw [Int.tdiv_eq_ediv]
  split
  · omega
  · rw [show Int.sign 4 = 1 from rfl]
    omega

end Calls

/-- The calls that a client may make: a delay in milliseconds is an `int`, and a delay
in blocks is below `2 ^ 30`. -/
def Allowed : Call → Prop
  | .setAudioBufferDelay delayMs => InInt delayMs
  | .alignFromDelay delay => delay < 2 ^ 30
  | _ => True

theorem step_settled {n : Int} {s : RenderDelayBuffer} {call : Call} (h : s.Settled n)
    (hcall : Allowed call) : ∃ answer s', step s call = some (answer, s') ∧ s'.Settled n := by
  cases call with
  | insert active =>
    obtain ⟨event, s', hs', hsettled⟩ := insert_settled active h
    exact ⟨_, s', by rw [step, hs']; rfl, hsettled⟩
  | prepareCaptureProcessing =>
    obtain ⟨event, s', hs', hsettled⟩ := prepareCapture_settled h
    exact ⟨_, s', by rw [step, hs']; rfl, hsettled⟩
  | handleSkippedCaptureProcessing =>
    exact ⟨_, _, rfl, (handleSkippedCaptureProcessing_keeps s).settled h⟩
  | setAudioBufferDelay delayMs =>
    exact ⟨_, _, rfl, setAudioBufferDelay_settled hcall h⟩
  | reset =>
    obtain ⟨internal, latency, hsound⟩ := h
    obtain ⟨s', hs', hsettled⟩ := reset_settled hsound.rings
    exact ⟨_, s', by rw [step, hs']; rfl, hsettled⟩
  | alignFromDelay delay =>
    obtain ⟨changed, s', hs', hsettled⟩ := alignFromDelay_settled hcall h
    exact ⟨_, s', by rw [step, hs']; rfl, hsettled⟩

/-- `MaxDelay()` of a configuration. -/
def Config.maxDelay (config : Config) : Nat :=
  getRenderDelayBufferSize config.downSamplingFactor config.numFilters config.lengthBlocks - 1 -
    config.lengthBlocks

theorem create_settled (config : Config) (update : Bool) (hfactor : config.downSamplingFactor ∣ 64)
    (hlength : 1 ≤ config.lengthBlocks) (hdefault : config.defaultDelay ≤ config.maxDelay) :
    ∃ s, create config update = some s ∧ s.Settled (24 * config.numFilters + 33) := by
  have hfactorPos : 0 < config.downSamplingFactor := Nat.pos_of_dvd_of_pos hfactor (by decide)
  have hsub : 0 < 64 / config.downSamplingFactor :=
    Nat.div_pos (Nat.le_of_dvd (by decide) hfactor) hfactorPos
  have hlow : getDownSampledBufferSize config.downSamplingFactor config.numFilters =
      64 / config.downSamplingFactor * (24 * config.numFilters + 33) := rfl
  have hsize : getRenderDelayBufferSize config.downSamplingFactor config.numFilters
      config.lengthBlocks = 24 * config.numFilters + 33 + config.lengthBlocks + 1 := by
    rw [getRenderDelayBufferSize, hlow, Nat.mul_div_cancel_left _ hsub]
  have hmax : config.maxDelay = 24 * config.numFilters + 33 := by
    rw [Config.maxDelay]
    omega
  unfold create
  rw [if_pos hfactorPos]
  refine @reset_settled _ 0 0 _ ⟨by omega, Int.natCast_pos.2 hsub,
    by dsimp only; omega, by dsimp only; omega, by dsimp only; omega, ?_, ⟨0, ?_, ?_, ?_⟩, rfl,
    ⟨0, ?_⟩⟩
  · intro external hexternal
    cases hexternal
  · exact (Int.zero_emod _).symm
  · exact (Int.zero_emod _).symm
  · rw [Int.neg_zero, Int.sub_zero, Int.zero_emod]
  · rfl

/-- All indices are in range, the rings are aligned with one another, and the low-rate
ring is at a whole sub-block. -/
structure Aligned (s : RenderDelayBuffer) : Prop where
  blocks : InRange s.blocks.size s.blocks.write ∧ InRange s.blocks.size s.blocks.read
  spectra : InRange s.spectra.size s.spectra.write ∧ InRange s.spectra.size s.spectra.read
  ffts : InRange s.ffts.size s.ffts.write ∧ InRange s.ffts.size s.ffts.read
  lowRate : InRange s.lowRate.size s.lowRate.write ∧ InRange s.lowRate.size s.lowRate.read
  subBlocks : s.subBlockSize ∣ s.lowRate.write ∧ s.subBlockSize ∣ s.lowRate.read
  transforms : s.ffts.write = s.spectra.write ∧ s.ffts.read = s.spectra.read
  mirrored : s.blocks.size ∣ s.blocks.write + s.spectra.write ∧
    s.blocks.size ∣ s.blocks.read + s.spectra.read

theorem mirror_dvd {size : Int} (x : Int) : size ∣ x % size + -x % size := by
  apply Int.dvd_of_emod_eq_zero
  rw [← Int.add_emod, Int.add_right_neg, Int.zero_emod]

theorem Rings.aligned {n internal latency : Int} {s : RenderDelayBuffer}
    (h : Rings n s internal latency) : Aligned s := by
  have hpos := h.size_pos
  have hsub := h.subBlock_pos
  have hn := h.two_le
  obtain ⟨w, hwrite, hread, hspectra⟩ := h.blocks
  obtain ⟨v, hlowRate⟩ := h.lowRate
  have hrange : ∀ x, InRange (s.subBlockSize * n) (s.subBlockSize * (x % n)) := by
    intro x
    have hx := inRange_emod (n := n) (by omega) x
    exact ⟨Int.mul_nonneg (Int.le_of_lt hsub) hx.1, Int.mul_lt_mul_of_pos_left hx.2 hsub⟩
  refine ⟨?_, ?_, ?_, ?_, ?_, ?_, ?_⟩
  · rw [hwrite, hread]
    exact ⟨inRange_emod hpos _, inRange_emod hpos _⟩
  · rw [hspectra]
    exact ⟨inRange_emod hpos _, inRange_emod hpos _⟩
  · rw [h.ffts, hspectra]
    exact ⟨inRange_emod hpos _, inRange_emod hpos _⟩
  · rw [hlowRate]
    exact ⟨hrange _, hrange _⟩
  · rw [hlowRate]
    exact ⟨Int.dvd_mul_right _ _, Int.dvd_mul_right _ _⟩
  · rw [h.ffts]
    exact ⟨rfl, rfl⟩
  · rw [hwrite, hread, hspectra]
    refine ⟨mirror_dvd w, ?_⟩
    rw [show internal - w = -(w - internal) by omega]
    exact mirror_dvd _

/-- **Alignment and delay.**  For every configuration with a down-sampling factor that
divides the block size and any sequence of calls no check fails, the rings stay aligned,
and `Delay()` is `delay_` whenever that is set and was not clamped. -/
theorem renderDelayBuffer_aligned (config : Config) (update : Bool)
    (hfactor : config.downSamplingFactor ∣ 64) (hlength : 1 ≤ config.lengthBlocks)
    (hdefault : config.defaultDelay ≤ config.maxDelay) (calls : List Call)
    (hcalls : ∀ call ∈ calls, Allowed call) :
    ∃ s answers s', create config update = some s ∧ runM step s calls = some (answers, s') ∧
      Aligned s' ∧
      (s'.clamped = false → ∀ delay, s'.delay = some delay → s'.delayBlocks = delay) := by
  obtain ⟨s, hs, hsettled⟩ := create_settled config update hfactor hlength hdefault
  obtain ⟨answers, s', hrun, internal, latency, hsound⟩ :=
    runM_keeps (fun _ _ => step_settled) calls hsettled hcalls
  refine ⟨s, answers, s', hs, hrun, hsound.rings.aligned, ?_⟩
  intro hclamped delay hdelay
  have hhonest := hsound.honest hclamped delay hdelay
  have hcompute := hsound.rings.computeDelay_eq
  rw [Int.emod_eq_of_lt hsound.internal_nonneg hsound.internal_lt,
    Int.emod_eq_of_lt hsound.latency_nonneg hsound.latency_lt, ← hhonest] at hcompute
  have hlt := hsound.delay_lt delay hdelay
  rw [delayBlocks, hcompute, sizeOfInt_of_nonneg (by omega) (by omega), Int.toNat_natCast]

/-- The default configuration: a reported delay, a reset, an alignment and an underrun. -/
theorem renderDelayBuffer_aligned_default :
    ∃ s answers s', create ⟨4, 5, 13, 5, 250, 8⟩ true = some s ∧
      runM step s [.setAudioBufferDelay 100, .reset, .insert true, .alignFromDelay 7,
        .prepareCaptureProcessing, .prepareCaptureProcessing, .prepareCaptureProcessing] =
          some (answers, s') ∧
      Aligned s' ∧
      (s'.clamped = false → ∀ delay, s'.delay = some delay → s'.delayBlocks = delay) := by
  apply renderDelayBuffer_aligned
  · decide
  · decide
  · decide
  · simp only [List.mem_cons, List.not_mem_nil, or_false]
    rintro call (rfl | rfl | rfl | rfl | rfl | rfl | rfl) <;> simp [Allowed, InInt]

example : (create ⟨4, 5, 13, 5, 250, 8⟩ true).bind (fun s => (runM step s
      [.setAudioBufferDelay 100, .reset, .insert true, .alignFromDelay 7,
        .prepareCaptureProcessing, .prepareCaptureProcessing, .prepareCaptureProcessing]).map
      fun r => (r.2.delay, r.2.delayBlocks, r.2.clamped)) = some (some 6, 6, false) := by
  decide +kernel

end RenderDelayBuffer

end WebrtcCore.Ports
