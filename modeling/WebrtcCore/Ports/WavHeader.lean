import Mathlib.Data.Option.Basic
import Mathlib.Tactic.MkIffOfInductiveProp
import WebrtcCore.Verified.Bytes
import WebrtcCore.Verified.CMemory

/-!
# WAV headers

Port of `common_audio/wav_header.cc`: the two layouts of `WriteWavHeader`, the chunk-by-chunk
`ReadWavHeader`, and the check of the parameters both of them make.  The packed structures are
records of fixed-width fields with the bytes they occupy on little-endian platforms.  Values of
type `size_t` are natural numbers, with the wrap-around of products and sums written out.

`Serves` is what a `WavHeaderReader` has to do: to hand out the bytes in front of it and to pass
over them.  A step that takes a fixed word off such a reader is a `Passes` statement, and these
compose.
-/

namespace WebrtcCore.Ports.WavHeader

open Verified Bytes CMemory List

/-! ## The structures -/

structure ChunkHeader where
  id : UInt32
  size : UInt32
deriving DecidableEq, Repr

structure RiffHeader where
  header : ChunkHeader
  format : UInt32
deriving DecidableEq, Repr

structure FmtPcmSubchunk where
  header : ChunkHeader
  audioFormat : UInt16
  numChannels : UInt16
  sampleRate : UInt32
  byteRate : UInt32
  blockAlign : UInt16
  bitsPerSample : UInt16
deriving DecidableEq, Repr

structure FmtIeeeFloatSubchunk extends FmtPcmSubchunk where
  extensionSize : UInt16
deriving DecidableEq, Repr

structure WavHeaderPcm where
  riff : RiffHeader
  fmt : FmtPcmSubchunk
  data : ChunkHeader
deriving DecidableEq, Repr

structure WavHeaderIeeeFloat where
  riff : RiffHeader
  fmt : FmtIeeeFloatSubchunk
  fact : ChunkHeader
  sampleLength : UInt32
  data : ChunkHeader
deriving DecidableEq, Repr

def kChunkHeaderSize : Nat := 8
def kRiffHeaderSize : Nat := 12
def kFmtPcmSubchunkSize : Nat := 16
def kFmtIeeeFloatSubchunkSize : Nat := 18
def kPcmWavHeaderSize : Nat := 44
def kIeeeFloatWavHeaderSize : Nat := 58

namespace ChunkHeader

def bytes (h : ChunkHeader) : List UInt8 := bytesLE 4 h.id.toNat ++ bytesLE 4 h.size.toNat

def ofBytes (bs : List UInt8) : ChunkHeader :=
  ⟨UInt32.ofNat (fieldLE bs 0 4), UInt32.ofNat (fieldLE bs 4 4)⟩

@[simp] theorem bytes_length (h : ChunkHeader) : h.bytes.length = kChunkHeaderSize := by
  simp [bytes, kChunkHeaderSize]

@[simp] theorem ofBytes_bytes (h : ChunkHeader) : ofBytes h.bytes = h := by
  simp [ofBytes, bytes, fieldLE_append_left, fieldLE_append_right]

end ChunkHeader

namespace RiffHeader

def bytes (h : RiffHeader) : List UInt8 := h.header.bytes ++ bytesLE 4 h.format.toNat

def ofBytes (bs : List UInt8) : RiffHeader :=
  ⟨ChunkHeader.ofBytes (bs.take kChunkHeaderSize), UInt32.ofNat (fieldLE bs 8 4)⟩

@[simp] theorem bytes_length (h : RiffHeader) : h.bytes.length = kRiffHeaderSize := by
  simp [bytes, kChunkHeaderSize, kRiffHeaderSize]

@[simp] theorem ofBytes_bytes (h : RiffHeader) : ofBytes h.bytes = h := by
  have htake : h.bytes.take kChunkHeaderSize = h.header.bytes := take_left' h.header.bytes_length
  rw [ofBytes, htake, bytes]
  simp [fieldLE_append_right, kChunkHeaderSize]

end RiffHeader

namespace FmtPcmSubchunk

/-- The members after `header`, which `ReadFmtChunkData` reads in one go. -/
def payload (f : FmtPcmSubchunk) : List UInt8 :=
  bytesLE 2 f.audioFormat.toNat ++ (bytesLE 2 f.numChannels.toNat ++
    (bytesLE 4 f.sampleRate.toNat ++ (bytesLE 4 f.byteRate.toNat ++
      (bytesLE 2 f.blockAlign.toNat ++ bytesLE 2 f.bitsPerSample.toNat))))

def bytes (f : FmtPcmSubchunk) : List UInt8 := f.header.bytes ++ f.payload

def ofPayload (header : ChunkHeader) (bs : List UInt8) : FmtPcmSubchunk :=
  { header
    audioFormat := UInt16.ofNat (fieldLE bs 0 2)
    numChannels := UInt16.ofNat (fieldLE bs 2 2)
    sampleRate := UInt32.ofNat (fieldLE bs 4 4)
    byteRate := UInt32.ofNat (fieldLE bs 8 4)
    blockAlign := UInt16.ofNat (fieldLE bs 12 2)
    bitsPerSample := UInt16.ofNat (fieldLE bs 14 2) }

@[simp] theorem payload_length (f : FmtPcmSubchunk) : f.payload.length = kFmtPcmSubchunkSize := by
  simp [payload, kFmtPcmSubchunkSize]

@[simp] theorem ofPayload_payload (f : FmtPcmSubchunk) : ofPayload f.header f.payload = f := by
  simp [ofPayload, payload, fieldLE_append_left, fieldLE_append_right]

end FmtPcmSubchunk

def FmtIeeeFloatSubchunk.bytes (f : FmtIeeeFloatSubchunk) : List UInt8 :=
  f.toFmtPcmSubchunk.bytes ++ bytesLE 2 f.extensionSize.toNat

def WavHeaderPcm.bytes (h : WavHeaderPcm) : List UInt8 :=
  h.riff.bytes ++ (h.fmt.bytes ++ h.data.bytes)

def WavHeaderIeeeFloat.bytes (h : WavHeaderIeeeFloat) : List UInt8 :=
  h.riff.bytes ++ (h.fmt.bytes ++
    (h.fact.bytes ++ (bytesLE 4 h.sampleLength.toNat ++ h.data.bytes)))

theorem WavHeaderPcm.bytes_length (h : WavHeaderPcm) : h.bytes.length = kPcmWavHeaderSize := by
  simp [bytes, FmtPcmSubchunk.bytes, kRiffHeaderSize, kChunkHeaderSize, kFmtPcmSubchunkSize,
    kPcmWavHeaderSize]

theorem WavHeaderIeeeFloat.bytes_length (h : WavHeaderIeeeFloat) :
    h.bytes.length = kIeeeFloatWavHeaderSize := by
  simp [bytes, FmtIeeeFloatSubchunk.bytes, FmtPcmSubchunk.bytes, kRiffHeaderSize,
    kChunkHeaderSize, kFmtPcmSubchunkSize, kIeeeFloatWavHeaderSize]

/-! ## Fields -/

inductive WavFormat
  | pcm
  | ieeeFloat
  | aLaw
  | muLaw
deriving DecidableEq, Repr

def packFourCC (a b c d : Char) : UInt32 :=
  a.val ||| (b.val <<< 8) ||| (c.val <<< 16) ||| (d.val <<< 24)

/-- `ReadFourCC`: the four bytes of the word as they lie in memory. -/
def readFourCC (x : UInt32) : List UInt8 := bytesLE 4 x.toNat

/-- The characters of a four-character text. -/
def chars (a b c d : Char) : List UInt8 := [a.toUInt8, b.toUInt8, c.toUInt8, d.toUInt8]

def mapWavFormatToHeaderField : WavFormat → UInt16
  | .pcm => 1
  | .ieeeFloat => 3
  | .aLaw => 6
  | .muLaw => 7

/-- `MapHeaderFieldToWavFormat`; any other value fails an `RTC_CHECK`. -/
def mapHeaderFieldToWavFormat (formatHeaderValue : UInt16) : Option WavFormat :=
  if formatHeaderValue = 1 then some .pcm
  else if formatHeaderValue = 3 then some .ieeeFloat
  else none

def riffChunkSize (bytesInPayload headerSize : Nat) : UInt32 :=
  UInt32.ofNat (sizeSub (sizeAdd bytesInPayload headerSize) kChunkHeaderSize)

def byteRate (numChannels : Nat) (sampleRate : Int32) (bytesPerSample : Nat) : UInt32 :=
  UInt32.ofNat (sizeMul (sizeMul numChannels (sizeOfInt sampleRate.toInt)) bytesPerSample)

def blockAlign (numChannels bytesPerSample : Nat) : UInt16 :=
  UInt16.ofNat (sizeMul numChannels bytesPerSample)

def getFormatBytesPerSample : WavFormat → Nat
  | .pcm => 2
  | .aLaw => 1
  | .muLaw => 1
  | .ieeeFloat => 4

/-- The `switch` of `CheckWavParameters`. -/
def formatAgrees (bytesPerSample : Nat) : WavFormat → Bool
  | .pcm => bytesPerSample = 1 || bytesPerSample = 2
  | .aLaw => bytesPerSample = 1
  | .muLaw => bytesPerSample = 1
  | .ieeeFloat => bytesPerSample = 4

/-- `CheckWavParameters` with the number of bytes of a sample.  The size of the
header is that of the PCM layout for every format. -/
def checkWavParametersOf (numChannels : Nat) (sampleRate : Int32) (format : WavFormat)
    (bytesPerSample numSamples : Nat) : Bool :=
  if numChannels = 0 ∨ sampleRate.toInt ≤ 0 ∨ bytesPerSample = 0 then false
  else if sizeOfInt sampleRate.toInt > 2 ^ 32 - 1 then false
  else if numChannels > 2 ^ 16 - 1 then false
  else if sizeMul bytesPerSample 8 > 2 ^ 16 - 1 then false
  else if sizeMul (sizeMul (sizeOfInt sampleRate.toInt) numChannels) bytesPerSample
      > 2 ^ 32 - 1 then false
  else if formatAgrees bytesPerSample format = false then false
  else
    let headerSize := kPcmWavHeaderSize - kChunkHeaderSize
    let maxSamples := (2 ^ 32 - 1 - headerSize) / bytesPerSample
    if numSamples > maxSamples then false
    else if numSamples % numChannels ≠ 0 then false
    else true

/-- The exported `CheckWavParameters`. -/
def checkWavParameters (numChannels : Nat) (sampleRate : Int32) (format : WavFormat)
    (numSamples : Nat) : Bool :=
  checkWavParametersOf numChannels sampleRate format (getFormatBytesPerSample format) numSamples

/-! ## Writing -/

/-- The subchunk both layouts start with; they differ in its size. -/
def fmtSubchunk (size : Nat) (format : WavFormat) (numChannels : Nat) (sampleRate : Int32)
    (bytesPerSample : Nat) : FmtPcmSubchunk :=
  { header := ⟨packFourCC 'f' 'm' 't' ' ', UInt32.ofNat size⟩
    audioFormat := mapWavFormatToHeaderField format
    numChannels := UInt16.ofNat numChannels
    sampleRate := sampleRate.toUInt32
    byteRate := byteRate numChannels sampleRate bytesPerSample
    blockAlign := blockAlign numChannels bytesPerSample
    bitsPerSample := UInt16.ofNat (sizeMul 8 bytesPerSample) }

def riffHeader (bytesInPayload headerSize : Nat) : RiffHeader :=
  ⟨⟨packFourCC 'R' 'I' 'F' 'F', riffChunkSize bytesInPayload headerSize⟩,
    packFourCC 'W' 'A' 'V' 'E'⟩

def dataHeader (bytesInPayload : Nat) : ChunkHeader :=
  ⟨packFourCC 'd' 'a' 't' 'a', UInt32.ofNat bytesInPayload⟩

/-- `WritePcmWavHeader`: the bytes stored in `buf` and `*header_size`. -/
def writePcmWavHeader (numChannels : Nat) (sampleRate : Int32)
    (bytesPerSample numSamples : Nat) : List UInt8 × Nat :=
  let headerSize := kPcmWavHeaderSize
  let bytesInPayload := sizeMul bytesPerSample numSamples
  let header : WavHeaderPcm :=
    { riff := riffHeader bytesInPayload headerSize
      fmt := fmtSubchunk kFmtPcmSubchunkSize .pcm numChannels sampleRate bytesPerSample
      data := dataHeader bytesInPayload }
  (header.bytes, headerSize)

def writeIeeeFloatWavHeader (numChannels : Nat) (sampleRate : Int32)
    (bytesPerSample numSamples : Nat) : List UInt8 × Nat :=
  let headerSize := kIeeeFloatWavHeaderSize
  let bytesInPayload := sizeMul bytesPerSample numSamples
  let header : WavHeaderIeeeFloat :=
    { riff := riffHeader bytesInPayload headerSize
      fmt :=
        { fmtSubchunk kFmtIeeeFloatSubchunkSize .ieeeFloat numChannels sampleRate
            bytesPerSample with extensionSize := 0 }
      fact := ⟨packFourCC 'f' 'a' 'c' 't', 4⟩
      sampleLength := UInt32.ofNat (sizeMul numChannels numSamples)
      data := dataHeader bytesInPayload }
  (header.bytes, headerSize)

/-- `WriteWavHeader`; `none` is a failed `RTC_CHECK`. -/
def writeWavHeader (numChannels : Nat) (sampleRate : Int32) (format : WavFormat)
    (numSamples : Nat) : Option (List UInt8 × Nat) :=
  let bytesPerSample := getFormatBytesPerSample format
  if checkWavParametersOf numChannels sampleRate format bytesPerSample numSamples then
    match format with
    | .pcm => some (writePcmWavHeader numChannels sampleRate bytesPerSample numSamples)
    | .ieeeFloat =>
      some (writeIeeeFloatWavHeader numChannels sampleRate bytesPerSample numSamples)
    | _ => none
  else none

/-! ## Reading -/

/-- `WavHeaderReader`: the bytes `Read` stores (it returns their number), the
result of `SeekForward`, and `GetPosition`. -/
structure WavHeaderReader (σ : Type) where
  read : Nat → σ → List UInt8 × σ
  seekForward : UInt32 → σ → Bool × σ
  getPosition : σ → Int

abbrev Reading (σ : Type) := OptionT (StateT σ Option)

/-- What `ReadWavHeader` stores through its pointers when it returns true. -/
structure WavParameters where
  numChannels : Nat
  sampleRate : Int32
  format : WavFormat
  bytesPerSample : Nat
  numSamples : Nat
  dataStartPos : Int
deriving DecidableEq, Repr

namespace Reading

variable {σ α β : Type} {p : Reading σ α} {f : α → Reading σ β} {s s' : σ}

theorem run_bind_some {a : α} (h : p.run.run s = some (some a, s')) :
    (p >>= f).run.run s = (f a).run.run s' := by
  simp [OptionT.run_bind, Option.elimM, h]

variable {q : Prop} [Decidable q]

theorem guard_of (h : q) : (guard q : Reading σ Unit) = pure () := if_pos h

end Reading

section Reader

variable {σ : Type} (r : WavHeaderReader σ)

/-- A value whose absence is a failed `RTC_CHECK`. -/
def rtcCheck {α : Type} (x : Option α) : Reading σ α := OptionT.lift (StateT.lift x)

/-- `Read(buf, num_bytes) != num_bytes` leads to `return false` everywhere. -/
def readExactly (numBytes : Nat) : Reading σ (List UInt8) := do
  let buf ← modifyGet (r.read numBytes)
  guard (buf.length = numBytes)
  return buf

variable {r} in
theorem readExactly_run_full {n : Nat} {s : σ} (h : (r.read n s).1.length = n) :
    (readExactly r n).run.run s = some (some (r.read n s).1, (r.read n s).2) := by
  have hread : (modifyGet (r.read n) : Reading σ (List UInt8)).run.run s =
      some (some (r.read n s).1, (r.read n s).2) := rfl
  unfold readExactly
  rw [Reading.run_bind_some hread, Reading.guard_of h]
  rfl

def findWaveChunk (soughtChunkId : List UInt8) : Nat → Reading σ ChunkHeader
  | 0 => rtcCheck none
  | fuel + 1 => do
      let chunkHeader := ChunkHeader.ofBytes (← readExactly r kChunkHeaderSize)
      if readFourCC chunkHeader.id = soughtChunkId then
        return chunkHeader
      else do
        guard (← modifyGet (r.seekForward chunkHeader.size))
        findWaveChunk soughtChunkId fuel

/-- `ReadFmtChunkData`, on a subchunk whose header is read already. -/
def readFmtChunkData (header : ChunkHeader) : Reading σ FmtPcmSubchunk := do
  let fmtSubchunk := FmtPcmSubchunk.ofPayload header (← readExactly r kFmtPcmSubchunkSize)
  let fmtSize := fmtSubchunk.header.size.toNat
  if fmtSize ≠ kFmtPcmSubchunkSize then do
    guard (kFmtPcmSubchunkSize + 2 = fmtSize)
    let extSize := fieldLE (← readExactly r 2) 0 2
    guard (extSize = 0)
    return fmtSubchunk
  else
    return fmtSubchunk

/-- `ReadWavHeader`.  Both searches get the same fuel. -/
def readWavHeader (fuel : Nat) : Reading σ WavParameters := do
  let riff := RiffHeader.ofBytes (← readExactly r kRiffHeaderSize)
  guard (readFourCC riff.header.id = chars 'R' 'I' 'F' 'F')
  guard (readFourCC riff.format = chars 'W' 'A' 'V' 'E')
  let fmtHeader ← findWaveChunk r (chars 'f' 'm' 't' ' ') fuel
  let fmt ← readFmtChunkData r fmtHeader
  let data ← findWaveChunk r (chars 'd' 'a' 't' 'a') fuel
  let format ← rtcCheck (mapHeaderFieldToWavFormat fmt.audioFormat)
  let numChannels := fmt.numChannels.toNat
  let sampleRate := fmt.sampleRate.toInt32
  let bytesPerSample := fmt.bitsPerSample.toNat / 8
  let bytesInPayload := data.size.toNat
  guard (bytesPerSample ≠ 0)
  let numSamples := bytesInPayload / bytesPerSample
  let headerSize := if format = .pcm then kPcmWavHeaderSize else kIeeeFloatWavHeaderSize
  guard (¬ riff.header.size < riffChunkSize bytesInPayload headerSize)
  guard (fmt.byteRate = byteRate numChannels sampleRate bytesPerSample)
  guard (fmt.blockAlign = blockAlign numChannels bytesPerSample)
  guard (checkWavParametersOf numChannels sampleRate format bytesPerSample numSamples)
  let dataStartPos := r.getPosition (← get)
  return { numChannels, sampleRate, format, bytesPerSample, numSamples, dataStartPos }

/-! ## Words taken off a reader -/

/-- The reader hands out the bytes of `rest` and passes over them, as long as
there are enough of them. -/
structure Serves (rest : σ → List UInt8) : Prop where
  read : ∀ n s, n ≤ (rest s).length →
    (r.read n s).1 = (rest s).take n ∧ rest (r.read n s).2 = (rest s).drop n ∧
      r.getPosition (r.read n s).2 = r.getPosition s + n
  seekForward : ∀ n s, n.toNat ≤ (rest s).length →
    (r.seekForward n s).1 = true ∧ rest (r.seekForward n s).2 = (rest s).drop n.toNat ∧
      r.getPosition (r.seekForward n s).2 = r.getPosition s + n.toNat

/-- From position `pos` the function takes the word `w` off the reader and
returns `a`, whatever follows `w`. -/
def Passes {α : Type} (rest : σ → List UInt8) (pos : Int) (p : Reading σ α) (w : List UInt8)
    (a : α) : Prop :=
  ∀ s tail, rest s = w ++ tail → r.getPosition s = pos →
    ∃ s', p.run.run s = some (some a, s') ∧ rest s' = tail ∧
      r.getPosition s' = pos + w.length

variable {r} {rest : σ → List UInt8} {pos : Int}

namespace Passes

variable {α β : Type}

theorem pure (a : α) : Passes r rest pos (Pure.pure a) [] a := by
  intro s tail hrest hpos
  exact ⟨s, rfl, hrest, by simpa using hpos⟩

variable {f : α → Reading σ β} {a : α} {b : β} {w : List UInt8}

theorem bind {p : Reading σ α} {u v : List UInt8} (hp : Passes r rest pos p u a)
    (hf : Passes r rest (pos + u.length) (f a) v b) :
    Passes r rest pos (p >>= f) (u ++ v) b := by
  intro s tail hrest hpos
  rw [append_assoc] at hrest
  obtain ⟨s₁, hrun₁, hrest₁, hpos₁⟩ := hp s (v ++ tail) hrest hpos
  obtain ⟨s₂, hrun₂, hrest₂, hpos₂⟩ := hf s₁ tail hrest₁ hpos₁
  refine ⟨s₂, ?_, hrest₂, ?_⟩
  · rw [Reading.run_bind_some hrun₁, hrun₂]
  · rw [hpos₂, length_append]
    omega

theorem bind_last {p : Reading σ α} (hp : Passes r rest pos p w a)
    (hf : Passes r rest (pos + w.length) (f a) [] b) :
    Passes r rest pos (p >>= f) w b := by
  have hall := hp.bind hf
  rwa [append_nil] at hall

theorem check {q : Prop} [Decidable q] (h : q) {f : Unit → Reading σ β}
    (hf : Passes r rest pos (f ()) w b) : Passes r rest pos (guard q >>= f) w b := by
  have hguard : Passes r rest pos (guard q) [] () := by
    rw [Reading.guard_of h]
    exact Passes.pure ()
  exact hguard.bind (by simpa using hf)

theorem rtcCheck {x : Option α} (h : x = some a) (hf : Passes r rest pos (f a) w b) :
    Passes r rest pos (WavHeader.rtcCheck x >>= f) w b := by
  have hcheck : Passes r rest pos (WavHeader.rtcCheck x) [] a := by
    intro s tail hrest hpos
    rw [h]
    exact ⟨s, rfl, hrest, by simpa using hpos⟩
  exact hcheck.bind (by simpa using hf)

variable (hr : Serves r rest)
include hr

theorem readExactly {n : Nat} (w : List UInt8) (hw : w.length = n) :
    Passes r rest pos (readExactly r n) w w := by
  intro s tail hrest hpos
  obtain ⟨hbytes, hafter, hmoved⟩ := hr.read n s (by rw [hrest, length_append]; omega)
  rw [hrest, take_left' hw] at hbytes
  rw [hrest, drop_left' hw] at hafter
  rw [hpos, ← hw] at hmoved
  refine ⟨(r.read n s).2, ?_, hafter, hw ▸ hmoved⟩
  rw [readExactly_run_full (by rw [hbytes, hw]), hbytes]

theorem seekForward {n : UInt32} {skipped : List UInt8} (hn : skipped.length = n.toNat) :
    Passes r rest pos (modifyGet (r.seekForward n)) skipped true := by
  intro s tail hrest hpos
  obtain ⟨hok, hafter, hmoved⟩ := hr.seekForward n s (by rw [hrest, length_append]; omega)
  rw [hrest, drop_left' hn] at hafter
  rw [hpos, ← hn] at hmoved
  refine ⟨(r.seekForward n s).2, ?_, hafter, hmoved⟩
  rw [← hok]
  rfl

theorem findWaveChunk_found {sought : List UInt8} {h : ChunkHeader} (hid : readFourCC h.id = sought)
    (fuel : Nat) :
    Passes r rest pos (findWaveChunk r sought (fuel + 1)) h.bytes h := by
  refine (readExactly hr h.bytes h.bytes_length).bind_last ?_
  rw [h.ofBytes_bytes, if_pos hid]
  exact pure h

theorem findWaveChunk_skip {sought skipped : List UInt8} {found : ChunkHeader} (h : ChunkHeader)
    (hid : readFourCC h.id ≠ sought) (hsize : skipped.length = h.size.toNat) {fuel : Nat}
    (hnext : ∀ pos, Passes r rest pos (findWaveChunk r sought fuel) w found) :
    Passes r rest pos (findWaveChunk r sought (fuel + 1)) (h.bytes ++ (skipped ++ w)) found := by
  refine (readExactly hr h.bytes h.bytes_length).bind ?_
  rw [h.ofBytes_bytes, if_neg hid]
  exact (seekForward hr hsize).bind (check rfl (hnext _))

theorem readFmtChunkData_pcm {f : FmtPcmSubchunk}
    (hsize : f.header.size.toNat = kFmtPcmSubchunkSize) :
    Passes r rest pos (readFmtChunkData r f.header) f.payload f := by
  refine (readExactly hr f.payload f.payload_length).bind_last ?_
  rw [f.ofPayload_payload, if_neg (not_not_intro hsize)]
  exact pure f

theorem readFmtChunkData_ext {f : FmtPcmSubchunk}
    (hsize : f.header.size.toNat = kFmtPcmSubchunkSize + 2) :
    Passes r rest pos (readFmtChunkData r f.header) (f.payload ++ bytesLE 2 0) f := by
  refine (readExactly hr f.payload f.payload_length).bind ?_
  rw [f.ofPayload_payload, if_pos (by omega)]
  refine check hsize.symm ?_
  refine (readExactly hr (bytesLE 2 0) (bytesLE_length 2 0)).bind_last ?_
  exact check (fieldLE_bytesLE 2 0) (pure f)

omit hr

end Passes

end Reader

/-! ## What was written is read -/

variable {numChannels bytesPerSample numSamples : Nat} {sampleRate : Int32} {format : WavFormat}

theorem bounds_of_checkWavParametersOf
    (h : checkWavParametersOf numChannels sampleRate format bytesPerSample numSamples = true) :
    0 < bytesPerSample ∧ numChannels < 2 ^ 16 ∧ bytesPerSample ≤ 4 ∧
      bytesPerSample * numSamples + 36 < 2 ^ 32 ∧ 0 < sampleRate.toInt ∧
      sampleRate.toInt.toNat * numChannels * bytesPerSample < 2 ^ 32 := by
  unfold checkWavParametersOf at h
  simp only [Bool.if_false_left, Bool.and_eq_true, Bool.not_eq_true', decide_eq_false_iff_not] at h
  obtain ⟨hpos, -, hchannels, -, hrate, hagrees, hsamples, -⟩ := h
  have hbytes : bytesPerSample ≤ 4 := by
    cases format <;> simp [formatAgrees] at hagrees <;> omega
  have hpayload := Nat.mul_le_of_le_div bytesPerSample numSamples _ (Nat.not_lt.mp hsamples)
  have hlt := sampleRate.toInt_lt
  have hproduct : sampleRate.toInt.toNat * numChannels ≤ 2 ^ 31 * 2 ^ 16 :=
    Nat.mul_le_mul (by omega) (by omega)
  have hall := Nat.mul_le_mul hproduct hbytes
  rw [sizeOfInt_of_nonneg (by omega) (by omega), sizeMul, sizeMul,
    Nat.mod_eq_of_lt (Nat.lt_of_le_of_lt hproduct (by decide))] at hrate
  rw [Nat.mul_comm, show kPcmWavHeaderSize - kChunkHeaderSize = 36 from rfl] at hpayload
  omega

theorem stored_of_checkWavParametersOf (size : Nat)
    (h : checkWavParametersOf numChannels sampleRate format bytesPerSample numSamples = true) :
    let fmt := fmtSubchunk size format numChannels sampleRate bytesPerSample
    let bytesInPayload := sizeMul bytesPerSample numSamples
    fmt.numChannels.toNat = numChannels ∧ fmt.bitsPerSample.toNat = 8 * bytesPerSample ∧
      bytesInPayload = bytesPerSample * numSamples ∧
      (dataHeader bytesInPayload).size.toNat = bytesInPayload := by
  obtain ⟨-, hchannels, hfour, hfits, -⟩ := bounds_of_checkWavParametersOf h
  simp only [fmtSubchunk, dataHeader, UInt16.toNat_ofNat', UInt32.toNat_ofNat', sizeMul]
  omega

theorem readFourCC_packFourCC :
    readFourCC (packFourCC 'R' 'I' 'F' 'F') = chars 'R' 'I' 'F' 'F' ∧
      readFourCC (packFourCC 'W' 'A' 'V' 'E') = chars 'W' 'A' 'V' 'E' ∧
      readFourCC (packFourCC 'f' 'm' 't' ' ') = chars 'f' 'm' 't' ' ' ∧
      readFourCC (packFourCC 'd' 'a' 't' 'a') = chars 'd' 'a' 't' 'a' := by
  decide

section RoundTrip

variable {σ : Type} {r : WavHeaderReader σ} {rest : σ → List UInt8}

theorem readWavHeader_passes (hr : Serves r rest) {headerSize : Nat}
    (size fuel : Nat) (hcheck : checkWavParameters numChannels sampleRate format numSamples = true)
    (hmap : mapHeaderFieldToWavFormat (mapWavFormatToHeaderField format) = some format)
    (hsize : headerSize = if format = .pcm then kPcmWavHeaderSize else kIeeeFloatWavHeaderSize)
    {word fmtWord dataWord : List UInt8} :
    let bytesPerSample := getFormatBytesPerSample format
    let bytesInPayload := sizeMul bytesPerSample numSamples
    let riff := riffHeader bytesInPayload headerSize
    let fmt := fmtSubchunk size format numChannels sampleRate bytesPerSample
    word = riff.bytes ++ (fmt.header.bytes ++ (fmtWord ++ dataWord)) →
    word.length = headerSize →
    (∀ pos, Passes r rest pos (readFmtChunkData r fmt.header) fmtWord fmt) →
    (∀ pos, Passes r rest pos (findWaveChunk r (chars 'd' 'a' 't' 'a') (fuel + 1)) dataWord
      (dataHeader bytesInPayload)) →
    Passes r rest 0 (readWavHeader r (fuel + 1)) word
      { numChannels, sampleRate, format, bytesPerSample, numSamples
        dataStartPos := headerSize } := by
  intro bytesPerSample bytesInPayload riff fmt hword hlen hfmt hdata
  have hbytes := (bounds_of_checkWavParametersOf hcheck).1
  -- the fields as `ReadWavHeader` takes them out of the structures
  obtain ⟨hnum, hbits, hmul, hpay⟩ := stored_of_checkWavParametersOf size hcheck
  have hper : fmt.bitsPerSample.toNat / 8 = bytesPerSample := by
    rw [hbits, Nat.mul_div_cancel_left _ (by decide)]
  have hsamples : bytesInPayload / bytesPerSample = numSamples := by
    rw [show bytesInPayload = _ from hmul, Nat.mul_div_cancel_left _ hbytes]
  obtain ⟨htextRiff, htextWave, htextFmt, -⟩ := readFourCC_packFourCC
  rw [← hlen, hword]
  refine (Passes.readExactly hr riff.bytes riff.bytes_length).bind ?_
  rw [riff.ofBytes_bytes]
  refine Passes.check htextRiff (Passes.check htextWave ?_)
  refine (Passes.findWaveChunk_found hr (h := fmt.header) htextFmt fuel).bind ?_
  refine (hfmt _).bind ((hdata _).bind_last ?_)
  refine Passes.rtcCheck hmap ?_
  rw [hnum, hper, hpay]
  refine Passes.check (Nat.ne_of_gt hbytes) ?_
  rw [hsamples, ← hsize]
  refine Passes.check (UInt32.lt_irrefl _) (Passes.check rfl (Passes.check rfl ?_))
  refine Passes.check hcheck ?_
  intro s tail hrest hpos
  refine ⟨s, ?_, hrest, by simpa using hpos⟩
  have hstart : r.getPosition s =
      ((riff.bytes ++ (fmt.header.bytes ++ (fmtWord ++ dataWord))).length : Int) := by
    simp only [length_append]
    omega
  rw [← hstart]
  rfl

theorem writePcmWavHeader_passes (hr : Serves r rest)
    (hcheck : checkWavParameters numChannels sampleRate .pcm numSamples = true) (fuel : Nat) :
    Passes r rest 0 (readWavHeader r (fuel + 1))
      (writePcmWavHeader numChannels sampleRate (getFormatBytesPerSample .pcm) numSamples).1
      { numChannels, sampleRate
        format := .pcm
        bytesPerSample := getFormatBytesPerSample .pcm
        numSamples
        dataStartPos := kPcmWavHeaderSize } := by
  refine readWavHeader_passes hr kFmtPcmSubchunkSize fuel hcheck rfl rfl ?_
    (WavHeaderPcm.bytes_length _)
    (fun _ => Passes.readFmtChunkData_pcm hr rfl)
    (fun _ => Passes.findWaveChunk_found hr (h := dataHeader _) readFourCC_packFourCC.2.2.2 fuel)
  rw [writePcmWavHeader, WavHeaderPcm.bytes, FmtPcmSubchunk.bytes, append_assoc]
  rfl

theorem writeIeeeFloatWavHeader_passes (hr : Serves r rest)
    (hcheck : checkWavParameters numChannels sampleRate .ieeeFloat numSamples = true) (fuel : Nat) :
    Passes r rest 0 (readWavHeader r (fuel + 2))
      (writeIeeeFloatWavHeader numChannels sampleRate (getFormatBytesPerSample .ieeeFloat)
        numSamples).1
      { numChannels, sampleRate
        format := .ieeeFloat
        bytesPerSample := getFormatBytesPerSample .ieeeFloat
        numSamples
        dataStartPos := kIeeeFloatWavHeaderSize } := by
  -- the chunk `fact` stands before `data`
  have hfact : readFourCC (packFourCC 'f' 'a' 'c' 't') ≠ chars 'd' 'a' 't' 'a' := by decide
  refine readWavHeader_passes hr kFmtIeeeFloatSubchunkSize (fuel + 1) hcheck rfl rfl ?_
    (WavHeaderIeeeFloat.bytes_length _)
    (fun _ => Passes.readFmtChunkData_ext hr rfl)
    (fun _ => Passes.findWaveChunk_skip hr ⟨packFourCC 'f' 'a' 'c' 't', 4⟩ hfact
      (bytesLE_length 4 (UInt32.ofNat (sizeMul numChannels numSamples)).toNat)
      fun _ => Passes.findWaveChunk_found hr (h := dataHeader _) readFourCC_packFourCC.2.2.2 fuel)
  rw [writeIeeeFloatWavHeader, WavHeaderIeeeFloat.bytes, FmtIeeeFloatSubchunk.bytes,
    FmtPcmSubchunk.bytes]
  simp only [append_assoc]
  rfl

/-- `ReadWavHeader` on what `WriteWavHeader` writes, followed by any data,
returns the parameters, and the position of the first byte after the header. -/
theorem readWavHeader_writeWavHeader (hr : Serves r rest) {numChannels : Nat} {sampleRate : Int32}
    {format : WavFormat} (hformat : format = .pcm ∨ format = .ieeeFloat) {numSamples : Nat}
    (hcheck : checkWavParameters numChannels sampleRate format numSamples = true) :
    ∃ header headerSize,
      writeWavHeader numChannels sampleRate format numSamples = some (header, headerSize) ∧
        header.length = headerSize ∧
        ∀ (data : List UInt8) (s : σ), rest s = header ++ data → r.getPosition s = 0 →
          ∀ fuel, 2 ≤ fuel → ∃ s', (readWavHeader r fuel).run.run s =
            some (some
              { numChannels, sampleRate, format
                bytesPerSample := getFormatBytesPerSample format
                numSamples
                dataStartPos := headerSize }, s') ∧ rest s' = data := by
  rcases hformat with rfl | rfl
  · refine ⟨_, _, if_pos hcheck, WavHeaderPcm.bytes_length _, ?_⟩
    intro data s hrest hpos fuel hfuel
    obtain ⟨s', hrun, hafter, -⟩ := writePcmWavHeader_passes hr hcheck (fuel - 1) s data hrest hpos
    rw [Nat.sub_add_cancel (by omega)] at hrun
    exact ⟨s', hrun, hafter⟩
  · refine ⟨_, _, if_pos hcheck, WavHeaderIeeeFloat.bytes_length _, ?_⟩
    intro data s hrest hpos fuel hfuel
    obtain ⟨s', hrun, hafter, -⟩ :=
      writeIeeeFloatWavHeader_passes hr hcheck (fuel - 2) s data hrest hpos
    rw [Nat.sub_add_cancel hfuel] at hrun
    exact ⟨s', hrun, hafter⟩

end RoundTrip

/-! ## The reader of a file -/

/-- An open file: its bytes, the offset of its handle, and the count
`WavHeaderFileReader` keeps in `pos_`. -/
structure FileState where
  bytes : List UInt8
  offset : Nat
  pos : Int
deriving DecidableEq, Repr

namespace FileState

def rest (f : FileState) : List UInt8 := f.bytes.drop f.offset

/-- The handle moved by `n` bytes, which may take it behind the end. -/
def moved (f : FileState) (n : Nat) : FileState :=
  { f with offset := f.offset + n, pos := f.pos + n }

@[simp] theorem moved_rest (f : FileState) (n : Nat) : (f.moved n).rest = f.rest.drop n := by
  rw [rest, rest, drop_drop, moved]

end FileState

/-- `WavHeaderFileReader`.  `fread` stops at the end of the file, `fseek` does
not. -/
def wavHeaderFileReader : WavHeaderReader FileState where
  read numBytes f :=
    let buf := f.rest.take numBytes
    (buf, f.moved buf.length)
  seekForward numBytes f := (true, f.moved numBytes.toNat)
  getPosition f := f.pos

theorem wavHeaderFileReader_serves : Serves wavHeaderFileReader FileState.rest where
  read n f hn := by
    have hlen : (f.rest.take n).length = n := length_take_of_le hn
    simp only [wavHeaderFileReader, hlen, FileState.moved_rest, true_and]
    rfl
  seekForward n f hn := by
    refine ⟨rfl, ?_, rfl⟩
    exact f.moved_rest n.toNat

/-- A file of one second of stereo samples at 48 kHz in the float layout. -/
theorem readWavHeader_writeWavHeader_file :
    checkWavParameters 2 48000 .ieeeFloat 96000 = true ∧
      ∃ header headerSize,
        writeWavHeader 2 48000 .ieeeFloat 96000 = some (header, headerSize) ∧
          header.length = headerSize ∧
          ∀ (data : List UInt8) (f : FileState), f.rest = header ++ data → f.pos = 0 →
            ∀ fuel, 2 ≤ fuel → ∃ f', (readWavHeader wavHeaderFileReader fuel).run.run f =
              some (some
                { numChannels := 2
                  sampleRate := 48000
                  format := .ieeeFloat
                  bytesPerSample := 4
                  numSamples := 96000
                  dataStartPos := headerSize }, f') ∧ f'.rest = data :=
  ⟨by decide, readWavHeader_writeWavHeader wavHeaderFileReader_serves (.inr rfl) (by decide)⟩

/-! ## Fields as they lie in the buffer -/

/-- Each field of a stored header has the value it stands for, as a number without a bound. -/
@[mk_iff] structure Truthful (channels : Nat) (rate : Int32) (format : WavFormat) (samples : Nat)
    (buf : List UInt8) : Prop where
  riffSize : fieldLE buf 4 4 + kChunkHeaderSize =
    getFormatBytesPerSample format * samples + buf.length
  numChannels : fieldLE buf 22 2 = channels
  sampleRate : fieldLE buf 24 4 = rate.toInt
  byteRate : fieldLE buf 28 4 = channels * rate.toInt * getFormatBytesPerSample format
  blockAlign : fieldLE buf 32 2 = channels * getFormatBytesPerSample format
  bitsPerSample : fieldLE buf 34 2 = 8 * getFormatBytesPerSample format
  dataSize : fieldLE buf (buf.length - 4) 4 = getFormatBytesPerSample format * samples
  sampleLength : format = .ieeeFloat → fieldLE buf 46 4 = channels * samples

variable {channels samples : Nat} {rate : Int32}

theorem fields_of_header (riff : RiffHeader) (fmt : FmtPcmSubchunk) (tail : List UInt8) :
    let buf := riff.bytes ++ (fmt.bytes ++ tail)
    fieldLE buf 4 4 = riff.header.size.toNat ∧ fieldLE buf 22 2 = fmt.numChannels.toNat ∧
      fieldLE buf 24 4 = fmt.sampleRate.toNat ∧ fieldLE buf 28 4 = fmt.byteRate.toNat ∧
      fieldLE buf 32 2 = fmt.blockAlign.toNat ∧ fieldLE buf 34 2 = fmt.bitsPerSample.toNat ∧
      buf.length = 36 + tail.length ∧ ∀ i n, fieldLE buf (36 + i) n = fieldLE tail i n := by
  simp (disch := simp; try omega) [RiffHeader.bytes, ChunkHeader.bytes, FmtPcmSubchunk.bytes,
    FmtPcmSubchunk.payload, fieldLE_append_left, fieldLE_append_right]
  exact ⟨by omega, fun i n => congrArg (fieldLE tail · n) (by omega)⟩

theorem truthful_layout_iff {bytes k : Nat} (size : Nat) (tail : List UInt8)
    (hbytes : getFormatBytesPerSample format = bytes)
    (hcheck : checkWavParametersOf channels rate format bytes samples = true)
    (htail : tail.length = k) (hk : 4 ≤ k ∧ k ≤ 22)
    (hdata : fieldLE tail (k - 4) 4 = (dataHeader (sizeMul bytes samples)).size.toNat)
    (hfact : format = .ieeeFloat →
      fieldLE tail 10 4 = (UInt32.ofNat (sizeMul channels samples)).toNat) :
    Truthful channels rate format samples
        ((riffHeader (sizeMul bytes samples) (36 + k)).bytes ++
          ((fmtSubchunk size format channels rate bytes).bytes ++ tail)) ↔
      bytes * samples + k + 28 < 2 ^ 32 ∧ channels * bytes < 2 ^ 16 ∧
        (format = .ieeeFloat → channels * samples < 2 ^ 32) := by
  obtain ⟨hpos, hchannels, hfour, hfits, hrate, hproduct⟩ := bounds_of_checkWavParametersOf hcheck
  obtain ⟨hriff, hnum, hsample, hbyte, halign, hbits, hlen, hrest⟩ := fields_of_header
    (riffHeader (sizeMul bytes samples) (36 + k))
    (fmtSubchunk size format channels rate bytes) tail
  obtain ⟨hall, hwidth, hpayload, hpay⟩ := stored_of_checkWavParametersOf size hcheck
  have hlt := rate.toInt_lt
  have hsamples : channels * samples ≤ 2 ^ 16 * 2 ^ 32 :=
    Nat.mul_le_mul (by omega) (Nat.le_trans (Nat.le_mul_of_pos_left samples hpos) (by omega))
  have hframe : channels * bytes ≤ 2 ^ 16 * 4 := Nat.mul_le_mul (by omega) hfour
  rw [Nat.mul_comm rate.toInt.toNat] at hproduct
  have hrates := Nat.le_mul_of_pos_right (channels * rate.toInt.toNat) hpos
  -- the values that are stored, each modulo the width of its field
  have hsize : (riffChunkSize (bytes * samples) (36 + k)).toNat =
      (bytes * samples + k + 28) % 2 ^ 32 := by
    rw [riffChunkSize, UInt32.toNat_ofNat', sizeAdd_of_lt (by omega), kChunkHeaderSize,
      sizeSub_of_le (by omega) (by omega)]
    omega
  have hbyteRate :
      ((byteRate channels rate bytes).toNat : Int) = channels * rate.toInt * bytes := by
    rw [byteRate, UInt32.toNat_ofNat', sizeOfInt_of_nonneg (by omega) (by omega), sizeMul, sizeMul,
      Nat.mod_eq_of_lt (show channels * rate.toInt.toNat < 2 ^ 64 by omega),
      Nat.mod_eq_of_lt (show _ * bytes < 2 ^ 64 by omega), Nat.mod_eq_of_lt hproduct,
      Int.natCast_mul, Int.natCast_mul, Int.toNat_of_nonneg (Int.le_of_lt hrate)]
  have hblock : (blockAlign channels bytes).toNat = channels * bytes % 2 ^ 16 := by
    rw [blockAlign, UInt16.toNat_ofNat', sizeMul]
    omega
  have hstored : (rate.toUInt32.toNat : Int) = rate.toInt := by
    refine (BitVec.toInt_eq_toNat_of_msb ?_).symm
    rw [BitVec.msb_eq_toInt]
    exact decide_eq_false (Int.not_lt.mpr (Int.le_of_lt hrate))
  rw [truthful_iff, hbytes, hlen, htail, Nat.add_sub_assoc hk.1, hrest, hrest 10, hdata, hpay,
    hriff, hnum, hall, hsample, hbyte, halign, hbits, hwidth]
  simp only [riffHeader, fmtSubchunk, hsize, hbyteRate, hblock, hstored, hpayload, true_and,
    kChunkHeaderSize]
  refine and_congr (by omega) (and_congr (by omega) (imp_congr_right fun hf => ?_))
  rw [hfact hf, UInt32.toNat_ofNat', sizeMul]
  omega

/-- **A stored header is truthful** if and only if the bytes of a frame fit in 16 bits and, for
the float layout, the size of the file and the product of the channels and the samples fit in 32
bits.  The two companded formats pass the check and are not written. -/
theorem writeWavHeader_truthful_iff
    (hcheck : checkWavParameters channels rate format samples = true) :
    (∀ buf headerSize, writeWavHeader channels rate format samples = some (buf, headerSize) →
        Truthful channels rate format samples buf) ↔
      (format = .pcm → channels * 2 < 2 ^ 16) ∧
        (format = .ieeeFloat → channels * 4 < 2 ^ 16 ∧ 4 * samples + 50 < 2 ^ 32 ∧
          channels * samples < 2 ^ 32) := by
  cases format with
  | pcm =>
    rw [show writeWavHeader channels rate .pcm samples = some _ from if_pos hcheck]
    simp only [Option.some.injEq, writePcmWavHeader, Prod.mk.injEq, and_imp,
      forall_apply_eq_imp_iff, forall_eq']
    refine (truthful_layout_iff kFmtPcmSubchunkSize _ rfl hcheck (ChunkHeader.bytes_length _)
      (by decide) ?_ nofun).trans ?_
    · simp [ChunkHeader.bytes, fieldLE_append_right, kChunkHeaderSize]
    · have hbounds := bounds_of_checkWavParametersOf hcheck
      simp only [getFormatBytesPerSample, kChunkHeaderSize] at hbounds ⊢
      simp
      omega
  | ieeeFloat =>
    rw [show writeWavHeader channels rate .ieeeFloat samples = some _ from if_pos hcheck]
    simp only [Option.some.injEq, writeIeeeFloatWavHeader, Prod.mk.injEq, and_imp,
      forall_apply_eq_imp_iff, forall_eq', WavHeaderIeeeFloat.bytes, FmtIeeeFloatSubchunk.bytes,
      append_assoc]
    refine (truthful_layout_iff (k := 22) kFmtIeeeFloatSubchunkSize _ rfl hcheck
      (by simp [kChunkHeaderSize]) (by decide) ?_ fun _ => ?_).trans ?_
    · simp [ChunkHeader.bytes, fieldLE_append_right]
    · simp [ChunkHeader.bytes, fieldLE_append_left, fieldLE_append_right]
    · simp [getFormatBytesPerSample, and_left_comm]
  | _ =>
    refine iff_of_true (fun buf headerSize h => ?_) ⟨nofun, nofun⟩
    cases (if_pos hcheck).symm.trans h

/-- Stereo samples in the float layout. -/
theorem writeWavHeader_truthful_stereo : ∃ buf headerSize,
    writeWavHeader 2 48000 .ieeeFloat 96000 = some (buf, headerSize) ∧
      Truthful 2 48000 .ieeeFloat 96000 buf :=
  ⟨_, _, rfl, (writeWavHeader_truthful_iff (by decide)).2 (by decide) _ _ rfl⟩

/-- With 32768 channels of two bytes the stored `BlockAlign` is 0, and the float layout of
2 ^ 30 - 12 samples has a RIFF chunk size of 2. -/
theorem writeWavHeader_truncates :
    (checkWavParameters 32768 8000 .pcm 0 = true ∧
      (writeWavHeader 32768 8000 .pcm 0).map (fun w => fieldLE w.1 32 2) = some 0) ∧
    checkWavParameters 1 8000 .ieeeFloat (2 ^ 30 - 12) = true ∧
      (writeWavHeader 1 8000 .ieeeFloat (2 ^ 30 - 12)).map (fun w => fieldLE w.1 4 4) = some 2 := by
  decide

end WebrtcCore.Ports.WavHeader
