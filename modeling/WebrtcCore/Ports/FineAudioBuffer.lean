import WebrtcCore.Verified.CMemory
import WebrtcCore.Verified.Simulation

/-!
# Audio in pieces of any size (`modules/audio_device/fine_audio_buffer.cc`)

`AudioDeviceBuffer` hands out and takes 10 ms of samples at a time.  `FineAudioBuffer` stands in
front of it: `GetPlayoutData` fetches blocks until there are enough samples, and
`DeliverRecordedData` collects samples until there is a block.

The level measurements are left out, and rates and channel counts stay as they are.  The
transport behind `AudioDeviceBuffer` is not part of the program: `answers` says how it answers
the `k`-th request.  What has gone over that interface is kept in `fetched` and `recorded`.  A
function gives `none` outside its `RTC_DCHECK`s, or if a copy leaves a buffer or a loop does not
end.
-/

namespace WebrtcCore.Ports

open Verified CMemory Simulation List

namespace FineAudioBuffer

/-! ## `AudioDeviceBuffer` -/

/-- The members of `AudioDeviceBuffer` that are set up before any audio flows. -/
structure Parameters where
  playSampleRate : UInt32
  recSampleRate : UInt32
  playChannels : Nat
  recChannels : Nat
deriving DecidableEq, Repr

/-- What `NeedMorePlayData` leaves in `play_buffer_`, and the number of samples
it reports. -/
structure PlayAnswer where
  samples : Nat → Int16
  numSamplesOut : Nat

/-- What `AudioDeviceBuffer::DeliverRecordedData` finds. -/
structure Delivery where
  samples : List Int16
  playDelayMs : Int
  recDelayMs : Int
deriving DecidableEq, Repr

structure AudioDeviceBuffer where
  playBuffer : List Int16 := []
  recBuffer : List Int16 := []
  playDelayMs : Int := 0
  recDelayMs : Int := 0
  /-- the number of requests made so far -/
  requests : Nat := 0
  /-- the blocks `GetPlayoutData` has handed out -/
  fetched : List (List Int16) := []
  /-- the blocks `DeliverRecordedData` was called for -/
  recorded : List Delivery := []
deriving DecidableEq, Repr

namespace AudioDeviceBuffer

variable (p : Parameters) (answers : Nat → Option PlayAnswer) (adb : AudioDeviceBuffer)

/-- `RequestPlayoutData`.  Without a transport the resized buffer is left as it is. -/
def requestPlayoutData (samplesPerChannel : Nat) : Int × AudioDeviceBuffer :=
  let totalSamples := p.playChannels * samplesPerChannel
  match answers adb.requests with
  | none =>
    (0, { adb with
      playBuffer := (adb.playBuffer ++ List.replicate totalSamples 0).take totalSamples
      requests := adb.requests + 1 })
  | some answer =>
    (intOfSize (answer.numSamplesOut / p.playChannels),
      { adb with
        playBuffer := (List.range totalSamples).map answer.samples
        requests := adb.requests + 1 })

/-- `GetPlayoutData`: the samples copied, and the number per channel. -/
def getPlayoutData : List Int16 × Int × AudioDeviceBuffer :=
  (adb.playBuffer, intOfSize (adb.playBuffer.length / p.playChannels),
    { adb with fetched := adb.fetched ++ [adb.playBuffer] })

def setRecordedBuffer (audioBuffer : List Int16) (samplesPerChannel : Nat) :
    Option AudioDeviceBuffer := do
  let recBuffer ← memcpyFrom audioBuffer 0 (p.recChannels * samplesPerChannel)
  some { adb with recBuffer }

def setVQEData (playDelayMs recDelayMs : Int) : AudioDeviceBuffer :=
  { adb with playDelayMs, recDelayMs }

def deliverRecordedData : AudioDeviceBuffer :=
  { adb with recorded := adb.recorded ++ [⟨adb.recBuffer, adb.playDelayMs, adb.recDelayMs⟩] }

end AudioDeviceBuffer

/-! ## `FineAudioBuffer` -/

namespace Parameters

variable (p : Parameters)

/-- The product is one of `uint32_t`. -/
def playoutSamplesPerChannel10ms : Nat := (p.playSampleRate * 10 / 1000).toNat

def recordSamplesPerChannel10ms : Nat := (p.recSampleRate * 10 / 1000).toNat

def IsReadyForPlayout : Prop := 0 < p.playoutSamplesPerChannel10ms ∧ 0 < p.playChannels
  deriving Decidable

def IsReadyForRecord : Prop := 0 < p.recordSamplesPerChannel10ms ∧ 0 < p.recChannels
  deriving Decidable

/-- `num_elements_10ms` of `GetPlayoutData`. -/
def playoutElements10ms : Nat := p.playChannels * p.playoutSamplesPerChannel10ms

/-- `num_elements_10ms` of `DeliverRecordedData`. -/
def recordElements10ms : Nat := p.recChannels * p.recordSamplesPerChannel10ms

end Parameters

end FineAudioBuffer

structure FineAudioBuffer where
  playoutBuffer : List Int16 := []
  recordBuffer : List Int16 := []
  playoutDelayMs : Int := 0
  audioDeviceBuffer : FineAudioBuffer.AudioDeviceBuffer := {}
deriving DecidableEq, Repr

namespace FineAudioBuffer

open AudioDeviceBuffer

/-- How a call of `GetPlayoutData` ends, with what it leaves in `audio_buffer`. -/
inductive Outcome
  | played (audio : List Int16)
  | silence (audio : List Int16)
  | recorded
deriving DecidableEq, Repr

namespace Outcome

/-- What is in `audio_buffer` after the call. -/
def audio : Outcome → List Int16
  | played audio => audio
  | silence audio => audio
  | recorded => []

/-- The part of it that comes from the transport. -/
def heard : Outcome → List Int16
  | played audio => audio
  | silence _ => []
  | recorded => []

end Outcome

/-- `BufferT::AppendData` with a setter that stores `data` in the new part and
reports `writtenElements`. -/
def appendData (buffer : List Int16) (maxElements : Nat) (data : List Int16)
    (writtenElements : Nat) : Option (List Int16) :=
  if data.length ≤ maxElements ∧ writtenElements ≤ maxElements then
    (memcpyFrom data 0 writtenElements).map (buffer ++ ·)
  else none

section Program

variable (p : Parameters) (answers : Nat → Option PlayAnswer)

/-- The body of the loop of `GetPlayoutData`: whether the request was met. -/
def fetchBlock (s : FineAudioBuffer) : Option (Bool × FineAudioBuffer) :=
  let (returned, adb) :=
    s.audioDeviceBuffer.requestPlayoutData p answers p.playoutSamplesPerChannel10ms
  if returned = intOfSize p.playoutSamplesPerChannel10ms then do
    let (data, samplesPerChannel10ms, adb) := adb.getPlayoutData p
    let playoutBuffer ← appendData s.playoutBuffer p.playoutElements10ms data
      (p.playChannels * sizeOfInt samplesPerChannel10ms)
    some (true, { s with playoutBuffer, audioDeviceBuffer := adb })
  else
    some (false, { s with audioDeviceBuffer := adb })

/-- The loop: whether it ends with enough samples. -/
def fillPlayout (size : Nat) : Nat → FineAudioBuffer → Option (Bool × FineAudioBuffer)
  | 0, s => if s.playoutBuffer.length < size then none else some (true, s)
  | fuel + 1, s =>
    if s.playoutBuffer.length < size then do
      let (met, s) ← fetchBlock p answers s
      if met then fillPlayout size fuel s else some (false, s)
    else some (true, s)

/-- `GetPlayoutData` for an `audio_buffer` of the given size. -/
def getPlayoutData (s : FineAudioBuffer) (size : Nat) (playoutDelayMs : Int) :
    Option (Outcome × FineAudioBuffer) :=
  if p.IsReadyForPlayout then do
    let (enough, s) ← fillPlayout p answers size size s
    if enough then
      let audio ← memcpyFrom s.playoutBuffer 0 size
      some (.played audio,
        { s with playoutBuffer := s.playoutBuffer.drop size, playoutDelayMs })
    else
      some (.silence (List.replicate size 0), s)
  else none

/-- The body of the loop of `DeliverRecordedData`. -/
def deliverBlock (recordDelayMs : Int) (s : FineAudioBuffer) : Option FineAudioBuffer := do
  let adb ← s.audioDeviceBuffer.setRecordedBuffer p s.recordBuffer
    p.recordSamplesPerChannel10ms
  some
    { s with
      recordBuffer := s.recordBuffer.drop p.recordElements10ms
      audioDeviceBuffer := (adb.setVQEData s.playoutDelayMs recordDelayMs).deliverRecordedData }

/-- The loop. -/
def drainRecord (recordDelayMs : Int) : Nat → FineAudioBuffer → Option FineAudioBuffer
  | 0, s => if p.recordElements10ms ≤ s.recordBuffer.length then none else some s
  | fuel + 1, s =>
    if p.recordElements10ms ≤ s.recordBuffer.length then do
      drainRecord recordDelayMs fuel (← deliverBlock p recordDelayMs s)
    else some s

def deliverRecordedData (s : FineAudioBuffer) (audioBuffer : List Int16)
    (recordDelayMs : Int) : Option (Outcome × FineAudioBuffer) :=
  if p.IsReadyForRecord then do
    let s := { s with recordBuffer := s.recordBuffer ++ audioBuffer }
    let s ← drainRecord p recordDelayMs s.recordBuffer.length s
    some (.recorded, s)
  else none

end Program

variable {p : Parameters} {answers : Nat → Option PlayAnswer}

/-! ## What goes through -/

variable (p) in
/-- Between `s` and `s'` the samples `heard` were taken off the playout side and
`taken` came in on the recording side, and everything else that happened is that
whole blocks were fetched and delivered. -/
structure Moves (s : FineAudioBuffer) (heard taken : List Int16) (s' : FineAudioBuffer) :
    Prop where
  playout : ∃ blocks, s'.audioDeviceBuffer.fetched = s.audioDeviceBuffer.fetched ++ blocks ∧
    (∀ b ∈ blocks, b.length = p.playoutElements10ms) ∧
    heard ++ s'.playoutBuffer = s.playoutBuffer ++ blocks.flatten
  record : ∃ blocks, s'.audioDeviceBuffer.recorded = s.audioDeviceBuffer.recorded ++ blocks ∧
    (∀ b ∈ blocks, b.samples.length = p.recordElements10ms) ∧
    (blocks.map Delivery.samples).flatten ++ s'.recordBuffer = s.recordBuffer ++ taken
  requests : s.audioDeviceBuffer.requests ≤ s'.audioDeviceBuffer.requests

namespace Moves

variable {s s₁ s₂ : FineAudioBuffer}

theorem refl (s : FineAudioBuffer) : Moves p s [] [] s :=
  ⟨⟨[], by simp⟩, ⟨[], by simp⟩, Nat.le_refl _⟩

theorem trans {heard₁ taken₁ heard₂ taken₂ : List Int16} (h₁ : Moves p s heard₁ taken₁ s₁)
    (h₂ : Moves p s₁ heard₂ taken₂ s₂) :
    Moves p s (heard₁ ++ heard₂) (taken₁ ++ taken₂) s₂ := by
  obtain ⟨f₁, hf₁, hlen₁, hout₁⟩ := h₁.playout
  obtain ⟨f₂, hf₂, hlen₂, hout₂⟩ := h₂.playout
  obtain ⟨d₁, hd₁, hdlen₁, hin₁⟩ := h₁.record
  obtain ⟨d₂, hd₂, hdlen₂, hin₂⟩ := h₂.record
  refine ⟨⟨f₁ ++ f₂, by rw [hf₂, hf₁, append_assoc], ?_, ?_⟩,
    ⟨d₁ ++ d₂, by rw [hd₂, hd₁, append_assoc], ?_, ?_⟩,
    Nat.le_trans h₁.requests h₂.requests⟩
  · exact fun b hb => (mem_append.mp hb).elim (hlen₁ b) (hlen₂ b)
  · rw [append_assoc, hout₂, ← append_assoc, hout₁, append_assoc, flatten_append]
  · exact fun b hb => (mem_append.mp hb).elim (hdlen₁ b) (hdlen₂ b)
  · rw [map_append, flatten_append, append_assoc, hin₂, ← append_assoc, hin₁, append_assoc]

end Moves

/-! ## The playout loop -/

variable (p) in
/-- The answer makes `RequestPlayoutData` return the number asked for. -/
def Delivers (answer : Option PlayAnswer) : Prop :=
  ∃ a, answer = some a ∧
    intOfSize (a.numSamplesOut / p.playChannels) = intOfSize p.playoutSamplesPerChannel10ms

variable (p) in
/-- The samples in `play_buffer_` after such an answer. -/
def block (a : PlayAnswer) : List Int16 := (List.range p.playoutElements10ms).map a.samples

/-- A block is fetched and goes to the end of `playout_buffer_`. -/
def fetch (s : FineAudioBuffer) (data : List Int16) : FineAudioBuffer :=
  { s with
    playoutBuffer := s.playoutBuffer ++ data
    audioDeviceBuffer.playBuffer := data
    audioDeviceBuffer.requests := s.audioDeviceBuffer.requests + 1
    audioDeviceBuffer.fetched := s.audioDeviceBuffer.fetched ++ [data] }

/-- A request is not met; what is then in `play_buffer_` is not looked at. -/
def refuse (s : FineAudioBuffer) (playBuffer : List Int16) : FineAudioBuffer :=
  { s with
    audioDeviceBuffer.playBuffer := playBuffer
    audioDeviceBuffer.requests := s.audioDeviceBuffer.requests + 1 }

theorem playoutSamplesPerChannel10ms_lt : p.playoutSamplesPerChannel10ms < 2 ^ 31 := by
  have hlt := (p.playSampleRate * 10).toNat_lt
  show (p.playSampleRate * 10).toNat / 1000 < 2 ^ 31
  omega

@[simp] theorem block_length (a : PlayAnswer) : (block p a).length = p.playoutElements10ms := by
  simp [block]

theorem appendData_block (hready : p.IsReadyForPlayout) (buffer : List Int16) (a : PlayAnswer) :
    appendData buffer p.playoutElements10ms (block p a)
        (p.playChannels * sizeOfInt (intOfSize ((block p a).length / p.playChannels))) =
      some (buffer ++ block p a) := by
  have hlt : p.playoutSamplesPerChannel10ms < 2 ^ 31 := playoutSamplesPerChannel10ms_lt
  have hper : (block p a).length / p.playChannels = p.playoutSamplesPerChannel10ms := by
    rw [block_length, Parameters.playoutElements10ms, Nat.mul_div_cancel_left _ hready.2]
  have hwritten : p.playChannels * sizeOfInt (intOfSize ((block p a).length / p.playChannels)) =
      (block p a).length := by
    rw [hper, intOfSize_of_lt hlt, sizeOfInt_of_nonneg (by omega) (by omega), Int.toNat_natCast,
      block_length, Parameters.playoutElements10ms]
  have hcopy : memcpyFrom (block p a) 0 (block p a).length = some (block p a) := by
    rw [memcpyFrom, if_pos (by omega), drop_zero, take_length]
  rw [appendData, hwritten, hcopy, if_pos (by simp)]
  rfl

theorem fetchBlock_delivers (hready : p.IsReadyForPlayout) (s : FineAudioBuffer)
    (h : Delivers p (answers s.audioDeviceBuffer.requests)) :
    ∃ a, answers s.audioDeviceBuffer.requests = some a ∧
      fetchBlock p answers s = some (true, s.fetch (block p a)) := by
  obtain ⟨a, ha, hret⟩ := h
  refine ⟨a, ha, ?_⟩
  have hrequest : s.audioDeviceBuffer.requestPlayoutData p answers p.playoutSamplesPerChannel10ms =
      (intOfSize (a.numSamplesOut / p.playChannels),
        { s.audioDeviceBuffer with
          playBuffer := block p a
          requests := s.audioDeviceBuffer.requests + 1 }) := by
    simp only [requestPlayoutData, ha]
    rfl
  rw [fetchBlock, hrequest]
  dsimp only [AudioDeviceBuffer.getPlayoutData]
  rw [if_pos hret, appendData_block hready s.playoutBuffer a]
  rfl

theorem fetchBlock_refuses (hready : p.IsReadyForPlayout) (s : FineAudioBuffer)
    (h : ¬ Delivers p (answers s.audioDeviceBuffer.requests)) :
    ∃ playBuffer, fetchBlock p answers s = some (false, s.refuse playBuffer) := by
  have hlt : p.playoutSamplesPerChannel10ms < 2 ^ 31 := playoutSamplesPerChannel10ms_lt
  cases ha : answers s.audioDeviceBuffer.requests with
  | none =>
    have hzero : (0 : Int) ≠ intOfSize p.playoutSamplesPerChannel10ms := by
      have hpos := hready.1
      rw [intOfSize_of_lt hlt]
      omega
    simp only [fetchBlock, requestPlayoutData, ha, if_neg hzero]
    exact ⟨_, rfl⟩
  | some a =>
    have hret : intOfSize (a.numSamplesOut / p.playChannels) ≠
        intOfSize p.playoutSamplesPerChannel10ms := fun hret => h ⟨a, ha, hret⟩
    simp only [fetchBlock, requestPlayoutData, ha, if_neg hret]
    exact ⟨_, rfl⟩

theorem Moves.fetch (s : FineAudioBuffer) (a : PlayAnswer) :
    Moves p s [] [] (s.fetch (block p a)) :=
  ⟨⟨[block p a], rfl, by simp, by simp [FineAudioBuffer.fetch]⟩,
    ⟨[], by simp [FineAudioBuffer.fetch]⟩, Nat.le_succ _⟩

variable (p answers) in
/-- Every request with a number from `first` up to `last` is met. -/
def Met (first last : Nat) : Prop := ∀ k, first ≤ k → k < last → Delivers p (answers k)

variable (p answers) in
/-- What the loop does: it only fetches blocks; it ends with enough samples if all its
requests are met, and then with less than a block too many. -/
structure Filled (size : Nat) (s : FineAudioBuffer) (enough : Bool) (s' : FineAudioBuffer) :
    Prop where
  moves : Moves p s [] [] s'
  enough_iff : enough = true ↔
    Met p answers s.audioDeviceBuffer.requests s'.audioDeviceBuffer.requests
  size_le : enough = true → size ≤ s'.playoutBuffer.length
  lt_of_lt : enough = true → s.playoutBuffer.length < size + p.playoutElements10ms →
    s'.playoutBuffer.length < size + p.playoutElements10ms
  recordBuffer : s'.recordBuffer = s.recordBuffer

variable {size : Nat} {s : FineAudioBuffer}

theorem Filled.refl (h : size ≤ s.playoutBuffer.length) : Filled p answers size s true s := by
  refine ⟨Moves.refl s, ?_, fun _ => h, fun _ => id, rfl⟩
  simp only [true_iff]
  intro k hfirst hlast
  omega

theorem Filled.fetch {s' : FineAudioBuffer} {enough : Bool} (hshort : s.playoutBuffer.length < size)
    (hmet : Delivers p (answers s.audioDeviceBuffer.requests)) {a : PlayAnswer}
    (h : Filled p answers size (s.fetch (block p a)) enough s') :
    Filled p answers size s enough s' := by
  have hlen : (s.fetch (block p a)).playoutBuffer.length =
      s.playoutBuffer.length + p.playoutElements10ms := by
    simp [FineAudioBuffer.fetch]
  have hnext : (s.fetch (block p a)).audioDeviceBuffer.requests =
    s.audioDeviceBuffer.requests + 1 := rfl
  refine ⟨(Moves.fetch s a).trans h.moves, ?_, h.size_le,
    fun henough _ => h.lt_of_lt henough (by omega), h.recordBuffer⟩
  rw [h.enough_iff]
  constructor
  · intro hall k hfirst hlast
    by_cases hk : k = s.audioDeviceBuffer.requests
    · rwa [hk]
    · exact hall k (by omega) hlast
  · exact fun hall k hfirst hlast => hall k (by omega) hlast

theorem Filled.refuse (hmet : ¬ Delivers p (answers s.audioDeviceBuffer.requests))
    (playBuffer : List Int16) :
    Filled p answers size s false (s.refuse playBuffer) := by
  refine ⟨⟨⟨[], by simp [FineAudioBuffer.refuse]⟩, ⟨[], by simp [FineAudioBuffer.refuse]⟩,
    Nat.le_succ _⟩, ?_, by simp, by simp, rfl⟩
  simp only [Bool.false_eq_true, false_iff]
  exact fun hall => hmet (hall _ (Nat.le_refl _) (Nat.lt_succ_self _))

theorem fillPlayout_filled (hready : p.IsReadyForPlayout) (size : Nat) {fuel : Nat} :
    ∀ {s : FineAudioBuffer}, size ≤ s.playoutBuffer.length + fuel →
      ∃ enough s', fillPlayout p answers size fuel s = some (enough, s') ∧
        Filled p answers size s enough s' := by
  have hpos : 0 < p.playoutElements10ms := Nat.mul_pos hready.2 hready.1
  induction fuel with
  | zero =>
    intro s hfuel
    exact ⟨true, s, if_neg (by omega), Filled.refl (by omega)⟩
  | succ fuel ih =>
    intro s hfuel
    by_cases hshort : s.playoutBuffer.length < size
    · rw [fillPlayout, if_pos hshort]
      by_cases hmet : Delivers p (answers s.audioDeviceBuffer.requests)
      · obtain ⟨a, -, hfetch⟩ := fetchBlock_delivers hready s hmet
        obtain ⟨enough, s', hrun, hfilled⟩ := @ih (s.fetch (block p a)) (by
          simp only [FineAudioBuffer.fetch, length_append, block_length]
          omega)
        refine ⟨enough, s', ?_, hfilled.fetch hshort hmet⟩
        rw [hfetch]
        exact hrun
      · obtain ⟨playBuffer, hfetch⟩ := fetchBlock_refuses hready s hmet
        refine ⟨false, s.refuse playBuffer, ?_, Filled.refuse hmet playBuffer⟩
        rw [hfetch]
        rfl
    · exact ⟨true, s, by rw [fillPlayout, if_neg hshort], Filled.refl (by omega)⟩

theorem Moves.playOut (s : FineAudioBuffer) (size : Nat) (playoutDelayMs : Int) :
    Moves p s (s.playoutBuffer.take size) []
      { s with playoutBuffer := s.playoutBuffer.drop size, playoutDelayMs } :=
  ⟨⟨[], by simp⟩, ⟨[], by simp⟩, Nat.le_refl _⟩

theorem getPlayoutData_moves (hready : p.IsReadyForPlayout) (s : FineAudioBuffer) (size : Nat)
    (playoutDelayMs : Int) :
    ∃ o s', getPlayoutData p answers s size playoutDelayMs = some (o, s') ∧
      Moves p s o.heard [] s' ∧ o.audio.length = size ∧
      (Met p answers s.audioDeviceBuffer.requests s'.audioDeviceBuffer.requests →
        o.audio = o.heard ∧
        (s.playoutBuffer.length < p.playoutElements10ms →
          s'.playoutBuffer.length < p.playoutElements10ms)) ∧
      (¬ Met p answers s.audioDeviceBuffer.requests s'.audioDeviceBuffer.requests →
        o.audio = List.replicate size 0 ∧ s.playoutBuffer <+: s'.playoutBuffer) ∧
      s'.recordBuffer = s.recordBuffer := by
  obtain ⟨enough, s₁, hfill, hfilled⟩ := @fillPlayout_filled p answers hready size size s (by omega)
  rw [getPlayoutData, if_pos hready, hfill]
  cases enough with
  | true =>
    have hle := hfilled.size_le rfl
    have hcopy : memcpyFrom s₁.playoutBuffer 0 size = some (s₁.playoutBuffer.take size) := by
      exact if_pos (by omega)
    refine ⟨.played (s₁.playoutBuffer.take size), _, ?_,
      hfilled.moves.trans (Moves.playOut s₁ size playoutDelayMs), length_take_of_le hle,
      fun _ => ⟨rfl, ?_⟩, fun hnot => absurd (hfilled.enough_iff.mp rfl) hnot,
      hfilled.recordBuffer⟩
    · show (memcpyFrom s₁.playoutBuffer 0 size).bind _ = _
      rw [hcopy]
      rfl
    · intro hshort
      have hblock := hfilled.lt_of_lt rfl (by omega)
      simp only [length_drop]
      omega
  | false =>
    have hnot : ¬ Met p answers s.audioDeviceBuffer.requests s₁.audioDeviceBuffer.requests :=
      fun hmet => Bool.false_ne_true (hfilled.enough_iff.mpr hmet)
    refine ⟨.silence (replicate size 0), s₁, rfl, hfilled.moves, length_replicate,
      fun hmet => absurd hmet hnot, fun _ => ⟨rfl, ?_⟩, hfilled.recordBuffer⟩
    obtain ⟨blocks, -, -, hout⟩ := hfilled.moves.playout
    exact ⟨blocks.flatten, hout.symm⟩

/-! ## The recording loop -/

theorem deliverBlock_moves (recordDelayMs : Int)
    (hfull : p.recordElements10ms ≤ s.recordBuffer.length) :
    ∃ s', deliverBlock p recordDelayMs s = some s' ∧ Moves p s [] [] s' ∧
      s'.recordBuffer.length + p.recordElements10ms = s.recordBuffer.length ∧
      s'.playoutBuffer = s.playoutBuffer := by
  have hcopy : memcpyFrom s.recordBuffer 0 (p.recChannels * p.recordSamplesPerChannel10ms) =
      some (s.recordBuffer.take p.recordElements10ms) := by
    exact if_pos (by rw [Nat.zero_add]; exact hfull)
  rw [deliverBlock, setRecordedBuffer, hcopy]
  refine ⟨_, rfl, ⟨⟨[], by simp [AudioDeviceBuffer.deliverRecordedData,
    AudioDeviceBuffer.setVQEData]⟩, ⟨[_], rfl, ?_, ?_⟩, Nat.le_refl _⟩, ?_, rfl⟩
  · simp [AudioDeviceBuffer.setVQEData, Nat.min_eq_left hfull]
  · simp [AudioDeviceBuffer.setVQEData]
  · rw [length_drop]
    omega

theorem drainRecord_drained (hready : p.IsReadyForRecord) (recordDelayMs : Int) {fuel : Nat} :
    ∀ {s : FineAudioBuffer}, s.recordBuffer.length ≤ fuel →
      ∃ s', drainRecord p recordDelayMs fuel s = some s' ∧ Moves p s [] [] s' ∧
        s'.recordBuffer.length < p.recordElements10ms ∧
        s'.playoutBuffer = s.playoutBuffer := by
  have hpos : 0 < p.recordElements10ms := Nat.mul_pos hready.2 hready.1
  induction fuel with
  | zero =>
    intro s hfuel
    exact ⟨s, if_neg (by omega), Moves.refl s, by omega, rfl⟩
  | succ fuel ih =>
    intro s hfuel
    by_cases hfull : p.recordElements10ms ≤ s.recordBuffer.length
    · obtain ⟨s₁, hblock, hmoves₁, hlen, hplay₁⟩ := deliverBlock_moves recordDelayMs hfull
      obtain ⟨s₂, hrest, hmoves₂, hshort, hplay₂⟩ := @ih s₁ (by omega)
      refine ⟨s₂, ?_, hmoves₁.trans hmoves₂, hshort, hplay₂.trans hplay₁⟩
      rw [drainRecord, if_pos hfull, hblock]
      exact hrest
    · exact ⟨s, by rw [drainRecord, if_neg hfull], Moves.refl s, by omega, rfl⟩

theorem deliverRecordedData_moves (hready : p.IsReadyForRecord) (s : FineAudioBuffer)
    (audioBuffer : List Int16) (recordDelayMs : Int) :
    ∃ s', deliverRecordedData p s audioBuffer recordDelayMs = some (.recorded, s') ∧
      Moves p s [] audioBuffer s' ∧ s'.recordBuffer.length < p.recordElements10ms ∧
      s'.playoutBuffer = s.playoutBuffer := by
  have happend : Moves p s [] audioBuffer
      { s with recordBuffer := s.recordBuffer ++ audioBuffer } :=
    ⟨⟨[], by simp⟩, ⟨[], by simp⟩, Nat.le_refl _⟩
  obtain ⟨s', hdrain, hmoves, hshort, hplay⟩ :=
    drainRecord_drained hready recordDelayMs
      (s := { s with recordBuffer := s.recordBuffer ++ audioBuffer }) (Nat.le_refl _)
  refine ⟨s', ?_, by simpa using happend.trans hmoves, hshort, hplay⟩
  rw [deliverRecordedData, if_pos hready]
  show (drainRecord p recordDelayMs _ _).bind _ = _
  rw [hdrain]
  rfl

/-! ## Runs -/

inductive Call
  | getPlayoutData (size : Nat) (playoutDelayMs : Int)
  | deliverRecordedData (audioBuffer : List Int16) (recordDelayMs : Int)
deriving DecidableEq, Repr

namespace Call

/-- The `RTC_DCHECK` at the start of the call. -/
def Ready (p : Parameters) : Call → Prop
  | getPlayoutData _ _ => p.IsReadyForPlayout
  | deliverRecordedData _ _ => p.IsReadyForRecord

/-- The samples that come in with the call. -/
def taken : Call → List Int16
  | getPlayoutData _ _ => []
  | deliverRecordedData audioBuffer _ => audioBuffer

end Call

section Runs

variable {p : Parameters} {answers : Nat → Option PlayAnswer}

variable (p answers) in
def step (s : FineAudioBuffer) : Call → Option (Outcome × FineAudioBuffer)
  | .getPlayoutData size playoutDelayMs => s.getPlayoutData p answers size playoutDelayMs
  | .deliverRecordedData audioBuffer recordDelayMs =>
    s.deliverRecordedData p audioBuffer recordDelayMs

variable (p answers) in
/-- What a call does, and a run of calls.  `audio` is what was played, silence
included; it is what was heard if all requests are met. -/
structure Rechunks (s : FineAudioBuffer) (audio heard taken : List Int16)
    (s' : FineAudioBuffer) : Prop extends Moves p s heard taken s' where
  met : Met p answers s.audioDeviceBuffer.requests s'.audioDeviceBuffer.requests →
    audio = heard ∧ (s.playoutBuffer.length < p.playoutElements10ms →
      s'.playoutBuffer.length < p.playoutElements10ms)
  recordShort : s.recordBuffer.length < p.recordElements10ms →
    s'.recordBuffer.length < p.recordElements10ms

namespace Rechunks

theorem refl (s : FineAudioBuffer) : Rechunks p answers s [] [] [] s :=
  ⟨Moves.refl s, fun _ => ⟨rfl, id⟩, id⟩

theorem trans {s s₁ s₂ : FineAudioBuffer} {audio₁ heard₁ taken₁ audio₂ heard₂ taken₂ : List Int16}
    (h₁ : Rechunks p answers s audio₁ heard₁ taken₁ s₁)
    (h₂ : Rechunks p answers s₁ audio₂ heard₂ taken₂ s₂) :
    Rechunks p answers s (audio₁ ++ audio₂) (heard₁ ++ heard₂) (taken₁ ++ taken₂) s₂ := by
  refine ⟨h₁.toMoves.trans h₂.toMoves, ?_, fun h => h₂.recordShort (h₁.recordShort h)⟩
  intro hall
  -- the requests of each half are among those of the whole
  obtain ⟨haudio₁, hshort₁⟩ :=
    h₁.met fun k hfirst hlast => hall k hfirst (Nat.lt_of_lt_of_le hlast h₂.requests)
  obtain ⟨haudio₂, hshort₂⟩ :=
    h₂.met fun k hfirst hlast => hall k (Nat.le_trans h₁.requests hfirst) hlast
  exact ⟨by rw [haudio₁, haudio₂], fun h => hshort₂ (hshort₁ h)⟩

end Rechunks

theorem step_rechunks (s : FineAudioBuffer) {call : Call} (hcall : call.Ready p) :
    ∃ o s', step p answers s call = some (o, s') ∧
      Rechunks p answers s o.audio o.heard call.taken s' := by
  cases call with
  | getPlayoutData size playoutDelayMs =>
    obtain ⟨o, s', hrun, hmoves, -, hmet, -, hrecord⟩ :=
      @getPlayoutData_moves p answers hcall s size playoutDelayMs
    exact ⟨o, s', hrun, hmoves, hmet, fun h => by rwa [hrecord]⟩
  | deliverRecordedData audioBuffer recordDelayMs =>
    obtain ⟨s', hrun, hmoves, hshort, hplay⟩ :=
      deliverRecordedData_moves hcall s audioBuffer recordDelayMs
    exact ⟨.recorded, s', hrun, hmoves, fun _ => ⟨rfl, fun h => by rwa [hplay]⟩, fun _ => hshort⟩

theorem runM_rechunks (calls : List Call) :
    ∀ {s : FineAudioBuffer}, (∀ call ∈ calls, call.Ready p) →
      ∃ outcomes s', runM (step p answers) s calls = some (outcomes, s') ∧
        Rechunks p answers s (outcomes.flatMap Outcome.audio) (outcomes.flatMap Outcome.heard)
          (calls.flatMap Call.taken) s' := by
  induction calls with
  | nil =>
    intro s _
    exact ⟨[], s, rfl, Rechunks.refl s⟩
  | cons call calls ih =>
    intro s hcalls
    obtain ⟨o, s₁, hstep, h₁⟩ := @step_rechunks p answers s call (hcalls call mem_cons_self)
    obtain ⟨os, s₂, hrun, h₂⟩ := @ih s₁ fun c hc => hcalls c (mem_cons_of_mem _ hc)
    refine ⟨o :: os, s₂, ?_, h₁.trans h₂⟩
    rw [runM_cons_of_step hstep, hrun]
    rfl

/-- Over any run of calls that pass their `RTC_DCHECK`, `FineAudioBuffer` only cuts
the audio in other places.  What was played, with what is buffered, is what was
fetched; what was delivered, in blocks of 10 ms, with what is buffered, is what was
recorded; less than a block is left over.  A call with a request that the transport
does not meet plays silence and leaves every sample in the buffer. -/
theorem fineAudioBuffer_rechunks {calls : List Call} (hcalls : ∀ call ∈ calls, call.Ready p) :
    ∃ outcomes s, runM (step p answers) {} calls = some (outcomes, s) ∧
      (∀ b ∈ s.audioDeviceBuffer.fetched, b.length = p.playoutElements10ms) ∧
      ((∀ k, Delivers p (answers k)) →
        outcomes.flatMap Outcome.audio ++ s.playoutBuffer = s.audioDeviceBuffer.fetched.flatten ∧
          (p.IsReadyForPlayout → s.playoutBuffer.length < p.playoutElements10ms)) ∧
      (∀ d ∈ s.audioDeviceBuffer.recorded, d.samples.length = p.recordElements10ms) ∧
      (s.audioDeviceBuffer.recorded.map Delivery.samples).flatten ++ s.recordBuffer =
        calls.flatMap Call.taken ∧
      (p.IsReadyForRecord → s.recordBuffer.length < p.recordElements10ms) ∧
      ∀ size playoutDelayMs, p.IsReadyForPlayout →
        ∃ o s', s.getPlayoutData p answers size playoutDelayMs = some (o, s') ∧
          o.audio.length = size ∧
          (¬ Met p answers s.audioDeviceBuffer.requests s'.audioDeviceBuffer.requests →
            o.audio = List.replicate size 0 ∧ s.playoutBuffer <+: s'.playoutBuffer) := by
  obtain ⟨outcomes, s, hrun, hmoves, hmet, hrecord⟩ := @runM_rechunks p answers calls {} hcalls
  obtain ⟨blocks, hfetched, hlen, hout⟩ := hmoves.playout
  obtain ⟨deliveries, hrecorded, hdlen, hin⟩ := hmoves.record
  rw [nil_append] at hfetched hrecorded hout hin
  refine ⟨outcomes, s, hrun, hfetched ▸ hlen, ?_, hrecorded ▸ hdlen, by rw [hrecorded, hin],
    fun hready => hrecord (Nat.mul_pos hready.2 hready.1), ?_⟩
  · intro hdelivers
    obtain ⟨haudio, hshort⟩ := hmet fun k _ _ => hdelivers k
    exact ⟨by rw [haudio, hout, hfetched], fun hready => hshort (Nat.mul_pos hready.2 hready.1)⟩
  · intro size playoutDelayMs hready
    obtain ⟨o, s', hget, -, hsize, -, hsilence, -⟩ :=
      @getPlayoutData_moves p answers hready s size playoutDelayMs
    exact ⟨o, s', hget, hsize, hsilence⟩

end Runs

/-- Two channels with two samples each to play, two samples of one channel to record. -/
def sampleParameters : Parameters := ⟨200, 200, 2, 1⟩

/-- A transport that counts. -/
def countingAnswers (k : Nat) : Option PlayAnswer := some ⟨fun i => Int16.ofNat (4 * k + i), 4⟩

/-- Requests smaller and larger than a block. -/
theorem counting_rechunks :
    (∀ k, Delivers sampleParameters (countingAnswers k)) ∧
      ∃ outcomes s, runM (step sampleParameters countingAnswers) {}
          [.getPlayoutData 2 0, .deliverRecordedData [1, 2, 3] 0, .getPlayoutData 8 0] =
            some (outcomes, s) ∧
        outcomes.flatMap Outcome.audio ++ s.playoutBuffer = s.audioDeviceBuffer.fetched.flatten ∧
        s.playoutBuffer.length < 4 ∧
        (s.audioDeviceBuffer.recorded.map Delivery.samples).flatten ++ s.recordBuffer = [1, 2, 3] ∧
        s.recordBuffer.length < 2 := by
  have hreturned : intOfSize (4 / sampleParameters.playChannels) =
      intOfSize sampleParameters.playoutSamplesPerChannel10ms := by decide
  have hdelivers : ∀ k, Delivers sampleParameters (countingAnswers k) :=
    fun k => ⟨_, rfl, hreturned⟩
  have hplay : sampleParameters.IsReadyForPlayout := by decide
  have hrecord : sampleParameters.IsReadyForRecord := by decide
  obtain ⟨outcomes, s, hrun, -, hplayout, -, hin, hshort, -⟩ :=
    @fineAudioBuffer_rechunks sampleParameters countingAnswers
      [.getPlayoutData 2 0, .deliverRecordedData [1, 2, 3] 0, .getPlayoutData 8 0]
      (by simp [Call.Ready, hplay, hrecord])
  exact ⟨hdelivers, outcomes, s, hrun, (hplayout hdelivers).1, (hplayout hdelivers).2 hplay, hin,
    hshort hrecord⟩

end FineAudioBuffer

end WebrtcCore.Ports
