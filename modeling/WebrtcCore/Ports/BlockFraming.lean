import WebrtcCore.Verified.CMemory
import WebrtcCore.Verified.Grid
import WebrtcCore.Verified.Simulation

/-!
# Frames and blocks of the echo canceller (`modules/audio_processing/aec3`)

`EchoCanceller3::ProcessCapture` gets frames of 160 samples, and its processor works on blocks of
64.  `FrameBlocker` cuts sub-frames of 80 samples into blocks, and `BlockFramer` makes sub-frames
of the processed blocks.  Both keep what is left over, for every band and channel; `BlockFramer`
starts with a block of zeros.

A function gives `none` if a check fails or an access is out of range.  The processor is an
arbitrary function of the number of the block and the block, and the logs of the blocks are not
part of the program.
-/

namespace WebrtcCore.Ports.BlockFraming

open Verified CMemory Grid Simulation List Option

variable {α : Type}

abbrev kBlockSize : Nat := 64

abbrev kSubFrameLength : Nat := 80

/-- Samples by band and channel. -/
abbrev Signal (α : Type) := List (List (List α))

/-! ## `FrameBlocker` -/

structure FrameBlocker (α : Type) where
  numBands : Nat
  numChannels : Nat
  buffer : Signal α

namespace FrameBlocker

def create (numBands numChannels : Nat) : Option (FrameBlocker α) := do
  demand (0 < numBands)
  demand (0 < numChannels)
  some ⟨numBands, numChannels, tabulate numBands numChannels fun _ _ => []⟩

/-- One channel of `InsertSubFrameAndExtractBlock`: the block, and the samples that
stay in the buffer. -/
def insertChannel (buffer block subFrame : List α) : Option (List α × List α) := do
  demand (buffer.length ≤ kBlockSize - 16)
  demand (kBlockSize = block.length)
  demand (kSubFrameLength = subFrame.length)
  let samplesToBlock := kBlockSize - buffer.length
  some (buffer ++ subFrame.take samplesToBlock, subFrame.drop samplesToBlock)

/-- One channel of `ExtractBlock`. -/
def extractChannel (buffer block : List α) : Option (List α × List α) := do
  demand (kBlockSize = buffer.length)
  demand (kBlockSize = block.length)
  some (buffer, [])

variable (s : FrameBlocker α)

def insertSubFrameAndExtractBlock (subFrame block : Signal α) :
    Option (Signal α × FrameBlocker α) := do
  demand (Shaped s.numBands s.numChannels block)
  demand (Shaped s.numBands s.numChannels subFrame)
  let channels ← visit s.numBands s.numChannels fun band channel => do
    insertChannel (← entry s.buffer band channel) (← entry block band channel)
      (← entry subFrame band channel)
  some (channels.map (fun row => row.map Prod.fst),
    { s with buffer := channels.map fun row => row.map Prod.snd })

def isBlockAvailable : Option Bool :=
  (entry s.buffer 0 0).map fun channel => decide (kBlockSize = channel.length)

def extractBlock (block : Signal α) : Option (Signal α × FrameBlocker α) := do
  demand (s.isBlockAvailable = some true)
  demand (Shaped s.numBands s.numChannels block)
  let channels ← visit s.numBands s.numChannels fun band channel => do
    extractChannel (← entry s.buffer band channel) (← entry block band channel)
  some (channels.map (fun row => row.map Prod.fst),
    { s with buffer := channels.map fun row => row.map Prod.snd })

end FrameBlocker

/-! ## `BlockFramer` -/

structure BlockFramer (α : Type) where
  numBands : Nat
  numChannels : Nat
  buffer : Signal α

namespace BlockFramer

def create (numBands numChannels : Nat) (zero : α) : Option (BlockFramer α) := do
  demand (0 < numBands)
  demand (0 < numChannels)
  some ⟨numBands, numChannels,
    tabulate numBands numChannels fun _ _ => List.replicate kBlockSize zero⟩

/-- One channel of `InsertBlock`. -/
def insertChannel (buffer block : List α) : Option (List α) := do
  demand (kBlockSize = block.length)
  demand (0 = buffer.length)
  some (block ++ buffer)

/-- One channel of `InsertBlockAndExtractSubFrame`: the sub-frame, which is written in
two parts, and the samples that stay in the buffer. -/
def extractChannel (buffer block subFrame : List α) : Option (List α × List α) := do
  demand (kSubFrameLength ≤ buffer.length + kBlockSize)
  demand (kBlockSize = block.length)
  demand (buffer.length ≤ kBlockSize)
  demand (kSubFrameLength = subFrame.length)
  let samplesToFrame := kSubFrameLength - buffer.length
  some (overwrite (overwrite subFrame 0 buffer) buffer.length (block.take samplesToFrame),
    block.drop samplesToFrame)

variable (s : BlockFramer α)

def insertBlock (block : Signal α) : Option (BlockFramer α) := do
  demand (Shaped s.numBands s.numChannels block)
  let buffer ← visit s.numBands s.numChannels fun band channel => do
    insertChannel (← entry s.buffer band channel) (← entry block band channel)
  some { s with buffer }

/-- `InsertBlockAndExtractSubFrame`.  The number of channels of the sub-frame is
checked in its first band only. -/
def insertBlockAndExtractSubFrame (block subFrame : Signal α) :
    Option (Signal α × BlockFramer α) := do
  demand (Shaped s.numBands s.numChannels block)
  demand (s.numBands = subFrame.length)
  demand (subFrame[0]?.map List.length = some s.numChannels)
  let channels ← visit s.numBands s.numChannels fun band channel => do
    extractChannel (← entry s.buffer band channel) (← entry block band channel)
      (← entry subFrame band channel)
  some (channels.map (fun row => row.map Prod.fst),
    { s with buffer := channels.map fun row => row.map Prod.snd })

end BlockFramer

/-! ## `EchoCanceller3` -/

/-- The members of `EchoCanceller3` that `ProcessCapture` moves the samples through,
and the logs of the blocks that its processor got and gave back. -/
structure EchoCanceller (α : Type) where
  captureBlocker : FrameBlocker α
  outputFramer : BlockFramer α
  captureBlock : Signal α
  handed : List (Signal α)
  processed : List (Signal α)

def create (numBands numChannels : Nat) (zero : α) : Option (EchoCanceller α) := do
  let captureBlocker ← FrameBlocker.create numBands numChannels
  let outputFramer ← BlockFramer.create numBands numChannels zero
  some ⟨captureBlocker, outputFramer,
    tabulate numBands numChannels fun _ _ => List.replicate kBlockSize zero, [], []⟩

/-- `FillSubFrameView`: the samples in the view. -/
def fillSubFrameView (numBands numChannels : Nat) (frame : Signal α) (subFrameIndex : Nat) :
    Option (Signal α) :=
  visit numBands numChannels fun band channel => do
    memcpyFrom (← entry frame band channel) (subFrameIndex * kSubFrameLength) kSubFrameLength

/-- The frame after its samples in the view were written. -/
def storeSubFrame (numBands numChannels : Nat) (frame : Signal α) (subFrameIndex : Nat)
    (subFrame : Signal α) : Option (Signal α) :=
  visit numBands numChannels fun band channel => do
    memcpyTo (← entry frame band channel) (subFrameIndex * kSubFrameLength)
      (← entry subFrame band channel)

namespace EchoCanceller

variable (process : Nat → Signal α → Signal α) (s : EchoCanceller α)

/-- `block_processor->ProcessCapture` of a block. -/
def processBlock (block : Signal α) : EchoCanceller α :=
  { s with
    captureBlock := process s.handed.length block
    handed := s.handed ++ [block]
    processed := s.processed ++ [process s.handed.length block] }

def processCaptureFrameContent (capture : Signal α) (subFrameIndex : Nat) :
    Option (Signal α × EchoCanceller α) := do
  let numBands := s.captureBlocker.numBands
  let numChannels := s.captureBlocker.numChannels
  let captureSubFrameView ← fillSubFrameView numBands numChannels capture subFrameIndex
  let (block, captureBlocker) ←
    s.captureBlocker.insertSubFrameAndExtractBlock captureSubFrameView s.captureBlock
  let s := { s with captureBlocker }.processBlock process block
  let (captureSubFrameView, outputFramer) ←
    s.outputFramer.insertBlockAndExtractSubFrame s.captureBlock captureSubFrameView
  let capture ← storeSubFrame numBands numChannels capture subFrameIndex captureSubFrameView
  some (capture, { s with outputFramer })

def processRemainingCaptureFrameContent : Option (EchoCanceller α) := do
  if ← s.captureBlocker.isBlockAvailable then
    let (block, captureBlocker) ← s.captureBlocker.extractBlock s.captureBlock
    let s := { s with captureBlocker }.processBlock process block
    let outputFramer ← s.outputFramer.insertBlock s.captureBlock
    some { s with outputFramer }
  else some s

/-- `ProcessCapture`, with the frame that it leaves in its argument. -/
def processCapture (capture : Signal α) : Option (Signal α × EchoCanceller α) := do
  let (capture, s) ← s.processCaptureFrameContent process capture 0
  let (capture, s) ← s.processCaptureFrameContent process capture 1
  let s ← s.processRemainingCaptureFrameContent process
  some (capture, s)

end EchoCanceller

/-! ## Regrouping the samples of a channel -/

section Stages

theorem FrameBlocker.insertChannel_eq {buffer block subFrame : List α}
    (hbuffer : buffer.length ≤ 48) (hblock : block.length = 64) (hsub : subFrame.length = 80) :
    FrameBlocker.insertChannel buffer block subFrame =
      some (buffer ++ subFrame.take (64 - buffer.length), subFrame.drop (64 - buffer.length)) := by
  rw [FrameBlocker.insertChannel, demand_of (p := buffer.length ≤ kBlockSize - 16) hbuffer,
    demand_of hblock.symm, demand_of hsub.symm]
  rfl

theorem FrameBlocker.extractChannel_eq {buffer block : List α} (hbuffer : buffer.length = 64)
    (hblock : block.length = 64) :
    FrameBlocker.extractChannel buffer block = some (buffer, []) := by
  rw [FrameBlocker.extractChannel, demand_of hbuffer.symm, demand_of hblock.symm]
  rfl

theorem BlockFramer.insertChannel_eq {buffer block : List α} (hbuffer : buffer.length = 0)
    (hblock : block.length = 64) : BlockFramer.insertChannel buffer block = some block := by
  rw [BlockFramer.insertChannel, demand_of hblock.symm, length_eq_zero_iff.1 hbuffer, append_nil]
  rfl

theorem BlockFramer.extractChannel_eq {buffer block subFrame : List α} (hlow : 16 ≤ buffer.length)
    (hhigh : buffer.length ≤ 64) (hblock : block.length = 64) (hsub : subFrame.length = 80) :
    BlockFramer.extractChannel buffer block subFrame =
      some (buffer ++ block.take (80 - buffer.length), block.drop (80 - buffer.length)) := by
  have hparts : (buffer ++ block.take (80 - buffer.length)).length = subFrame.length := by
    rw [length_append, length_take]
    omega
  have hfilled : overwrite (overwrite subFrame 0 buffer) buffer.length
      (block.take (80 - buffer.length)) = buffer ++ block.take (80 - buffer.length) := by
    have hfits : 0 + (buffer ++ block.take (80 - buffer.length)).length ≤ subFrame.length :=
      Nat.le_of_eq (by rw [Nat.zero_add, hparts])
    have happend := overwrite_append hfits
    rw [Nat.zero_add] at happend
    rw [happend, overwrite, take_zero, nil_append, Nat.zero_add, hparts, drop_length, append_nil]
  rw [BlockFramer.extractChannel,
    demand_of (p := kSubFrameLength ≤ buffer.length + kBlockSize) (by show 80 ≤ _ + 64; omega),
    demand_of hblock.symm, demand_of (p := buffer.length ≤ kBlockSize) hhigh,
    demand_of hsub.symm]
  show some (overwrite (overwrite subFrame 0 buffer) buffer.length
    (block.take (80 - buffer.length)), block.drop (80 - buffer.length)) = _
  rw [hfilled]

variable {m n r : Nat} {buffer block subFrame : Signal α}

theorem insertSubFrame_regroups (hbuffer : Filled m n r buffer) (hr : r ≤ 48)
    (hsub : Filled m n 80 subFrame) (hblock : Filled m n 64 block) :
    ∃ block' buffer', FrameBlocker.insertSubFrameAndExtractBlock ⟨m, n, buffer⟩ subFrame block =
        some (block', ⟨m, n, buffer'⟩) ∧
      Filled m n 64 block' ∧ Filled m n (r + 16) buffer' ∧
      Regroups m n buffer subFrame block' buffer' := by
  refine ⟨cutFront m n 64 r buffer subFrame, cutBack m n 64 r subFrame, ?_,
    filled_cutFront hbuffer hsub (by omega) (by omega),
    filled_cutBack hsub (by omega) (by omega), regroups_cut 64⟩
  rw [FrameBlocker.insertSubFrameAndExtractBlock, demand_of hblock.1, demand_of hsub.1]
  rw [visit_eq_some (g := fun band channel =>
    (cell buffer band channel ++ (cell subFrame band channel).take (64 - r),
      (cell subFrame band channel).drop (64 - r)))]
  · simp only [bind_eq_bind, bind_some, map_tabulate]
    rfl
  · intro band hband channel hchannel
    rw [hbuffer.entry_eq hband hchannel, hsub.entry_eq hband hchannel,
      hblock.entry_eq hband hchannel, ← hbuffer.length_cell hband hchannel]
    exact FrameBlocker.insertChannel_eq (hbuffer.length_cell hband hchannel ▸ hr)
      (hblock.length_cell hband hchannel) (hsub.length_cell hband hchannel)

theorem isBlockAvailable_eq (hbuffer : Filled m n r buffer) (hm : 0 < m) (hn : 0 < n) :
    FrameBlocker.isBlockAvailable ⟨m, n, buffer⟩ = some (decide (64 = r)) := by
  rw [FrameBlocker.isBlockAvailable, hbuffer.entry_eq hm hn, map_some, hbuffer.length_cell hm hn]

theorem extractBlock_eq (hbuffer : Filled m n 64 buffer) (hm : 0 < m) (hn : 0 < n)
    (hblock : Filled m n 64 block) :
    FrameBlocker.extractBlock ⟨m, n, buffer⟩ block =
      some (buffer, ⟨m, n, tabulate m n fun _ _ => []⟩) := by
  have havailable : FrameBlocker.isBlockAvailable ⟨m, n, buffer⟩ = some true :=
    isBlockAvailable_eq hbuffer hm hn
  rw [FrameBlocker.extractBlock, demand_of havailable, demand_of hblock.1]
  rw [visit_eq_some (g := fun band channel => (cell buffer band channel, []))]
  · simp only [bind_eq_bind, bind_some, map_tabulate]
    rw [hbuffer.tabulate_cell]
  · intro band hband channel hchannel
    rw [hbuffer.entry_eq hband hchannel, hblock.entry_eq hband hchannel]
    exact FrameBlocker.extractChannel_eq (hbuffer.length_cell hband hchannel)
      (hblock.length_cell hband hchannel)

theorem insertBlock_eq (hbuffer : Filled m n 0 buffer) (hblock : Filled m n 64 block) :
    BlockFramer.insertBlock ⟨m, n, buffer⟩ block = some ⟨m, n, block⟩ := by
  rw [BlockFramer.insertBlock, demand_of hblock.1]
  rw [visit_eq_some (g := cell block), hblock.tabulate_cell]
  · rfl
  · intro band hband channel hchannel
    rw [hbuffer.entry_eq hband hchannel, hblock.entry_eq hband hchannel]
    exact BlockFramer.insertChannel_eq (hbuffer.length_cell hband hchannel)
      (hblock.length_cell hband hchannel)

theorem extractSubFrame_regroups (hbuffer : Filled m n r buffer) (hlow : 16 ≤ r) (hhigh : r ≤ 64)
    (hm : 0 < m) (hsub : Filled m n 80 subFrame) (hblock : Filled m n 64 block) :
    ∃ subFrame' buffer', BlockFramer.insertBlockAndExtractSubFrame ⟨m, n, buffer⟩ block
        subFrame = some (subFrame', ⟨m, n, buffer'⟩) ∧
      Filled m n 80 subFrame' ∧ Filled m n (r - 16) buffer' ∧
      Regroups m n buffer block subFrame' buffer' := by
  have hfirst : subFrame[0]?.map length = some n := by
    have hpos : 0 < subFrame.length := hsub.1.1.symm ▸ hm
    rw [getElem?_eq_getElem hpos, map_some, hsub.1.2 _ (getElem_mem hpos)]
  have hkept : Filled m n (r + 64 - 80) (cutBack m n 80 r block) :=
    filled_cutBack hblock (by omega) (by omega)
  refine ⟨cutFront m n 80 r buffer block, cutBack m n 80 r block, ?_,
    filled_cutFront hbuffer hblock (by omega) (by omega), ?_, regroups_cut 80⟩
  · rw [BlockFramer.insertBlockAndExtractSubFrame, demand_of hblock.1,
      demand_of hsub.1.1.symm, demand_of hfirst]
    rw [visit_eq_some (g := fun band channel =>
      (cell buffer band channel ++ (cell block band channel).take (80 - r),
        (cell block band channel).drop (80 - r)))]
    · simp only [bind_eq_bind, bind_some, map_tabulate]
      rfl
    · intro band hband channel hchannel
      rw [hbuffer.entry_eq hband hchannel, hsub.entry_eq hband hchannel,
        hblock.entry_eq hband hchannel, ← hbuffer.length_cell hband hchannel]
      exact BlockFramer.extractChannel_eq (hbuffer.length_cell hband hchannel ▸ hlow)
        (hbuffer.length_cell hband hchannel ▸ hhigh) (hblock.length_cell hband hchannel)
        (hsub.length_cell hband hchannel)
  · exact hkept

end Stages

/-! ## Sub-frames -/

/-- The samples of a sub-frame. -/
def subFrameOf (frame : Signal α) (k band channel : Nat) : List α :=
  ((cell frame band channel).drop (k * 80)).take 80

section SubFrames

variable {m n : Nat} {frame subFrame : Signal α}

theorem fillSubFrameView_eq (hframe : Filled m n 160 frame) {k : Nat} (hk : k ≤ 1) :
    ∃ view, fillSubFrameView m n frame k = some view ∧ Filled m n 80 view ∧
      ∀ band < m, ∀ channel < n, cell view band channel = subFrameOf frame k band channel := by
  apply visit_filled
  intro band hband channel hchannel
  have hlength := hframe.length_cell hband hchannel
  constructor
  · rw [hframe.entry_eq hband hchannel]
    exact memcpyFrom_eq_some (by show k * 80 + 80 ≤ _; omega)
  · rw [subFrameOf, length_take, length_drop]
    omega

theorem slice_overwrite_half {dst block : List α} {k k' : Nat} (hdst : dst.length = 160)
    (hblock : block.length = 80) (hk : k ≤ 1) :
    ((overwrite dst (k * 80) block).drop (k' * 80)).take 80 =
      if k' = k then block else (dst.drop (k' * 80)).take 80 := by
  apply ext_getElem?
  intro i
  rw [getElem?_take, getElem?_drop, getElem?_overwrite (by omega)]
  by_cases hsame : k' = k
  · rw [if_pos hsame, hsame]
    by_cases hi : i < 80
    · rw [if_pos hi, if_pos (by omega), Nat.add_sub_cancel_left]
    · rw [if_neg hi, getElem?_eq_none (by omega)]
  · rw [if_neg hsame, getElem?_take, getElem?_drop]
    by_cases hi : i < 80
    · rw [if_pos hi, if_pos hi, if_neg (by omega)]
    · rw [if_neg hi, if_neg hi]

theorem storeSubFrame_eq (hframe : Filled m n 160 frame) (hsub : Filled m n 80 subFrame)
    {k : Nat} (hk : k ≤ 1) :
    ∃ frame', storeSubFrame m n frame k subFrame = some frame' ∧ Filled m n 160 frame' ∧
      ∀ k', ∀ band < m, ∀ channel < n, subFrameOf frame' k' band channel =
        if k' = k then cell subFrame band channel else subFrameOf frame k' band channel := by
  obtain ⟨frame', hstore, hframe', hcell⟩ : ∃ frame',
      storeSubFrame m n frame k subFrame = some frame' ∧ Filled m n 160 frame' ∧
        ∀ band < m, ∀ channel < n, cell frame' band channel =
          overwrite (cell frame band channel) (k * 80) (cell subFrame band channel) := by
    apply visit_filled
    intro band hband channel hchannel
    have hlength := hframe.length_cell hband hchannel
    have hblock := hsub.length_cell hband hchannel
    constructor
    · rw [hframe.entry_eq hband hchannel, hsub.entry_eq hband hchannel]
      exact memcpyTo_eq_some (by show k * 80 + _ ≤ _; omega)
    · rw [overwrite_length (by omega), hlength]
  refine ⟨frame', hstore, hframe', ?_⟩
  intro k' band hband channel hchannel
  rw [subFrameOf, hcell band hband channel hchannel]
  exact slice_overwrite_half (hframe.length_cell hband hchannel)
    (hsub.length_cell hband hchannel) hk

theorem subFrameOf_append (hframe : Filled m n 160 frame) {band channel : Nat}
    (hband : band < m) (hchannel : channel < n) :
    subFrameOf frame 0 band channel ++ subFrameOf frame 1 band channel =
      cell frame band channel := by
  have hlength := hframe.length_cell hband hchannel
  have hall : ((cell frame band channel).drop (1 * 80)).take 80 =
      (cell frame band channel).drop 80 := by
    apply take_of_length_le
    rw [length_drop]
    omega
  rw [subFrameOf, subFrameOf, hall, drop_zero, take_append_drop]

end SubFrames

/-! ## The echo canceller -/

/-- What holds between two sub-frames, with `r` samples of each channel waiting for a
block: the samples received so far are the blocks handed over and those waiting, and the
first block of zeros and the blocks processed are the samples sent so far and those that
wait for a sub-frame; together `64` samples wait. -/
structure Framed (process : Nat → Signal α → Signal α) (zero : α) (m n r : Nat)
    (received sent : Nat → Nat → List α) (s : EchoCanceller α) : Prop where
  blocker : ∃ buffer, s.captureBlocker = ⟨m, n, buffer⟩ ∧ Filled m n r buffer ∧
    ∀ band < m, ∀ channel < n,
      received band channel = stream s.handed band channel ++ cell buffer band channel
  framer : ∃ buffer, s.outputFramer = ⟨m, n, buffer⟩ ∧ Filled m n (64 - r) buffer ∧
    ∀ band < m, ∀ channel < n,
      List.replicate 64 zero ++ stream s.processed band channel =
        sent band channel ++ cell buffer band channel
  block : Filled m n 64 s.captureBlock
  handed : ∀ block ∈ s.handed, Filled m n 64 block
  processed : s.processed = s.handed.mapIdx process

section Canceller

variable {process : Nat → Signal α → Signal α} {zero : α} {m n r : Nat}
  {received sent : Nat → Nat → List α} {s : EchoCanceller α}

theorem create_framed (process : Nat → Signal α → Signal α) (zero : α) (hm : 0 < m) (hn : 0 < n) :
    ∃ s, create m n zero = some s ∧
      Framed process zero m n 0 (fun _ _ => []) (fun _ _ => []) s := by
  have hzeros : Filled m n 64 (tabulate m n fun _ _ => replicate 64 zero) :=
    filled_tabulate fun _ _ _ _ => length_replicate
  refine ⟨⟨⟨m, n, tabulate m n fun _ _ => []⟩, ⟨m, n, tabulate m n fun _ _ => replicate 64 zero⟩,
    tabulate m n fun _ _ => replicate 64 zero, [], []⟩, ?_, ?_⟩
  · rw [create, FrameBlocker.create, BlockFramer.create, demand_of hm, demand_of hn]
    rfl
  · refine ⟨⟨_, rfl, filled_tabulate fun _ _ _ _ => rfl, ?_⟩, ⟨_, rfl, hzeros, ?_⟩, hzeros,
      fun _ hmem => absurd hmem not_mem_nil, rfl⟩
    · intro band hband channel hchannel
      rw [cell_tabulate hband hchannel]
      rfl
    · intro band hband channel hchannel
      rw [cell_tabulate hband hchannel]
      exact append_nil _

theorem Framed.congr {received' sent' : Nat → Nat → List α}
    (h : Framed process zero m n r received sent s)
    (hreceived' : ∀ band < m, ∀ channel < n, received' band channel = received band channel)
    (hsent' : ∀ band < m, ∀ channel < n, sent' band channel = sent band channel) :
    Framed process zero m n r received' sent' s := by
  obtain ⟨kept, hkept, hfilled, hreceived⟩ := h.blocker
  obtain ⟨pending, hpending, hfilled', hsent⟩ := h.framer
  refine { h with
    blocker := ⟨kept, hkept, hfilled, ?_⟩
    framer := ⟨pending, hpending, hfilled', ?_⟩ }
  · intro band hband channel hchannel
    rw [hreceived' band hband channel hchannel, hreceived band hband channel hchannel]
  · intro band hband channel hchannel
    rw [hsent' band hband channel hchannel, hsent band hband channel hchannel]

theorem Framed.processed_concat (h : Framed process zero m n r received sent s) (block : Signal α) :
    (s.processBlock process block).processed =
      (s.processBlock process block).handed.mapIdx process := by
  show s.processed ++ [process s.handed.length block] = (s.handed ++ [block]).mapIdx process
  rw [h.processed, mapIdx_concat]

theorem frameContent_framed (hm : 0 < m)
    (hprocess : ∀ i block, Filled m n 64 block → Filled m n 64 (process i block))
    (h : Framed process zero m n r received sent s) (hr : r ≤ 48) {capture : Signal α}
    (hcapture : Filled m n 160 capture) {k : Nat} (hk : k ≤ 1) :
    ∃ capture' s', s.processCaptureFrameContent process capture k = some (capture', s') ∧
      Filled m n 160 capture' ∧
      (∀ k', k' ≠ k → ∀ band < m, ∀ channel < n,
        subFrameOf capture' k' band channel = subFrameOf capture k' band channel) ∧
      Framed process zero m n (r + 16)
        (fun band channel => received band channel ++ subFrameOf capture k band channel)
        (fun band channel => sent band channel ++ subFrameOf capture' k band channel) s' := by
  obtain ⟨kept, hblocker, hkept, hreceived⟩ := h.blocker
  obtain ⟨pending, hframer, hpending, hsent⟩ := h.framer
  obtain ⟨view, hview, hviewFilled, hviewCell⟩ := fillSubFrameView_eq hcapture hk
  obtain ⟨block, kept', hinsert, hblock, hkept', hregroup⟩ :=
    insertSubFrame_regroups hkept hr hviewFilled h.block
  have hprocessed := hprocess s.handed.length block hblock
  obtain ⟨view', pending', hextract, hview', hpending', hregroup'⟩ :=
    extractSubFrame_regroups hpending (by omega) (by omega) hm hviewFilled hprocessed
  obtain ⟨capture', hstore, hcapture', hsubFrames⟩ := storeSubFrame_eq hcapture hview' hk
  refine ⟨capture', { s.processBlock process block with
    captureBlocker := ⟨m, n, kept'⟩, outputFramer := ⟨m, n, pending'⟩ }, ?_, hcapture', ?_, ?_⟩
  · rw [EchoCanceller.processCaptureFrameContent, hblocker]
    rw [hview, bind_eq_bind, bind_some, hinsert, bind_eq_bind, bind_some]
    dsimp only [EchoCanceller.processBlock]
    rw [hframer, hextract, bind_eq_bind, bind_some]
    rw [hstore]
    rfl
  · intro k' hne band hband channel hchannel
    rw [hsubFrames k' band hband channel hchannel, if_neg hne]
  · refine ⟨⟨kept', rfl, hkept', ?_⟩, ⟨pending', rfl, ?_, ?_⟩, hprocessed,
      forall_mem_append.2 ⟨h.handed, forall_mem_singleton.2 hblock⟩, h.processed_concat block⟩
    · intro band hband channel hchannel
      rw [hreceived band hband channel hchannel, ← hviewCell band hband channel hchannel,
        append_assoc, hregroup band hband channel hchannel, ← append_assoc,
        ← stream_concat]
      rfl
    · exact hpending'
    · intro band hband channel hchannel
      show replicate 64 zero ++ stream (s.processed ++ [_]) band channel = _
      rw [hsubFrames k band hband channel hchannel, if_pos rfl, stream_concat,
        ← append_assoc, hsent band hband channel hchannel, append_assoc,
        hregroup' band hband channel hchannel, append_assoc]

variable (hm : 0 < m) (hn : 0 < n)
  (hprocess : ∀ i block, Filled m n 64 block → Filled m n 64 (process i block))
include hm hn hprocess

theorem remainingContent_framed (h : Framed process zero m n r received sent s) :
    ∃ s', s.processRemainingCaptureFrameContent process = some s' ∧
      Framed process zero m n (if 64 = r then 0 else r) received sent s' := by
  obtain ⟨kept, hblocker, hkept, hreceived⟩ := h.blocker
  rw [EchoCanceller.processRemainingCaptureFrameContent, hblocker, isBlockAvailable_eq hkept hm hn,
    bind_eq_bind, bind_some]
  by_cases hfull : 64 = r
  · subst hfull
    obtain ⟨pending, hframer, hpending, hsent⟩ := h.framer
    have hprocessed := hprocess s.handed.length kept hkept
    rw [extractBlock_eq hkept hm hn h.block, bind_eq_bind, bind_some]
    dsimp only [EchoCanceller.processBlock]
    rw [hframer, insertBlock_eq hpending hprocessed]
    refine ⟨_, rfl, ⟨_, rfl, filled_tabulate fun _ _ _ _ => rfl, ?_⟩, ⟨_, rfl, hprocessed, ?_⟩,
      hprocessed, forall_mem_append.2 ⟨h.handed, forall_mem_singleton.2 hkept⟩,
      h.processed_concat kept⟩
    · intro band hband channel hchannel
      rw [cell_tabulate hband hchannel, append_nil, stream_concat,
        hreceived band hband channel hchannel]
    · intro band hband channel hchannel
      have hempty : cell pending band channel = [] :=
        length_eq_zero_iff.1 (hpending.length_cell hband hchannel)
      rw [stream_concat, ← append_assoc, hsent band hband channel hchannel, hempty, append_nil]
  · refine ⟨s, ?_, ?_⟩
    · rw [if_neg (by rw [decide_eq_true_eq]; exact hfull)]
    · rw [if_neg hfull]
      exact h

theorem processCapture_framed (h : Framed process zero m n r received sent s) (hr : r ≤ 32)
    {capture : Signal α} (hcapture : Filled m n 160 capture) :
    ∃ capture' s', s.processCapture process capture = some (capture', s') ∧
      Filled m n 160 capture' ∧
      Framed process zero m n (if 64 = r + 32 then 0 else r + 32)
        (fun band channel => received band channel ++ cell capture band channel)
        (fun band channel => sent band channel ++ cell capture' band channel) s' := by
  obtain ⟨c₁, s₁, hs₁, hc₁, hother₁, hframed₁⟩ :=
    frameContent_framed hm hprocess h (by omega) hcapture (k := 0) (by omega)
  obtain ⟨c₂, s₂, hs₂, hc₂, hother₂, hframed₂⟩ :=
    frameContent_framed hm hprocess hframed₁ (by omega) hc₁ (k := 1) (by omega)
  obtain ⟨s₃, hs₃, hframed₃⟩ := remainingContent_framed hm hn hprocess hframed₂
  refine ⟨c₂, s₃, ?_, hc₂, ?_⟩
  · rw [EchoCanceller.processCapture, hs₁, bind_eq_bind, bind_some]
    dsimp only
    rw [hs₂, bind_some]
    rw [hs₃]
    rfl
  · apply hframed₃.congr
    · intro band hband channel hchannel
      rw [← subFrameOf_append hcapture hband hchannel, ← append_assoc,
        ← hother₁ 1 (by decide) band hband channel hchannel]
    · intro band hband channel hchannel
      rw [← subFrameOf_append hc₂ hband hchannel, ← append_assoc,
        hother₂ 0 (by decide) band hband channel hchannel]

theorem run_framed (frames : List (Signal α)) (h : Framed process zero m n r received sent s)
    (hr : r = 0 ∨ r = 32) (hframes : ∀ frame ∈ frames, Filled m n 160 frame) :
    ∃ outputs s' r', runM (EchoCanceller.processCapture process) s frames = some (outputs, s') ∧
      outputs.length = frames.length ∧ (∀ output ∈ outputs, Filled m n 160 output) ∧
      (r' = 0 ∨ r' = 32) ∧
      Framed process zero m n r'
        (fun band channel => received band channel ++ stream frames band channel)
        (fun band channel => sent band channel ++ stream outputs band channel) s' := by
  induction frames generalizing s r received sent with
  | nil =>
    refine ⟨[], s, r, rfl, rfl, fun _ hmem => absurd hmem not_mem_nil, hr, ?_⟩
    apply h.congr <;>
      exact fun band _ channel _ => append_nil _
  | cons frame frames ih =>
    rw [forall_mem_cons] at hframes
    obtain ⟨output, s₁, hs₁, houtput, h₁⟩ :=
      processCapture_framed hm hn hprocess h (by omega) hframes.1
    obtain ⟨outputs, s', r', hs', hlength, houtputs, hr', h'⟩ :=
      ih h₁ (by split <;> omega) hframes.2
    refine ⟨output :: outputs, s', r', ?_, congrArg (· + 1) hlength,
      forall_mem_cons.2 ⟨houtput, houtputs⟩, hr', ?_⟩
    · rw [runM_cons_of_step hs₁, hs']
      rfl
    · apply h'.congr <;>
        exact fun band _ channel _ => by rw [stream_cons, append_assoc]

omit hm hn hprocess

end Canceller

/-- **A delay of one block.**  For any bands and channels, any processor of blocks and
any frames no check fails; the processor gets the consecutive blocks of each channel,
as many as there are; and what comes out is a block of zeros followed by the processed
blocks. -/
theorem processCapture_delays (m n : Nat) (hm : 1 ≤ m) (hn : 1 ≤ n) (zero : α)
    (process : Nat → Signal α → Signal α)
    (hprocess : ∀ i block, Filled m n 64 block → Filled m n 64 (process i block))
    (frames : List (Signal α)) (hframes : ∀ frame ∈ frames, Filled m n 160 frame) :
    ∃ s outputs s', create m n zero = some s ∧
      runM (EchoCanceller.processCapture process) s frames = some (outputs, s') ∧
      s'.handed.length = 160 * frames.length / 64 ∧
      (∀ block ∈ s'.handed, Filled m n 64 block) ∧
      s'.processed = s'.handed.mapIdx process ∧
      outputs.length = frames.length ∧ (∀ output ∈ outputs, Filled m n 160 output) ∧
      ∀ band < m, ∀ channel < n,
        stream s'.handed band channel = (stream frames band channel).take (64 * s'.handed.length) ∧
        stream outputs band channel =
          (List.replicate 64 zero ++ stream s'.processed band channel).take
            (160 * outputs.length) := by
  obtain ⟨s, hs, hframed⟩ := create_framed process zero hm hn
  obtain ⟨outputs, s', r, hrun, hlength, houtputs, hr, h⟩ :=
    run_framed hm hn hprocess frames hframed (.inl rfl) hframes
  obtain ⟨kept, _, hkept, hreceived⟩ := h.blocker
  obtain ⟨pending, _, hpending, hsent⟩ := h.framer
  have hhanded : ∀ band < m, ∀ channel < n,
      (stream s'.handed band channel).length = 64 * s'.handed.length :=
    fun band hband channel hchannel => length_stream hband hchannel _ h.handed
  refine ⟨s, outputs, s', hs, hrun, ?_, h.handed, h.processed, hlength, houtputs, ?_⟩
  · have hcount := congrArg length (hreceived 0 hm 0 hn)
    rw [nil_append, length_append, length_stream hm hn frames hframes,
      hhanded 0 hm 0 hn, hkept.length_cell hm hn] at hcount
    omega
  · intro band hband channel hchannel
    constructor
    · have heq := hreceived band hband channel hchannel
      rw [nil_append] at heq
      rw [heq, take_left' (hhanded band hband channel hchannel)]
    · have heq := hsent band hband channel hchannel
      rw [nil_append] at heq
      rw [heq, take_left' (length_stream hband hchannel outputs houtputs)]

/-- One band, one channel and two frames, of which the second gives the extra block, with a
processor that puts its count in place of the samples. -/
theorem processCapture_delays_two :
    ∃ s outputs s', create 1 1 0 = some s ∧
      runM (EchoCanceller.processCapture fun i _ => [[List.replicate 64 (i + 1)]]) s
        [[[List.replicate 160 7]], [[List.replicate 160 8]]] = some (outputs, s') ∧
      s'.handed.length = 5 ∧
      stream outputs 0 0 =
        (List.replicate 64 0 ++ stream s'.processed 0 0).take (160 * outputs.length) := by
  obtain ⟨s, outputs, s', hs, hrun, hhanded, _, _, _, _, hstreams⟩ :=
    processCapture_delays 1 1 (by decide) (by decide) 0 (fun i _ => [[replicate 64 (i + 1)]])
      (fun i _ _ => ⟨⟨rfl, by simp⟩, by simp⟩) [[[replicate 160 7]], [[replicate 160 8]]]
      (by decide +kernel)
  exact ⟨s, outputs, s', hs, hrun, hhanded, (hstreams 0 (by decide) 0 (by decide)).2⟩

end WebrtcCore.Ports.BlockFraming
