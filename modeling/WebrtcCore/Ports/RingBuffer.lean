import WebrtcCore.Verified.Simulation
import WebrtcCore.Verified.Tape

/-!
# The C ring buffer (`common_audio/ring_buffer.c`)

A ring of `element_count` elements with a read position, a write position and a one-bit wrap
flag that tells a full ring from an empty one.  A position that reaches the end rests there and is
folded back to the front only by the operation that next crosses it.

Positions are `size_t`, and `WebRtc_MoveReadPtr` works on `int` copies of them, so its additions
are checked (`intAdd`).  An element stands for `element_size` bytes.
-/

namespace WebrtcCore.Ports

open Verified CMemory Simulation Tape List Option

namespace RingBuffer

inductive Wrap
  | sameWrap
  | diffWrap
  deriving DecidableEq, Repr

end RingBuffer

/-- `struct RingBuffer`, with the allocation behind `data` as a list of
elements. -/
structure RingBuffer (α : Type) where
  readPos : Nat
  writePos : Nat
  elementCount : Nat
  elementSize : Nat
  rwWrap : RingBuffer.Wrap
  data : List α
  deriving DecidableEq, Repr

namespace RingBuffer

variable {α : Type}

def availableRead (self : RingBuffer α) : Nat :=
  match self.rwWrap with
  | .sameWrap => sizeSub self.writePos self.readPos
  | .diffWrap => sizeAdd (sizeSub self.elementCount self.readPos) self.writePos

def availableWrite (self : RingBuffer α) : Nat := sizeSub self.elementCount self.availableRead

/-- `WebRtc_InitBuffer`: positions to the front, contents to zero. -/
def initBuffer (zero : α) (self : RingBuffer α) : RingBuffer α :=
  { self with
    readPos := 0
    writePos := 0
    rwWrap := .sameWrap
    data := List.replicate self.elementCount zero }

/-- `WebRtc_CreateBuffer`, allocations assumed to succeed; `none` is the
null handle. -/
def createBuffer (zero : α) (elementCount elementSize : Nat) :
    Option (RingBuffer α) :=
  if elementCount = 0 ∨ elementSize = 0 then none
  else some (initBuffer zero
    { readPos := 0, writePos := 0, elementCount, elementSize,
      rwWrap := .sameWrap, data := [] })

/-- What `GetBufferReadRegions` returns: the element count, the first region
and the length of the second one, which always starts at the front. -/
structure ReadRegions where
  readElements : Nat
  pos1 : Nat
  count1 : Nat
  count2 : Nat

def getBufferReadRegions (buf : RingBuffer α) (elementCount : Nat) :
    ReadRegions :=
  let readableElements := buf.availableRead
  let readElements := if readableElements < elementCount then readableElements else elementCount
  let margin := sizeSub buf.elementCount buf.readPos
  if margin < readElements then
    ⟨readElements, buf.readPos, margin, readElements - margin⟩
  else
    ⟨readElements, buf.readPos, readElements, 0⟩

def moveReadPtr (self : RingBuffer α) (elementCount : Int) :
    Option (Int × RingBuffer α) := do
  let freeElements := intOfSize self.availableWrite
  let readableElements := intOfSize self.availableRead
  let elementCount := if readableElements < elementCount then readableElements else elementCount
  let lowest ← intSub 0 freeElements
  let elementCount := if elementCount < lowest then lowest else elementCount
  let readPos ← intAdd (intOfSize self.readPos) elementCount
  let (readPos, rwWrap) ←
    if intOfSize self.elementCount < readPos then do
      -- Buffer wrap around. Restart read position and wrap indicator.
      let readPos ← intSub readPos (intOfSize self.elementCount)
      some (readPos, Wrap.sameWrap)
    else some (readPos, self.rwWrap)
  let (readPos, rwWrap) ←
    if readPos < 0 then do
      let readPos ← intAdd readPos (intOfSize self.elementCount)
      some (readPos, Wrap.diffWrap)
    else some (readPos, rwWrap)
  some (elementCount, { self with readPos := sizeOfInt readPos, rwWrap })

/-- `WebRtc_WriteBuffer`; `src` is the memory readable at `data`. -/
def writeBuffer (self : RingBuffer α) (src : List α) (elementCount : Nat) :
    Option (Nat × RingBuffer α) := do
  let freeElements := self.availableWrite
  let writeElements := if freeElements < elementCount then freeElements else elementCount
  let margin := sizeSub self.elementCount self.writePos
  let (self, n) ←
    if margin < writeElements then do
      -- Buffer wrap around when writing.
      let block ← memcpyFrom src 0 margin
      let data ← memcpyTo self.data self.writePos block
      some ({ self with data, writePos := 0, rwWrap := .diffWrap },
        writeElements - margin)
    else some (self, writeElements)
  let block ← memcpyFrom src (writeElements - n) n
  let data ← memcpyTo self.data self.writePos block
  some (writeElements,
    { self with data, writePos := sizeAdd self.writePos n })

/-- Where `*data_ptr` points after a read. -/
inductive DataPtr
  | null
  | ring (pos : Nat)
  | user
  deriving DecidableEq, Repr

/-- The result of a read: the returned count, the elements copied to `data`,
and `*data_ptr` when the caller passed one. -/
structure ReadOut (α : Type) where
  count : Nat
  copied : List α
  dataPtr : Option DataPtr

/-- `WebRtc_ReadBuffer`; `dataPtr` says whether the caller passed a non-null
`data_ptr`. -/
def readBuffer (self : RingBuffer α) (dataPtr : Bool) (elementCount : Nat) :
    Option (ReadOut α × RingBuffer α) := do
  let regions := self.getBufferReadRegions elementCount
  let (copied, bufPtr1) ←
    if 0 < regions.count2 then do
      let first ← memcpyFrom self.data regions.pos1 regions.count1
      let second ← memcpyFrom self.data 0 regions.count2
      some (first ++ second, DataPtr.user)
    else if dataPtr = false then do
      -- No wrap, but a memcpy was requested.
      let first ← memcpyFrom self.data regions.pos1 regions.count1
      some (first, DataPtr.ring regions.pos1)
    else some ([], DataPtr.ring regions.pos1)
  let target :=
    if dataPtr then
      some (if regions.readElements = 0 then DataPtr.null else bufPtr1)
    else none
  let (_, self) ← self.moveReadPtr (intOfSize regions.readElements)
  some (⟨regions.readElements, copied, target⟩, self)

/-- The elements the caller finds after a read: behind `*data_ptr` when it
was passed, in `data` otherwise. -/
def ReadOut.elements (out : ReadOut α) (self : RingBuffer α) :
    Option (List α) :=
  match out.dataPtr with
  | none => some out.copied
  | some .null => some []
  | some .user => some out.copied
  | some (.ring pos) => memcpyFrom self.data pos out.count

/-- The elements a read of everything would deliver, oldest first. -/
def unread (self : RingBuffer α) : List α :=
  match self.rwWrap with
  | .sameWrap => (self.data.drop self.readPos).take (self.writePos - self.readPos)
  | .diffWrap => self.data.drop self.readPos ++ self.data.take self.writePos

/-! ## The representation invariant -/

/-- The distance from the read position to the write position, as the wrap
flag has it. -/
def GapIs (n : Nat) (rb : RingBuffer α) (unread : Nat) : Prop :=
  match rb.rwWrap with
  | .sameWrap => rb.readPos + unread = rb.writePos
  | .diffWrap => rb.readPos + unread = rb.writePos + n

/-- A ring of `n` elements that holds the end of the tape `t`. -/
structure Layout (n : Nat) (zero : α) (rb : RingBuffer α) (t : Tape α) :
    Prop where
  count : rb.elementCount = n
  data_length : rb.data.length = n
  read_le : rb.readPos ≤ n
  write_le : rb.writePos ≤ n
  wf : t.WF n
  gap : GapIs n rb t.unread
  ring : rotated rb.data rb.writePos = window n zero t.cells

namespace Layout

variable {n : Nat} {zero : α} {rb : RingBuffer α} {t : Tape α}

theorem unread_le (h : Layout n zero rb t) : t.unread ≤ n := by
  have := h.wf.dist_le
  simp only [Tape.unread]
  omega

theorem availableRead (h : Layout n zero rb t) (hn : n < 2 ^ 64) : rb.availableRead = t.unread := by
  have hgap := h.gap
  have hr := h.read_le
  have hw := h.write_le
  have hu := h.unread_le
  unfold GapIs at hgap
  unfold RingBuffer.availableRead
  cases hwrap : rb.rwWrap with
  | sameWrap =>
    simp only [hwrap] at hgap
    simp only
    rw [sizeSub_of_le (by omega) (by omega)]
    omega
  | diffWrap =>
    simp only [hwrap] at hgap
    simp only [h.count]
    rw [sizeSub_of_le hr (by omega), sizeAdd_of_lt (by omega)]
    omega

theorem availableWrite (h : Layout n zero rb t) (hn : n < 2 ^ 64) :
    rb.availableWrite = n - t.unread := by
  have hu := h.unread_le
  rw [RingBuffer.availableWrite, h.availableRead hn, h.count, sizeSub_of_le hu (by omega)]

end Layout

variable {n : Nat} {rb : RingBuffer α} {t : Tape α} {zero : α}

theorem initBuffer_layout (zero : α) (hcount : rb.elementCount = n) :
    Layout n zero (rb.initBuffer zero) Tape.empty where
  count := hcount
  data_length := by simp [RingBuffer.initBuffer, hcount]
  read_le := Nat.zero_le _
  write_le := Nat.zero_le _
  wf := Tape.WF.empty n
  gap := by simp [GapIs, initBuffer, empty, Tape.unread, write]
  ring := by simp [RingBuffer.initBuffer, rotated_replicate, empty, hcount]

/-! ## Writing -/

theorem unread_append (h : t.WF n) (block : List α) :
    ({ t with cells := t.cells ++ block } : Tape α).unread = t.unread + block.length := by
  have := h.read_le
  simp only [Tape.unread, write, length_append] at *
  omega

theorem Layout.copyIn (h : Layout n zero rb t) (block : List α)
    (hfits : rb.writePos + block.length ≤ n) (hfree : t.unread + block.length ≤ n) :
    Layout n zero
      { rb with
        data := overwrite rb.data rb.writePos block
        writePos := rb.writePos + block.length }
      { t with cells := t.cells ++ block } := by
  have hunread := unread_append h.wf block
  have hlen := h.data_length
  refine
    { count := h.count
      data_length := by rw [overwrite_length (by omega), hlen]
      read_le := h.read_le
      write_le := hfits
      wf := ?_
      gap := ?_
      ring := ?_ }
  · have hle := h.wf.read_le
    simp only [Tape.unread, write] at hunread hfree hle
    constructor <;> simp only [write, length_append] <;> omega
  · have hgap := h.gap
    unfold GapIs at hgap ⊢
    cases hwrap : rb.rwWrap <;> simp only [hwrap] at hgap ⊢ <;> omega
  · rw [rotated_overwrite (by omega), h.ring, window_append]

theorem Layout.restartWrite (h : Layout n zero rb t) (hend : rb.writePos = n)
    (hwrap : rb.rwWrap = .sameWrap) :
    Layout n zero { rb with writePos := 0, rwWrap := .diffWrap } t := by
  have hgap := h.gap
  have hring := h.ring
  simp only [GapIs, hwrap] at hgap
  rw [hend, ← h.data_length, rotated_length, h.data_length] at hring
  exact
    { h with
      write_le := Nat.zero_le _
      gap := by simp only [GapIs]; omega
      ring := hring }

theorem Layout.same_of_margin_lt (h : Layout n zero rb t) (hlt : n - rb.writePos < n - t.unread) :
    rb.rwWrap = .sameWrap := by
  have hgap := h.gap
  have hr := h.read_le
  cases hwrap : rb.rwWrap with
  | sameWrap => rfl
  | diffWrap =>
    simp only [GapIs, hwrap] at hgap
    omega

/-- The positions and the flag after a write of `k` elements. -/
def afterWrite (n k : Nat) (rb : RingBuffer α) (data : List α) :
    RingBuffer α :=
  if n - rb.writePos < k then
    { rb with
      data, writePos := k - (n - rb.writePos), rwWrap := .diffWrap }
  else { rb with data, writePos := rb.writePos + k }

section Write

variable {n k : Nat} {zero : α} {rb : RingBuffer α} {t : Tape α}

private theorem writeCount_bounds {length free : Nat} (hk : k = min length free) :
    k ≤ length ∧ k ≤ free ∧ (if free < length then free else length) = k := by
  refine ⟨by omega, by omega, ?_⟩
  split <;> omega

variable (h : Layout n zero rb t) (hn : n < 2 ^ 64) (src : List α)
include h hn

private theorem writeBuffer_of_fits (hk : k = min src.length (n - t.unread))
    (hfits : k ≤ n - rb.writePos) :
    rb.writeBuffer src src.length =
        some (k, afterWrite n k rb (overwrite rb.data rb.writePos (src.take k))) ∧
      Layout n zero (afterWrite n k rb (overwrite rb.data rb.writePos (src.take k)))
        { t with cells := t.cells ++ src.take k } := by
  have hw := h.write_le
  have hu := h.unread_le
  have hlen := h.data_length
  obtain ⟨hsrc, hfree, hcount⟩ := writeCount_bounds hk
  have htake : (src.take k).length = k := length_take_of_le hsrc
  have hnowrap : ¬(n - rb.writePos < k) := by omega
  have hfinal := h.copyIn (src.take k) (by omega) (by omega)
  rw [htake] at hfinal
  refine ⟨?_, by simpa only [afterWrite, if_neg hnowrap] using hfinal⟩
  simp only [RingBuffer.writeBuffer, h.availableWrite hn, h.count,
    sizeSub_of_le hw hn, hcount, hnowrap, ↓reduceIte,
    afterWrite, bind_eq_bind, bind_some, Nat.sub_self]
  rw [memcpyFrom_eq_some (by omega)]
  simp only [bind_some, drop_zero]
  rw [memcpyTo_eq_some (by omega)]
  simp only [bind_some]
  rw [sizeAdd_of_lt (by omega)]

private theorem writeBuffer_of_wraps (hk : k = min src.length (n - t.unread))
    (hwrap : n - rb.writePos < k) :
    ∃ data, rb.writeBuffer src src.length = some (k, afterWrite n k rb data) ∧
      Layout n zero (afterWrite n k rb data) { t with cells := t.cells ++ src.take k } := by
  have hw := h.write_le
  have hlen := h.data_length
  obtain ⟨hsrc, hfree, hcount⟩ := writeCount_bounds hk
  generalize hm : n - rb.writePos = m at hwrap
  have hfirst : (src.take m).length = m := length_take_of_le (by omega)
  have hsecond : ((src.take k).drop m).length = k - m := by rw [length_drop, length_take_of_le hsrc]
  have hdrop : (src.drop m).take (k - m) = (src.take k).drop m := by rw [drop_take]
  have hjoin : src.take m ++ (src.take k).drop m = src.take k := by
    have hpre : src.take m = (src.take k).take m := by rw [take_take, Nat.min_eq_left (by omega)]
    rw [hpre, take_append_drop]
  have hmid := (h.copyIn (src.take m) (by omega) (by omega)).restartWrite
    (by simp only; omega) (h.same_of_margin_lt (by omega))
  have hunread := unread_append h.wf (src.take m)
  have hfinal := hmid.copyIn ((src.take k).drop m) (by simp only; omega) (by omega)
  simp only [append_assoc, hjoin, hsecond, Nat.zero_add] at hfinal
  refine ⟨overwrite (overwrite rb.data rb.writePos (src.take m)) 0 ((src.take k).drop m), ?_, ?_⟩
  · simp only [RingBuffer.writeBuffer, h.availableWrite hn, h.count,
      sizeSub_of_le hw hn, hm, hcount, hwrap, ↓reduceIte,
      afterWrite, bind_eq_bind]
    rw [memcpyFrom_eq_some (by omega)]
    simp only [drop_zero, bind_some]
    rw [memcpyTo_eq_some (by omega)]
    rw [show k - (k - m) = m by omega, memcpyFrom_eq_some (by omega), hdrop]
    simp only [bind_some]
    rw [memcpyTo_eq_some (by rw [overwrite_length (by omega)]; omega)]
    simp only [bind_some]
    rw [sizeAdd_of_lt (by omega), Nat.zero_add]
  · simpa only [afterWrite, hm, if_pos hwrap] using hfinal

theorem writeBuffer_layout :
    ∃ data,
      rb.writeBuffer src src.length =
        some ((t.append n src).1, afterWrite n (t.append n src).1 rb data) ∧
      Layout n zero (afterWrite n (t.append n src).1 rb data) (t.append n src).2 := by
  by_cases hwrap : n - rb.writePos < (t.append n src).1
  · exact writeBuffer_of_wraps h hn src rfl hwrap
  · exact ⟨_, writeBuffer_of_fits h hn src rfl (by omega)⟩

omit h hn

theorem writeBuffer_take (rb : RingBuffer α) {src : List α} {count : Nat}
    (hcount : count ≤ src.length) :
    rb.writeBuffer (src.take count) count = rb.writeBuffer src count := by
  simp only [RingBuffer.writeBuffer]
  generalize hwe : (if rb.availableWrite < count then rb.availableWrite
    else count) = k
  have hk : k ≤ count := by
    rw [← hwe]
    split <;> omega
  generalize sizeSub rb.elementCount rb.writePos = margin
  by_cases hwrap : margin < k
  · have hsecond : k - (k - margin) + (k - margin) ≤ count := by omega
    simp [if_pos hwrap, memcpyFrom_take hcount (show 0 + margin ≤ count by omega),
      memcpyFrom_take hcount hsecond]
  · simp only [if_neg hwrap, bind_eq_bind, bind_some,
      memcpyFrom_take hcount (show k - k + k ≤ count by omega)]

end Write

/-! ## Moving the read position -/

/-- The read position and the flag after a move by `e` elements. -/
def afterMove (n : Nat) (e : Int) (rb : RingBuffer α) : RingBuffer α :=
  if n < rb.readPos + e then
    { rb with readPos := (rb.readPos + e - n).toNat, rwWrap := .sameWrap }
  else if rb.readPos + e < 0 then
    { rb with readPos := (rb.readPos + e + n).toNat, rwWrap := .diffWrap }
  else { rb with readPos := (rb.readPos + e).toNat }

@[simp] theorem afterMove_data (n : Nat) (e : Int) (rb : RingBuffer α) :
    (afterMove n e rb).data = rb.data := by
  unfold afterMove
  split
  · rfl
  · split <;> rfl

@[simp] theorem afterMove_elementSize (n : Nat) (e : Int) (rb : RingBuffer α) :
    (afterMove n e rb).elementSize = rb.elementSize := by
  unfold afterMove
  split
  · rfl
  · split <;> rfl

section Move

variable {n : Nat} {zero : α} {rb : RingBuffer α} {t : Tape α}

private theorem clamp_eq_seek (h : Layout n zero rb t) (k : Int) :
    (if (if (t.unread : Int) < k then (t.unread : Int) else k) < -((n - t.unread : Nat) : Int) then
        -((n - t.unread : Nat) : Int)
      else if (t.unread : Int) < k then (t.unread : Int) else k) =
      (t.seek n k).1 := by
  have hu := h.unread_le
  rw [h.wf.seek_fst]
  omega

theorem seek_bounds (h : Layout n zero rb t) (k : Int) :
    -((n - t.unread : Nat) : Int) ≤ (t.seek n k).1 ∧ (t.seek n k).1 ≤ t.unread := by
  rw [h.wf.seek_fst]
  omega

private theorem moveReadPtr_eq (h : Layout n zero rb t) (hn : n < 2 ^ 31) (k : Int) :
    rb.moveReadPtr k =
      (intAdd rb.readPos (t.seek n k).1).bind fun _ =>
        some ((t.seek n k).1, afterMove n (t.seek n k).1 rb) := by
  have hr := h.read_le
  have hu := h.unread_le
  obtain ⟨hlo, hhi⟩ := seek_bounds h k
  have hneg : intSub 0 ((n - t.unread : Nat) : Int) = some (-((n - t.unread : Nat) : Int)) := by
    rw [intSub_eq_some (by unfold InInt; omega)]
    congr 1
    omega
  simp only [RingBuffer.moveReadPtr, h.availableWrite (show n < 2 ^ 64 by omega),
    h.availableRead (show n < 2 ^ 64 by omega), h.count, intOfSize_of_lt hn,
    intOfSize_of_lt (show rb.readPos < 2 ^ 31 by omega),
    intOfSize_of_lt (show t.unread < 2 ^ 31 by omega),
    intOfSize_of_lt (show n - t.unread < 2 ^ 31 by omega), hneg,
    bind_eq_bind, bind_some, clamp_eq_seek h k]
  generalize (t.seek n k).1 = e at hlo hhi ⊢
  by_cases hsum : InInt ((rb.readPos : Int) + e)
  · rw [intAdd_eq_some hsum]
    simp only [bind_some, afterMove, h.count]
    by_cases hover : (n : Int) < rb.readPos + e
    · have hnotneg : ¬((rb.readPos : Int) + e - n < 0) := by omega
      rw [if_pos hover, if_pos hover, intSub_eq_some (by unfold InInt; omega)]
      simp only [bind_some]
      rw [if_neg hnotneg, sizeOfInt_of_nonneg (by omega) (by omega)]
    · rw [if_neg hover, if_neg hover]
      by_cases hneg' : (rb.readPos : Int) + e < 0
      · rw [if_pos hneg', if_pos hneg', intAdd_eq_some (by unfold InInt; omega)]
        simp only [bind_some]
        rw [sizeOfInt_of_nonneg (by omega) (by omega)]
      · rw [if_neg hneg', if_neg hneg', sizeOfInt_of_nonneg (by omega) (by omega)]
  · rw [intAdd_eq_none hsum]
    rfl

private theorem Layout.moveRead {t' : Tape α} {pos : Nat} {wrap : Wrap}
    (h : Layout n zero rb t) (hpos : pos ≤ n) (hwf : t'.WF n) (hcells : t'.cells = t.cells)
    (hgap : GapIs n { rb with readPos := pos, rwWrap := wrap } t'.unread) :
    Layout n zero { rb with readPos := pos, rwWrap := wrap } t' :=
  { h with
    read_le := hpos
    wf := hwf
    gap := hgap
    ring := by
      rw [hcells]
      exact h.ring }

variable (h : Layout n zero rb t)
include h

private theorem afterMove_layout (k : Int) :
    Layout n zero (afterMove n (t.seek n k).1 rb) (t.seek n k).2 := by
  have hw := h.write_le
  have hgap := h.gap
  have hwf := wf_seek n t k
  obtain ⟨hlo, hhi⟩ := seek_bounds h k
  have hunread := h.wf.unread_seek k
  have hcells : (t.seek n k).2.cells = t.cells := rfl
  unfold GapIs at hgap
  -- Crossing the end is only possible with `diffWrap`, crossing the front
  -- only with `sameWrap`; elsewhere the flag stays.
  unfold afterMove
  split
  · refine h.moveRead ?_ hwf hcells ?_
    · cases hwrap : rb.rwWrap <;> simp only [hwrap] at hgap <;> omega
    · cases hwrap : rb.rwWrap <;> simp only [hwrap] at hgap <;>
        simp only [GapIs] <;> omega
  · split
    · refine h.moveRead (by omega) hwf hcells ?_
      cases hwrap : rb.rwWrap <;> simp only [hwrap] at hgap <;>
        simp only [GapIs] <;> omega
    · refine h.moveRead (by omega) hwf hcells ?_
      simp only [GapIs]
      cases hwrap : rb.rwWrap <;> simp only [hwrap] at hgap ⊢ <;> omega

theorem moveReadPtr_layout (hn : n < 2 ^ 31) (k : Int)
    (hsum : InInt (rb.readPos + (t.seek n k).1)) :
    rb.moveReadPtr k = some ((t.seek n k).1, afterMove n (t.seek n k).1 rb) ∧
      Layout n zero (afterMove n (t.seek n k).1 rb) (t.seek n k).2 := by
  refine ⟨?_, afterMove_layout h k⟩
  rw [moveReadPtr_eq h hn, intAdd_eq_some hsum]
  rfl

theorem moveReadPtr_overflow (hn : n < 2 ^ 31) (k : Int)
    (hsum : ¬InInt (rb.readPos + (t.seek n k).1)) : rb.moveReadPtr k = none := by
  rw [moveReadPtr_eq h hn, intAdd_eq_none hsum]
  rfl

theorem readPos_add_seek_inInt (hn : n < 2 ^ 30) (k : Int) :
    InInt (rb.readPos + (t.seek n k).1) := by
  have hr := h.read_le
  have hu := h.unread_le
  obtain ⟨hlo, hhi⟩ := seek_bounds h k
  unfold InInt
  omega

omit h

end Move

/-! ## Reading -/

section Read

variable {n m : Nat} {zero : α} {rb : RingBuffer α} {t : Tape α}

variable (h : Layout n zero rb t)
include h

theorem Layout.contents_sameWrap (hwrap : rb.rwWrap = .sameWrap) :
    t.contents zero = (rb.data.drop rb.readPos).take t.unread := by
  have hgap := h.gap
  have hw := h.write_le
  simp only [GapIs, hwrap] at hgap
  rw [contents_eq_window_drop h.wf, ← h.ring, ← h.data_length,
    rotated_drop_of_le (by rw [h.data_length]; omega) (by omega)]
  congr 2
  omega

theorem Layout.contents_diffWrap (hwrap : rb.rwWrap = .diffWrap) :
    t.contents zero = rb.data.drop rb.readPos ++ rb.data.take rb.writePos := by
  have hgap := h.gap
  have hr := h.read_le
  have hu := h.unread_le
  simp only [GapIs, hwrap] at hgap
  rw [contents_eq_window_drop h.wf, ← h.ring, ← h.data_length,
    rotated_drop_of_lt (by rw [h.data_length]; exact hgap) (by omega)
      (by rw [h.data_length]; exact hr)]

theorem Layout.unread_eq : rb.unread = t.contents zero := by
  have hgap := h.gap
  unfold unread
  cases hwrap : rb.rwWrap with
  | sameWrap =>
    simp only [GapIs, hwrap] at hgap
    rw [h.contents_sameWrap hwrap]
    simp only
    congr 1
    omega
  | diffWrap => rw [h.contents_diffWrap hwrap]

theorem Layout.unread_length : rb.unread.length = t.unread := by
  rw [h.unread_eq]
  exact slice_length ..

theorem Layout.slice_of_le (hm : m ≤ t.unread) (hmargin : m ≤ n - rb.readPos) :
    slice zero t.cells t.read m = (rb.data.drop rb.readPos).take m := by
  have hlen := h.data_length
  rw [← slice_take zero t.cells t.read hm]
  change (t.contents zero).take m = _
  cases hwrap : rb.rwWrap with
  | sameWrap =>
    rw [h.contents_sameWrap hwrap, take_take, Nat.min_eq_left hm]
  | diffWrap =>
    rw [h.contents_diffWrap hwrap, take_append_of_le_length (by simp; omega)]

theorem Layout.slice_of_lt (hm : m ≤ t.unread) (hmargin : n - rb.readPos < m) :
    slice zero t.cells t.read m =
      (rb.data.drop rb.readPos).take (n - rb.readPos) ++ rb.data.take (m - (n - rb.readPos)) := by
  have hlen := h.data_length
  have hgap := h.gap
  have hw := h.write_le
  rw [← slice_take zero t.cells t.read hm]
  change (t.contents zero).take m = _
  cases hwrap : rb.rwWrap with
  | sameWrap =>
    simp only [GapIs, hwrap] at hgap
    omega
  | diffWrap =>
    simp only [GapIs, hwrap] at hgap
    have hfirst : (rb.data.drop rb.readPos).length = n - rb.readPos := by simp; omega
    have hall : (rb.data.drop rb.readPos).take m =
        (rb.data.drop rb.readPos).take (n - rb.readPos) := by
      rw [take_of_length_le (by omega), take_of_length_le (by omega)]
    rw [h.contents_diffWrap hwrap, take_append, hfirst, take_take, Nat.min_eq_left (by omega), hall]

theorem seek_unread (k : Nat) :
    t.seek n (min k t.unread : Nat) = (((min k t.unread : Nat) : Int), (t.consume zero k).2) := by
  have hu := h.unread_le
  have hdistance : (t.seek n (min k t.unread : Nat)).1 = (min k t.unread : Nat) := by
    rw [h.wf.seek_fst]
    omega
  refine Prod.ext hdistance ?_
  rw [seek_snd, hdistance]
  rfl

theorem readBuffer_layout (hn : n < 2 ^ 31) (dataPtr : Bool) (k : Nat)
    (hsum : InInt (rb.readPos + (min k t.unread : Nat))) :
    ∃ out, rb.readBuffer dataPtr k = some (out, afterMove n (min k t.unread : Nat) rb) ∧
      out.count = min k t.unread ∧
      out.elements (afterMove n (min k t.unread : Nat) rb) = some (t.consume zero k).1 ∧
      Layout n zero (afterMove n (min k t.unread : Nat) rb) (t.consume zero k).2 := by
  have hr := h.read_le
  have hu := h.unread_le
  have hlen := h.data_length
  have hseek := seek_unread h k
  have hmove := moveReadPtr_layout h hn (min k t.unread : Nat) (by rw [hseek]; exact hsum)
  rw [hseek] at hmove
  have hslice : (t.consume zero k).1 = slice zero t.cells t.read (min k t.unread) := rfl
  have hcount : (if t.unread < k then t.unread else k) = min k t.unread := by split <;> omega
  generalize hm : min k t.unread = m at *
  have hmu : m ≤ t.unread := by omega
  have hint : intOfSize m = m := intOfSize_of_lt (by omega)
  have hregions : rb.getBufferReadRegions k =
      if n - rb.readPos < m then
        ⟨m, rb.readPos, n - rb.readPos, m - (n - rb.readPos)⟩
      else ⟨m, rb.readPos, m, 0⟩ := by
    have hn' : n < 2 ^ 64 := by omega
    simp only [RingBuffer.getBufferReadRegions, h.availableRead hn', h.count,
      sizeSub_of_le hr hn', hcount]
  by_cases hwrap : n - rb.readPos < m
  · have hpos : 0 < m - (n - rb.readPos) := by omega
    have hm0 : m ≠ 0 := by omega
    refine ⟨⟨m, (rb.data.drop rb.readPos).take (n - rb.readPos) ++
      rb.data.take (m - (n - rb.readPos)), if dataPtr then some .user else none⟩,
      ?_, rfl, ?_, hmove.2⟩
    · simp only [RingBuffer.readBuffer, hregions, if_pos hwrap, hpos]
      rw [memcpyFrom_eq_some (by omega), memcpyFrom_eq_some (by omega)]
      simp [hint, hmove.1, if_neg hm0]
    · rw [hslice, h.slice_of_lt hmu hwrap]
      cases dataPtr <;> simp [RingBuffer.ReadOut.elements]
  · refine ⟨⟨m, if dataPtr then [] else (rb.data.drop rb.readPos).take m,
      if dataPtr then some (if m = 0 then .null else .ring rb.readPos) else none⟩,
      ?_, rfl, ?_, hmove.2⟩
    · simp only [RingBuffer.readBuffer, hregions, if_neg hwrap]
      cases dataPtr with
      | false =>
        rw [memcpyFrom_eq_some (by omega)]
        simp [hint, hmove.1]
      | true => simp [hint, hmove.1]
    · rw [hslice, h.slice_of_le hmu (by omega)]
      cases dataPtr with
      | false => simp [RingBuffer.ReadOut.elements]
      | true =>
        by_cases hm0 : m = 0
        · simp [RingBuffer.ReadOut.elements, hm0]
        · simp only [RingBuffer.ReadOut.elements, hm0, ↓reduceIte, afterMove_data]
          rw [memcpyFrom_eq_some (by omega)]

theorem readBuffer_overflow (hn : n < 2 ^ 31) (dataPtr : Bool) (k : Nat)
    (hsum : ¬InInt (rb.readPos + (min k t.unread : Nat))) :
    rb.readBuffer dataPtr k = none := by
  have hu := h.unread_le
  have hmove : rb.moveReadPtr (min k t.unread : Nat) = none :=
    moveReadPtr_overflow h hn _ (by rw [seek_unread h k]; exact hsum)
  have hcount : (rb.getBufferReadRegions k).readElements = min k t.unread := by
    have hmin : (if t.unread < k then t.unread else k) = min k t.unread := by split <;> omega
    simp only [RingBuffer.getBufferReadRegions, h.availableRead (show n < 2 ^ 64 by omega), hmin]
    split <;> rfl
  have hint : intOfSize (min k t.unread) = (min k t.unread : Nat) := intOfSize_of_lt (by omega)
  simp only [RingBuffer.readBuffer, hcount, hint, hmove, bind_eq_bind,
    bind_none, bind_fun_none, ite_self]

omit h

end Read

/-! ## What the calls leave alone -/

section Frame

variable {rb rb' : RingBuffer α}

theorem writeBuffer_frame {src : List α} {count k : Nat}
    (h : rb.writeBuffer src count = some (k, rb')) :
    rb'.elementCount = rb.elementCount ∧ rb'.elementSize = rb.elementSize ∧
      rb'.readPos = rb.readPos := by
  simp only [RingBuffer.writeBuffer, bind_eq_bind] at h
  generalize (if rb.availableWrite < count then rb.availableWrite else count) = m at h
  split at h <;>
    simp only [bind_some, bind_eq_some_iff] at h
  · obtain ⟨_, -, _, -, _, -, _, -, -, rfl⟩ := h
    exact ⟨rfl, rfl, rfl⟩
  · obtain ⟨_, -, _, -, -, rfl⟩ := h
    exact ⟨rfl, rfl, rfl⟩

theorem moveReadPtr_frame {count moved : Int} (h : rb.moveReadPtr count = some (moved, rb')) :
    rb'.elementCount = rb.elementCount ∧ rb'.elementSize = rb.elementSize := by
  simp only [RingBuffer.moveReadPtr, bind_eq_bind, bind_eq_some_iff] at h
  obtain ⟨_, -, _, -, h⟩ := h
  -- the wrap at the end of the ring and the one at its start
  split at h
  · simp only [bind_some, bind_eq_some_iff] at h
    obtain ⟨_, -, h⟩ := h
    split at h <;>
      simp only [bind_eq_some_iff, some.injEq] at h
    · obtain ⟨_, -, -, rfl⟩ := h
      exact ⟨rfl, rfl⟩
    · obtain ⟨-, rfl⟩ := h
      exact ⟨rfl, rfl⟩
  · simp only [bind_some] at h
    split at h <;>
      simp only [bind_eq_some_iff, some.injEq] at h
    · obtain ⟨_, -, -, rfl⟩ := h
      exact ⟨rfl, rfl⟩
    · obtain ⟨-, rfl⟩ := h
      exact ⟨rfl, rfl⟩

theorem readBuffer_moves {dataPtr : Bool} {count : Nat} {out : RingBuffer.ReadOut α}
    (h : rb.readBuffer dataPtr count = some (out, rb')) :
    ∃ count' moved, rb.moveReadPtr count' = some (moved, rb') := by
  simp only [RingBuffer.readBuffer, bind_eq_bind] at h
  generalize intOfSize (rb.getBufferReadRegions count).readElements = count' at h
  refine ⟨count', ?_⟩
  cases hmove : rb.moveReadPtr count' with
  | none => simp [hmove] at h
  | some r =>
    refine ⟨r.1, ?_⟩
    simp only [hmove, bind_some] at h
    split at h
    · simp only [bind_eq_some_iff, some.injEq, Prod.mk.injEq] at h
      obtain ⟨_, -, _, -, -, h⟩ := h
      rw [← h]
    · split at h
      · simp only [bind_eq_some_iff, some.injEq, Prod.mk.injEq] at h
        obtain ⟨_, -, -, h⟩ := h
        rw [← h]
      · simp only [some.injEq, Prod.mk.injEq] at h
        rw [← h.2]

end Frame

/-! ## Runs -/

/-- One call on a ring. -/
inductive Op (α : Type)
  | write (xs : List α)
  | read (dataPtr : Bool) (count : Nat)
  | move (count : Int)
  | init

/-- What the caller observes of one call. -/
inductive Obs (α : Type)
  | wrote (count : Nat)
  | got (count : Nat) (xs : List α)
  | moved (count : Int)
  | reset

/-- One call on the ring. -/
def step (zero : α) (rb : RingBuffer α) : Op α → Option (Obs α × RingBuffer α)
  | .write xs =>
    (rb.writeBuffer xs xs.length).bind fun r => some (.wrote r.1, r.2)
  | .read dataPtr count =>
    (rb.readBuffer dataPtr count).bind fun r =>
      (r.1.elements r.2).bind fun xs => some (.got r.1.count xs, r.2)
  | .move count =>
    (rb.moveReadPtr count).bind fun r => some (.moved r.1, r.2)
  | .init => some (.reset, rb.initBuffer zero)

/-- The same call on the tape. -/
def tapeStep (n : Nat) (zero : α) (t : Tape α) : Op α → Obs α × Tape α
  | .write xs => (.wrote (t.append n xs).1, (t.append n xs).2)
  | .read _ count =>
    (.got (min count t.unread) (t.consume zero count).1,
     (t.consume zero count).2)
  | .move count => (.moved (t.seek n count).1, (t.seek n count).2)
  | .init => (.reset, Tape.empty)

def RefinesTape (n size : Nat) (zero : α) (ops : List (Op α)) : Prop :=
  ∃ rb obs rb' t,
    RingBuffer.createBuffer zero n size = some rb ∧
    runM (step zero) rb ops = some (obs, rb') ∧
    runT (tapeStep n zero) Tape.empty ops = (obs, t) ∧
    t.WF n ∧
    rb'.availableRead = t.unread ∧
    rb'.availableWrite = n - t.unread

section Runs

variable {n size : Nat} {zero : α}

theorem createBuffer_layout (hn : 0 < n) (hsize : 0 < size) (zero : α) :
    ∃ rb, RingBuffer.createBuffer zero n size = some rb ∧ Layout n zero rb Tape.empty ∧
      rb.readPos = 0 ∧ rb.writePos = 0 ∧ rb.rwWrap = .sameWrap ∧ rb.elementSize = size := by
  have hne : ¬(n = 0 ∨ size = 0) := by omega
  exact ⟨_, if_neg hne, initBuffer_layout zero rfl, rfl, rfl, rfl, rfl⟩

theorem step_layout (hn : n < 2 ^ 30) (rb : RingBuffer α) (t : Tape α)
    (op : Op α) (h : Layout n zero rb t) :
    ∃ rb', step zero rb op = some ((tapeStep n zero t op).1, rb') ∧
      Layout n zero rb' (tapeStep n zero t op).2 := by
  have hn' : n < 2 ^ 31 := by omega
  cases op with
  | write xs =>
    obtain ⟨data, hwrite, hlayout⟩ := writeBuffer_layout h (by omega) xs
    exact ⟨_, by simp [step, hwrite, tapeStep], hlayout⟩
  | read dataPtr count =>
    have hsum : InInt (rb.readPos + (min count t.unread : Nat)) := by
      have hr := h.read_le
      have hu := h.unread_le
      unfold InInt
      omega
    obtain ⟨out, hread, hcount, helements, hlayout⟩ := readBuffer_layout h hn' dataPtr count hsum
    refine ⟨_, ?_, hlayout⟩
    simp only [step, hread, bind_some, helements, hcount, tapeStep]
  | move count =>
    obtain ⟨hmove, hlayout⟩ := moveReadPtr_layout h hn' count (readPos_add_seek_inInt h hn count)
    exact ⟨_, by simp [step, hmove, tapeStep], hlayout⟩
  | init => exact ⟨_, rfl, initBuffer_layout zero h.count⟩

theorem refinesTape_of_lt (hpos : 0 < n) (hn : n < 2 ^ 30) (hsize : 0 < size)
    (ops : List (Op α)) : RefinesTape n size zero ops := by
  obtain ⟨rb, hcreate, hlayout, -⟩ := createBuffer_layout hpos hsize zero
  obtain ⟨rb', hrun, hlayout'⟩ := runM_simulates (step_layout hn) ops rb empty hlayout
  exact ⟨rb, _, rb', _, hcreate, hrun, rfl, hlayout'.wf,
    hlayout'.availableRead (by omega), hlayout'.availableWrite (by omega)⟩

variable {rb : RingBuffer α} {t : Tape α}

variable (h : Layout n zero rb t) (hn : n < 2 ^ 31)
include h hn

private theorem step_fill (hempty : t.unread = 0) :
    ∃ o data t', step zero rb (.write (List.replicate n zero)) = some (o, afterWrite n n rb data) ∧
      Layout n zero (afterWrite n n rb data) t' ∧ t'.unread = n := by
  obtain ⟨data, hwrite, hlayout⟩ := writeBuffer_layout h (by omega) (replicate n zero)
  have hk : (t.append n (replicate n zero)).1 = n := by simp [append, hempty]
  have hunread := unread_append h.wf ((replicate n zero).take n)
  rw [hk] at hwrite hlayout
  refine ⟨.wrote n, data, _, by simp only [step, hwrite, bind_some], hlayout, ?_⟩
  have htape : (t.append n (replicate n zero)).2 =
      { t with cells := t.cells ++ (replicate n zero).take n } := by
    simp [append, hempty]
  rw [htape, hunread, hempty]
  simp

private theorem step_drain (hfull : t.unread = n) (hsum : InInt (rb.readPos + n)) :
    ∃ o t', step zero rb (.read false n) = some (o, afterMove n n rb) ∧
      Layout n zero (afterMove n n rb) t' ∧ t'.unread = 0 := by
  have hm : min n t.unread = n := by omega
  obtain ⟨out, hread, -, helements, hlayout⟩ :=
    readBuffer_layout h hn false n (by rw [hm]; exact hsum)
  rw [hm] at hread helements hlayout
  refine ⟨_, _, by simp only [step, hread, bind_some, helements]; rfl, hlayout, ?_⟩
  simp only [consume, Tape.unread, write] at hm hfull ⊢
  omega

private theorem step_drain_overflow (hfull : t.unread = n) (hsum : ¬InInt (rb.readPos + n)) :
    step zero rb (.read false n) = none := by
  have hm : min n t.unread = n := by omega
  have hread := readBuffer_overflow h hn false n (by rw [hm]; exact hsum)
  simp [step, hread]

omit h hn

/-- Fill the ring, empty it, fill it again from the end position, and read:
the read position and the count are then both `n`. -/
def overflowRun (n : Nat) (zero : α) : List (Op α) :=
  [.write (List.replicate n zero), .read false n,
   .write (List.replicate n zero), .read false n]

theorem not_refinesTape_overflowRun (hn : 2 ^ 30 ≤ n) (hn' : n < 2 ^ 31)
    (hsize : 0 < size) : ¬RefinesTape n size zero (overflowRun n zero) := by
  rintro ⟨rb, obs, rb', t, hcreate, hrun, -⟩
  obtain ⟨rb₀, hcreate₀, h₀, hr₀, hw₀, -⟩ := createBuffer_layout (show 0 < n by omega) hsize zero
  obtain rfl : rb₀ = rb := by
    rw [hcreate₀] at hcreate
    exact some.inj hcreate
  -- Fill: the write position rests at the end.
  obtain ⟨o₁, d₁, t₁, hs₁, h₁, hu₁⟩ := step_fill h₀ hn' (by rfl)
  have hrb₁ : afterWrite n n rb₀ d₁ = { rb₀ with data := d₁, writePos := n } := by
    rw [afterWrite, hw₀, if_neg (by omega), Nat.zero_add]
  -- Empty: the read position rests at the end too.
  rw [hrb₁] at hs₁ h₁
  obtain ⟨o₂, t₂, hs₂, h₂, hu₂⟩ := step_drain h₁ hn' hu₁ (by simp only [hr₀]; unfold InInt; omega)
  have hrb₂ : afterMove n n { rb₀ with data := d₁, writePos := n } =
      { rb₀ with data := d₁, writePos := n, readPos := n } := by
    unfold afterMove
    simp only [hr₀]
    rw [if_neg (by omega), if_neg (by omega)]
    congr 1
    omega
  -- Fill again: the write wraps, and both positions are `n`.
  rw [hrb₂] at hs₂ h₂
  obtain ⟨o₃, d₃, t₃, hs₃, h₃, hu₃⟩ := step_fill h₂ hn' hu₂
  have hread₃ : (afterWrite n n
      { rb₀ with data := d₁, writePos := n, readPos := n } d₃).readPos = n := by
    unfold afterWrite
    split <;> rfl
  have hs₄ := step_drain_overflow h₃ hn' hu₃ (by rw [hread₃]; unfold InInt; omega)
  rw [overflowRun, runM_cons_of_step hs₁, runM_cons_of_step hs₂,
    runM_cons_of_step hs₃, runM_cons_of_none hs₄] at hrun
  simp at hrun

/-- **The ring refines the tape exactly below `2 ^ 30` elements.**  For every
element count that fits an `int`, every run of writes, reads, moves and
resets agrees with the two-cursor tape if and only if the sum of two
positions also fits an `int`. -/
theorem ringBuffer_refines_tape_iff (zero : α) (hpos : 0 < n) (hn : n < 2 ^ 31) (hsize : 0 < size) :
    (∀ ops : List (Op α), RefinesTape n size zero ops) ↔ n < 2 ^ 30 := by
  constructor
  · intro hall
    by_cases hlt : n < 2 ^ 30
    · exact hlt
    · exact absurd (hall (overflowRun n zero)) (not_refinesTape_overflowRun (by omega) hn hsize)
  · intro hlt ops
    exact refinesTape_of_lt hpos hlt hsize ops

theorem ringBuffer_refines_tape_four :
    4 < 2 ^ 30 ∧ ∀ ops : List (Op UInt8), RefinesTape 4 1 0 ops :=
  ⟨by decide, (ringBuffer_refines_tape_iff (0 : UInt8) (by decide) (by decide)
    (by decide)).2 (by decide)⟩

/-- A ring of `2 ^ 30` bytes leaves the tape when it is filled and drained
twice. -/
theorem ringBuffer_two_pow_thirty_not_refines :
    ¬RefinesTape (2 ^ 30) 1 (0 : UInt8) (overflowRun (2 ^ 30) 0) :=
  not_refinesTape_overflowRun (by decide) (by decide) (by decide)

end Runs

end RingBuffer

end WebrtcCore.Ports
