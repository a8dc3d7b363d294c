import WebrtcCore.Ports.RingBuffer

/-!
# The expandable byte ring (`audio/utility/common_tool.cc`)

`RingBufferWrapper` owns a C ring of one-byte elements.  In expandable mode a write that does not
fit doubles the capacity until it does, copying the unread bytes into a new ring; from
`kMaxBufferSize` on the wrapper overwrites the oldest bytes.

`AdjustCapacity` copies a first block of `write_pos - read_pos` bytes, a `size_t` difference.
When the unread bytes wrap around the end of the old ring it is huge, and the copy reads past the
allocation.  `Torn` names these states; nothing else goes wrong.
-/

namespace WebrtcCore.Ports

open Verified CMemory Simulation Tape Ports.RingBuffer Option

namespace RingBufferWrapper

/-! ## The C entry points on a possibly null handle -/

/-- A `RingBuffer*` to bytes; `none` is the null pointer. -/
abbrev Handle := Option (RingBuffer UInt8)

def webRtcAvailableRead : Handle → Nat
  | none => 0
  | some rb => rb.availableRead

/-- `WebRtc_InitBuffer`, which dereferences its argument unconditionally. -/
def webRtcInitBuffer : Handle → Option Handle
  | none => none
  | some rb => some (some (rb.initBuffer 0))

def webRtcMoveReadPtr : Handle → Int → Option (Int × Handle)
  | none, _ => some (0, none)
  | some rb, count =>
    (rb.moveReadPtr count).bind fun r => some (r.1, some r.2)

def webRtcWriteBuffer : Handle → List UInt8 → Nat → Option (Nat × Handle)
  | none, _, _ => some (0, none)
  | some rb, src, count =>
    (rb.writeBuffer src count).bind fun r => some (r.1, some r.2)

/-- `WebRtc_ReadBuffer`, and the bytes its caller finds. -/
def webRtcReadBuffer : Handle → Bool → Nat → Option (List UInt8 × Handle)
  | none, _, _ => some ([], none)
  | some rb, dataPtr, count =>
    (rb.readBuffer dataPtr count).bind fun r =>
      (r.1.elements r.2).bind fun xs => some (xs, some r.2)

/-! ## The wrapper -/

end RingBufferWrapper

structure RingBufferWrapper where
  buffHandle : RingBufferWrapper.Handle
  autoAdjustCapacity : Bool
  deriving DecidableEq

namespace RingBufferWrapper

def kMaxBufferSize : Nat := 50 * 1024 * 1024

def create (capacity : Nat) (autoAdjustCapacity : Bool) : RingBufferWrapper :=
  ⟨RingBuffer.createBuffer 0 capacity 1, autoAdjustCapacity⟩

def bufferCurrentSize (self : RingBufferWrapper) : Nat := webRtcAvailableRead self.buffHandle

def bufferCapacity (self : RingBufferWrapper) : Nat :=
  match self.buffHandle with
  | none => 0
  | some rb => sizeMul rb.elementCount rb.elementSize

/-- Both overloads of `BufferRead`; the one with `out_size` passes a
`data_ptr`. -/
def bufferRead (self : RingBufferWrapper) (dataPtr : Bool) (size : Nat) :
    Option (List UInt8 × RingBufferWrapper) := do
  let (xs, handle) ← webRtcReadBuffer self.buffHandle dataPtr size
  some (xs, { self with buffHandle := handle })

def clear (self : RingBufferWrapper) : Option RingBufferWrapper := do
  let handle ← webRtcInitBuffer self.buffHandle
  some { self with buffHandle := handle }

def bufferSeek (self : RingBufferWrapper) (offset : Int) :
    Option (Int × RingBufferWrapper) := do
  let (moved, handle) ← webRtcMoveReadPtr self.buffHandle offset
  some (moved, { self with buffHandle := handle })

def expansionLoop (currentSize writeSize : Nat) : Nat → Nat → Option Nat
  | 0, _ => none
  | fuel + 1, newSize =>
    if sizeSub newSize currentSize < writeSize then
      expansionLoop currentSize writeSize fuel (sizeMul newSize 2)
    else some newSize

def calculatedExpansionCapacity (self : RingBufferWrapper) (writeSize : Nat) :
    Option Nat := do
  let newSize ←
    expansionLoop self.bufferCurrentSize writeSize 65 self.bufferCapacity
  some (if kMaxBufferSize < newSize then kMaxBufferSize else newSize)

/-- The copy of `AdjustCapacity` out of the old ring, whose raw positions
give the size of the first block. -/
def copyUnread (old : RingBuffer UInt8) (readSize : Nat) (new : Handle) :
    Option Handle := do
  let difference := sizeSub old.writePos old.readPos
  let readSize1 :=
    if 0 < difference then difference
    else sizeSub old.elementCount old.readPos
  let (_, new) ← webRtcWriteBuffer new
    (old.data.drop (old.readPos * old.elementSize)) readSize1
  if readSize1 < readSize then do
    let (_, new) ← webRtcWriteBuffer new old.data (sizeSub readSize readSize1)
    some new
  else some new

def adjustCapacity (self : RingBufferWrapper) (capacity : Nat) :
    Option RingBufferWrapper :=
  if capacity < self.bufferCurrentSize ∨ capacity = self.bufferCapacity then
    some self
  else do
    let new := RingBuffer.createBuffer 0 capacity 1
    let readSize := self.bufferCurrentSize
    let handle ←
      if 0 < readSize then do
        let old ← self.buffHandle
        copyUnread old readSize new
      else some new
    some { self with buffHandle := handle }

/-- What `BufferWrite` does in expandable mode with the capacity it has found. -/
def expandTo (self : RingBufferWrapper) (size capacity : Nat) :
    Option RingBufferWrapper := do
  let self ← self.adjustCapacity capacity
  if kMaxBufferSize ≤ self.bufferCapacity then
    let self := { self with autoAdjustCapacity := false }
    if sizeSub self.bufferCapacity self.bufferCurrentSize < size then do
      let (_, handle) ← webRtcMoveReadPtr self.buffHandle
        (intOfSize (sizeAdd (sizeSub size self.bufferCapacity)
          self.bufferCurrentSize))
      some { self with buffHandle := handle }
    else some self
  else some self

/-- The part of `BufferWrite` that makes room in expandable mode. -/
def expand (self : RingBufferWrapper) (size : Nat) : Option RingBufferWrapper :=
  (self.calculatedExpansionCapacity size).bind (self.expandTo size)

def bufferWrite (self : RingBufferWrapper) (data : List UInt8) :
    Option (Nat × RingBufferWrapper) := do
  let sizeCanbeWrite := sizeSub self.bufferCapacity self.bufferCurrentSize
  let self ←
    if sizeCanbeWrite < data.length then
      if self.autoAdjustCapacity then self.expand data.length
      else do
        -- The extra data is thrown away.
        let (_, handle) ← webRtcMoveReadPtr self.buffHandle
          (intOfSize (sizeSub data.length sizeCanbeWrite))
        some { self with buffHandle := handle }
    else some self
  let (written, handle) ← webRtcWriteBuffer self.buffHandle data data.length
  some (written, { self with buffHandle := handle })

/-- The unread bytes. -/
def unread (self : RingBufferWrapper) : List UInt8 :=
  match self.buffHandle with
  | none => []
  | some rb => rb.unread

/-- The unread bytes wrap around the end of the ring and do not fill it: the
states in which `write_pos - read_pos` is negative. -/
def Torn (self : RingBufferWrapper) : Prop :=
  match self.buffHandle with
  | none => False
  | some rb =>
    rb.rwWrap = .diffWrap ∧ rb.writePos < rb.readPos ∧ 0 < rb.availableRead

instance (self : RingBufferWrapper) : Decidable self.Torn := by
  unfold Torn
  split <;> infer_instance

/-! ## Copying into a fresh ring -/

section Copy

variable {n cap : Nat} {rb new : RingBuffer UInt8} {t t₀ : Tape UInt8}

theorem webRtcWriteBuffer_appends (h : Layout cap 0 new t₀) (hcap : cap < 2 ^ 64) (src : List UInt8)
    (count : Nat) (hcount : count ≤ src.length) (hfit : t₀.unread + count ≤ cap) :
    ∃ new' t', webRtcWriteBuffer (some new) src count = some (count, some new') ∧
      Layout cap 0 new' t' ∧ new'.elementSize = new.elementSize ∧
      t'.contents 0 = t₀.contents 0 ++ src.take count := by
  have hlen : (src.take count).length = count := by simp; omega
  obtain ⟨data, hwrite, hlayout⟩ := writeBuffer_layout h hcap (src.take count)
  obtain ⟨hk, hcontents⟩ := Tape.contents_append h.wf 0
    (show t₀.unread + (src.take count).length ≤ cap by omega)
  rw [hlen, writeBuffer_take new hcount] at hwrite
  refine ⟨_, _, ?_, hlayout, ?_, hcontents⟩
  · simp [webRtcWriteBuffer, hwrite, hk, hlen]
  · unfold afterWrite
    split <;> rfl

theorem webRtcWriteBuffer_fresh (h : Layout cap 0 new Tape.empty) (hcap : cap < 2 ^ 64)
    (src : List UInt8) (count : Nat) (hcount : count ≤ src.length) (hfit : count ≤ cap) :
    ∃ new' t', webRtcWriteBuffer (some new) src count = some (count, some new') ∧
      Layout cap 0 new' t' ∧ new'.elementSize = new.elementSize ∧
      t'.contents 0 = src.take count :=
  webRtcWriteBuffer_appends h hcap src count hcount (show 0 + count ≤ cap by omega)

theorem writeBuffer_of_free_le (rb : RingBuffer UInt8) (src : List UInt8)
    (count : Nat) (h : rb.availableWrite ≤ count) :
    rb.writeBuffer src count = rb.writeBuffer src rb.availableWrite := by
  have hmin : (if rb.availableWrite < count then rb.availableWrite else count) =
      rb.availableWrite := by
    split <;> omega
  simp [RingBuffer.writeBuffer, hmin]

theorem writeBuffer_overrun (rb : RingBuffer UInt8) {src : List UInt8} {count : Nat}
    (hsrc : src.length < min rb.availableWrite count) :
    rb.writeBuffer src count = none := by
  have hk : (if rb.availableWrite < count then rb.availableWrite else count) =
      min rb.availableWrite count := by
    split <;> omega
  simp only [RingBuffer.writeBuffer, hk]
  generalize min rb.availableWrite count = k at hsrc
  generalize sizeSub rb.elementCount rb.writePos = margin
  -- the second block ends where the source should, wrapped or not
  by_cases hwrap : margin < k
  · have hsecond : memcpyFrom src (k - (k - margin)) (k - margin) = none :=
      memcpyFrom_eq_none (by omega)
    simp [if_pos hwrap, hsecond]
  · have hall : memcpyFrom src (k - k) k = none := memcpyFrom_eq_none (by omega)
    simp only [if_neg hwrap, hall, bind_eq_bind, bind_some, bind_none]

/-- The unread bytes are copied into the new ring. -/
def Copies (rb new : RingBuffer UInt8) (t : Tape UInt8) (cap : Nat) : Prop :=
  ∃ new' t', copyUnread rb t.unread (some new) = some (some new') ∧
    Layout cap 0 new' t' ∧ new'.elementSize = new.elementSize ∧ t'.contents 0 = t.contents 0

variable (h : Layout n 0 rb t) (hn : n < 2 ^ 63) (hsize : rb.elementSize = 1)
  (hnew : Layout cap 0 new Tape.empty) (hcap : cap < 2 ^ 64)
include h hn hsize hnew hcap

private theorem copyUnread_layout (hunread : 0 < t.unread) (hfit : t.unread ≤ cap)
    (hsafe : ¬(rb.rwWrap = .diffWrap ∧ rb.writePos < rb.readPos)) : Copies rb new t cap := by
  have hgap := h.gap
  have hr := h.read_le
  have hw := h.write_le
  have hlen := h.data_length
  cases hwrap : rb.rwWrap with
  | sameWrap =>
    simp only [GapIs, hwrap] at hgap
    have hdiff : sizeSub rb.writePos rb.readPos = t.unread := by
      rw [sizeSub_of_le (by omega) (by omega)]
      omega
    obtain ⟨new', t', hwrite, hlayout, hes, hcontents⟩ :=
      webRtcWriteBuffer_fresh hnew hcap (rb.data.drop rb.readPos) t.unread (by simp; omega) hfit
    refine ⟨new', t', ?_, hlayout, hes, by rw [hcontents, h.contents_sameWrap hwrap]⟩
    simp [copyUnread, hdiff, hunread, hsize, hwrite]
  | diffWrap =>
    simp only [GapIs, hwrap] at hgap
    have hu := h.unread_le
    have hfull : rb.writePos = rb.readPos := by
      have : ¬(rb.writePos < rb.readPos) := fun hlt => hsafe ⟨hwrap, hlt⟩
      omega
    have hdiff : sizeSub rb.writePos rb.readPos = 0 := by
      rw [sizeSub_of_le (by omega) (by omega)]
      omega
    have hmargin : sizeSub rb.elementCount rb.readPos = n - rb.readPos := by
      rw [h.count, sizeSub_of_le hr (by omega)]
    obtain ⟨new₁, t₁, hwrite₁, hlayout₁, hes₁, hcontents₁⟩ :=
      webRtcWriteBuffer_fresh hnew hcap (rb.data.drop rb.readPos)
        (n - rb.readPos) (by simp; omega) (by omega)
    rw [List.take_of_length_le (by simp; omega)] at hcontents₁
    have hunread₁ : t₁.unread = n - rb.readPos := by
      rw [← t₁.contents_length 0, hcontents₁, List.length_drop, hlen]
    by_cases hmore : n - rb.readPos < t.unread
    · obtain ⟨new₂, t₂, hwrite₂, hlayout₂, hes₂, hcontents₂⟩ :=
        webRtcWriteBuffer_appends hlayout₁ hcap rb.data
          (t.unread - (n - rb.readPos)) (by omega) (by omega)
      have hrest : t.unread - (n - rb.readPos) = rb.writePos := by omega
      refine ⟨new₂, t₂, ?_, hlayout₂, by rw [hes₂, hes₁], ?_⟩
      · simp [copyUnread, hdiff, hmargin, hsize, hwrite₁, hmore,
          sizeSub_of_le (Nat.le_of_lt hmore) (show t.unread < 2 ^ 64 by omega), hwrite₂]
      · rw [hcontents₂, hcontents₁, hrest, h.contents_diffWrap hwrap]
    · have hnone : rb.writePos = 0 := by omega
      refine ⟨new₁, t₁, ?_, hlayout₁, hes₁, ?_⟩
      · simp [copyUnread, hdiff, hmargin, hsize, hwrite₁, hmore]
      · rw [hcontents₁, h.contents_diffWrap hwrap, hnone, List.take_zero, List.append_nil]

section Torn

variable (hwrap : rb.rwWrap = .diffWrap) (hlt : rb.writePos < rb.readPos)
include hwrap hlt

private theorem copyUnread_torn (hfit : t.unread ≤ cap)
    (hexact : ¬(rb.writePos = 0 ∧ cap = t.unread)) :
    copyUnread rb t.unread (some new) = none := by
  have hgap := h.gap
  have hr := h.read_le
  have hlen := h.data_length
  simp only [GapIs, hwrap] at hgap
  have hdiff := sizeSub_of_lt hlt (show rb.readPos < 2 ^ 64 by omega)
  have hpos : 0 < 2 ^ 64 - (rb.readPos - rb.writePos) := by omega
  have hfree : new.availableWrite = cap := hnew.availableWrite hcap
  have hnone : new.writeBuffer (rb.data.drop rb.readPos)
      (2 ^ 64 - (rb.readPos - rb.writePos)) = none :=
    writeBuffer_overrun new (by rw [List.length_drop]; omega)
  simp only [copyUnread, hdiff, hpos, ↓reduceIte, hsize,
    Nat.mul_one, webRtcWriteBuffer, hnone, bind_eq_bind, bind_none]

private theorem copyUnread_exact (hwp : rb.writePos = 0) (hexact : cap = t.unread) :
    Copies rb new t cap := by
  have hgap := h.gap
  have hlen := h.data_length
  simp only [GapIs, hwrap] at hgap
  have hfree : new.availableWrite = cap := hnew.availableWrite hcap
  have hdiff := sizeSub_of_lt hlt (show rb.readPos < 2 ^ 64 by omega)
  have hpos : 0 < 2 ^ 64 - (rb.readPos - rb.writePos) := by omega
  have hless : ¬(2 ^ 64 - (rb.readPos - rb.writePos) < t.unread) := by omega
  obtain ⟨new', t', hwrite, hlayout, hes, hcontents⟩ := webRtcWriteBuffer_fresh hnew hcap
    (rb.data.drop rb.readPos) cap (by simp; omega) (Nat.le_refl cap)
  have hclamp := writeBuffer_of_free_le new (rb.data.drop rb.readPos)
    (2 ^ 64 - (rb.readPos - rb.writePos)) (by omega)
  rw [hfree] at hclamp
  simp only [webRtcWriteBuffer] at hwrite
  refine ⟨new', t', ?_, hlayout, hes, ?_⟩
  · simp only [copyUnread, hdiff, hpos, ↓reduceIte, hsize,
      Nat.mul_one, webRtcWriteBuffer, hclamp, hwrite, hless,
      bind_eq_bind, bind_some]
  · rw [hcontents, h.contents_diffWrap hwrap, hwp, List.take_zero, List.append_nil]
    exact List.take_of_length_le (by simp; omega)

end Torn

end Copy

/-! ## What a wrapper holds -/

/-- A wrapper around a ring of `n` bytes that holds the tape `t`. -/
structure Holds (w : RingBufferWrapper) (n : Nat) (rb : RingBuffer UInt8)
    (t : Tape UInt8) : Prop where
  handle : w.buffHandle = some rb
  layout : Layout n 0 rb t
  size : rb.elementSize = 1
  lt : n < 2 ^ 31

namespace Holds

variable {w : RingBufferWrapper} {n : Nat} {rb : RingBuffer UInt8}
  {t : Tape UInt8}

variable (h : Holds w n rb t)
include h

theorem bufferCurrentSize : w.bufferCurrentSize = t.unread := by
  have := h.lt
  rw [RingBufferWrapper.bufferCurrentSize, h.handle]
  exact h.layout.availableRead (by omega)

theorem bufferCapacity : w.bufferCapacity = n := by
  have := h.lt
  simp only [RingBufferWrapper.bufferCapacity, h.handle, sizeMul, h.layout.count, h.size]
  omega

theorem unread : w.unread = t.contents 0 := by
  rw [RingBufferWrapper.unread, h.handle]
  exact h.layout.unread_eq

theorem unread_length : w.unread.length = t.unread := by
  rw [h.unread]
  exact slice_length ..

theorem free : sizeSub w.bufferCapacity w.bufferCurrentSize = n - t.unread := by
  have := h.lt
  rw [h.bufferCapacity, h.bufferCurrentSize, sizeSub_of_le h.layout.unread_le (by omega)]

theorem write_fits (data : List UInt8) (hfit : t.unread + data.length ≤ n) :
    ∃ rb' t', webRtcWriteBuffer w.buffHandle data data.length = some (data.length, some rb') ∧
      Holds { w with buffHandle := some rb' } n rb' t' ∧
      t'.contents 0 = t.contents 0 ++ data ∧ rb'.readPos = rb.readPos := by
  have hlt := h.lt
  obtain ⟨rb', t', hwrite, hlayout, hes, hcontents⟩ :=
    webRtcWriteBuffer_appends h.layout (by omega) data data.length (Nat.le_refl _) hfit
  rw [List.take_length] at hcontents
  refine ⟨rb', t', by rw [h.handle, hwrite], ⟨rfl, hlayout, hes.trans h.size, hlt⟩, hcontents, ?_⟩
  simp only [webRtcWriteBuffer, bind_eq_some_iff] at hwrite
  obtain ⟨⟨k, rb₁⟩, hwritten, -, rfl⟩ := hwrite
  exact (writeBuffer_frame hwritten).2.2

theorem write_some (data : List UInt8) :
    ∃ k rb' t', webRtcWriteBuffer w.buffHandle data data.length = some (k, some rb') ∧
      Holds { w with buffHandle := some rb' } n rb' t' := by
  have hlt := h.lt
  obtain ⟨cells, hwrite, hlayout⟩ := writeBuffer_layout h.layout (by omega) data
  refine ⟨(t.append n data).1, _, _, ?_, rfl, hlayout,
    (writeBuffer_frame hwrite).2.1.trans h.size, hlt⟩
  simp [webRtcWriteBuffer, h.handle, hwrite]

theorem bufferRead (dataPtr : Bool) (size : Nat)
    (hsum : InInt (rb.readPos + (min size t.unread : Nat))) :
    ∃ t', w.bufferRead dataPtr size = some ((t.contents 0).take size,
        { w with buffHandle := some (afterMove n (min size t.unread : Nat) rb) }) ∧
      Holds { w with buffHandle := some (afterMove n (min size t.unread : Nat) rb) } n
        (afterMove n (min size t.unread : Nat) rb) t' ∧
      t'.contents 0 = (t.contents 0).drop size := by
  obtain ⟨out, hread, -, helements, hlayout⟩ := readBuffer_layout h.layout h.lt dataPtr size hsum
  obtain ⟨htake, hdrop⟩ := Tape.contents_consume h.layout.wf 0 size
  refine ⟨_, ?_, ⟨rfl, hlayout, by simpa using h.size, h.lt⟩, hdrop⟩
  simp only [RingBufferWrapper.bufferRead, webRtcReadBuffer, h.handle, hread,
    bind_some, helements, htake, bind_eq_bind]

theorem moveReadPtr (count : Int) (hsum : InInt (rb.readPos + (t.seek n count).1)) :
    webRtcMoveReadPtr w.buffHandle count =
        some ((t.seek n count).1, some (afterMove n (t.seek n count).1 rb)) ∧
      Holds { w with buffHandle := some (afterMove n (t.seek n count).1 rb) } n
        (afterMove n (t.seek n count).1 rb) (t.seek n count).2 := by
  obtain ⟨hmove, hlayout⟩ := moveReadPtr_layout h.layout h.lt count hsum
  refine ⟨?_, rfl, hlayout, by simpa using h.size, h.lt⟩
  simp [webRtcMoveReadPtr, h.handle, hmove]

theorem moveReadPtr_overflow (count : Int) (hsum : ¬InInt (rb.readPos + (t.seek n count).1)) :
    webRtcMoveReadPtr w.buffHandle count = none := by
  simp [webRtcMoveReadPtr, h.handle, RingBuffer.moveReadPtr_overflow h.layout h.lt count hsum]

theorem clear :
    w.clear = some { w with buffHandle := some (rb.initBuffer 0) } ∧
      Holds { w with buffHandle := some (rb.initBuffer 0) } n (rb.initBuffer 0) Tape.empty := by
  refine ⟨?_, rfl, initBuffer_layout 0 h.layout.count, h.size, h.lt⟩
  simp [RingBufferWrapper.clear, webRtcInitBuffer, h.handle]

omit h

end Holds

theorem create_holds {c : Nat} (hpos : 0 < c) (hc : c < 2 ^ 31) (auto : Bool) :
    ∃ rb, Holds (create c auto) c rb Tape.empty ∧ rb.readPos = 0 := by
  obtain ⟨rb, hcreate, hlayout, hread, -, -, hsize⟩ :=
    createBuffer_layout hpos Nat.one_pos (0 : UInt8)
  exact ⟨rb, ⟨hcreate, hlayout, hsize, hc⟩, hread⟩

/-! ## The wrapper's invariant -/

/-- A wrapper around a ring of `n` bytes that holds the tape `t`, in
expandable mode unless the capacity has reached its limit. -/
structure Sound (w : RingBufferWrapper) (n : Nat) (rb : RingBuffer UInt8)
    (t : Tape UInt8) : Prop extends Holds w n rb t where
  pos : 0 < n
  le : n ≤ kMaxBufferSize
  mode : w.autoAdjustCapacity = true ∨ n = kMaxBufferSize

namespace Sound

variable {w : RingBufferWrapper} {n : Nat} {rb : RingBuffer UInt8}
  {t : Tape UInt8}

variable (h : Sound w n rb t)
include h

theorem torn_iff : w.Torn ↔ rb.rwWrap = .diffWrap ∧ rb.writePos < rb.readPos ∧ 0 < t.unread := by
  have := h.lt
  simp only [RingBufferWrapper.Torn, h.handle, h.layout.availableRead (show n < 2 ^ 64 by omega)]

omit h

end Sound

theorem create_sound {c : Nat} (hpos : 0 < c) (hle : c ≤ kMaxBufferSize) :
    ∃ rb, Sound (create c true) c rb Tape.empty := by
  obtain ⟨rb, h, -⟩ := create_holds hpos (Nat.lt_of_le_of_lt hle (by decide)) true
  exact ⟨rb, h, hpos, hle, .inl rfl⟩

/-! ## Changing the capacity -/

def AdjustSafe (w : RingBufferWrapper) (capacity : Nat) : Prop :=
  capacity = w.bufferCapacity ∨ ¬w.Torn ∨
    ∃ rb, w.buffHandle = some rb ∧ rb.writePos = 0 ∧
      capacity = w.bufferCurrentSize

section Adjust

variable {w : RingBufferWrapper} {n cap : Nat} {rb : RingBuffer UInt8}
  {t : Tape UInt8}

theorem adjustCapacity_safe (h : Sound w n rb t) (hpos : 0 < cap)
    (hcap : cap < 2 ^ 64) (hfit : t.unread ≤ cap) (hsafe : AdjustSafe w cap) :
    ∃ rb' t', w.adjustCapacity cap = some { w with buffHandle := some rb' } ∧
      Layout cap 0 rb' t' ∧ rb'.elementSize = 1 ∧
      t'.contents 0 = t.contents 0 := by
  have hlt := h.lt
  by_cases hsame : cap = n
  · refine ⟨rb, t, ?_, hsame ▸ h.layout, h.size, rfl⟩
    have hguard : cap < w.bufferCurrentSize ∨ cap = w.bufferCapacity :=
      .inr (by rw [h.bufferCapacity, hsame])
    rw [adjustCapacity, if_pos hguard, ← h.handle]
  · have hguard : ¬(cap < t.unread ∨ cap = n) := by omega
    obtain ⟨new, hcreate, hnew, -, -, -, hes⟩ := createBuffer_layout hpos Nat.one_pos (0 : UInt8)
    by_cases hunread : 0 < t.unread
    · have hcopy : Copies rb new t cap := by
        by_cases htorn : rb.rwWrap = .diffWrap ∧ rb.writePos < rb.readPos
        · obtain hsame' | hnot | ⟨rb₁, hrb₁, hwp₁, hexact⟩ := hsafe
          · exact absurd (hsame'.trans h.bufferCapacity) hsame
          · exact absurd (h.torn_iff.2 ⟨htorn.1, htorn.2, hunread⟩) hnot
          · obtain rfl : rb = rb₁ := by
              rw [h.handle] at hrb₁
              exact some.inj hrb₁
            exact copyUnread_exact h.layout (by omega) h.size hnew hcap htorn.1 htorn.2
              hwp₁ (hexact.trans h.bufferCurrentSize)
        · exact copyUnread_layout h.layout (by omega) h.size hnew hcap hunread hfit htorn
      obtain ⟨new', t', hcopied, hlayout, hes', hcontents⟩ := hcopy
      refine ⟨new', t', ?_, hlayout, hes'.trans hes, hcontents⟩
      simp [adjustCapacity, h.bufferCurrentSize, h.bufferCapacity, if_neg hguard,
        hcreate, hunread, h.handle, hcopied]
    · refine ⟨new, Tape.empty, ?_, hnew, hes, ?_⟩
      · simp [adjustCapacity, h.bufferCurrentSize, h.bufferCapacity,
          if_neg hguard, hcreate, hunread]
      · have hzero : t.unread = 0 := by omega
        simp only [Tape.contents, hzero]
        rfl

theorem adjustCapacity_eq_none (h : Sound w n rb t) (hpos : 0 < cap)
    (hcap : cap < 2 ^ 64) (hfit : t.unread ≤ cap) (hsafe : ¬AdjustSafe w cap) :
    w.adjustCapacity cap = none := by
  have hlt := h.lt
  simp only [AdjustSafe, h.bufferCapacity, h.bufferCurrentSize, not_or, Decidable.not_not] at hsafe
  obtain ⟨hne, htorn, hexact⟩ := hsafe
  obtain ⟨hwrap, hltp, hunread⟩ := h.torn_iff.1 htorn
  have hguard : ¬(cap < t.unread ∨ cap = n) := by omega
  obtain ⟨new, hcreate, hnew, -⟩ := createBuffer_layout hpos Nat.one_pos (0 : UInt8)
  have hnone := copyUnread_torn h.layout (by omega) h.size hnew hcap hwrap
    hltp hfit (fun hboth => hexact ⟨rb, h.handle, hboth.1, hboth.2⟩)
  simp [adjustCapacity, h.bufferCurrentSize, h.bufferCapacity, if_neg hguard,
    hcreate, hunread, h.handle, hnone]

end Adjust

/-! ## Making room for a write -/

theorem expansionLoop_spec {cur write : Nat} (hmax : cur + write ≤ 2 ^ 62) :
    ∀ (fuel s : Nat), cur ≤ s → s ≤ 2 ^ 62 → cur + write ≤ s * 2 ^ fuel →
      ∃ s', expansionLoop cur write (fuel + 1) s = some s' ∧ cur + write ≤ s' ∧ s ≤ s' := by
  intro fuel
  induction fuel with
  | zero =>
    intro s hcur hs hbound
    refine ⟨s, ?_, by omega, Nat.le_refl s⟩
    rw [expansionLoop, sizeSub_of_le hcur (by omega), if_neg (by omega)]
  | succ fuel ih =>
    intro s hcur hs hbound
    rw [expansionLoop, sizeSub_of_le hcur (by omega)]
    by_cases hless : s - cur < write
    · have hdouble : sizeMul s 2 = s * 2 := Nat.mod_eq_of_lt (by omega)
      have hbound' : cur + write ≤ s * 2 * 2 ^ fuel := by
        rw [Nat.pow_succ, Nat.mul_comm (2 ^ fuel) 2, ← Nat.mul_assoc] at hbound
        exact hbound
      by_cases hcap : s * 2 ≤ 2 ^ 62
      · obtain ⟨s', hloop, hroom, hle⟩ := ih (s * 2) (by omega) hcap hbound'
        exact ⟨s', by rw [if_pos hless, hdouble, hloop], hroom, by omega⟩
      · -- One more doubling already exceeds every admissible request.
        refine ⟨s * 2, ?_, by omega, by omega⟩
        rw [if_pos hless, hdouble, expansionLoop.eq_2,
          sizeSub_of_le (by omega) (by omega), if_neg (by omega)]
    · exact ⟨s, if_neg hless, by omega, Nat.le_refl s⟩

section Expand

variable {w : RingBufferWrapper} {n size : Nat} {rb : RingBuffer UInt8}
  {t : Tape UInt8}

variable (h : Sound w n rb t) (hadm : t.unread + size ≤ kMaxBufferSize)
  (hneed : n - t.unread < size)
include h hadm hneed

theorem calculatedExpansionCapacity_spec :
    ∃ cap, w.calculatedExpansionCapacity size = some cap ∧
      n < cap ∧ cap ≤ kMaxBufferSize ∧ cap < 2 ^ 30 ∧ t.unread + size ≤ cap := by
  have hu := h.layout.unread_le
  have hpos := h.pos
  have hmax : kMaxBufferSize < 2 ^ 30 := by decide
  obtain ⟨s, hloop, hroom, hle⟩ := @expansionLoop_spec t.unread size (by omega) 64 n hu
    (by omega) (by omega)
  refine ⟨if kMaxBufferSize < s then kMaxBufferSize else s, ?_, ?_, ?_, ?_, ?_⟩
  · simp [calculatedExpansionCapacity, h.bufferCurrentSize, h.bufferCapacity, hloop]
  all_goals split <;> omega

theorem expand_safe (htorn : ¬w.Torn) :
    ∃ w' cap rb' t', w.expand size = some w' ∧ Sound w' cap rb' t' ∧
      t'.contents 0 = t.contents 0 ∧ t.unread + size ≤ cap := by
  obtain ⟨cap, hcalc, hgt, hle, hcap, hroom⟩ := calculatedExpansionCapacity_spec h hadm hneed
  obtain ⟨rb', t', hadjust, hlayout, hes, hcontents⟩ :=
    adjustCapacity_safe h (show 0 < cap by omega) (by omega) (by omega) (.inr (.inl htorn))
  have hunread : t'.unread = t.unread := by
    rw [← t'.contents_length 0, hcontents, t.contents_length]
  have hauto : w.autoAdjustCapacity = true := h.mode.resolve_right (by omega)
  have hsound : ∀ mode, (mode = true ∨ cap = kMaxBufferSize) →
      Sound ⟨some rb', mode⟩ cap rb' t' := fun mode hmode =>
    ⟨⟨rfl, hlayout, hes, by omega⟩, by omega, hle, hmode⟩
  have hsound' := hsound w.autoAdjustCapacity (.inl hauto)
  have hcap' := hsound'.bufferCapacity
  by_cases hlimit : kMaxBufferSize ≤ cap
  · have hsound'' := hsound false (.inr (by omega))
    refine ⟨_, cap, rb', t', ?_, hsound'', hcontents, hroom⟩
    have hfree : ¬(sizeSub cap t.unread < size) := by
      rw [sizeSub_of_le (by omega) (by omega)]
      omega
    simp [expand, expandTo, hcalc, hadjust, hcap', hlimit, hsound''.bufferCapacity,
      hsound''.bufferCurrentSize, hunread, hfree]
  · refine ⟨_, cap, rb', t', ?_, hsound', hcontents, hroom⟩
    simp [expand, expandTo, hcalc, hadjust, hcap', hlimit]

theorem expand_torn (htorn : w.Torn) : w.expand size = none := by
  obtain ⟨cap, hcalc, hgt, hle, hcap, hroom⟩ := calculatedExpansionCapacity_spec h hadm hneed
  have hnone : w.adjustCapacity cap = none := by
    refine adjustCapacity_eq_none h (by omega) (by omega) (by omega) ?_
    rintro (hsame | hnot | ⟨_, _, _, hexact⟩)
    · rw [h.bufferCapacity] at hsame
      omega
    · exact hnot htorn
    · rw [h.bufferCurrentSize] at hexact
      omega
  simp [expand, expandTo, hcalc, hnone]

omit h hadm hneed

end Expand

/-! ## The operations of a run -/

/-- One call on a wrapper. -/
inductive Op
  | write (data : List UInt8)
  | read (dataPtr : Bool) (size : Nat)
  | seek (offset : Int)
  | clear

/-- What the caller observes of one call. -/
inductive Obs
  | wrote (size : Nat)
  | got (data : List UInt8)
  | moved (distance : Int)
  | cleared
  deriving DecidableEq

def step (w : RingBufferWrapper) : Op → Option (Obs × RingBufferWrapper)
  | .write data => (w.bufferWrite data).bind fun r => some (.wrote r.1, r.2)
  | .read dataPtr size =>
    (w.bufferRead dataPtr size).bind fun r => some (.got r.1, r.2)
  | .seek offset => (w.bufferSeek offset).bind fun r => some (.moved r.1, r.2)
  | .clear => w.clear.bind fun w' => some (.cleared, w')

/-- A write finds at most `kMaxBufferSize` bytes together with its own. -/
def Admissible (w : RingBufferWrapper) : Op → Prop
  | .write data => w.unread.length + data.length ≤ kMaxBufferSize
  | _ => True

instance (w : RingBufferWrapper) (op : Op) : Decidable (Admissible w op) := by
  cases op <;> unfold Admissible <;> infer_instance

/-- A write that has to make room does not find torn bytes. -/
def ExpansionSafe (w : RingBufferWrapper) : Op → Prop
  | .write data =>
    w.bufferCapacity - w.bufferCurrentSize < data.length → ¬w.Torn
  | _ => True

instance (w : RingBufferWrapper) (op : Op) : Decidable (ExpansionSafe w op) := by
  cases op <;> unfold ExpansionSafe <;> infer_instance

def StepSpec (w : RingBufferWrapper) (op : Op) : Prop :=
  match op with
  | .write data =>
    ∃ w', step w op = some (.wrote data.length, w') ∧
      w'.unread = w.unread ++ data
  | .read _ size =>
    ∃ w', step w op = some (.got (w.unread.take size), w') ∧
      w'.unread = w.unread.drop size
  | .seek _ => ∃ distance w', step w op = some (.moved distance, w')
  | .clear => ∃ w', step w op = some (.cleared, w') ∧ w'.unread = []

/-- What `AdjustCapacity` owes its caller. -/
def AdjustSpec (w : RingBufferWrapper) (capacity : Nat) : Prop :=
  ∃ w', w.adjustCapacity capacity = some w' ∧ w'.unread = w.unread

section Steps

variable {w : RingBufferWrapper} {n : Nat} {rb : RingBuffer UInt8}
  {t : Tape UInt8}

variable (h : Sound w n rb t)
include h

private theorem sound_of_holds {rb' : RingBuffer UInt8} {t' : Tape UInt8}
    (h' : Holds { w with buffHandle := some rb' } n rb' t') :
    Sound { w with buffHandle := some rb' } n rb' t' := ⟨h', h.pos, h.le, h.mode⟩

theorem bufferWrite_safe {data : List UInt8} (hadm : t.unread + data.length ≤ kMaxBufferSize)
    (hsafe : n - t.unread < data.length → ¬w.Torn) :
    ∃ w' n' rb' t', w.bufferWrite data = some (data.length, w') ∧
      Sound w' n' rb' t' ∧ t'.contents 0 = t.contents 0 ++ data := by
  have hu := h.layout.unread_le
  have hfree := h.free
  by_cases hneed : n - t.unread < data.length
  · have hauto : w.autoAdjustCapacity = true := h.mode.resolve_right (by omega)
    obtain ⟨w₁, cap, rb₁, t₁, hexpand, hsound₁, hcontents₁, hroom⟩ :=
      expand_safe h hadm hneed (hsafe hneed)
    have hunread₁ : t₁.unread = t.unread := by
      rw [← t₁.contents_length 0, hcontents₁, t.contents_length]
    obtain ⟨rb', t', hwrite, hholds, hcontents, -⟩ := hsound₁.write_fits data (by omega)
    refine ⟨_, cap, rb', t', ?_, sound_of_holds hsound₁ hholds, by rw [hcontents, hcontents₁]⟩
    simp [bufferWrite, hfree, if_pos hneed, hauto, hexpand, hwrite]
  · obtain ⟨rb', t', hwrite, hholds, hcontents, -⟩ := h.write_fits data (by omega)
    refine ⟨_, n, rb', t', ?_, sound_of_holds h hholds, hcontents⟩
    simp [bufferWrite, hfree, if_neg hneed, hwrite]

theorem bufferWrite_torn {data : List UInt8} (hadm : t.unread + data.length ≤ kMaxBufferSize)
    (hneed : n - t.unread < data.length) (htorn : w.Torn) :
    w.bufferWrite data = none := by
  have hfree := h.free
  have hauto : w.autoAdjustCapacity = true := h.mode.resolve_right (by omega)
  simp [bufferWrite, hfree, if_pos hneed, hauto, expand_torn h hadm hneed htorn]

theorem bufferRead_sound (dataPtr : Bool) (size : Nat) :
    ∃ w' rb' t', w.bufferRead dataPtr size = some ((t.contents 0).take size, w') ∧
      Sound w' n rb' t' ∧ t'.contents 0 = (t.contents 0).drop size := by
  have hlt : n < 2 ^ 30 := Nat.lt_of_le_of_lt h.le (by decide)
  have hr := h.layout.read_le
  have hu := h.layout.unread_le
  obtain ⟨t', hread, hholds, hdrop⟩ := h.bufferRead dataPtr size (by unfold InInt; omega)
  exact ⟨_, _, t', hread, sound_of_holds h hholds, hdrop⟩

theorem bufferSeek_sound (offset : Int) :
    ∃ distance w' rb' t', w.bufferSeek offset = some (distance, w') ∧ Sound w' n rb' t' := by
  have hsum := readPos_add_seek_inInt h.layout (Nat.lt_of_le_of_lt h.le (by decide)) offset
  obtain ⟨hmove, hholds⟩ := h.moveReadPtr offset hsum
  refine ⟨(t.seek n offset).1, _, _, _, ?_, sound_of_holds h hholds⟩
  simp [bufferSeek, hmove]

theorem clear_sound : ∃ w' rb', w.clear = some w' ∧ Sound w' n rb' Tape.empty := by
  obtain ⟨hclear, hholds⟩ := h.clear
  exact ⟨_, _, hclear, sound_of_holds h hholds⟩

theorem step_safe (op : Op) (hadm : Admissible w op) (hsafe : ExpansionSafe w op) :
    StepSpec w op ∧ ∃ o w' n' rb' t', step w op = some (o, w') ∧ Sound w' n' rb' t' := by
  cases op with
  | write data =>
    simp only [Admissible, h.unread_length] at hadm
    simp only [ExpansionSafe, h.bufferCapacity, h.bufferCurrentSize] at hsafe
    obtain ⟨w', n', rb', t', hwrite, hsound, hcontents⟩ := bufferWrite_safe h hadm hsafe
    have hstep : step w (.write data) = some (.wrote data.length, w') := by simp [step, hwrite]
    exact ⟨⟨w', hstep, by rw [hsound.unread, h.unread, hcontents]⟩,
      _, w', n', rb', t', hstep, hsound⟩
  | read dataPtr size =>
    obtain ⟨w', rb', t', hread, hsound, hcontents⟩ := bufferRead_sound h dataPtr size
    have hstep : step w (.read dataPtr size) = some (.got (w.unread.take size), w') := by
      simp [step, hread, h.unread]
    exact ⟨⟨w', hstep, by rw [hsound.unread, h.unread, hcontents]⟩,
      _, w', n, rb', t', hstep, hsound⟩
  | seek offset =>
    obtain ⟨distance, w', rb', t', hseek, hsound⟩ := bufferSeek_sound h offset
    have hstep : step w (.seek offset) = some (.moved distance, w') := by simp [step, hseek]
    exact ⟨⟨distance, w', hstep⟩, _, w', n, rb', t', hstep, hsound⟩
  | clear =>
    obtain ⟨w', rb', hclear, hsound⟩ := clear_sound h
    have hstep : step w .clear = some (.cleared, w') := by simp [step, hclear]
    exact ⟨⟨w', hstep, by rw [hsound.unread]; rfl⟩, _, w', n, rb', _, hstep, hsound⟩

theorem stepSpec_iff (op : Op) (hadm : Admissible w op) : StepSpec w op ↔ ExpansionSafe w op := by
  refine ⟨fun hspec => ?_, fun hsafe => (step_safe h op hadm hsafe).1⟩
  cases op with
  | write data =>
    simp only [Admissible, h.unread_length] at hadm
    simp only [ExpansionSafe, h.bufferCapacity, h.bufferCurrentSize]
    intro hneed htorn
    obtain ⟨w', hstep, -⟩ := hspec
    simp only [step, bufferWrite_torn h hadm hneed htorn] at hstep
    cases hstep
  | read dataPtr size => trivial
  | seek offset => trivial
  | clear => trivial

theorem adjustSpec_iff {capacity : Nat} (hpos : 0 < capacity) (hcap : capacity < 2 ^ 64)
    (hfit : w.bufferCurrentSize ≤ capacity) :
    AdjustSpec w capacity ↔ AdjustSafe w capacity := by
  rw [h.bufferCurrentSize] at hfit
  constructor
  · rintro ⟨w', hadjust, -⟩
    apply Classical.byContradiction
    intro htorn
    rw [adjustCapacity_eq_none h hpos hcap hfit htorn] at hadjust
    cases hadjust
  · intro hsafe
    obtain ⟨rb', t', hadjust, hlayout, -, hcontents⟩ := adjustCapacity_safe h hpos hcap hfit hsafe
    refine ⟨_, hadjust, ?_⟩
    rw [h.unread, ← hcontents]
    exact hlayout.unread_eq

omit h

end Steps

/-! ## Runs -/

theorem run_sound (ops : List Op) (w : RingBufferWrapper) (n : Nat)
    (rb : RingBuffer UInt8) (t : Tape UInt8) (h : Sound w n rb t)
    (hall : Along step (fun w op => Admissible w op ∧ ExpansionSafe w op) w ops) :
    ∃ obs w' n' rb' t', runM step w ops = some (obs, w') ∧ Sound w' n' rb' t' := by
  induction ops generalizing w n rb t with
  | nil => exact ⟨[], w, n, rb, t, rfl, h⟩
  | cons op rest ih =>
    obtain ⟨hadm, hsafe⟩ := hall.head
    obtain ⟨-, o, w₁, n₁, rb₁, t₁, hstep, hsound⟩ := step_safe h op hadm hsafe
    obtain ⟨obs, w', n', rb', t', hrun, hsound'⟩ := ih w₁ n₁ rb₁ t₁ hsound (hall.tail hstep)
    exact ⟨o :: obs, w', n', rb', t', by rw [runM_cons_of_step hstep, hrun]; rfl, hsound'⟩

/-- The state reached by `ops` owes its caller every admissible operation and
every change of capacity. -/
def KeepsData (c : Nat) (ops : List Op) : Prop :=
  ∃ obs w, runM step (create c true) ops = some (obs, w) ∧
    (∀ op, Admissible w op → StepSpec w op) ∧
    ∀ capacity, 0 < capacity → capacity < 2 ^ 64 →
      w.bufferCurrentSize ≤ capacity → AdjustSpec w capacity

/-- **An expandable wrapper keeps its data except across a torn copy.**  In
every state reached by writes that make room only while the unread bytes are
not torn, an admissible operation meets its specification exactly when it
does not have to make room for torn bytes, and `AdjustCapacity` keeps the
unread bytes exactly for the capacities in `AdjustSafe`. -/
theorem expandable_keeps_data_iff (c : Nat) (hpos : 1 ≤ c) (hle : c ≤ kMaxBufferSize)
    (ops : List Op)
    (hall : Along step (fun w op => Admissible w op ∧ ExpansionSafe w op) (create c true) ops) :
    ∃ obs w, runM step (create c true) ops = some (obs, w) ∧
      (∀ op, Admissible w op → (StepSpec w op ↔ ExpansionSafe w op)) ∧
      ∀ capacity, 0 < capacity → capacity < 2 ^ 64 → w.bufferCurrentSize ≤ capacity →
        (AdjustSpec w capacity ↔ AdjustSafe w capacity) := by
  obtain ⟨rb, hsound⟩ := create_sound hpos hle
  obtain ⟨obs, w, n, rb', t, hrun, hsound'⟩ := run_sound ops _ c rb Tape.empty hsound hall
  exact ⟨obs, w, hrun, fun op hadm => stepSpec_iff hsound' op hadm,
    fun capacity hcap hlt hfit => adjustSpec_iff hsound' hcap hlt hfit⟩

/-- A run of a four-byte buffer whose last write wraps: two of the three
unread bytes are at the end of the ring and one is at the front. -/
def tornRun : List Op := [.write [1, 2, 3], .read false 2, .write [4, 5]]

theorem tornRun_keeps_data_iff :
    ∃ obs w, runM step (create 4 true) tornRun = some (obs, w) ∧
      (∀ op, Admissible w op → (StepSpec w op ↔ ExpansionSafe w op)) ∧
      ∀ capacity, 0 < capacity → capacity < 2 ^ 64 → w.bufferCurrentSize ≤ capacity →
        (AdjustSpec w capacity ↔ AdjustSafe w capacity) :=
  expandable_keeps_data_iff 4 (by decide) (by decide) tornRun (by decide +kernel)

/-- The state `tornRun` ends in. -/
def tornState : RingBufferWrapper where
  buffHandle := some
    { readPos := 2, writePos := 1, elementCount := 4, elementSize := 1,
      rwWrap := .diffWrap, data := [5, 2, 3, 4] }
  autoAdjustCapacity := true

/-- After `tornRun`, writing two more bytes reads past the old ring. -/
theorem tornRun_loses_data :
    ¬(Along step Admissible (create 4 true) tornRun → KeepsData 4 tornRun) := by
  intro hkeeps
  obtain ⟨obs, w, hrun, hspec, -⟩ := hkeeps (by decide +kernel)
  have hstate : runM step (create 4 true) tornRun =
      some ([.wrote 3, .got [1, 2], .wrote 2], tornState) := by
    decide +kernel
  obtain rfl : tornState = w := by
    rw [hstate, some.injEq, Prod.mk.injEq] at hrun
    exact hrun.2
  obtain ⟨w', hstep, -⟩ := hspec (.write [6, 7]) (by decide +kernel)
  cases hstep

end RingBufferWrapper

end WebrtcCore.Ports
