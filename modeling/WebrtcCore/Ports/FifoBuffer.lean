import WebrtcCore.Verified.Ring
import WebrtcCore.Verified.Simulation

/-!
# `FifoBuffer` (`rtc_base/memory/fifo_buffer.cc`)

A ring of bytes with one position.  The bytes are written and read by copying,
in place through the regions that `GetWriteBuffer` and `GetReadData` return, and
at an offset from the front or the end; the ring can be allocated anew with
another capacity.

A `char` array cannot have `2 ^ 63` bytes or more, so `new` throws for them.
The abstract model is a list of bytes and the list of the cells that are free;
rotating the ring to the read position gives the one followed by the other.
-/

namespace WebrtcCore.Ports

open Verified CMemory Ring Simulation Tape List

namespace FifoBuffer

/-- The states of a stream that the buffer uses. -/
inductive StreamState
  | ssClosed
  | ssOpen
  deriving DecidableEq, Repr

/-- The results of a stream operation that the buffer uses. -/
inductive StreamResult
  | srSuccess
  | srBlock
  | srEos
  deriving DecidableEq, Repr

/-- The events that the buffer posts. -/
inductive StreamEvent
  | seRead
  | seWrite
  deriving DecidableEq, Repr

end FifoBuffer

structure FifoBuffer where
  state : FifoBuffer.StreamState
  buffer : List UInt8
  bufferLength : Nat
  dataLength : Nat
  readPosition : Nat

namespace FifoBuffer

/-- `new char[size]`; `none` if it throws. -/
def newChars (fresh : Nat → UInt8) (size : Nat) : Option (List UInt8) :=
  if size < 2 ^ 63 then some ((List.range size).map fresh) else none

def create (fresh : Nat → UInt8) (size : Nat) : Option FifoBuffer :=
  (newChars fresh size).map fun buffer => ⟨.ssOpen, buffer, size, 0, 0⟩

section Program

variable (s : FifoBuffer)

/-- The two copies out of the ring: `copy` bytes from `position` on. -/
def copyOut (position copy : Nat) : Option (List UInt8) := do
  let tailCopy := min copy (sizeSub s.bufferLength position)
  let tail ← memcpyFrom s.buffer position tailCopy
  let front ← memcpyFrom s.buffer 0 (sizeSub copy tailCopy)
  some (tail ++ front)

/-- The two copies into the ring, from `position` on. -/
def copyIn (position : Nat) (data : List UInt8) : Option (List UInt8) := do
  let tailCopy := min data.length (sizeSub s.bufferLength position)
  let buffer ← memcpyTo s.buffer position (data.take tailCopy)
  memcpyTo buffer 0 (data.drop tailCopy)

/-- `SetCapacity`; the value returned is `none` if it throws. -/
def setCapacity (fresh : Nat → UInt8) (size : Nat) : Option (Option Bool × FifoBuffer) :=
  if size < s.dataLength then some (some false, s)
  else if size = s.bufferLength then some (some true, s)
  else
    match newChars fresh size with
    | none => some (none, s)
    | some buffer => do
        let copied ← s.copyOut s.readPosition s.dataLength
        let buffer ← memcpyTo buffer 0 copied
        some (some true, { s with buffer, bufferLength := size, readPosition := 0 })

/-- `ReadOffsetLocked`, with the bytes that it copies. -/
def readOffsetLocked (bytes offset : Nat) : Option (StreamResult × List UInt8) :=
  if s.dataLength ≤ offset then
    some (if s.state = .ssClosed then .srEos else .srBlock, [])
  else
    let available := sizeSub s.dataLength offset
    let readPosition := sizeAdd s.readPosition offset % s.bufferLength
    (s.copyOut readPosition (min bytes available)).map (.srSuccess, ·)

/-- `WriteOffsetLocked`, with `*bytes_written`. -/
def writeOffsetLocked (data : List UInt8) (offset : Nat) :
    Option (StreamResult × Nat × FifoBuffer) :=
  if s.state = .ssClosed then some (.srEos, 0, s)
  else if s.bufferLength ≤ sizeAdd s.dataLength offset then some (.srBlock, 0, s)
  else
    let available := sizeSub (sizeSub s.bufferLength s.dataLength) offset
    let writePosition := sizeAdd (sizeAdd s.readPosition s.dataLength) offset % s.bufferLength
    let copy := min data.length available
    (s.copyIn writePosition (data.take copy)).map fun buffer =>
      (.srSuccess, copy, { s with buffer })

/-- The event after bytes were taken out. -/
def writable (size : Nat) : Option StreamEvent :=
  if ¬s.dataLength < s.bufferLength ∧ 0 < size then some .seWrite else none

/-- The event after bytes were put in. -/
def readable (size : Nat) : Option StreamEvent :=
  if ¬0 < s.dataLength ∧ 0 < size then some .seRead else none

/-- The read position goes `size` bytes forward. -/
def forward (size : Nat) : FifoBuffer :=
  { s with
    readPosition := sizeAdd s.readPosition size % s.bufferLength
    dataLength := sizeSub s.dataLength size }

def read (bytes : Nat) :
    Option ((StreamResult × List UInt8 × Option StreamEvent) × FifoBuffer) :=
  (s.readOffsetLocked bytes 0).map fun r =>
    if r.1 = .srSuccess then
      ((r.1, r.2, s.writable r.2.length), s.forward r.2.length)
    else ((r.1, r.2, none), s)

def write (data : List UInt8) :
    Option ((StreamResult × Nat × Option StreamEvent) × FifoBuffer) :=
  (s.writeOffsetLocked data 0).map fun r =>
    if r.1 = .srSuccess then
      ((r.1, r.2.1, s.readable r.2.1),
        { r.2.2 with dataLength := sizeAdd s.dataLength r.2.1 })
    else ((r.1, r.2.1, none), r.2.2)

/-- `GetReadData`, with the bytes of the region. -/
def getReadData : Option (List UInt8) :=
  let size :=
    if sizeAdd s.readPosition s.dataLength ≤ s.bufferLength then s.dataLength
    else sizeSub s.bufferLength s.readPosition
  memcpyFrom s.buffer s.readPosition size

/-- `ConsumeReadData`; `none` if its check fails. -/
def consumeReadData (size : Nat) : Option (Option StreamEvent × FifoBuffer) :=
  if size ≤ s.dataLength then some (s.writable size, s.forward size) else none

/-- `GetWriteBuffer` starts anew at the front when the buffer is empty. -/
def rewind : FifoBuffer := if s.dataLength = 0 then { s with readPosition := 0 } else s

/-- `write_position` of `GetWriteBuffer`. -/
def writePosition : Nat := sizeAdd s.readPosition s.dataLength % s.bufferLength

/-- `*size` of `GetWriteBuffer`. -/
def writeSize : Nat :=
  if s.readPosition < s.writePosition ∨ s.dataLength = 0 then
    sizeSub s.bufferLength s.writePosition
  else sizeSub s.readPosition s.writePosition

/-- `GetWriteBuffer`: the position and the size of the region. -/
def getWriteBuffer : Option (Nat × Nat) × FifoBuffer :=
  if s.state = .ssClosed then (none, s)
  else (some (s.rewind.writePosition, s.rewind.writeSize), s.rewind)

/-- `ConsumeWriteBuffer`; `none` if its check fails. -/
def consumeWriteBuffer (size : Nat) : Option (Option StreamEvent × FifoBuffer) :=
  if size ≤ sizeSub s.bufferLength s.dataLength then
    some (s.readable size, { s with dataLength := sizeAdd s.dataLength size })
  else none

/-- `GetWriteBuffer`, data stored from the start of the region as far as it goes,
and `ConsumeWriteBuffer` of what was stored. -/
def fillWriteBuffer (data : List UInt8) :
    Option ((Option Nat × Option StreamEvent) × FifoBuffer) :=
  match s.getWriteBuffer with
  | (none, s) => some ((none, none), s)
  | (some (position, size), s) => do
      let buffer ← memcpyTo s.buffer position (data.take size)
      let r ← { s with buffer }.consumeWriteBuffer (data.take size).length
      some ((some size, r.1), r.2)

end Program

inductive Op
  | write (data : List UInt8)
  | read (bytes : Nat)
  | writeOffset (data : List UInt8) (offset : Nat)
  | readOffset (bytes offset : Nat)
  | getReadData
  | consumeReadData (size : Nat)
  | fillWriteBuffer (data : List UInt8)
  | consumeWriteBuffer (size : Nat)
  | setCapacity (fresh : Nat → UInt8) (size : Nat)

/-- What a call returns, and the event that it posts. -/
inductive Answer
  | wrote (result : StreamResult) (bytesWritten : Nat) (event : Option StreamEvent)
  | read (result : StreamResult) (bytes : List UInt8) (event : Option StreamEvent)
  | region (bytes : List UInt8)
  | filled (size : Option Nat) (event : Option StreamEvent)
  | consumed (event : Option StreamEvent)
  | capacity (returned : Option Bool)

def step (s : FifoBuffer) : Op → Option (Answer × FifoBuffer)
  | .write data => (s.write data).map fun r => (.wrote r.1.1 r.1.2.1 r.1.2.2, r.2)
  | .read bytes => (s.read bytes).map fun r => (.read r.1.1 r.1.2.1 r.1.2.2, r.2)
  | .writeOffset data offset =>
    (s.writeOffsetLocked data offset).map fun r => (.wrote r.1 r.2.1 none, r.2.2)
  | .readOffset bytes offset =>
    (s.readOffsetLocked bytes offset).map fun r => (.read r.1 r.2 none, s)
  | .getReadData => s.getReadData.map fun region => (.region region, s)
  | .consumeReadData size => (s.consumeReadData size).map fun r => (.consumed r.1, r.2)
  | .fillWriteBuffer data =>
    (s.fillWriteBuffer data).map fun r => (.filled r.1.1 r.1.2, r.2)
  | .consumeWriteBuffer size =>
    (s.consumeWriteBuffer size).map fun r => (.consumed r.1, r.2)
  | .setCapacity fresh size => (s.setCapacity fresh size).map fun r => (.capacity r.1, r.2)

/-- The calls that a client may make: offsets are below `2 ^ 63`, no more is
consumed than there is, and a capacity is positive. -/
def Allowed (s : FifoBuffer) : Op → Prop
  | .writeOffset _ offset | .readOffset _ offset => offset < 2 ^ 63
  | .consumeReadData size => size ≤ s.dataLength
  | .consumeWriteBuffer size => size ≤ s.bufferLength - s.dataLength
  | .setCapacity _ size => 0 < size
  | .write _ | .read _ | .getReadData | .fillWriteBuffer _ => True

instance (s : FifoBuffer) (op : Op) : Decidable (Allowed s op) := by
  cases op <;> unfold Allowed <;> infer_instance

/-! ## The queue -/

/-- A queue of bytes, and the cells that are free. -/
structure ByteQueue where
  contents : List UInt8
  spare : List UInt8

namespace ByteQueue

variable (q : ByteQueue)

def capacity : Nat := q.contents.length + q.spare.length

/-- The event after `n` bytes were put in. -/
def readable (n : Nat) : Option StreamEvent :=
  if q.contents.length = 0 ∧ 0 < n then some .seRead else none

/-- The event after `n` bytes were taken out. -/
def writable (n : Nat) : Option StreamEvent :=
  if q.spare.length = 0 ∧ 0 < n then some .seWrite else none

/-- Bytes join at the end, as many as fit. -/
def append (data : List UInt8) : ByteQueue where
  contents := q.contents ++ data.take q.spare.length
  spare := q.spare.drop (data.take q.spare.length).length

/-- Bytes leave at the front, and free their cells. -/
def leave (n : Nat) : ByteQueue where
  contents := q.contents.drop n
  spare := q.spare ++ q.contents.take n

end ByteQueue

/-- What each call does to the queue.  Where new memory comes in, or the ring
starts anew, nothing is said of the cells that are free. -/
inductive Acts (q : ByteQueue) : Op → Answer → ByteQueue → Prop
  | write (data : List UInt8) (hroom : q.spare ≠ []) :
      Acts q (.write data)
        (.wrote .srSuccess (min data.length q.spare.length)
          (q.readable (min data.length q.spare.length)))
        (q.append data)
  | writeBlocked (data : List UInt8) (hfull : q.spare = []) :
      Acts q (.write data) (.wrote .srBlock 0 none) q
  | read (bytes : Nat) (hdata : q.contents ≠ []) :
      Acts q (.read bytes)
        (.read .srSuccess (q.contents.take bytes)
          (q.writable (q.contents.take bytes).length))
        (q.leave (q.contents.take bytes).length)
  | readBlocked (bytes : Nat) (hempty : q.contents = []) :
      Acts q (.read bytes) (.read .srBlock [] none) q
  | writeOffset (data : List UInt8) (offset : Nat) (hroom : offset < q.spare.length) :
      Acts q (.writeOffset data offset)
        (.wrote .srSuccess (min data.length (q.spare.length - offset)) none)
        { q with spare := overwrite q.spare offset (data.take (q.spare.length - offset)) }
  | writeOffsetBlocked (data : List UInt8) (offset : Nat) (hend : q.spare.length ≤ offset) :
      Acts q (.writeOffset data offset) (.wrote .srBlock 0 none) q
  | readOffset (bytes offset : Nat) (hdata : offset < q.contents.length) :
      Acts q (.readOffset bytes offset)
        (.read .srSuccess ((q.contents.drop offset).take bytes) none) q
  | readOffsetBlocked (bytes offset : Nat) (hend : q.contents.length ≤ offset) :
      Acts q (.readOffset bytes offset) (.read .srBlock [] none) q
  | getReadData (region : List UInt8) (hfront : region <+: q.contents)
      (hdata : q.contents ≠ [] → region ≠ []) : Acts q .getReadData (.region region) q
  | consumeReadData (size : Nat) (hsize : size ≤ q.contents.length) :
      Acts q (.consumeReadData size) (.consumed (q.writable size)) (q.leave size)
  | fillWriteBuffer (data spare : List UInt8) (size : Nat) (hsize : size ≤ q.spare.length)
      (hroom : q.spare ≠ [] → 0 < size)
      (hspare : (data.take size).length + spare.length = q.spare.length) :
      Acts q (.fillWriteBuffer data)
        (.filled (some size) (q.readable (data.take size).length))
        ⟨q.contents ++ data.take size, spare⟩
  | consumeWriteBuffer (size : Nat) (hsize : size ≤ q.spare.length) :
      Acts q (.consumeWriteBuffer size) (.consumed (q.readable size))
        ⟨q.contents ++ q.spare.take size, q.spare.drop size⟩
  | setCapacity (fresh : Nat → UInt8) (size : Nat) (spare : List UInt8)
      (hsize : q.contents.length + spare.length = size) :
      Acts q (.setCapacity fresh size) (.capacity (some true)) ⟨q.contents, spare⟩
  | setCapacityThrows (fresh : Nat → UInt8) (size : Nat) (hfits : q.contents.length ≤ size)
      (hsize : 2 ^ 63 ≤ size) : Acts q (.setCapacity fresh size) (.capacity none) q
  | setCapacityFails (fresh : Nat → UInt8) (size : Nat) (hsize : size < q.contents.length) :
      Acts q (.setCapacity fresh size) (.capacity (some false)) q

/-- The buffer is open and holds the queue. -/
structure Represents (s : FifoBuffer) (q : ByteQueue) : Prop where
  isOpen : s.state = .ssOpen
  length : s.buffer.length = s.bufferLength
  bound : s.bufferLength < 2 ^ 63
  read_lt : s.readPosition < s.bufferLength
  data : s.dataLength = q.contents.length
  ring : rotated s.buffer s.readPosition = q.contents ++ q.spare

/-- The call returns, and does to the queue what it should. -/
def Follows (s : FifoBuffer) (q : ByteQueue) (op : Op) : Prop :=
  ∃ answer s' q', step s op = some (answer, s') ∧ Acts q op answer q' ∧ Represents s' q'

section Copies

variable {s : FifoBuffer} {q : ByteQueue}

theorem Represents.capacity_eq (h : Represents s q) :
    s.bufferLength = q.contents.length + q.spare.length := by
  have hlength := congrArg List.length h.ring
  have hread := h.read_lt
  have hbuffer := h.length
  rw [length_rotated (by omega), length_append] at hlength
  omega

theorem Represents.sizes (h : Represents s q) :
    s.bufferLength = q.contents.length + q.spare.length ∧ s.bufferLength < 2 ^ 63 ∧
      s.readPosition < s.bufferLength ∧ s.dataLength = q.contents.length :=
  ⟨h.capacity_eq, h.bound, h.read_lt, h.data⟩

theorem copyOut_eq_take (hlength : s.buffer.length = s.bufferLength)
    (hbound : s.bufferLength < 2 ^ 63) {position copy : Nat}
    (hposition : position < s.bufferLength) (hcopy : copy ≤ s.bufferLength) :
    s.copyOut position copy = some ((rotated s.buffer position).take copy) := by
  have hmargin : sizeSub s.bufferLength position = s.buffer.length - position := by
    rw [sizeSub_of_le (Nat.le_of_lt hposition) (by omega), hlength]
  have hrest : sizeSub copy (min copy (s.buffer.length - position)) =
      copy - min copy (s.buffer.length - position) :=
    sizeSub_of_le (Nat.min_le_left _ _) (by omega)
  unfold copyOut
  dsimp only
  rw [hmargin, hrest, memcpyFrom_eq_some (by omega), memcpyFrom_eq_some (by omega),
    take_rotated (by omega) (by omega)]
  rfl

theorem copyIn_eq_overwrite (hlength : s.buffer.length = s.bufferLength)
    (hbound : s.bufferLength < 2 ^ 63) (hread : s.readPosition < s.bufferLength)
    {d position : Nat} (data : List UInt8) (hfits : d + data.length ≤ s.bufferLength)
    (hposition : (s.readPosition + d) % s.bufferLength = position) :
    ∃ buffer, s.copyIn position data = some buffer ∧ buffer.length = s.bufferLength ∧
      rotated buffer s.readPosition = overwrite (rotated s.buffer s.readPosition) d data := by
  have hlt : position < s.bufferLength := hposition ▸ Nat.mod_lt _ (by omega)
  obtain ⟨tailCopy, htailCopy⟩ : ∃ tailCopy, min data.length
      (sizeSub s.bufferLength position) = tailCopy := ⟨_, rfl⟩
  have hmargin : min data.length (s.bufferLength - position) = tailCopy := by
    rw [← htailCopy, sizeSub_of_le (Nat.le_of_lt hlt) (by omega)]
  have htail : (data.take tailCopy).length = tailCopy := length_take_of_le (by omega)
  have hfront : (data.drop tailCopy).length = data.length - tailCopy := length_drop
  have hfirst : (overwrite s.buffer position (data.take tailCopy)).length = s.bufferLength := by
    rw [overwrite_length (by omega), hlength]
  have hwrapped := rotated_overwrite_wrapped (data.take tailCopy) (data.drop tailCopy) (d := d)
    (hlength ▸ hread : s.readPosition < s.buffer.length)
  rw [take_append_drop, hlength, hposition] at hwrapped
  refine ⟨_, ?_, ?_, hwrapped hfits (by omega) ?_⟩
  · unfold copyIn
    dsimp only
    rw [htailCopy, memcpyTo_eq_some (by omega)]
    exact memcpyTo_eq_some (by omega)
  · rw [overwrite_length (by omega), hfirst]
  · intro hne
    have hpos := length_pos_iff.2 hne
    omega

theorem Represents.copyOut_eq (h : Represents s q) (offset copy : Nat)
    (hfits : offset + copy ≤ s.bufferLength) :
    s.copyOut ((s.readPosition + offset) % s.bufferLength) copy =
      some (((q.contents ++ q.spare).drop offset).take copy) := by
  have hread := h.read_lt
  have hcapacity := h.capacity_eq
  have hring := rotated_add (h.length.symm ▸ hread : s.readPosition < s.buffer.length)
    (k := offset) (by rw [h.length]; omega)
  rw [h.ring, h.length] at hring
  rw [copyOut_eq_take h.length h.bound (Nat.mod_lt _ (by omega)) (by omega), hring, rotated,
    take_append_of_le_length (by rw [length_drop, length_append]; omega)]

theorem Represents.copyIn_eq (h : Represents s q) (offset : Nat) {position : Nat}
    (data : List UInt8) (hfits : offset + data.length ≤ q.spare.length)
    (hposition : (s.readPosition + (s.dataLength + offset)) % s.bufferLength = position) :
    ∃ buffer, s.copyIn position data = some buffer ∧
      Represents { s with buffer } { q with spare := overwrite q.spare offset data } := by
  have hcapacity := h.capacity_eq
  have hdata := h.data
  obtain ⟨buffer, hbuffer, hlength, hring⟩ :=
    copyIn_eq_overwrite h.length h.bound h.read_lt data (by omega) hposition
  refine ⟨buffer, hbuffer, { h with length := hlength, ring := ?_ }⟩
  rw [hring, h.ring, hdata, overwrite_append_left]

end Copies

section Operations

variable {s : FifoBuffer} {q : ByteQueue}

variable (h : Represents s q)
include h

theorem Represents.readable_eq (n : Nat) : s.readable n = q.readable n := by
  simp [readable, ByteQueue.readable, h.data]

theorem Represents.writable_eq (n : Nat) : s.writable n = q.writable n := by
  have hcapacity := h.capacity_eq
  have hfull : (¬s.dataLength < s.bufferLength) ↔ q.spare.length = 0 := by
    rw [h.data]
    omega
  simp only [writable, ByteQueue.writable, hfull]

theorem Represents.forward {n : Nat} (hn : n ≤ q.contents.length) :
    Represents (s.forward n) (q.leave n) := by
  obtain ⟨hcapacity, hbound, hread, hdata⟩ := h.sizes
  have hposition : (s.forward n).readPosition = (s.readPosition + n) % s.bufferLength := by
    show sizeAdd _ _ % _ = _
    rw [sizeAdd_of_lt (by omega)]
  exact
    { h with
      read_lt := by exact Nat.mod_lt _ (by show 0 < s.bufferLength; omega)
      data := by
        show sizeSub s.dataLength n = (q.contents.drop n).length
        rw [sizeSub_of_le (by omega) (by omega), length_drop, hdata]
      ring := by
        have hring := rotated_add (h.length.symm ▸ hread : s.readPosition < s.buffer.length)
          (k := n) (by rw [h.length]; omega)
        rw [h.length, h.ring] at hring
        rw [hposition]
        show rotated s.buffer _ = q.contents.drop n ++ (q.spare ++ q.contents.take n)
        rw [hring, rotated, drop_append_of_le_length hn,
          take_append_of_le_length hn, append_assoc] }

theorem readOffsetLocked_eq (bytes offset : Nat) :
    s.readOffsetLocked bytes offset =
      if offset < q.contents.length then
        some (.srSuccess, (q.contents.drop offset).take bytes)
      else some (.srBlock, []) := by
  obtain ⟨hcapacity, hbound, hread, hdata⟩ := h.sizes
  unfold readOffsetLocked
  split
  case isTrue hend =>
    rw [if_neg (by rw [h.isOpen]; decide), if_neg (by omega)]
  case isFalse hin =>
    dsimp only
    rw [if_pos (by omega), sizeSub_of_le (by omega) (by omega), sizeAdd_of_lt (by omega),
      h.copyOut_eq _ _ (by omega), Option.map_some, drop_append_of_le_length (by omega),
      take_append_of_le_length (by rw [length_drop]; omega)]
    congr 2
    rw [hdata, ← length_drop, ← take_eq_take_min]

theorem writeOffsetLocked_eq (data : List UInt8) (offset : Nat) (hoffset : offset < 2 ^ 63) :
    if offset < q.spare.length then
      ∃ s', s.writeOffsetLocked data offset =
          some (.srSuccess, min data.length (q.spare.length - offset), s') ∧
        s'.dataLength = s.dataLength ∧
        Represents s' ⟨q.contents, overwrite q.spare offset (data.take (q.spare.length - offset))⟩
    else s.writeOffsetLocked data offset = some (.srBlock, 0, s) := by
  obtain ⟨hcapacity, hbound, hread, hdata⟩ := h.sizes
  have hstate : s.state ≠ .ssClosed := by
    rw [h.isOpen]
    decide
  unfold writeOffsetLocked
  rw [sizeAdd_of_lt (by omega)]
  split
  case isTrue hin =>
    have hfree : sizeSub s.bufferLength s.dataLength = q.spare.length := by
      rw [sizeSub_of_le (by omega) (by omega)]
      omega
    have havailable : sizeSub (sizeSub s.bufferLength s.dataLength) offset =
        q.spare.length - offset := by
      rw [hfree, sizeSub_of_le (by omega) (by omega)]
    have hposition : sizeAdd (sizeAdd s.readPosition s.dataLength) offset %
        s.bufferLength = (s.readPosition + (s.dataLength + offset)) % s.bufferLength := by
      rw [sizeAdd_of_lt (by rw [sizeAdd_of_lt (by omega)]; omega), sizeAdd_of_lt (by omega),
        Nat.add_assoc]
    have hcopy : data.take (min data.length (q.spare.length - offset)) =
        data.take (q.spare.length - offset) := by
      rw [Nat.min_comm]
      exact take_eq_take_min.symm
    rw [if_neg (by omega)]
    dsimp only
    rw [havailable, hposition, hcopy]
    obtain ⟨buffer, hbuffer, hrepresents⟩ := h.copyIn_eq offset
      (data.take (q.spare.length - offset))
      (by have hle := length_take_le (q.spare.length - offset) data; omega) rfl
    exact ⟨{ s with buffer }, by rw [hbuffer]; rfl, rfl, hrepresents⟩
  case isFalse hin => rw [if_pos (by omega)]

theorem Represents.grow {n : Nat} (hn : n ≤ q.spare.length) :
    Represents { s with dataLength := sizeAdd s.dataLength n }
      ⟨q.contents ++ q.spare.take n, q.spare.drop n⟩ := by
  have hcapacity := h.capacity_eq
  have hbound := h.bound
  have hdata := h.data
  exact
    { h with
      data := by rw [sizeAdd_of_lt (by omega), length_append, length_take_of_le hn, hdata]
      ring := by
        rw [append_assoc, take_append_drop]
        exact h.ring }

omit h

theorem Represents.grow_block {block : List UInt8} (hn : block.length ≤ q.spare.length)
    (h : Represents s ⟨q.contents, overwrite q.spare 0 block⟩) :
    Represents { s with dataLength := sizeAdd s.dataLength block.length }
      ⟨q.contents ++ block, q.spare.drop block.length⟩ := by
  have hgrow := h.grow (n := block.length) (by
    rw [overwrite_length (by omega)]
    exact hn)
  have htake : (overwrite q.spare 0 block).take block.length = block := by
    have htake := overwrite_take_add block (Nat.zero_le q.spare.length)
    rw [Nat.zero_add] at htake
    exact htake
  have hdrop : (overwrite q.spare 0 block).drop block.length = q.spare.drop block.length := by
    rw [overwrite, take_zero, nil_append, Nat.zero_add, drop_left]
  rw [htake, hdrop] at hgrow
  exact hgrow

variable (h : Represents s q)
include h

theorem write_acts (data : List UInt8) : Follows s q (.write data) := by
  have hwrite := writeOffsetLocked_eq h data 0 (by decide)
  by_cases hroom : q.spare = []
  · rw [if_neg (by rw [hroom]; decide)] at hwrite
    refine ⟨_, s, q, ?_, .writeBlocked data hroom, h⟩
    rw [step, write, hwrite]
    rfl
  · rw [if_pos (length_pos_iff.2 hroom)] at hwrite
    obtain ⟨s', hs', hdata, hrepresents⟩ := hwrite
    have hlength : (data.take q.spare.length).length = min data.length q.spare.length := by
      rw [length_take, Nat.min_comm]
    have hgrow := hrepresents.grow_block (length_take_le _ _)
    refine ⟨_, _, _, ?_, .write data hroom, hgrow⟩
    rw [step, write, hs', ← h.readable_eq, hdata, hlength]
    rfl

theorem read_acts (bytes : Nat) : Follows s q (.read bytes) := by
  have hread := readOffsetLocked_eq h bytes 0
  by_cases hdata : q.contents = []
  · rw [if_neg (by rw [hdata]; decide)] at hread
    refine ⟨_, s, q, ?_, .readBlocked bytes hdata, h⟩
    rw [step, FifoBuffer.read, hread]
    rfl
  · rw [if_pos (length_pos_iff.2 hdata)] at hread
    refine ⟨_, _, _, ?_, .read bytes hdata, h.forward (n := (q.contents.take bytes).length) ?_⟩
    · rw [step, FifoBuffer.read, hread, ← h.writable_eq]
      rfl
    · exact length_take_le' _ _

theorem writeOffset_acts (data : List UInt8) {offset : Nat} (hoffset : offset < 2 ^ 63) :
    Follows s q (.writeOffset data offset) := by
  have hwrite := writeOffsetLocked_eq h data _ hoffset
  by_cases hroom : offset < q.spare.length
  · rw [if_pos hroom] at hwrite
    obtain ⟨s', hs', _, hrepresents⟩ := hwrite
    refine ⟨_, s', _, ?_, .writeOffset data offset hroom, hrepresents⟩
    rw [step, hs']
    rfl
  · rw [if_neg hroom] at hwrite
    refine ⟨_, s, q, ?_, .writeOffsetBlocked data offset (Nat.le_of_not_lt hroom), h⟩
    rw [step, hwrite]
    rfl

theorem readOffset_acts (bytes offset : Nat) : Follows s q (.readOffset bytes offset) := by
  have hread := readOffsetLocked_eq h bytes offset
  by_cases hdata : offset < q.contents.length
  · rw [if_pos hdata] at hread
    refine ⟨_, s, q, ?_, .readOffset bytes offset hdata, h⟩
    rw [step, hread]
    rfl
  · rw [if_neg hdata] at hread
    refine ⟨_, s, q, ?_, .readOffsetBlocked bytes offset (Nat.le_of_not_lt hdata), h⟩
    rw [step, hread]
    rfl

theorem getReadData_acts : Follows s q .getReadData := by
  obtain ⟨hcapacity, hbound, hread, hdata⟩ := h.sizes
  have hlength := h.length
  obtain ⟨size, hsize⟩ : ∃ size, (if sizeAdd s.readPosition s.dataLength ≤ s.bufferLength
      then s.dataLength else sizeSub s.bufferLength s.readPosition) = size := ⟨_, rfl⟩
  have hbounds : size ≤ q.contents.length ∧ s.readPosition + size ≤ s.bufferLength ∧
      (0 < q.contents.length → 0 < size) := by
    rw [sizeAdd_of_lt (by omega), sizeSub_of_le (by omega) (by omega)] at hsize
    split at hsize <;> omega
  have hregion : (s.buffer.drop s.readPosition).take size = q.contents.take size := by
    have htake := congrArg (take size) h.ring
    rw [rotated, take_append_of_le_length (by rw [length_drop]; omega),
      take_append_of_le_length hbounds.1] at htake
    exact htake
  refine ⟨_, s, q, ?_, .getReadData (q.contents.take size) ⟨_, take_append_drop _ _⟩ ?_, h⟩
  · rw [step, getReadData, hsize, memcpyFrom_eq_some (by omega), hregion]
    rfl
  · intro hne
    apply length_pos_iff.1
    rw [length_take_of_le hbounds.1]
    exact hbounds.2.2 (length_pos_iff.2 hne)

theorem consumeReadData_acts {size : Nat} (hsize : size ≤ s.dataLength) :
    Follows s q (.consumeReadData size) := by
  have hle : size ≤ q.contents.length := h.data ▸ hsize
  refine ⟨_, _, _, ?_, .consumeReadData size hle, h.forward hle⟩
  rw [step, consumeReadData, if_pos hsize, ← h.writable_eq]
  rfl

theorem consumeWriteBuffer_eq (size : Nat) (hsize : size ≤ q.spare.length) :
    s.consumeWriteBuffer size =
      some (q.readable size, { s with dataLength := sizeAdd s.dataLength size }) := by
  obtain ⟨hcapacity, hbound, -, hdata⟩ := h.sizes
  rw [consumeWriteBuffer, sizeSub_of_le (by omega) (by omega), if_pos (by omega), h.readable_eq]

theorem consumeWriteBuffer_acts {size : Nat} (hsize : size ≤ s.bufferLength - s.dataLength) :
    Follows s q (.consumeWriteBuffer size) := by
  have hle : size ≤ q.spare.length := by
    have hcapacity := h.capacity_eq
    have hdata := h.data
    omega
  refine ⟨_, _, _, ?_, .consumeWriteBuffer size hle, h.grow hle⟩
  rw [step, consumeWriteBuffer_eq h _ hle]
  rfl

theorem Represents.rewind :
    ∃ spare, spare.length = q.spare.length ∧ Represents s.rewind ⟨q.contents, spare⟩ := by
  have hcapacity := h.capacity_eq
  have hdata := h.data
  have hlength := h.length
  have hread := h.read_lt
  unfold FifoBuffer.rewind
  split
  case isTrue hempty =>
    have hnil : q.contents = [] := length_eq_zero_iff.1 (by omega)
    refine ⟨s.buffer, by omega, ?_⟩
    exact
      { h with
        read_lt := Nat.lt_of_le_of_lt (Nat.zero_le _) hread
        ring := by rw [hnil, rotated, drop_zero, take_zero, append_nil, nil_append] }
  case isFalse => exact ⟨q.spare, rfl, h⟩

theorem Represents.write_region :
    (s.readPosition + s.dataLength) % s.bufferLength = s.writePosition ∧
      s.writeSize ≤ q.spare.length ∧ s.writePosition + s.writeSize ≤ s.bufferLength ∧
      (q.spare ≠ [] → 0 < s.writeSize) := by
  obtain ⟨hcapacity, hbound, hread, hdata⟩ := h.sizes
  have hposition : s.writePosition = (s.readPosition + s.dataLength) % s.bufferLength := by
    rw [writePosition, sizeAdd_of_lt (by omega)]
  have hspare : q.spare ≠ [] → 0 < q.spare.length := length_pos_iff.2
  refine ⟨hposition.symm, ?_⟩
  unfold writeSize
  rcases Nat.lt_or_ge (s.readPosition + s.dataLength) s.bufferLength with hin | hwraps
  · rw [Nat.mod_eq_of_lt hin] at hposition
    rw [if_pos (by omega), sizeSub_of_le (by omega) (by omega)]
    omega
  · rw [Nat.mod_eq_sub_mod hwraps, Nat.mod_eq_of_lt (by omega)] at hposition
    rw [if_neg (by omega), sizeSub_of_le (by omega) (by omega)]
    refine ⟨by omega, by omega, ?_⟩
    intro hne
    have hpos := hspare hne
    omega

theorem Represents.store {block : List UInt8} (hspare : block.length ≤ q.spare.length)
    (hregion : s.writePosition + block.length ≤ s.bufferLength) :
    Represents { s with buffer := overwrite s.buffer s.writePosition block }
      ⟨q.contents, overwrite q.spare 0 block⟩ := by
  have hcapacity := h.capacity_eq
  have hdata := h.data
  have hlength := h.length
  have hread : s.readPosition < s.buffer.length := by
    rw [hlength]
    exact h.read_lt
  have hoffset := rotated_overwrite_offset block (d := s.dataLength) hread (by omega)
  rw [hlength, h.write_region.1] at hoffset
  exact
    { h with
      length := by rw [overwrite_length (by omega), hlength]
      ring := by
        rw [hoffset hregion, h.ring, hdata]
        exact overwrite_append_left q.contents q.spare block 0 }

theorem fillWriteBuffer_acts (data : List UInt8) : Follows s q (.fillWriteBuffer data) := by
  obtain ⟨spare, hspare, hrewind⟩ := h.rewind
  obtain ⟨_, hsize, hregion, hroom⟩ := hrewind.write_region
  have hstate : s.state ≠ .ssClosed := by
    rw [h.isOpen]
    decide
  dsimp only at hsize hroom
  have hblock := length_take_le s.rewind.writeSize data
  have hfits : (data.take s.rewind.writeSize).length ≤ spare.length := by omega
  have hstored := hrewind.store hfits (by omega)
  have hconsume := consumeWriteBuffer_eq hstored (data.take s.rewind.writeSize).length (by
    show _ ≤ (overwrite spare 0 _).length
    rw [overwrite_length (by omega)]
    exact hfits)
  refine ⟨_, _, _, ?_, .fillWriteBuffer data _ _ (hspare ▸ hsize) ?_ ?_,
    Represents.grow_block (q := ⟨q.contents, spare⟩) hfits hstored⟩
  · rw [step, fillWriteBuffer, getWriteBuffer, if_neg hstate]
    dsimp only
    rw [memcpyTo_eq_some (by rw [hrewind.length]; omega), Option.bind_eq_bind,
      Option.bind_some, hconsume]
    rfl
  · intro hne
    apply hroom
    apply length_pos_iff.1
    rw [hspare]
    exact length_pos_iff.2 hne
  · rw [length_drop]
    show _ + (spare.length - _) = _
    omega

omit h

theorem newChars_eq (fresh : Nat → UInt8) {size : Nat} (hsize : size < 2 ^ 63) :
    ∃ buffer, newChars fresh size = some buffer ∧ buffer.length = size := by
  refine ⟨_, if_pos hsize, ?_⟩
  rw [length_map, length_range]

theorem setCapacity_acts (h : Represents s q) (fresh : Nat → UInt8) {size : Nat} (hpos : 0 < size) :
    Follows s q (.setCapacity fresh size) := by
  have hcapacity := h.capacity_eq
  have hdata := h.data
  have hread := h.read_lt
  unfold Follows
  rw [step, setCapacity]
  by_cases hfits : size < s.dataLength
  · rw [if_pos hfits]
    exact ⟨_, s, q, rfl, .setCapacityFails fresh size (by omega), h⟩
  rw [if_neg hfits]
  by_cases hsame : size = s.bufferLength
  · rw [if_pos hsame]
    exact ⟨_, s, q, rfl, .setCapacity fresh size q.spare (by omega), h⟩
  rw [if_neg hsame]
  by_cases hbound : size < 2 ^ 63
  · obtain ⟨buffer, hbuffer, hlength⟩ := newChars_eq fresh hbound
    have hcopied := h.copyOut_eq 0 s.dataLength (by omega)
    rw [Nat.add_zero, Nat.mod_eq_of_lt hread, drop_zero, hdata, take_left] at hcopied
    have hspare : (buffer.drop q.contents.length).length = size - q.contents.length := by
      rw [length_drop, hlength]
    refine ⟨_, { s with
      buffer := overwrite buffer 0 q.contents
      bufferLength := size
      readPosition := 0 }, _, ?_,
      .setCapacity fresh size (buffer.drop q.contents.length) (by omega), ?_⟩
    · rw [hbuffer]
      dsimp only
      rw [hdata, hcopied, Option.bind_eq_bind, Option.bind_some, memcpyTo_eq_some (by omega)]
      rfl
    · exact
        { isOpen := h.isOpen
          length := by rw [overwrite_length (by omega), hlength]
          bound := hbound
          read_lt := hpos
          data := hdata
          ring := by
            rw [rotated, drop_zero, take_zero, append_nil, overwrite,
              take_zero, nil_append, Nat.zero_add] }
  · have hnew : newChars fresh size = none := if_neg hbound
    rw [hnew]
    exact ⟨_, s, q, rfl, .setCapacityThrows fresh size (by omega) (Nat.le_of_not_lt hbound), h⟩

end Operations

theorem step_acts (s : FifoBuffer) (q : ByteQueue) (op : Op) (h : Represents s q)
    (hallowed : Allowed s op) : Follows s q op := by
  cases op with
  | write data => exact write_acts h data
  | read bytes => exact read_acts h bytes
  | writeOffset data offset => exact writeOffset_acts h data hallowed
  | readOffset bytes offset => exact readOffset_acts h bytes offset
  | getReadData => exact getReadData_acts h
  | consumeReadData size => exact consumeReadData_acts h hallowed
  | fillWriteBuffer data => exact fillWriteBuffer_acts h data
  | consumeWriteBuffer size => exact consumeWriteBuffer_acts h hallowed
  | setCapacity fresh size => exact setCapacity_acts h fresh hallowed

theorem create_represents {fresh : Nat → UInt8} {size : Nat} {s : FifoBuffer} (hpos : 0 < size)
    (hs : create fresh size = some s) : Represents s ⟨[], s.buffer⟩ := by
  obtain ⟨buffer, hbuffer, rfl⟩ := Option.map_eq_some_iff.1 hs
  unfold newChars at hbuffer
  split at hbuffer
  case isTrue hbound =>
    cases hbuffer
    exact
      { isOpen := rfl
        length := by rw [length_map, length_range]
        bound := hbound
        read_lt := hpos
        data := rfl
        ring := by rw [rotated, take_zero, append_nil]; rfl }
  case isFalse => cases hbuffer

/-- **A bounded queue of bytes.**  Any sequence of calls on a new buffer of
positive capacity, with offsets below `2 ^ 63`, positive new capacities and no
more consumed than there is, is one of a queue: every call returns, and does to
the queue and answers what `Acts` says; the queue is never longer than the
capacity. -/
theorem fifoBuffer_is_queue (fresh : Nat → UInt8) (size : Nat) (hpos : 0 < size) (s : FifoBuffer)
    (hs : create fresh size = some s) (ops : List Op) (hallowed : Along step Allowed s ops) :
    ∃ answers s' q, runM step s ops = some (answers, s') ∧
      Traces Acts ⟨[], s.buffer⟩ ops answers q ∧
      q.capacity = s'.bufferLength ∧ q.contents.length ≤ s'.bufferLength := by
  obtain ⟨answers, s', q, hrun, htraces, hrepresents⟩ :=
    runM_traces step_acts ops (create_represents hpos hs) hallowed
  have hcapacity := hrepresents.capacity_eq
  refine ⟨answers, s', q, hrun, htraces, hcapacity.symm, by omega⟩

/-- A ring of four bytes that wraps, and is allocated anew. -/
theorem fifoBuffer_is_queue_wrapped :
    let s : FifoBuffer := ⟨.ssOpen, [0, 0, 0, 0], 4, 0, 0⟩
    let ops := [Op.write [1, 2, 3], .read 2, .write [4, 5, 6, 7], .readOffset 5 1, .getReadData,
      .consumeReadData 3, .writeOffset [8] 1, .setCapacity (fun _ => 0) 6,
      .fillWriteBuffer [9, 9]]
    create (fun _ => 0) 4 = some s ∧ Along step Allowed s ops ∧
      ∃ answers s' q, runM step s ops = some (answers, s') ∧
        Traces Acts ⟨[], s.buffer⟩ ops answers q ∧
        q.capacity = s'.bufferLength ∧ q.contents.length ≤ s'.bufferLength := by
  intro s ops
  have hcreate : create (fun _ => 0) 4 = some s := rfl
  have hallowed : Along step Allowed s ops := by decide +kernel
  exact ⟨hcreate, hallowed, fifoBuffer_is_queue _ 4 (by decide) s hcreate ops hallowed⟩

end FifoBuffer

end WebrtcCore.Ports
