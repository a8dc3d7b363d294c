import WebrtcCore.Ports.Buffer
import WebrtcCore.Verified.Bytes
import WebrtcCore.Verified.Framing
import WebrtcCore.Verified.Simulation

/-!
# Packets over a TCP stream (`rtc_base/async_tcp_socket.cc`)

`AsyncTCPSocket` sends each packet as a frame, a two-byte length in network
order and the payload, and cuts what it receives into payloads again.

The system's socket is a list of answers.  To a `Recv` it answers with an error
or with some number of bytes, of which the ones that are under way and fit are
received; to a `Send` it answers with an error or by accepting some of the
bytes offered.  Every behaviour of a stream socket is such a list.
-/

namespace WebrtcCore.Ports.AsyncTcpSocket

open Verified Ports.Buffer Bytes CMemory Framing Simulation List

abbrev kMaxPacketSize : Nat := 64 * 1024

abbrev kPacketLenSize : Nat := 2

/-- `kBufSize`, the value of `max_insize_` and `max_outsize_`. -/
abbrev kBufSize : Nat := kMaxPacketSize + kPacketLenSize

abbrev kMinimumRecvSize : Nat := 128

/-! ## Receiving -/

/-- The frames of the stream. -/
def packetFormat : Format UInt8 where
  header := kPacketLenSize
  body := valueBE
  header_pos := by decide

/-- The stream is frames with these payloads, in order, and the tail of one
that is not complete. -/
def Deframes (stream : List UInt8) (payloads : List (List UInt8)) (tail : List UInt8) :
    Prop :=
  ∃ frames, packetFormat.Cuts stream frames tail ∧
    payloads = frames.map (·.drop kPacketLenSize)

/-- The answer of the system's socket to one `Recv`: an error, or at most so
many bytes. -/
abbrev RecvAnswer := Option Nat

/-- The receiving side of `AsyncTCPSocket`, the bytes under way to it, the
answers of the system's socket, and the payloads signalled. -/
structure Receiver where
  inbuf : Buffer
  incoming : List UInt8
  answers : List RecvAnswer
  signalled : List (List UInt8)

/-- The constructor, with `listen` false. -/
def connected (fresh : Nat → UInt8) (incoming : List UInt8) (answers : List RecvAnswer) :
    Receiver where
  inbuf := Buffer.empty.ensureCapacity fresh kMinimumRecvSize
  incoming := incoming
  answers := answers
  signalled := []

/-- The growth of the input buffer before a `Recv`. -/
def makeRoom (fresh : Nat → UInt8) (inbuf : Buffer) : Buffer :=
  if inbuf.capacity - inbuf.size < kMinimumRecvSize ∧ inbuf.capacity < kBufSize then
    inbuf.ensureCapacity fresh (min kBufSize (inbuf.capacity * 2))
  else inbuf

/-- `free_size`, what a `Recv` is offered. -/
def freeSize (inbuf : Buffer) : Nat := inbuf.capacity - inbuf.size

/-- The bytes that a `Recv` of at most `n` bytes takes. -/
def chunk (inbuf : Buffer) (incoming : List UInt8) (n : Nat) : List UInt8 :=
  incoming.take (min n (freeSize inbuf))

theorem size_add_chunk_le (inbuf : Buffer) (incoming : List UInt8) (n : Nat) :
    inbuf.size + (chunk inbuf incoming n).length ≤ inbuf.capacity := by
  have hsize : inbuf.size ≤ inbuf.capacity := inbuf.size_le
  have hlen := length_take_le (min n (freeSize inbuf)) incoming
  unfold chunk
  unfold freeSize at *
  omega

/-- The input buffer after a `Recv` and its `SetSize`. -/
def recv (fresh : Nat → UInt8) (inbuf : Buffer) (incoming : List UInt8) (n : Nat) : Buffer :=
  (inbuf.store inbuf.size (chunk inbuf incoming n)
    (size_add_chunk_le inbuf incoming n)).setSize fresh
      (inbuf.size + (chunk inbuf incoming n).length)

/-- The `Recv` loop of `OnReadEvent`; the last component is `total_recv`. -/
def recvLoop (fresh : Nat → UInt8) :
    List RecvAnswer → Buffer → List UInt8 → Nat →
      Buffer × List UInt8 × List RecvAnswer × Nat
  | [], inbuf, incoming, totalRecv => (makeRoom fresh inbuf, incoming, [], totalRecv)
  | none :: answers, inbuf, incoming, totalRecv =>
    (makeRoom fresh inbuf, incoming, answers, totalRecv)
  | some n :: answers, inbuf, incoming, totalRecv =>
    let room := makeRoom fresh inbuf
    let len := (chunk room incoming n).length
    if len = 0 ∨ len < freeSize room then
      (recv fresh room incoming n, incoming.drop len, answers, totalRecv + len)
    else
      recvLoop fresh answers (recv fresh room incoming n) (incoming.drop len)
        (totalRecv + len)

/-- The `memmove` of `ProcessInput`: `k` of the `len` bytes in use go. -/
def shiftDown (data : List UInt8) (len k : Nat) : List UInt8 :=
  if 0 < len - k then overwrite data 0 ((data.drop k).take (len - k)) else data

def getBE16 (data : List UInt8) : Nat := valueBE (data.take kPacketLenSize)

def processInput : Nat → List UInt8 → Nat → List (List UInt8) × List UInt8 × Nat
  | 0, data, len => ([], data, len)
  | fuel + 1, data, len =>
    if len < kPacketLenSize then ([], data, len)
    else
      let pktLen := getBE16 data
      if len < kPacketLenSize + pktLen then ([], data, len)
      else
        let payload := (data.drop kPacketLenSize).take pktLen
        let r := processInput fuel (shiftDown data len (kPacketLenSize + pktLen))
          (len - (kPacketLenSize + pktLen))
        (payload :: r.1, r.2)

variable {len : Nat} {stream tail : List UInt8}

theorem length_shiftDown {data : List UInt8} {k : Nat} (hlen : len ≤ data.length) (hk : k ≤ len) :
    (shiftDown data len k).length = data.length := by
  unfold shiftDown
  split
  case isTrue =>
    apply overwrite_length
    have hblock := length_take_le (len - k) (data.drop k)
    omega
  case isFalse => rfl

theorem take_shiftDown {data : List UInt8} {k : Nat} (hlen : len ≤ data.length) (hk : k ≤ len) :
    (shiftDown data len k).take (len - k) = (data.take len).drop k := by
  rw [drop_take]
  unfold shiftDown
  split
  case isTrue =>
    have hblock : ((data.drop k).take (len - k)).length = len - k := by
      apply length_take_of_le
      rw [length_drop]
      omega
    have htake := overwrite_take_add ((data.drop k).take (len - k)) (Nat.zero_le data.length)
    rw [hblock, Nat.zero_add] at htake
    exact htake
  case isFalse h =>
    have hzero : len - k = 0 := by omega
    rw [hzero, take_zero, take_zero]

theorem packetFormat_size (data : List UInt8) (h : kPacketLenSize ≤ len) :
    packetFormat.size (data.take len) = kPacketLenSize + getBE16 data := by
  show kPacketLenSize + valueBE ((data.take len).take kPacketLenSize) = _
  rw [take_take, Nat.min_eq_left h, getBE16]

theorem Deframes.of_incomplete (h : ¬packetFormat.Complete stream) : Deframes stream [] stream :=
  ⟨[], Format.Cuts.of_incomplete h, rfl⟩

theorem processInput_spec {fuel : Nat} {data : List UInt8} (hlen : len ≤ data.length)
    (hfuel : len ≤ fuel) :
    (processInput fuel data len).2.1.length = data.length ∧ (processInput fuel data len).2.2 ≤ len ∧
      Deframes (data.take len) (processInput fuel data len).1
        ((processInput fuel data len).2.1.take (processInput fuel data len).2.2) := by
  have hused : (data.take len).length = len := length_take_of_le hlen
  fun_induction processInput fuel data len with
  | case1 data len =>
    refine ⟨rfl, Nat.le_refl len, .of_incomplete fun hcomplete => ?_⟩
    have hheader : 2 ≤ (data.take len).length := hcomplete.1
    omega
  | case2 fuel data len h =>
    exact ⟨rfl, Nat.le_refl len, .of_incomplete fun hcomplete =>
      Nat.not_le_of_lt h (hused ▸ hcomplete.1)⟩
  | case3 fuel data len h pktLen hshort =>
    refine ⟨rfl, Nat.le_refl len, .of_incomplete fun hcomplete => ?_⟩
    have hle := hcomplete.2
    rw [packetFormat_size data (Nat.le_of_not_lt h), hused] at hle
    exact Nat.not_le_of_lt hshort hle
  | case4 fuel data len h pktLen hshort payload r ih =>
    have hheader := Nat.le_of_not_lt h
    have hwhole := Nat.le_of_not_lt hshort
    have hsize := packetFormat_size data hheader
    have hshift := length_shiftDown hlen hwhole
    obtain ⟨hlength, hle, frames, hcuts, hpayloads⟩ := ih (by omega)
      (by show _ - (2 + _) ≤ _; omega) (length_take_of_le (by omega))
    rw [take_shiftDown hlen hwhole] at hcuts
    have hcons := Format.Cuts.cons ⟨hused.symm ▸ hheader, by rw [hsize, hused]; exact hwhole⟩
      (hsize ▸ hcuts)
    rw [hsize] at hcons
    refine ⟨hlength.trans hshift, Nat.le_trans hle (Nat.sub_le _ _), _, hcons, ?_⟩
    rw [map_cons, ← hpayloads, take_take, Nat.min_eq_left hwhole, drop_take,
      Nat.add_sub_cancel_left]

/-- The input buffer after the `memmove`s of `ProcessInput`. -/
def processed (inbuf : Buffer) : Buffer where
  cells := (processInput inbuf.size inbuf.cells inbuf.size).2.1
  size := inbuf.size
  size_le := by
    rw [(processInput_spec inbuf.size_le (Nat.le_refl _)).1]
    exact inbuf.size_le

/-- What `OnReadEvent` does with the bytes received: the payloads signalled and
the input buffer that remains. -/
def consume (fresh : Nat → UInt8) (inbuf : Buffer) : List (List UInt8) × Buffer :=
  let p := processInput inbuf.size inbuf.cells inbuf.size
  (p.1, if inbuf.size < p.2.2 then (processed inbuf).clear
    else (processed inbuf).setSize fresh p.2.2)

/-- `OnReadEvent`, with `listen_` false. -/
def onReadEvent (fresh : Nat → UInt8) (s : Receiver) : Receiver :=
  let r := recvLoop fresh s.answers s.inbuf s.incoming 0
  let s := { s with inbuf := r.1, incoming := r.2.1, answers := r.2.2.1 }
  if r.2.2.2 = 0 then s
  else
    let p := consume fresh s.inbuf
    { s with signalled := s.signalled ++ p.1, inbuf := p.2 }

/-- The state after `n` read events. -/
def readEvents (fresh : Nat → UInt8) : Nat → Receiver → Receiver
  | 0, s => s
  | n + 1, s => readEvents fresh n (onReadEvent fresh s)

/-- The capacities that the input buffer goes through. -/
def Sized (inbuf : Buffer) : Prop := 128 ≤ inbuf.capacity ∧ inbuf.capacity ≤ 65538

section Room

variable (fresh : Nat → UInt8) (inbuf : Buffer)

theorem makeRoom_contents : (makeRoom fresh inbuf).contents = inbuf.contents := by
  unfold makeRoom
  split
  case isTrue => exact inbuf.contents_ensureCapacityWithHeadroom fresh _ false
  case isFalse => rfl

theorem makeRoom_size : (makeRoom fresh inbuf).size = inbuf.size := by
  rw [← Buffer.contents_length, makeRoom_contents, Buffer.contents_length]

theorem makeRoom_capacity :
    (makeRoom fresh inbuf).capacity =
      if inbuf.capacity - inbuf.size < 128 ∧ inbuf.capacity < 65538 then
        max inbuf.capacity (min 65538 (inbuf.capacity * 2))
      else inbuf.capacity := by
  unfold makeRoom
  split
  case isTrue h => exact (inbuf.capacity_ensureCapacity fresh _).trans (if_pos h).symm
  case isFalse h => exact (if_neg h).symm

theorem makeRoom_sized (h : Sized inbuf) : Sized (makeRoom fresh inbuf) := by
  unfold Sized at h ⊢
  rw [makeRoom_capacity]
  split <;> omega

theorem makeRoom_free (h : Sized inbuf) (hsize : inbuf.size < 65538) :
    1 ≤ freeSize (makeRoom fresh inbuf) := by
  have hle : inbuf.size ≤ inbuf.capacity := inbuf.size_le
  unfold Sized at h
  unfold freeSize
  rw [makeRoom_size, makeRoom_capacity]
  split <;> omega

theorem setSize_sized {size : Nat} (hsize : size ≤ inbuf.capacity) (h : Sized inbuf) :
    Sized (inbuf.setSize fresh size) := by
  unfold Sized
  rw [Buffer.capacity_setSize_of_le fresh inbuf hsize]
  exact h

variable (incoming : List UInt8)

theorem recv_contents (n : Nat) :
    (recv fresh inbuf incoming n).contents = inbuf.contents ++ chunk inbuf incoming n :=
  inbuf.contents_setSize_store fresh _ _ (size_add_chunk_le inbuf incoming n)

theorem recv_sized (n : Nat) (h : Sized inbuf) : Sized (recv fresh inbuf incoming n) := by
  have hfits := size_add_chunk_le inbuf incoming n
  have hstore : (inbuf.store inbuf.size (chunk inbuf incoming n) hfits).capacity =
      inbuf.capacity := overwrite_length hfits
  apply setSize_sized
  · rw [hstore]
    exact hfits
  · unfold Sized
    rw [hstore]
    exact h

theorem chunk_append_drop (n : Nat) :
    incoming = chunk inbuf incoming n ++ incoming.drop (chunk inbuf incoming n).length :=
  (prefix_iff_eq_append.1 ⟨_, take_append_drop _ _⟩).symm

end Room

variable (fresh : Nat → UInt8)

theorem recvLoop_spec (answers : List RecvAnswer) (inbuf : Buffer) (incoming : List UInt8)
    (totalRecv : Nat) (h : Sized inbuf) :
    let r := recvLoop fresh answers inbuf incoming totalRecv
    Sized r.1 ∧ ∃ chunks, incoming = chunks ++ r.2.1 ∧ r.1.contents = inbuf.contents ++ chunks ∧
      r.2.2.2 = totalRecv + chunks.length := by
  have hroom := makeRoom_sized fresh inbuf h
  have hcontents := makeRoom_contents fresh inbuf
  fun_induction recvLoop fresh answers inbuf incoming totalRecv with
  | case1 inbuf | case2 answers inbuf =>
    refine ⟨hroom, [], rfl, ?_, rfl⟩
    rw [append_nil]
    exact hcontents
  | case3 n answers inbuf incoming =>
    rw [← hcontents]
    exact ⟨recv_sized fresh _ incoming n hroom, _, chunk_append_drop _ incoming n,
      recv_contents fresh _ incoming n, rfl⟩
  | case4 n answers inbuf incoming totalRecv room len _ ih =>
    have hrecv := recv_sized fresh room incoming n hroom
    obtain ⟨hsized, chunks, hrest, hmore, htotal⟩ :=
      ih hrecv (makeRoom_sized fresh _ hrecv) (makeRoom_contents fresh _)
    refine ⟨hsized, chunk room incoming n ++ chunks, ?_, ?_, ?_⟩
    · rw [append_assoc, ← hrest]
      exact chunk_append_drop room incoming n
    · rw [hmore, recv_contents, hcontents, append_assoc]
    · rw [htotal, length_append, Nat.add_assoc]

theorem consume_spec {inbuf : Buffer} (h : Sized inbuf) :
    Sized (consume fresh inbuf).2 ∧
      Deframes inbuf.contents (consume fresh inbuf).1 (consume fresh inbuf).2.contents := by
  obtain ⟨hcapacity, hle, hframes⟩ := processInput_spec inbuf.size_le (Nat.le_refl _)
  unfold consume
  dsimp only
  rw [if_neg (Nat.not_lt.2 hle), (processed inbuf).contents_setSize_of_le fresh hle]
  constructor
  · have hsized : Sized (processed inbuf) := by
      unfold Sized Buffer.capacity
      rw [processed, hcapacity]
      exact h
    refine setSize_sized fresh _ ?_ hsized
    exact Nat.le_trans hle (processed inbuf).size_le
  · show Deframes _ _ ((take inbuf.size _).take _)
    rw [take_take, Nat.min_eq_left hle]
    exact hframes

theorem length_lt_of_incomplete (h : ¬packetFormat.Complete tail) : tail.length < 65538 := by
  apply Nat.lt_of_not_le
  intro hlong
  apply h
  have hheader : (tail.take kPacketLenSize).length = 2 := length_take_of_le (by show 2 ≤ _; omega)
  have hvalue := valueBE_lt (tail.take kPacketLenSize)
  rw [hheader] at hvalue
  refine ⟨by show 2 ≤ _; omega, ?_⟩
  show 2 + valueBE (tail.take kPacketLenSize) ≤ _
  omega

theorem Deframes.append {more tail' : List UInt8} {payloads payloads' : List (List UInt8)}
    (h : Deframes stream payloads tail) (h' : Deframes (tail ++ more) payloads' tail') :
    Deframes (stream ++ more) (payloads ++ payloads') tail' := by
  obtain ⟨frames, hcuts, hpayloads⟩ := h
  obtain ⟨frames', hcuts', hpayloads'⟩ := h'
  refine ⟨frames ++ frames', hcuts.append hcuts', ?_⟩
  rw [hpayloads, hpayloads', map_append]

theorem Deframes.unique {tail' : List UInt8} {payloads payloads' : List (List UInt8)}
    (h : Deframes stream payloads tail) (h' : Deframes stream payloads' tail') :
    payloads = payloads' ∧ tail = tail' := by
  obtain ⟨frames, hcuts, hpayloads⟩ := h
  obtain ⟨frames', hcuts', hpayloads'⟩ := h'
  obtain ⟨hframes, htail⟩ := hcuts.unique hcuts'
  exact ⟨by rw [hpayloads, hpayloads', hframes], htail⟩

/-- What holds of a receiver between read events: some of the stream has been
received, and it is cut into the payloads signalled and the input buffer. -/
structure Delivering (stream : List UInt8) (s : Receiver) : Prop where
  sized : Sized s.inbuf
  received : ∃ received, stream = received ++ s.incoming ∧
    Deframes received s.signalled s.inbuf.contents

theorem connected_delivering (stream : List UInt8) (answers : List RecvAnswer) :
    Delivering stream (connected fresh stream answers) where
  sized := by
    unfold Sized connected
    rw [Buffer.capacity_ensureCapacity]
    decide
  received := by
    refine ⟨[], rfl, ?_⟩
    apply Deframes.of_incomplete
    intro hcomplete
    exact absurd hcomplete.1 (by decide)

theorem onReadEvent_delivering {s : Receiver} (h : Delivering stream s) :
    Delivering stream (onReadEvent fresh s) := by
  obtain ⟨received, hstream, hframes⟩ := h.received
  obtain ⟨hsized, chunks, hincoming, hcontents, htotal⟩ :=
    recvLoop_spec fresh s.answers s.inbuf s.incoming 0 h.sized
  have hstream' : stream = received ++ chunks ++
      (recvLoop fresh s.answers s.inbuf s.incoming 0).2.1 := by
    rw [append_assoc, ← hincoming]
    exact hstream
  unfold onReadEvent
  dsimp only
  split
  case isTrue hzero =>
    have hnil : chunks = [] := length_eq_zero_iff.1 (by omega)
    subst hnil
    rw [append_nil] at hcontents hstream'
    refine ⟨hsized, received, hstream', ?_⟩
    rw [hcontents]
    exact hframes
  case isFalse =>
    obtain ⟨hsized', hmore⟩ := consume_spec fresh hsized
    rw [hcontents] at hmore
    exact ⟨hsized', received ++ chunks, hstream', hframes.append hmore⟩

theorem readEvents_delivering (n : Nat) {s : Receiver} (h : Delivering stream s) :
    Delivering stream (readEvents fresh n s) := by
  induction n generalizing s with
  | zero => exact h
  | succ n ih => exact ih (onReadEvent_delivering fresh h)

/-- The answer of the system's socket to one `Send`: it accepts `n + 1` of the
bytes offered, or all of them if there are not so many, or it fails, with
`EWOULDBLOCK` or with another error. -/
inductive SendAnswer
  | accepts (n : Nat)
  | fails (wouldBlock : Bool)
  deriving DecidableEq, Repr

/-- The sending side of `AsyncTCPSocket`, the answers of the system's socket,
and the bytes handed to it. -/
structure Sender where
  outbuf : Buffer
  answers : List SendAnswer
  sent : List UInt8

/-- The sending side of a new socket. -/
def created (answers : List SendAnswer) : Sender := ⟨Buffer.empty, answers, []⟩

variable {s : Sender} {accepted : List (List UInt8)}

/-- The end of the `Send` loop: the bytes accepted, the view that is left and
the error, `some true` for `EWOULDBLOCK`. -/
structure Flushed where
  written : List UInt8
  view : List UInt8
  error : Option Bool
  answers : List SendAnswer

/-- The `Send` loop of `FlushOutBuffer`. -/
def sendLoop : List SendAnswer → List UInt8 → Flushed
  | answers, [] => ⟨[], [], none, answers⟩
  | [], b :: view => ⟨[], b :: view, some true, []⟩
  | .fails wouldBlock :: answers, b :: view => ⟨[], b :: view, some wouldBlock, answers⟩
  | .accepts n :: answers, b :: view =>
    let r := sendLoop answers (view.drop n)
    { r with written := b :: view.take n ++ r.written }

theorem sendLoop_spec (answers : List SendAnswer) (view : List UInt8) :
    view = (sendLoop answers view).written ++ (sendLoop answers view).view ∧
      ((sendLoop answers view).error = none ↔ (sendLoop answers view).view = []) := by
  fun_induction sendLoop answers view with
  | case1 | case2 | case3 => exact ⟨rfl, by simp⟩
  | case4 n answers b view r ih =>
    refine ⟨?_, ih.2⟩
    rw [append_assoc, ← ih.1, cons_append, take_append_drop]

theorem sendLoop_blocking {answers : List SendAnswer} (view : List UInt8)
    (h : SendAnswer.fails false ∉ answers) :
    (sendLoop answers view).error ≠ some false ∧
      SendAnswer.fails false ∉ (sendLoop answers view).answers := by
  fun_induction sendLoop answers view with
  | case1 | case2 => exact ⟨by simp, h⟩
  | case3 wouldBlock answers b view =>
    rw [mem_cons, not_or] at h
    refine ⟨?_, h.2⟩
    intro herror
    exact h.1 (by rw [Option.some.inj herror])
  | case4 n answers b view r ih => exact ih (not_mem_of_not_mem_cons h)

theorem length_view_le (answers : List SendAnswer) (outbuf : Buffer) :
    0 + (sendLoop answers outbuf.contents).view.length ≤ outbuf.capacity := by
  have hsplit := congrArg length (sendLoop_spec answers outbuf.contents).1
  have hle : outbuf.size ≤ outbuf.capacity := outbuf.size_le
  rw [outbuf.contents_length, length_append] at hsplit
  omega

def flushOutBuffer (fresh : Nat → UInt8) (s : Sender) : Int × Sender :=
  let r := sendLoop s.answers s.outbuf.contents
  let sent := s.sent ++ r.written
  match r.error with
  | none => (s.outbuf.size, ⟨s.outbuf.clear, r.answers, sent⟩)
  | some wouldBlock =>
    let res : Int := if wouldBlock then s.outbuf.size - r.view.length else -1
    let outbuf :=
      if r.view.length < s.outbuf.size then
        (s.outbuf.store 0 r.view (length_view_le s.answers s.outbuf)).setSize fresh
          r.view.length
      else s.outbuf
    (res, ⟨outbuf, r.answers, sent⟩)

def appendToOutBuffer (fresh : Nat → UInt8) (s : Sender) (data : List UInt8) : Sender :=
  { s with outbuf := s.outbuf.appendData fresh data }

@[simp] theorem contents_appendToOutBuffer (s : Sender) (data : List UInt8) :
    (appendToOutBuffer fresh s data).outbuf.contents = s.outbuf.contents ++ data :=
  s.outbuf.contents_appendData fresh data

@[simp] theorem sent_appendToOutBuffer (s : Sender) (data : List UInt8) :
    (appendToOutBuffer fresh s data).sent = s.sent := rfl

def send (fresh : Nat → UInt8) (s : Sender) (packet : List UInt8) : Int × Sender :=
  if kBufSize < packet.length then (-1, s)
  else if s.outbuf.size ≠ 0 then (packet.length, s)
  else
    let header := bytesBE kPacketLenSize packet.length
    let r := flushOutBuffer fresh
      (appendToOutBuffer fresh (appendToOutBuffer fresh s header) packet)
    if r.1 ≤ 0 then (r.1, { r.2 with outbuf := r.2.outbuf.clear })
    else (packet.length, r.2)

/-- `OnWriteEvent`; the first component tells whether it signals that the socket
is ready to send. -/
def onWriteEvent (fresh : Nat → UInt8) (s : Sender) : Bool × Sender :=
  let s := if 0 < s.outbuf.size then (flushOutBuffer fresh s).2 else s
  (s.outbuf.size == 0, s)

/-- A call to the sending side. -/
inductive SendCall
  | send (packet : List UInt8)
  | onWriteEvent

/-- What is seen of a call: of a `Send` the packet, whether the output buffer
was empty, and the value returned. -/
inductive SendReport
  | send (packet : List UInt8) (wasEmpty : Bool) (returned : Int)
  | onWriteEvent (readyToSend : Bool)

def sendStep (fresh : Nat → UInt8) (s : Sender) : SendCall → SendReport × Sender
  | .send packet =>
    (.send packet (s.outbuf.size == 0) (send fresh s packet).1, (send fresh s packet).2)
  | .onWriteEvent => (.onWriteEvent (onWriteEvent fresh s).1, (onWriteEvent fresh s).2)

/-- The frame of a packet. -/
def frame (packet : List UInt8) : List UInt8 := bytesBE kPacketLenSize packet.length ++ packet

/-- The packet of a call. -/
def SendCall.packet? : SendCall → Option (List UInt8)
  | .send packet => some packet
  | .onWriteEvent => none

/-- The packet for which `Send` reported success while the output buffer was
empty. -/
def SendReport.accepted? : SendReport → Option (List UInt8)
  | .send packet true returned => if returned = packet.length then some packet else none
  | _ => none

/-- The sender has sent whole frames, up to what its output buffer holds. -/
structure Whole (s : Sender) (accepted : List (List UInt8)) : Prop where
  blocking : SendAnswer.fails false ∉ s.answers
  frames : s.sent ++ s.outbuf.contents = (accepted.map frame).flatten

theorem flushOutBuffer_spec (h : SendAnswer.fails false ∉ s.answers) :
    ∃ written, s.outbuf.contents = written ++ (flushOutBuffer fresh s).2.outbuf.contents ∧
      (flushOutBuffer fresh s).2.sent = s.sent ++ written ∧
      (flushOutBuffer fresh s).1 = written.length ∧
      SendAnswer.fails false ∉ (flushOutBuffer fresh s).2.answers := by
  have hspec := sendLoop_spec s.answers s.outbuf.contents
  have hblocking := sendLoop_blocking s.outbuf.contents h
  have hview := length_view_le s.answers s.outbuf
  have hlength := congrArg length hspec.1
  rw [s.outbuf.contents_length, length_append] at hlength
  refine ⟨(sendLoop s.answers s.outbuf.contents).written, ?_⟩
  unfold flushOutBuffer
  dsimp only
  split
  case h_1 hnone =>
    have hempty := hspec.2.1 hnone
    rw [hempty, length_nil, Nat.add_zero] at hlength
    refine ⟨?_, rfl, by rw [hlength], hblocking.2⟩
    rw [hempty] at hspec
    exact hspec.1
  case h_2 wouldBlock hsome =>
    have htrue : wouldBlock = true := by
      cases wouldBlock with
      | false => exact absurd hsome hblocking.1
      | true => rfl
    refine ⟨?_, rfl, ?_, hblocking.2⟩
    · dsimp only
      split
      case isTrue =>
        have hstored := s.outbuf.contents_setSize_store fresh 0 _ hview
        rw [Nat.zero_add] at hstored
        rw [hstored]
        exact hspec.1
      case isFalse hall =>
        -- Nothing was accepted, and the output buffer stays as it is.
        have hnil : (sendLoop s.answers s.outbuf.contents).written = [] :=
          length_eq_zero_iff.1 (by omega)
        rw [hnil, nil_append]
    · rw [htrue, if_pos rfl]
      omega

theorem onWriteEvent_whole (h : Whole s accepted) : Whole (onWriteEvent fresh s).2 accepted := by
  unfold onWriteEvent
  split
  case isTrue =>
    obtain ⟨written, hcontents, hsent, _, hblocking⟩ := flushOutBuffer_spec fresh h.blocking
    refine ⟨hblocking, ?_⟩
    rw [hsent, append_assoc, ← hcontents]
    exact h.frames
  case isFalse => exact h

theorem accepted?_send (packet : List UInt8) (wasEmpty : Bool) (returned : Int) :
    (SendReport.send packet wasEmpty returned).accepted? =
      if wasEmpty = true ∧ returned = packet.length then some packet else none := by
  cases wasEmpty with
  | false => rfl
  | true =>
    rw [SendReport.accepted?]
    simp

theorem send_whole {packet : List UInt8} (hpacket : 1 ≤ packet.length) (h : Whole s accepted) :
    Whole (send fresh s packet).2 (accepted ++
      (SendReport.send packet (s.outbuf.size == 0) (send fresh s packet).1).accepted?.toList) := by
  rw [accepted?_send]
  unfold send
  split
  case isTrue =>
    rw [if_neg (by omega), Option.toList_none, append_nil]
    exact h
  case isFalse =>
    split
    case isTrue hpending =>
      rw [if_neg (by simp [hpending]), Option.toList_none, append_nil]
      exact h
    case isFalse hempty =>
      have hsize : s.outbuf.size = 0 := Decidable.not_not.1 hempty
      have hnil : s.outbuf.contents = [] := by rw [Buffer.contents, hsize, take_zero]
      have hsent := h.frames
      rw [hnil, append_nil] at hsent
      dsimp only
      obtain ⟨written, hcontents, hflushed, hres, hblocking⟩ :=
        flushOutBuffer_spec (s := appendToOutBuffer fresh (appendToOutBuffer fresh s
          (bytesBE kPacketLenSize packet.length)) packet) fresh h.blocking
      rw [contents_appendToOutBuffer, contents_appendToOutBuffer, hnil, nil_append] at hcontents
      rw [sent_appendToOutBuffer, sent_appendToOutBuffer] at hflushed
      split
      case isTrue hnone =>
        -- No byte was accepted, and the frame is taken back.
        have hwritten : written = [] := length_eq_zero_iff.1 (by omega)
        rw [if_neg (by omega), Option.toList_none, append_nil]
        refine ⟨hblocking, ?_⟩
        rw [hflushed, hwritten, append_nil, ← hsent]
        exact append_nil _
      case isFalse =>
        rw [if_pos ⟨by simp [hsize], rfl⟩, Option.toList_some]
        refine ⟨hblocking, ?_⟩
        rw [hflushed, append_assoc, ← hcontents, hsent, map_append,
          flatten_append, map_singleton, flatten_singleton, frame]

theorem sendStep_whole (call : SendCall) (hcall : ∀ packet, call = .send packet → 1 ≤ packet.length)
    (h : Whole s accepted) :
    Whole (sendStep fresh s call).2 (accepted ++ (sendStep fresh s call).1.accepted?.toList) := by
  cases call with
  | send packet => exact send_whole fresh (hcall packet rfl) h
  | onWriteEvent =>
    rw [show (sendStep fresh s .onWriteEvent).1.accepted? = none from rfl,
      Option.toList_none, append_nil]
    exact onWriteEvent_whole fresh h

theorem runT_whole (calls : List SendCall)
    (hcalls : ∀ packet, SendCall.send packet ∈ calls → 1 ≤ packet.length) (h : Whole s accepted) :
    Whole (runT (sendStep fresh) s calls).2
      (accepted ++ (runT (sendStep fresh) s calls).1.filterMap SendReport.accepted?) := by
  induction calls generalizing s accepted with
  | nil =>
    rw [runT, filterMap_nil, append_nil]
    exact h
  | cons call calls ih =>
    have hstep := sendStep_whole fresh call
      (fun packet heq => hcalls packet (heq ▸ mem_cons_self)) h
    have hrest := ih (fun packet hmem => hcalls packet (mem_cons_of_mem _ hmem)) hstep
    rw [append_assoc] at hrest
    rw [runT, filterMap_cons]
    cases haccepted : (sendStep fresh s call).1.accepted? <;>
      · rw [haccepted] at hrest
        exact hrest

theorem accepted_sublist (calls : List SendCall) (s : Sender) :
    ((runT (sendStep fresh) s calls).1.filterMap SendReport.accepted?).Sublist
      (calls.filterMap SendCall.packet?) := by
  induction calls generalizing s with
  | nil => exact List.Sublist.slnil
  | cons call calls ih =>
    have hrest := ih (sendStep fresh s call).2
    cases call with
    | send packet =>
      rw [runT, filterMap_cons, sendStep, accepted?_send]
      split
      case h_1 => exact hrest.cons packet
      case h_2 accepted haccepted =>
        rw [Option.ite_none_right_eq_some] at haccepted
        cases haccepted.2
        exact hrest.cons_cons packet
    | onWriteEvent => exact hrest

theorem frame_isFrame {packet : List UInt8} (h : packet.length ≤ 65535) :
    packetFormat.IsFrame (frame packet) := by
  have hheader : (frame packet).take kPacketLenSize = bytesBE kPacketLenSize packet.length :=
    take_left' (bytesBE_length _ _)
  refine ⟨?_, ?_⟩
  · rw [frame, length_append]
    exact Nat.le_add_right _ _
  · show kPacketLenSize + valueBE ((frame packet).take kPacketLenSize) = _
    rw [hheader, valueBE_bytesBE_of_lt (by show _ < 65536; omega), frame,
      length_append, bytesBE_length]

theorem frames_deframe {packets : List (List UInt8)}
    (h : ∀ packet ∈ packets, packet.length ≤ 65535) :
    Deframes (packets.map frame).flatten packets [] := by
  refine ⟨packets.map frame, ⟨(append_nil _).symm, ?_, ?_⟩, ?_⟩
  · intro cells hmem
    obtain ⟨packet, hpacket, rfl⟩ := mem_map.1 hmem
    exact frame_isFrame (h packet hpacket)
  · intro hcomplete
    exact absurd hcomplete.1 (by decide)
  · rw [map_map]
    have hdrop : ((·.drop kPacketLenSize) ∘ frame : List UInt8 → List UInt8) = id := rfl
    rw [hdrop, map_id]

/-- **No torn frames.**  For every sequence of calls with packets of 1 to 65535
bytes, and a system's socket that accepts some of the bytes offered or fails
with `EWOULDBLOCK`, the bytes handed to it and the output buffer together are
the frames of those packets passed to `Send` for which it reported success
while the output buffer was empty. -/
theorem sends_whole_frames (fresh : Nat → UInt8) (answers : List SendAnswer)
    (calls : List SendCall) (hanswers : SendAnswer.fails false ∉ answers)
    (hcalls : ∀ packet, SendCall.send packet ∈ calls → 1 ≤ packet.length ∧ packet.length ≤ 65535) :
    let r := runT (sendStep fresh) (created answers) calls
    let accepted := r.1.filterMap SendReport.accepted?
    r.2.sent ++ r.2.outbuf.contents = (accepted.map frame).flatten ∧
      Deframes (r.2.sent ++ r.2.outbuf.contents) accepted [] ∧
      accepted.Sublist (calls.filterMap SendCall.packet?) := by
  intro r accepted
  have hcreated : Whole (created answers) [] := ⟨hanswers, rfl⟩
  have hwhole := runT_whole fresh calls (fun packet hmem => (hcalls packet hmem).1) hcreated
  have hsublist := accepted_sublist fresh calls (created answers)
  refine ⟨hwhole.frames, ?_, hsublist⟩
  rw [hwhole.frames]
  apply frames_deframe
  intro packet hmem
  obtain ⟨call, hcall, hpacket⟩ := mem_filterMap.1 (hsublist.subset hmem)
  cases call with
  | send packet' =>
    cases hpacket
    exact (hcalls packet hcall).2
  | onWriteEvent => exact absurd hpacket (by simp [SendCall.packet?])

/-- The first packet is cut after one byte, the second is dropped, and the write
event sends the rest. -/
theorem sends_whole_frames_cut :
    let calls := [SendCall.send [7], .send [8], .onWriteEvent, .send [9]]
    let r := runT (sendStep fun _ => 0)
      (created [.accepts 0, .fails true, .accepts 1, .accepts 3, .fails true]) calls
    r.2.sent = [0, 1, 7, 0, 1, 9] ∧ r.2.outbuf.contents = [] ∧
      Deframes (r.2.sent ++ r.2.outbuf.contents) (r.1.filterMap SendReport.accepted?) [] := by
  intro calls r
  refine ⟨by decide, by decide, ?_⟩
  apply (sends_whole_frames (fun _ => 0) _ calls (by decide) ?_).2.1
  intro packet hmem
  simp only [calls, mem_cons, SendCall.send.injEq, reduceCtorEq, not_mem_nil,
    or_false, false_or] at hmem
  rcases hmem with rfl | rfl | rfl <;> decide

/-- **What arrives.**  However the two systems' sockets cut what is written and what is read,
the packets signalled are the first of those accepted, in order, and all of them once nothing
is under way. -/
theorem packets_arrive (fresh' : Nat → UInt8) (answers : List SendAnswer) (calls : List SendCall)
    (hanswers : SendAnswer.fails false ∉ answers)
    (hcalls : ∀ packet ∈ calls.filterMap SendCall.packet?,
      1 ≤ packet.length ∧ packet.length ≤ 65535) (recvAnswers : List RecvAnswer) (n : Nat) :
    let r := runT (sendStep fresh) (created answers) calls
    let accepted := r.1.filterMap SendReport.accepted?
    let s := readEvents fresh' n (connected fresh' r.2.sent recvAnswers)
    s.signalled <+: accepted ∧
      (s.incoming = [] → r.2.outbuf.contents = [] → s.signalled = accepted) := by
  intro r accepted s
  have hcreated : Whole (created answers) [] := ⟨hanswers, rfl⟩
  have hwhole := runT_whole fresh calls
    (fun packet hmem => (hcalls packet (mem_filterMap.2 ⟨_, hmem, rfl⟩)).1) hcreated
  have hsublist := accepted_sublist fresh calls (created answers)
  have hall : Deframes (r.2.sent ++ r.2.outbuf.contents) accepted [] := by
    rw [hwhole.frames]
    exact frames_deframe fun packet hmem => (hcalls packet (hsublist.subset hmem)).2
  obtain ⟨received, hsent, hframes⟩ := (readEvents_delivering fresh' n
    (connected_delivering fresh' r.2.sent recvAnswers)).received
  constructor
  · -- what is not signalled yet has a cut of its own, and the cut of all is unique
    have hrest := (@processInput_spec _ _ (s.inbuf.contents ++ (s.incoming ++ r.2.outbuf.contents))
      (Nat.le_refl _) (Nat.le_refl _)).2.2
    rw [take_length] at hrest
    have hjoined := hframes.append hrest
    rw [← append_assoc, ← hsent] at hjoined
    exact ⟨_, (hall.unique hjoined).1.symm⟩
  · intro hincoming hflushed
    rw [hincoming, append_nil] at hsent
    rw [hflushed, append_nil, hsent] at hall
    exact (hframes.unique hall).1

/-- Two packets, written in four pieces and read in three. -/
theorem packets_arrive_cut :
    (readEvents (fun _ => 0) 3 (connected (fun _ => 0) (runT (sendStep fun _ => 0)
      (created [.accepts 1, .accepts 2, .accepts 3, .fails true, .accepts 1])
      [.send [7], .onWriteEvent, .send [8, 9], .onWriteEvent]).2.sent
      [some 2, none, some 5])).signalled = [[7], [8, 9]] :=
  (packets_arrive (fun _ => 0) _ _ _ (by decide) (by decide) _ _).2 (by decide +kernel) (by decide)

end WebrtcCore.Ports.AsyncTcpSocket
