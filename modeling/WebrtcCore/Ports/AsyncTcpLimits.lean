import WebrtcCore.Ports.AsyncTcpSocket

/-!
# The limits of a frame (`rtc_base/async_tcp_socket.cc`)

Four limits meet in a packet that `AsyncTCPSocket::Send` accepts: `Send` compares
its size with `kBufSize`, the length field of the frame has 16 bits,
`AppendToOutBuffer` asserts that the output buffer stays within `kBufSize`, and
`ProcessInput` goes by the length field.
-/

namespace WebrtcCore.Ports.AsyncTcpSocket

open Ports.Buffer Verified.Bytes List

/-- The sender with the frame of a packet in its output buffer, as `Send` flushes
it. -/
def queued (fresh : Nat → UInt8) (s : Sender) (packet : List UInt8) : Sender :=
  appendToOutBuffer fresh
    (appendToOutBuffer fresh s (bytesBE kPacketLenSize packet.length)) packet

/-- The frame that `Send` makes of a packet is a correct one: its length field
holds the size of the packet, both assertions of `AppendToOutBuffer` hold, and
`ProcessInput` of a peer that has received it signals the packet and keeps
nothing. -/
structure FramesCorrectly (fresh : Nat → UInt8) (s : Sender) (packet : List UInt8) :
    Prop where
  length_field : valueBE (bytesBE kPacketLenSize packet.length) = packet.length
  header_fits : s.outbuf.size + kPacketLenSize ≤ kBufSize
  packet_fits : (appendToOutBuffer fresh s
    (bytesBE kPacketLenSize packet.length)).outbuf.size + packet.length ≤ kBufSize
  signals :
    let bytes := (queued fresh s packet).outbuf.contents
    let r := processInput bytes.length bytes bytes.length
    r.1 = [packet] ∧ r.2.2 = 0

theorem contents_queued (fresh : Nat → UInt8) {s : Sender} (packet : List UInt8)
    (hempty : s.outbuf.size = 0) :
    (queued fresh s packet).outbuf.contents = frame packet := by
  have hnil : s.outbuf.contents = [] := by rw [Buffer.contents, hempty, take_zero]
  rw [queued, contents_appendToOutBuffer, contents_appendToOutBuffer, hnil, nil_append, frame]

theorem length_field_iff (packet : List UInt8) :
    valueBE (bytesBE kPacketLenSize packet.length) = packet.length ↔ packet.length ≤ 65535 := by
  rw [valueBE_bytesBE]
  show packet.length % 65536 = packet.length ↔ _
  omega

theorem processInput_frame {packet : List UInt8} (h : packet.length ≤ 65535) :
    (processInput (frame packet).length (frame packet) (frame packet).length).1 = [packet] ∧
      (processInput (frame packet).length (frame packet) (frame packet).length).2.2 = 0 := by
  obtain ⟨hlength, hle, hcut⟩ :=
    processInput_spec (Nat.le_refl (frame packet).length) (Nat.le_refl _)
  have hframe : Deframes (frame packet) [packet] [] := by
    have hone := @frames_deframe [packet] (by simpa using h)
    rw [map_singleton, flatten_singleton] at hone
    exact hone
  rw [take_length] at hcut
  obtain ⟨hpayloads, htail⟩ := hcut.unique hframe
  have hzero := congrArg length htail
  rw [length_take_of_le (hlength.symm ▸ hle)] at hzero
  exact ⟨hpayloads, hzero⟩

theorem framesCorrectly_iff (fresh : Nat → UInt8) {s : Sender} (packet : List UInt8)
    (hempty : s.outbuf.size = 0) :
    FramesCorrectly fresh s packet ↔ packet.length ≤ 65535 := by
  constructor
  · intro h
    exact (length_field_iff packet).1 h.length_field
  · intro h
    have hheader : (appendToOutBuffer fresh s
        (bytesBE kPacketLenSize packet.length)).outbuf.size = kPacketLenSize := by
      rw [← Buffer.contents_length, contents_appendToOutBuffer, length_append,
        Buffer.contents_length, hempty, bytesBE_length, Nat.zero_add]
    refine ⟨(length_field_iff packet).2 h, ?_, ?_, ?_⟩
    · rw [hempty]
      decide
    · rw [hheader]
      show 2 + packet.length ≤ 65538
      omega
    · rw [contents_queued fresh packet hempty]
      exact processInput_frame h

/-- `Send` with an empty output buffer frames a packet that it does not reject as
too large correctly exactly if the packet has at most 65535 bytes.  Whatever the
size, if the system's socket takes some of the frame and otherwise only blocks,
then what it has taken and the output buffer are that frame. -/
theorem send_frames_iff (fresh : Nat → UInt8) {s : Sender} (packet : List UInt8)
    (hempty : s.outbuf.size = 0) (haccepted : packet.length ≤ kBufSize) :
    (FramesCorrectly fresh s packet ↔ packet.length ≤ 65535) ∧
      (SendAnswer.fails false ∉ s.answers → 0 < (flushOutBuffer fresh (queued fresh s packet)).1 →
        (send fresh s packet).2.sent ++ (send fresh s packet).2.outbuf.contents =
          s.sent ++ (queued fresh s packet).outbuf.contents) := by
  refine ⟨framesCorrectly_iff fresh packet hempty, ?_⟩
  intro hblocking hprogress
  obtain ⟨written, hcontents, hsent, -, -⟩ :=
    flushOutBuffer_spec (s := queued fresh s packet) fresh hblocking
  have hsend : (send fresh s packet).2 = (flushOutBuffer fresh (queued fresh s packet)).2 := by
    unfold send
    rw [if_neg (Nat.not_lt.2 haccepted), if_neg (by simpa using hempty)]
    dsimp only
    rw [← queued, if_neg (Int.not_le.2 hprogress)]
  rw [hsend, hsent, append_assoc, ← hcontents]
  rfl

/-- A packet of one byte. -/
theorem send_frames_one :
    FramesCorrectly (fun _ => 0) (created [.accepts 5]) [7] ∧
      (send (fun _ => 0) (created [.accepts 5]) [7]).2.sent = [0, 1, 7] := by
  have h := send_frames_iff (fun _ => 0) (s := created [.accepts 5]) [7] rfl (by decide)
  exact ⟨h.1.2 (by decide), by decide⟩

/-- A packet of 65536 bytes is accepted, and its length field is zero. -/
theorem send_frames_not_all :
    ∃ packet : List UInt8, packet.length ≤ kBufSize ∧
      bytesBE kPacketLenSize packet.length = [0, 0] ∧
      ¬FramesCorrectly (fun _ => 0) (created []) packet := by
  refine ⟨replicate 65536 0, ?_, ?_, ?_⟩
  · rw [length_replicate]
    decide
  · rw [length_replicate]
    decide
  · rw [framesCorrectly_iff _ _ rfl, length_replicate]
    decide

end WebrtcCore.Ports.AsyncTcpSocket
