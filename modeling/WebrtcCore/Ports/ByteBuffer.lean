import WebrtcCore.Verified.Bytes
import WebrtcCore.Verified.Cursor

/-!
# Byte buffers (`rtc_base/byte_buffer.{h,cc}`)

A `ByteBufferReader` is a cursor over the bytes it was constructed with:
`start_` is the position, and `size_ = end_` is the number of bytes.  A
`ByteBufferWriter` only ever grows at its end, so a write is modelled by the
bytes it appends.

The fixed-width reads and writes are one definition with the width as a
parameter, `readNumber` and `bytesBE`; each keeps the name it has in the
source.
-/

namespace WebrtcCore.Ports.ByteBuffer

open Verified Bytes Cursor

abbrev ByteBufferReader := Cursor UInt8

/-! ## Reading -/

def readBytes (len : Nat) : Attempt ByteBufferReader (List UInt8) := takeCells len

/-- `ReadString`, with the bytes it appends to `val`. -/
def readString (len : Nat) : Attempt ByteBufferReader (List UInt8) := takeCells len

def consume (size : Nat) : Attempt ByteBufferReader Unit := skipCells size

/-- Read `len` bytes and convert them from network order. -/
def readNumber {α : Type} (len : Nat) (ofNat : Nat → α) :
    Attempt ByteBufferReader α := do
  let bytes ← readBytes len
  return ofNat (valueBE bytes)

def readUInt8 : Attempt ByteBufferReader UInt8 := readNumber 1 UInt8.ofNat

def readUInt16 : Attempt ByteBufferReader UInt16 := readNumber 2 UInt16.ofNat

def readUInt32 : Attempt ByteBufferReader UInt32 := readNumber 4 UInt32.ofNat

def readUInt64 : Attempt ByteBufferReader UInt64 := readNumber 8 UInt64.ofNat

/-! ## Writing -/

def writeUInt8 (val : UInt8) : List UInt8 := bytesBE 1 val.toNat

def writeUInt16 (val : UInt16) : List UInt8 := bytesBE 2 val.toNat

def writeUInt32 (val : UInt32) : List UInt8 := bytesBE 4 val.toNat

def writeUInt64 (val : UInt64) : List UInt8 := bytesBE 8 val.toNat

@[simp] theorem writeUInt8_length (val : UInt8) : (writeUInt8 val).length = 1 := bytesBE_length _ _

@[simp] theorem writeUInt16_length (val : UInt16) :
    (writeUInt16 val).length = 2 := bytesBE_length _ _

@[simp] theorem writeUInt32_length (val : UInt32) :
    (writeUInt32 val).length = 4 := bytesBE_length _ _

@[simp] theorem writeUInt64_length (val : UInt64) :
    (writeUInt64 val).length = 8 := bytesBE_length _ _

theorem writeUInt8_eq (val : UInt8) : writeUInt8 val = [val] := by simp [writeUInt8, bytesBE]

/-! ## What a read does -/

theorem readBytes_reads {n : Nat} {w : List UInt8} (h : w.length = n) :
    Reads (readBytes n) w w := by
  subst h
  exact Reads.takeCells w

theorem consume_reads {n : Nat} {w : List UInt8} (h : w.length = n) : Reads (consume n) w () := by
  subst h
  exact Reads.skipCells w

theorem readNumber_reads {α : Type} {len n : Nat} {ofNat : Nat → α} {v : α}
    (hlt : n < 256 ^ len) (hv : ofNat n = v) :
    Reads (readNumber len ofNat) (bytesBE len n) v := by
  have h := (readBytes_reads (bytesBE_length len n)).map (fun bytes => ofNat (valueBE bytes))
  rwa [valueBE_bytesBE_of_lt hlt, hv] at h

theorem readUInt8_reads (v : UInt8) : Reads readUInt8 (writeUInt8 v) v :=
  readNumber_reads v.toNat_lt UInt8.ofNat_toNat

theorem readUInt8_reads_one (b : UInt8) : Reads readUInt8 [b] b := by
  have h := readUInt8_reads b
  rw [writeUInt8_eq] at h
  exact h

theorem readUInt16_reads (v : UInt16) : Reads readUInt16 (writeUInt16 v) v :=
  readNumber_reads v.toNat_lt UInt16.ofNat_toNat

theorem readUInt32_reads (v : UInt32) : Reads readUInt32 (writeUInt32 v) v :=
  readNumber_reads v.toNat_lt UInt32.ofNat_toNat

theorem readUInt64_reads (v : UInt64) : Reads readUInt64 (writeUInt64 v) v :=
  readNumber_reads v.toNat_lt UInt64.ofNat_toNat

theorem readNumber_eq_some_iff {α : Type} {len : Nat} {ofNat : Nat → α}
    {c c' : ByteBufferReader} {v : α} :
    readNumber len ofNat c = (some v, c') ↔
      len ≤ c.remaining ∧ v = ofNat (valueBE (c.rest.take len)) ∧ c' = c.advance len := by
  unfold readNumber readBytes
  rw [Attempt.bind_eq_some_iff]
  constructor
  · rintro ⟨bytes, c₁, htake, hpure⟩
    obtain ⟨hle, rfl, rfl⟩ := takeCells_eq_some_iff.1 htake
    simp only [Attempt.pure_apply, Prod.mk.injEq, Option.some.injEq] at hpure
    exact ⟨hle, hpure.1.symm, hpure.2.symm⟩
  · rintro ⟨hle, rfl, rfl⟩
    exact ⟨_, _, takeCells_eq_some_iff.2 ⟨hle, rfl, rfl⟩, rfl⟩

theorem readNumber_width {α : Type} (len : Nat) (ofNat : Nat → α) :
    Width (readNumber len ofNat) len :=
  (Width.takeCells len).bind fun _ => Width.pure _

end WebrtcCore.Ports.ByteBuffer
