import Mathlib.Data.Nat.Digits.Defs
import WebrtcCore.Ports.ByteBuffer

/-!
# Variable-length integers (`rtc_base/byte_buffer.{h,cc}`)

`WriteUVarint` writes a number in groups of seven bits, the lowest first, each in
a byte of its own whose highest bit tells that another group follows.
`ReadUVarint` reads at most ten groups.  It takes one byte at a time from the
buffer and keeps 64 bits of what they stand for.
-/

namespace WebrtcCore.Ports.ByteBuffer

open Verified Bytes Cursor List

/-- `ReadUInt24`: three bytes behind a zero byte, converted from network
order. -/
def readUInt24 : Attempt ByteBufferReader UInt32 := readNumber 3 UInt32.ofNat

/-- A `char` converted to `uint64_t`, with its sign. -/
def charToUInt64 (byte : UInt8) : UInt64 := byte.toInt8.toInt64.toUInt64

/-- The loop of `ReadUVarint` from the shift `i` on, for a number of rounds, with
the value `v` so far. -/
def readGroups : Nat → Nat → UInt64 → Attempt ByteBufferReader UInt64
  | 0, _, _ => Attempt.fail
  | rounds + 1, i, v => do
      -- `ReadBytes` of one byte
      let byte ← readUInt8
      let v := v ||| (charToUInt64 byte &&& 0x7F) <<< UInt64.ofNat i
      if charToUInt64 byte < 0x80 then return v
      else readGroups rounds (i + 7) v

/-- `ReadUVarint`: the shifts are 0, 7, 14, … below 64. -/
def readUVarint : Attempt ByteBufferReader UInt64 := readGroups 10 0 0

variable (val : UInt64)

theorem shiftRight_seven_toNat : (val >>> 7).toNat = val.toNat / 128 := by
  rw [UInt64.toNat_shiftRight, Nat.shiftRight_eq_div_pow]
  rfl

def writeUVarint (val : UInt64) : List UInt8 :=
  if 0x80 ≤ val then (val.toUInt8 ||| 0x80) :: writeUVarint (val >>> 7)
  else [val.toUInt8]
termination_by val.toNat
decreasing_by
  rename_i h
  have hle : 128 ≤ val.toNat := UInt64.le_iff_toNat_le.mp h
  rw [shiftRight_seven_toNat]
  omega

/-! ## Groups -/

/-- The number that groups of seven bits stand for, the lowest first. -/
def groupsValue (bs : List UInt8) : Nat := Nat.ofDigits 128 (bs.map fun b => b.toNat % 128)

/-- The highest bit is clear in the last byte and set in those before it. -/
def Terminated : List UInt8 → Prop
  | [] => False
  | b :: bs => if b.toNat < 128 then bs = [] else Terminated bs

theorem groupsValue_cons (b : UInt8) (bs : List UInt8) :
    groupsValue (b :: bs) = b.toNat % 128 + 128 * groupsValue bs :=
  Nat.ofDigits_cons

theorem groupsValue_lt (bs : List UInt8) : groupsValue bs < 128 ^ bs.length := by
  have hlt := Nat.ofDigits_lt_base_pow_length (b := 128)
    (l := bs.map fun b => b.toNat % 128) (by decide) (by
      intro d hd
      obtain ⟨b, -, rfl⟩ := mem_map.1 hd
      exact Nat.mod_lt _ (by decide))
  rw [length_map] at hlt
  exact hlt

variable (byte : UInt8)

theorem charToUInt64_and : (charToUInt64 byte &&& 0x7F).toNat = byte.toNat % 128 := by
  have hall : ∀ bits : BitVec 8,
      (charToUInt64 ⟨bits⟩ &&& 0x7F).toNat = bits.toNat % 128 := by decide
  exact hall byte.toBitVec

theorem charToUInt64_lt_iff : charToUInt64 byte < 0x80 ↔ byte.toNat < 128 := by
  have hall : ∀ bits : BitVec 8, charToUInt64 ⟨bits⟩ < 0x80 ↔ bits.toNat < 128 := by decide
  exact hall byte.toBitVec

theorem or_group_toNat {v : UInt64} {byte : UInt8} {i : Nat} (hi : i ≤ 63) (hv : v.toNat < 2 ^ i) :
    (v ||| (charToUInt64 byte &&& 0x7F) <<< UInt64.ofNat i).toNat =
      (v.toNat + 2 ^ i * (byte.toNat % 128)) % 2 ^ 64 := by
  have hshift : ((charToUInt64 byte &&& 0x7F) <<< UInt64.ofNat i).toNat =
      2 ^ i * (byte.toNat % 128 % 2 ^ (64 - i)) := by
    rw [UInt64.toNat_shiftLeft, charToUInt64_and, UInt64.toNat_ofNat', Nat.shiftLeft_eq,
      Nat.mod_eq_of_lt (show i < 2 ^ 64 by omega), Nat.mod_eq_of_lt (show i < 64 by omega),
      ← Nat.mul_mod_mul_left, ← Nat.pow_add, Nat.add_sub_of_le (by omega), Nat.mul_comm]
  rw [UInt64.toNat_or, hshift, Nat.or_comm, ← Nat.two_pow_add_eq_or_of_lt hv]
  have hsplit : 2 ^ 64 = 2 ^ i * 2 ^ (64 - i) := by rw [← Nat.pow_add, Nat.add_sub_of_le (by omega)]
  rw [hsplit, Nat.mod_mul, Nat.add_mul_mod_self_left, Nat.mod_eq_of_lt hv,
    Nat.add_mul_div_left _ _ (Nat.two_pow_pos i), Nat.div_eq_of_lt hv, Nat.zero_add,
    Nat.add_comm]

/-- The register of `ReadUVarint` after the groups of some bytes. -/
def pushGroups : Nat → UInt64 → List UInt8 → UInt64
  | _, v, [] => v
  | i, v, b :: bs =>
    pushGroups (i + 7) (v ||| (charToUInt64 b &&& 0x7F) <<< UInt64.ofNat i) bs

theorem pushGroups_toNat {i : Nat} {v : UInt64} {bs : List UInt8} (hi : i + 7 * bs.length ≤ 70)
    (hv : v.toNat < 2 ^ i) :
    (pushGroups i v bs).toNat = (v.toNat + 2 ^ i * groupsValue bs) % 2 ^ 64 := by
  fun_induction pushGroups i v bs with
  | case1 i v => exact (Nat.mod_eq_of_lt v.toNat_lt).symm
  | case2 i v b bs ih =>
    rw [length_cons] at hi
    have hor := @or_group_toNat _ b _ (show i ≤ 63 by omega) hv
    -- What a group adds stays below the next group, or below `2 ^ 64` at the last shift.
    have hnext : (v ||| (charToUInt64 b &&& 0x7F) <<< UInt64.ofNat i).toNat < 2 ^ (i + 7) := by
      have hgroup : 2 ^ i * (b.toNat % 128 + 1) ≤ 2 ^ i * 128 :=
        Nat.mul_le_mul_left _ (Nat.mod_lt _ (by decide))
      rw [hor, Nat.pow_add]
      apply Nat.lt_of_le_of_lt (Nat.mod_le _ _)
      rw [Nat.mul_add] at hgroup
      omega
    rw [ih (by omega) hnext, hor, Nat.mod_add_mod, Nat.pow_add, Nat.mul_assoc, groupsValue_cons,
      Nat.mul_add, Nat.add_assoc]

/-! ## Reading -/

variable {c : ByteBufferReader} {w : List UInt8}

theorem readUInt8_of_rest_nil (h : c.rest = []) : readUInt8 c = (none, c) := by
  have hzero : c.remaining = 0 := by
    rw [← rest_length, h]
    rfl
  have htake : readBytes 1 c = (none, c) := if_neg (by omega)
  unfold readUInt8 readNumber
  rw [Attempt.bind_apply, htake]

theorem readGroups_cons {b : UInt8} {rest : List UInt8} (h : c.rest = b :: rest) (rounds i : Nat)
    (v : UInt64) :
    readGroups (rounds + 1) i v c = if b.toNat < 128 then (some (pushGroups i v [b]), c.advance 1)
      else readGroups rounds (i + 7) (pushGroups i v [b]) (c.advance 1) := by
  rw [readGroups, Attempt.bind_of_some (readUInt8_reads_one b c rest h)]
  by_cases hlast : b.toNat < 128
  · rw [if_pos hlast, if_pos ((charToUInt64_lt_iff b).2 hlast)]
    rfl
  · rw [if_neg hlast, if_neg (mt (charToUInt64_lt_iff b).1 hlast)]
    rfl

theorem readGroups_nil (h : c.rest = []) (rounds i : Nat) (v : UInt64) :
    readGroups (rounds + 1) i v c = (none, c) := by
  rw [readGroups, Attempt.bind_apply, readUInt8_of_rest_nil h]

theorem readGroups_reads {rounds i : Nat} {v : UInt64} (hw : Terminated w)
    (hlen : w.length ≤ rounds) : Reads (readGroups rounds i v) w (pushGroups i v w) := by
  induction w generalizing rounds i v with
  | nil => exact hw.elim
  | cons b bs ih =>
    intro c rest hrest
    obtain ⟨rounds, rfl⟩ : ∃ n, rounds = n + 1 := ⟨rounds - 1, by simp at hlen; omega⟩
    rw [readGroups_cons hrest]
    rw [Terminated] at hw
    split at hw
    case isTrue hlast =>
      rw [if_pos hlast, hw]
      rfl
    case isFalse hmore =>
      have hnext : (c.advance 1).rest = bs ++ rest := by
        rw [rest_advance, hrest]
        rfl
      rw [if_neg hmore, ih hw (by simpa using hlen) _ _ hnext, advance_advance, Nat.add_comm 1]
      rfl

theorem readGroups_cases (rounds i : Nat) (v : UInt64) (c : ByteBufferReader) :
    (∃ w rest, c.rest = w ++ rest ∧ Terminated w ∧ w.length ≤ rounds) ∨
      readGroups rounds i v c = (none, c.advance rounds) := by
  induction rounds generalizing i v c with
  | zero => exact .inr (by rw [advance_zero]; rfl)
  | succ rounds ih =>
    cases hrest : c.rest with
    | nil =>
      have hzero : c.remaining = 0 := by
        rw [← rest_length, hrest]
        rfl
      rw [readGroups_nil hrest, advance_eq_self_iff.2 (.inr hzero)]
      exact .inr rfl
    | cons b rest =>
      have hnext : (c.advance 1).rest = rest := by
        rw [rest_advance, hrest]
        rfl
      rw [readGroups_cons hrest]
      by_cases hlast : b.toNat < 128
      · exact .inl ⟨[b], rest, rfl, by rw [Terminated, if_pos hlast], by simp⟩
      · rw [if_neg hlast]
        rcases ih (i + 7) (pushGroups i v [b]) (c.advance 1) with
          ⟨w, rest', hw, hterm, hlen⟩ | hfail
        · rw [hnext] at hw
          refine .inl ⟨b :: w, rest', by rw [hw, cons_append], ?_, by simpa using hlen⟩
          rw [Terminated, if_neg hlast]
          exact hterm
        · exact .inr (by rw [hfail, advance_advance, Nat.add_comm 1])

theorem readUVarint_reads_terminated (hw : Terminated w) (hlen : w.length ≤ 10) :
    Reads readUVarint w (UInt64.ofNat (groupsValue w)) := by
  have hpush : pushGroups 0 0 w = UInt64.ofNat (groupsValue w) := by
    apply UInt64.toNat_inj.mp
    rw [pushGroups_toNat (by omega) (by decide), UInt64.toNat_zero, Nat.zero_add,
      Nat.pow_zero, Nat.one_mul, UInt64.toNat_ofNat']
  have hreads := readGroups_reads (i := 0) (v := 0) hw hlen
  rw [hpush] at hreads
  exact hreads

/-! ## Writing -/

theorem or_continuation_toNat : (byte ||| 0x80).toNat = byte.toNat % 128 + 128 := by
  have hall : ∀ bits : BitVec 8, (UInt8.ofBitVec bits ||| 0x80).toNat =
      bits.toNat % 128 + 128 := by decide
  exact hall byte.toBitVec

theorem writeUVarint_spec :
    Terminated (writeUVarint val) ∧ groupsValue (writeUVarint val) = val.toNat := by
  fun_induction writeUVarint val with
  | case1 val hmore ih =>
    have hbyte := or_continuation_toNat val.toUInt8
    rw [UInt64.toNat_toUInt8] at hbyte
    constructor
    · rw [Terminated, if_neg (by omega)]
      exact ih.1
    · rw [groupsValue_cons, ih.2, shiftRight_seven_toNat]
      omega
  | case2 val hlast =>
    have hlt : val.toNat < 128 := by
      apply Nat.lt_of_not_le
      intro hle
      exact hlast (UInt64.le_iff_toNat_le.2 hle)
    have hbyte : val.toUInt8.toNat = val.toNat := by
      rw [UInt64.toNat_toUInt8]
      omega
    constructor
    · rw [Terminated, if_pos (by omega)]
    · rw [groupsValue_cons, hbyte]
      show val.toNat % 128 + 128 * 0 = val.toNat
      omega

theorem writeUVarint_length_le {k : Nat} {val : UInt64} (h : val.toNat < 128 ^ (k + 1)) :
    (writeUVarint val).length ≤ k + 1 := by
  fun_induction writeUVarint val generalizing k with
  | case1 val hmore ih =>
    cases k with
    | zero => exact absurd (UInt64.le_iff_toNat_le.1 hmore) (Nat.not_le_of_lt h)
    | succ k =>
      refine Nat.succ_le_succ (ih ?_)
      rw [shiftRight_seven_toNat, Nat.div_lt_iff_lt_mul (by decide)]
      exact h
  | case2 => exact Nat.le_add_left 1 _

theorem writeUVarint_length_le_ten : (writeUVarint val).length ≤ 10 := by
  refine @writeUVarint_length_le 9 val ?_
  exact Nat.lt_of_lt_of_le val.toNat_lt (by decide)

theorem readUVarint_reads : Reads readUVarint (writeUVarint val) val := by
  obtain ⟨hterm, hvalue⟩ := writeUVarint_spec val
  have hreads := readUVarint_reads_terminated hterm (writeUVarint_length_le_ten val)
  rw [hvalue, UInt64.ofNat_toNat] at hreads
  exact hreads

/-! ## Sequences of numbers -/

/-- `WriteUVarint` for each number. -/
def writeUVarints (vals : List UInt64) : List UInt8 := vals.flatMap writeUVarint

/-- `ReadUVarint` a number of times. -/
def readUVarints : Nat → Attempt ByteBufferReader (List UInt64)
  | 0 => return []
  | n + 1 => do
      let val ← readUVarint
      let vals ← readUVarints n
      return val :: vals

theorem readUVarints_reads (vals : List UInt64) :
    Reads (readUVarints vals.length) (writeUVarints vals) vals := by
  induction vals with
  | nil => exact Reads.pure []
  | cons val vals ih => exact (readUVarint_reads val).bind (ih.map (val :: ·))

/-- Numbers written in order are read back in order, whatever follows them.  The
read of each number starts where its write started and takes the bytes that it
wrote, at most ten. -/
theorem uvarints_read_back (vals : List UInt64) (rest : List UInt8) (c : ByteBufferReader)
    (h : c.rest = writeUVarints vals ++ rest) :
    readUVarints vals.length c = (some vals, c.advance (writeUVarints vals).length) ∧
      ∀ before val after, vals = before ++ val :: after →
        readUVarint (c.advance (writeUVarints before).length) =
            (some val, c.advance ((writeUVarints before).length + (writeUVarint val).length)) ∧
          (writeUVarint val).length ≤ 10 := by
  refine ⟨readUVarints_reads vals c rest h, ?_⟩
  rintro before val after rfl
  refine ⟨?_, writeUVarint_length_le_ten val⟩
  have hnext : (c.advance (writeUVarints before).length).rest =
      writeUVarint val ++ (writeUVarints after ++ rest) := by
    rw [rest_advance, h]
    simp [writeUVarints]
  rw [readUVarint_reads val _ _ hnext, advance_advance]

/-- 300 takes two bytes and 5 one; the 7 behind them is not touched. -/
theorem uvarints_read_back_two :
    writeUVarints [300, 5] = [0xAC, 0x02, 0x05] ∧
      readUVarints 2 (Cursor.start [0xAC, 0x02, 0x05, 0x07]) =
        (some [300, 5], (Cursor.start [0xAC, 0x02, 0x05, 0x07]).advance 3) := by
  have hfirst : writeUVarint 300 = [0xAC, 0x02] := by
    rw [writeUVarint, writeUVarint]
    rfl
  have hsecond : writeUVarint 5 = [0x05] := by
    rw [writeUVarint]
    rfl
  have hbytes : writeUVarints [300, 5] = [0xAC, 0x02, 0x05] := by
    simp [writeUVarints, hfirst, hsecond]
  have hread := (uvarints_read_back [300, 5] [0x07]
    (start [0xAC, 0x02, 0x05, 0x07]) (by rw [hbytes]; rfl)).1
  rw [hbytes] at hread
  exact ⟨hbytes, hread⟩

/-! ## What is stored -/

/-- The bytes between two positions. -/
def consumed (c c' : ByteBufferReader) : List UInt8 := c.rest.take (c'.pos - c.pos)

theorem consumed_advance {rest : List UInt8} (h : c.rest = w ++ rest) :
    consumed c (c.advance w.length) = w := by
  have hlen : w.length ≤ c.remaining := by
    rw [← rest_length, h, length_append]
    exact Nat.le_add_right _ _
  rw [consumed, advance_pos hlen, Nat.add_sub_cancel_left, h, take_left]

theorem groupsValue_append (bs bs' : List UInt8) :
    groupsValue (bs ++ bs') = groupsValue bs + 128 ^ bs.length * groupsValue bs' := by
  rw [groupsValue, map_append, Nat.ofDigits_append, length_map]
  rfl

theorem Terminated.last_lt {init : List UInt8} {last : UInt8} (h : Terminated (init ++ [last])) :
    last.toNat < 128 := by
  induction init with
  | nil =>
    apply Nat.lt_of_not_le
    intro hle
    rw [nil_append, Terminated, if_neg (Nat.not_lt_of_le hle)] at h
    exact h
  | cons b bs ih =>
    rw [cons_append, Terminated] at h
    split at h
    case isTrue => exact absurd h (by simp)
    case isFalse => exact ih h

theorem groupsValue_lt_iff (hw : Terminated w) (hlen : w.length ≤ 10) :
    groupsValue w < 2 ^ 64 ↔ ∀ tenth, w[9]? = some tenth → tenth.toNat ≤ 1 := by
  by_cases hshort : w.length ≤ 9
  · have hlt := groupsValue_lt w
    have hpow : 128 ^ w.length ≤ 128 ^ 9 := Nat.pow_le_pow_right (by decide) hshort
    rw [getElem?_eq_none (by omega)]
    exact ⟨fun _ _ h => (by cases h), fun _ => by omega⟩
  · have hsplit : w = w.take 9 ++ [w[9]] := by
      rw [take_append_getElem, take_of_length_le (by omega)]
    have htake : (w.take 9).length = 9 := length_take_of_le (by omega)
    have hinit := groupsValue_lt (w.take 9)
    have hlast : w[9].toNat < 128 := (hsplit ▸ hw).last_lt
    have hvalue : groupsValue w = groupsValue (w.take 9) + 128 ^ 9 * w[9].toNat := by
      conv => lhs; rw [hsplit, groupsValue_append, htake, groupsValue_cons, Nat.mod_eq_of_lt hlast]
      rfl
    rw [htake] at hinit
    rw [getElem?_eq_getElem (by omega)]
    constructor
    · rintro h tenth ⟨⟩
      omega
    · intro h
      have hone := h _ rfl
      omega

/-- Whenever `ReadUVarint` succeeds, it stores the number that the bytes taken
stand for, modulo `2 ^ 64`.  This is the number itself unless a tenth byte was
taken and is more than 1. -/
theorem readUVarint_value {c c' : ByteBufferReader} {x : UInt64}
    (h : readUVarint c = (some x, c')) :
    x.toNat = groupsValue (consumed c c') % 2 ^ 64 ∧
      (x.toNat = groupsValue (consumed c c') ↔
        ∀ tenth, (consumed c c')[9]? = some tenth → tenth.toNat ≤ 1) := by
  rcases readGroups_cases 10 0 0 c with ⟨w, rest, hrest, hw, hlen⟩ | hfail
  · rw [readUVarint_reads_terminated hw hlen c rest hrest] at h
    cases h
    rw [consumed_advance hrest, ← groupsValue_lt_iff hw hlen]
    refine ⟨rfl, ?_, Nat.mod_eq_of_lt⟩
    intro hmod
    rw [← hmod]
    exact Nat.mod_lt _ (by decide)
  · cases hfail.symm.trans h

/-- 300 in two groups. -/
theorem readUVarint_value_threeHundred :
    ∃ x c', readUVarint (Cursor.start [0xAC, 0x02, 0x07]) = (some x, c') ∧
      consumed (Cursor.start [0xAC, 0x02, 0x07]) c' = [0xAC, 0x02] ∧
      x.toNat = groupsValue [0xAC, 0x02] := by
  have hread : readUVarint (start [0xAC, 0x02, 0x07]) =
      (some 300, (start [0xAC, 0x02, 0x07]).advance 2) := rfl
  have hconsumed : consumed (start [0xAC, 0x02, 0x07])
      ((start [0xAC, 0x02, 0x07]).advance 2) = [0xAC, 0x02] := rfl
  refine ⟨_, _, hread, hconsumed, ?_⟩
  have hvalue := (readUVarint_value hread).2
  rw [hconsumed] at hvalue
  exact hvalue.2 (by simp)

/-- Nine continuation bytes and a tenth group of 2 stand for `2 ^ 64`, and zero
is stored. -/
theorem readUVarint_drops_bits :
    ∃ c c' x, readUVarint c = (some x, c') ∧ x.toNat ≠ groupsValue (consumed c c') := by
  refine ⟨start (replicate 9 0x80 ++ [0x02]), _, 0, rfl, ?_⟩
  decide

/-! ## Failures -/

theorem readNumber_restoresAt {α : Type} (len : Nat) (ofNat : Nat → α)
    (c : ByteBufferReader) : Attempt.RestoresAt (readNumber len ofNat) c :=
  (restoresAt_takeCells len c).map _

/-- A read or `Consume` that fails leaves the position alone, except for
`ReadUVarint`: it moves to the end or by ten bytes, so that it restores the
position only with no byte left. -/
theorem reader_failures (c : ByteBufferReader) (len : Nat) :
    Attempt.RestoresAt (readBytes len) c ∧ Attempt.RestoresAt (readString len) c ∧
    Attempt.RestoresAt (consume len) c ∧ Attempt.RestoresAt readUInt8 c ∧
    Attempt.RestoresAt readUInt16 c ∧ Attempt.RestoresAt readUInt24 c ∧
    Attempt.RestoresAt readUInt32 c ∧ Attempt.RestoresAt readUInt64 c ∧
    (Attempt.RestoresAt readUVarint c ↔ c.remaining = 0 ∨
      ∃ w rest, c.rest = w ++ rest ∧ Terminated w ∧ w.length ≤ 10) := by
  refine ⟨restoresAt_takeCells len c, restoresAt_takeCells len c, restoresAt_skipCells len c,
    readNumber_restoresAt _ _ c, readNumber_restoresAt _ _ c, readNumber_restoresAt _ _ c,
    readNumber_restoresAt _ _ c, readNumber_restoresAt _ _ c, ?_⟩
  have hsuccess : (∃ w rest, c.rest = w ++ rest ∧ Terminated w ∧ w.length ≤ 10) →
      (readUVarint c).1 ≠ none := by
    rintro ⟨w, rest, hrest, hw, hlen⟩ hnone
    rw [readUVarint_reads_terminated hw hlen c rest hrest] at hnone
    cases hnone
  rcases readGroups_cases 10 0 0 c with hword | hfail
  · exact ⟨fun _ => .inr hword, fun _ hnone => absurd hnone (hsuccess hword)⟩
  · have hnone : (readUVarint c).1 = none := congrArg Prod.fst hfail
    have hmoved : (readUVarint c).2 = c.advance 10 := congrArg Prod.snd hfail
    rw [Attempt.RestoresAt, hmoved, advance_eq_self_iff]
    constructor
    · intro h
      exact .inl ((h hnone).resolve_left (by decide))
    · rintro (hzero | hword) _
      · exact .inr hzero
      · exact absurd hnone (hsuccess hword)

/-- Three bytes, of which the first two are groups. -/
theorem reader_failures_twoGroups :
    Attempt.RestoresAt (readBytes 4) (Cursor.start [0xAC, 0x02, 0x07]) ∧
      Attempt.RestoresAt readUVarint (Cursor.start [0xAC, 0x02, 0x07]) := by
  have h := reader_failures (start [0xAC, 0x02, 0x07]) 4
  refine ⟨h.1, h.2.2.2.2.2.2.2.2.2 (.inr ⟨[0xAC, 0x02], [0x07], rfl, ?_, by decide⟩)⟩
  simp [Terminated]

/-- A group that another should follow is taken off the buffer for good. -/
theorem readUVarint_loses_byte :
    ∃ c : ByteBufferReader, (readUVarint c).1 = none ∧ (readUVarint c).2.pos ≠ c.pos := by
  refine ⟨start [0x80], rfl, ?_⟩
  decide

end WebrtcCore.Ports.ByteBuffer
