import WebrtcCore.Ports.IsacEncoder

/-!
# The fixed-point iSAC encoder (`isac/fix/source/arith_routines{,_hist}.c`)

The fixed-point encoder computes with the same ranges as the floating-point
one, and packs the bytes of the code into 16-bit words.  `full` tells whether
the next byte begins a word; a carry is 0x0100 into a word that is half filled
and 1 into the word in front otherwise.
-/

namespace WebrtcCore.Ports.Isacfix

open Verified Digits RangeCoder Ports.Isac Option BitVec

/-! ## The encoder -/

def streamMaxW16At60ms : Nat := 200

def isacDisallowedBitstreamLength : Int := 6440

structure BitstrEnc where
  stream : Vector (BitVec 16) streamMaxW16At60ms
  wUpper : BitVec 32
  streamval : BitVec 32
  streamIndex : Nat
  full : Bool

/-- The state in which encoding starts. -/
def BitstrEnc.start (stream : Vector (BitVec 16) streamMaxW16At60ms) : BitstrEnc where
  stream := stream
  wUpper := 0xFFFFFFFF#32
  streamval := 0#32
  streamIndex := 0
  full := true

/-- The propagation of a carry. -/
def carryWords (stream : Vector (BitVec 16) streamMaxW16At60ms) (streamPtr : Nat)
    (full : Bool) : Option (Vector (BitVec 16) streamMaxW16At60ms) :=
  if full then carry stream streamPtr
  else if h : streamPtr < streamMaxW16At60ms then
    let negCarry := stream[streamPtr] + 0x0100#16
    let stream' := stream.set streamPtr negCarry h
    if negCarry = 0#16 then carry stream' streamPtr else some stream'
  else none

/-- The carry when `streamval` has wrapped around. -/
def addCarry (s : BitstrEnc) (streamval value : BitVec 32) :
    Option (Vector (BitVec 16) streamMaxW16At60ms) :=
  if streamval < value then carryWords s.stream s.streamIndex s.full
  else some s.stream

/-- Store the most significant byte of `streamval`. -/
def putByte (s : BitstrEnc) : Option BitstrEnc :=
  if h : s.streamIndex < streamMaxW16At60ms then
    let byte := (s.streamval >>> 24).setWidth 16
    if s.full then
      some { s with
        stream := s.stream.set s.streamIndex (byte <<< 8) h
        full := false }
    else
      some { s with
        stream := s.stream.set s.streamIndex (s.stream[s.streamIndex] + byte) h
        streamIndex := s.streamIndex + 1
        full := true }
  else none

/-- The renormalisation loop.  `error` is the return because of the stream's
length. -/
def renormalizeEnc : Nat → BitstrEnc → Option (Except BitstrEnc BitstrEnc)
  | 0, _ => none
  | fuel + 1, s =>
    if belowTopByte s.wUpper then do
      let s' ← putByte s
      if s'.streamIndex > streamMaxW16At60ms - 1 then return .error s'
      else
        renormalizeEnc fuel
          { s' with wUpper := s.wUpper <<< 8, streamval := s.streamval <<< 8 }
    else some (.ok s)

/-- The body of the loop of `WebRtcIsacfix_EncHistMulti`. -/
def encHist (s : BitstrEnc) (cdf : List (BitVec 16)) (data : Nat) :
    Option (Except BitstrEnc BitstrEnc) := do
  let cdfLo ← cdf[data]?
  let cdfHi ← cdf[data + 1]?
  let wLower := cdfBound s.wUpper cdfLo + 1#32
  let wUpper := cdfBound s.wUpper cdfHi - wLower
  let streamval := s.streamval + wLower
  let stream ← addCarry s streamval wLower
  renormalizeEnc renormalizeFuel
    { s with stream := stream, wUpper := wUpper, streamval := streamval }

/-- The loop of `WebRtcIsacfix_EncHistMulti`. -/
def encHistLoop : BitstrEnc → List (List (BitVec 16) × Nat) →
    Option (Except BitstrEnc BitstrEnc)
  | s, [] => some (.ok s)
  | s, i :: rest => do
      match ← encHist s i.1 i.2 with
      | .error s' => return .error s'
      | .ok s' => encHistLoop s' rest

/-- `WebRtcIsacfix_EncHistMulti`: the value it returns and the stream.  The
width and the index are only stored at the end. -/
def encHistMulti (s : BitstrEnc) (input : List (List (BitVec 16) × Nat)) :
    Option (Int × BitstrEnc) := do
  match ← encHistLoop s input with
  | .error s' =>
    return (-isacDisallowedBitstreamLength,
      { s' with wUpper := s.wUpper, streamIndex := s.streamIndex })
  | .ok s' => return (0, s')

/-- `WebRtcIsacfix_EncTerminate`: the number of bytes and the stream. -/
def encTerminate (s : BitstrEnc) : Option (Nat × BitstrEnc) := do
  if s.wUpper > 0x01FFFFFF#32 then
    let streamval := s.streamval + 0x01000000#32
    let stream ← addCarry s streamval 0x01000000#32
    let s' ← putByte { s with stream := stream, streamval := streamval }
    return (2 * s'.streamIndex + (if s'.full then 0 else 1),
      { s' with streamIndex := s.streamIndex })
  else
    let streamval := s.streamval + 0x00010000#32
    let stream ← addCarry s streamval 0x00010000#32
    if s.full then
      let stream ← store stream s.streamIndex ((streamval >>> 16).setWidth 16)
      return (2 * (s.streamIndex + 1),
        { s with stream := stream, streamval := streamval })
    else
      let word ← stream[s.streamIndex]?
      let stream ← store stream s.streamIndex
        (word ||| (streamval >>> 24).setWidth 16)
      let stream ← store stream (s.streamIndex + 1)
        ((streamval >>> 8).setWidth 16 &&& 0xFF00#16)
      return (2 * (s.streamIndex + 1) + 1,
        { s with stream := stream, streamval := streamval })

/-! ## Bytes of words -/

/-- The bytes in the words, high bytes first. -/
def byteDigits (stream : Vector (BitVec 16) streamMaxW16At60ms) (j : Nat) : Nat :=
  if j % 2 = 0 then digits stream (j / 2) / 256 else digits stream (j / 2) % 256

/-- The bytes in front of a position. -/
def byteCount (streamIndex : Nat) (full : Bool) : Nat := 2 * streamIndex + if full then 0 else 1

section Bytes

variable (stream : Vector (BitVec 16) streamMaxW16At60ms)

theorem byteDigits_lt (j : Nat) : byteDigits stream j < 256 := by
  have hlt : digits stream (j / 2) < 65536 := digits_lt stream (j / 2)
  unfold byteDigits
  split <;> omega

variable (n : Nat)

theorem byteDigits_even : byteDigits stream (2 * n) = digits stream n / 256 := by
  rw [byteDigits, if_pos (by omega), Nat.mul_div_cancel_left n (by decide)]

theorem byteDigits_odd : byteDigits stream (2 * n + 1) = digits stream n % 256 := by
  rw [byteDigits, if_neg (by omega), show (2 * n + 1) / 2 = n by omega]

theorem leading_bytes_even :
    leading 256 (byteDigits stream) (2 * n) = leading 65536 (digits stream) n := by
  induction n with
  | zero => rfl
  | succ n ih =>
    rw [Nat.mul_succ, leading, leading, leading, byteDigits_odd, byteDigits_even]
    omega

theorem leading_bytes_odd :
    leading 256 (byteDigits stream) (2 * n + 1) =
      leading 65536 (digits stream) n * 256 + digits stream n / 256 := by
  rw [leading, leading_bytes_even, byteDigits_even]

theorem leading_byteCount (full : Bool) :
    leading 256 (byteDigits stream) (byteCount n full) =
      if full then leading 65536 (digits stream) n
      else leading 65536 (digits stream) n * 256 + digits stream n / 256 := by
  cases full with
  | true => exact leading_bytes_even stream n
  | false => exact leading_bytes_odd stream n

theorem carryWords_spec {n : Nat} {full : Bool} (hn : n < streamMaxW16At60ms)
    (hhalf : full = false → digits stream n % 256 = 0)
    (hroom : leading 256 (byteDigits stream) (byteCount n full) + 1 < 256 ^ byteCount n full) :
    ∃ stream', carryWords stream n full = some stream' ∧
      leading 256 (byteDigits stream') (byteCount n full) =
        leading 256 (byteDigits stream) (byteCount n full) + 1 ∧
      (full = false → digits stream' n % 256 = 0) := by
  cases full with
  | true =>
    have hpow : 256 ^ byteCount n true = 65536 ^ n := by
      rw [byteCount, if_pos rfl, Nat.add_zero, Nat.pow_mul]
    rw [leading_byteCount, hpow] at hroom
    obtain ⟨stream', hcarry, hlead, -⟩ := carry_spec stream (Nat.le_of_lt hn) hroom
    refine ⟨stream', hcarry, ?_, fun hfalse => by cases hfalse⟩
    rw [leading_byteCount, leading_byteCount]
    exact hlead
  | false =>
    have hword : digits stream n = stream[n].toNat := dif_pos hn
    have hzero := hhalf rfl
    have hnext : (stream[n] + 0x0100#16).toNat = (stream[n].toNat + 256) % 65536 := toNat_add _ _
    have hpow : 256 ^ byteCount n false = 65536 ^ n * 256 := by
      rw [byteCount, if_neg (by decide), Nat.pow_succ, Nat.pow_mul]
    rw [leading_byteCount, if_neg (by decide)] at hroom
    simp only [leading_byteCount, Bool.false_eq_true, ↓reduceIte]
    rw [carryWords, dif_pos hn]
    have hfront : leading 65536 (digits (stream.set n (stream[n] + 0x0100#16) hn)) n =
        leading 65536 (digits stream) n :=
      leading_set stream hn _ (Nat.le_refl n)
    by_cases hfull : stream[n] + 0x0100#16 = 0#16
    · -- The half word was 0xFF: it becomes zero and the carry goes on.
      have htop : stream[n].toNat + 256 = 65536 := by
        rw [hfull, toNat_ofNat] at hnext
        omega
      have hone : leading 65536 (digits (stream.set n (stream[n] + 0x0100#16) hn))
          n + 1 < 65536 ^ n := by
        omega
      obtain ⟨stream', hcarry, hlead, hrest⟩ :=
        carry_spec (stream.set n (stream[n] + 0x0100#16) hn) (Nat.le_of_lt hn) hone
      have hlead' : leading 65536 (digits stream') n = leading 65536 (digits stream) n + 1 := by
        rw [← hfront]
        exact hlead
      have hcell : digits stream' n = 0 := by
        rw [hrest n (Nat.le_refl n), digits_set_self, hfull]
        rfl
      refine ⟨stream', ?_, ?_, fun _ => by rw [hcell]⟩
      · rw [if_pos hfull]
        exact hcarry
      · omega
    · have htop : stream[n].toNat + 256 < 65536 := by
        apply Nat.lt_of_not_le
        intro hge
        apply hfull
        apply eq_of_toNat_eq
        rw [toNat_ofNat]
        omega
      refine ⟨stream.set n (stream[n] + 0x0100#16) hn, if_neg hfull, ?_, ?_⟩
      · rw [digits_set_self]
        omega
      · intro _
        rw [digits_set_self]
        omega

end Bytes

/-! ## The stream -/

/-- The words and the registers hold the range. -/
structure Represents (s : BitstrEnc) (r : Range) : Prop where
  index : byteCount s.streamIndex s.full = r.shifts
  inside : s.streamIndex < streamMaxW16At60ms
  half : s.full = false → digits s.stream s.streamIndex % 256 = 0
  width : s.wUpper.toNat = r.width
  low : 256 ^ 4 * leading 256 (byteDigits s.stream) r.shifts + s.streamval.toNat =
    r.low

theorem start_represents (stream : Vector (BitVec 16) streamMaxW16At60ms) :
    Represents (.start stream) fullRange := by
  refine ⟨rfl, Nat.zero_lt_succ _, (fun hfalse => by cases hfalse), ?_, ?_⟩ <;>
  simp [fullRange, BitstrEnc.start, leading]

variable {r : Range} {s : BitstrEnc}

theorem Represents.add (h : Represents s r) (value : BitVec 32)
    (hroom : r.low + value.toNat < 256 ^ (r.shifts + 4)) :
    ∃ stream, addCarry s (s.streamval + value) value = some stream ∧
      (s.full = false → digits stream s.streamIndex % 256 = 0) ∧
      256 ^ 4 * leading 256 (byteDigits stream) r.shifts +
        (s.streamval + value).toNat = r.low + value.toNat := by
  have hadd := add_register h.low hroom
  unfold addCarry
  split at hadd
  case isTrue hcarry =>
    obtain ⟨stream, hstream, hlead, hhalf⟩ := carryWords_spec s.stream h.inside
      h.half (by rw [h.index]; exact hadd.1)
    rw [h.index] at hlead
    refine ⟨stream, by rw [if_pos hcarry, hstream], hhalf, ?_⟩
    rw [hlead]
    exact hadd.2
  case isFalse hcarry => exact ⟨s.stream, if_neg hcarry, h.half, hadd⟩

theorem firstByte_toNat (x : BitVec 32) : ((x >>> 24).setWidth 16).toNat = x.toNat / 256 ^ 3 := by
  simp only [toNat_setWidth, toNat_ushiftRight]
  omega

theorem leading_words_set {n i : Nat} {stream : Vector (BitVec 16) n} (h : i < n)
    (word : BitVec 16) :
    leading 65536 (digits (stream.set i word h)) i = leading 65536 (digits stream) i ∧
    leading 65536 (digits (stream.set i word h)) (i + 1) =
      leading 65536 (digits stream) i * 65536 + word.toNat :=
  ⟨leading_set stream h word (Nat.le_refl i), leading_set_succ stream h word⟩

theorem putByte_spec (hinside : s.streamIndex < streamMaxW16At60ms)
    (hhalf : s.full = false → digits s.stream s.streamIndex % 256 = 0) :
    ∃ stream n full, putByte s = some { s with
        stream := stream, streamIndex := n, full := full } ∧
      byteCount n full = byteCount s.streamIndex s.full + 1 ∧
      (full = false → digits stream n % 256 = 0) ∧
      leading 256 (byteDigits stream) (byteCount n full) =
        leading 256 (byteDigits s.stream) (byteCount s.streamIndex s.full) * 256 +
          s.streamval.toNat / 256 ^ 3 := by
  have hbyte := firstByte_toNat s.streamval
  rw [putByte, dif_pos hinside]
  cases hfull : s.full with
  | true =>
    have hcell : ((s.streamval >>> 24).setWidth 16 <<< 8).toNat =
        s.streamval.toNat / 256 ^ 3 * 256 := by
      rw [toNat_shiftLeft]
      omega
    refine ⟨_, _, _, rfl, rfl, ?_, ?_⟩
    · intro _
      rw [digits_set_self]
      omega
    · rw [leading_byteCount, leading_byteCount, if_neg (by decide), if_pos rfl,
        (leading_words_set hinside _).1, digits_set_self]
      omega
  | false =>
    have hword : digits s.stream s.streamIndex = s.stream[s.streamIndex].toNat := dif_pos hinside
    have hzero := hhalf hfull
    have hcell : (s.stream[s.streamIndex] + (s.streamval >>> 24).setWidth 16).toNat =
        s.stream[s.streamIndex].toNat + s.streamval.toNat / 256 ^ 3 := by
      rw [toNat_add]
      omega
    refine ⟨_, _, _, rfl, rfl, (fun htrue => by cases htrue), ?_⟩
    rw [leading_byteCount, leading_byteCount, if_pos rfl, if_neg (by decide),
      (leading_words_set hinside _).2]
    omega

/-- A result of the encoder: it holds the range, or the range has at least as
many bytes as the words. -/
def Refines (result : Option (Except BitstrEnc BitstrEnc)) (r : Range) : Prop :=
  match result with
  | some (.ok s) => Represents s r
  | some (.error _) => 2 * streamMaxW16At60ms ≤ r.shifts
  | none => False

theorem Represents.shift (h : Represents s r) (hwidth : r.width < 256 ^ 3) :
    ∃ s', putByte s = some s' ∧
      if s'.streamIndex > streamMaxW16At60ms - 1 then
        2 * streamMaxW16At60ms ≤ r.shifts + 1
      else Represents { s' with wUpper := s.wUpper <<< 8, streamval := s.streamval <<< 8 }
        (r.shift 256) := by
  obtain ⟨stream, n, full, hput, hcount, hhalf, hlead⟩ := putByte_spec h.inside h.half
  rw [hcount, h.index] at hlead
  rw [h.index] at hcount
  refine ⟨_, hput, ?_⟩
  split
  case isTrue hout =>
    dsimp only at hout
    unfold byteCount at hcount
    split at hcount <;> omega
  case isFalse hin =>
    have hinside : n < streamMaxW16At60ms := by
      dsimp only at hin
      unfold streamMaxW16At60ms at hin ⊢
      omega
    refine ⟨hcount, hinside, hhalf, ?_, ?_⟩
    · rw [shiftByte_toNat (by rw [h.width]; exact hwidth), h.width]
      rfl
    · have hsplit := topByte_split s.streamval
      have hlow := h.low
      simp only [Range.shift]
      omega

theorem renormalizeEnc_refines (rounds : Nat) (h : Represents s r)
    (hwide : 256 ^ 3 ≤ r.width * 256 ^ rounds) :
    Refines (renormalizeEnc (rounds + 1) s) (r.renormalize 256 (256 ^ 3) rounds) := by
  refine Range.renormalize_rule (f := renormalizeEnc) (Q := Refines) ?_ ?_ h hwide
    (Nat.lt_succ_self _)
  · intro fuel s r h hwide
    rw [renormalizeEnc, if_neg (mt (belowTopByte_iff h.width).1 hwide)]
    exact h
  · intro fuel s r rounds h hbelow hmono ih
    rw [renormalizeEnc, if_pos ((belowTopByte_iff h.width).2 hbelow)]
    obtain ⟨s', hput, hnext⟩ := h.shift hbelow
    simp only [hput, bind_eq_bind, bind_some]
    split at hnext
    case isTrue hout =>
      rw [if_pos hout]
      exact Nat.le_trans hnext hmono
    case isFalse hin =>
      rw [if_neg hin]
      exact ih _ hnext

theorem encHist_refines (h : Represents s r) (hr : r.Ready 256 3) (c : CodedSymbol) :
    Refines (encHist s c.table.entries c.data) (r.encode 256 3 c.slot) := by
  obtain ⟨hlower, hupper, hroom⟩ := cdfSlot_registers c.entry_lt hr h.width
  obtain ⟨stream, hstream, hhalf, hlow⟩ := h.add _ hroom
  have hnarrow : Represents
      { s with
        stream := stream
        wUpper := cdfBound s.wUpper (c.table.entry (c.data + 1)) -
          (cdfBound s.wUpper (c.table.entry c.data) + 1#32)
        streamval := s.streamval + (cdfBound s.wUpper (c.table.entry c.data) + 1#32) }
      (r.part (cdfSlot (c.table.entry c.data) (c.table.entry (c.data + 1)))) :=
    ⟨h.index, h.inside, hhalf, hupper, hlow.trans (congrArg _ hlower)⟩
  have hloop := renormalizeEnc_refines 3 hnarrow (hr.part_wide c.fits)
  unfold encHist
  rw [c.table.getElem?_entries (by have := c.lt; omega), c.table.getElem?_entries c.lt]
  simp only [bind_eq_bind, bind_some, hstream]
  exact hloop

theorem encHistLoop_refines (h : Represents s r) (hr : r.Ready 256 3) (symbols : List CodedSymbol) :
    Refines (encHistLoop s (symbols.map CodedSymbol.input))
      (r.encodeAll 256 3 (symbols.map CodedSymbol.slot)) := by
  induction symbols generalizing s r with
  | nil => exact h
  | cons c symbols ih =>
    have hstep := encHist_refines h hr c
    rw [List.map_cons, encHistLoop]
    rw [show encHist s c.input.1 c.input.2 = encHist s c.table.entries c.data from rfl]
    rcases hresult : encHist s c.table.entries c.data with _ | ⟨s'⟩ | ⟨s'⟩ <;>
      rw [hresult] at hstep
    · exact hstep.elim
    · exact Nat.le_trans hstep (Range.shifts_le_encodeAll _)
    · exact ih hstep (hr.encode (by decide) c.fits)

theorem represents_of_encHistMulti {stream : Vector (BitVec 16) streamMaxW16At60ms}
    {symbols : List CodedSymbol}
    (h : encHistMulti (.start stream) (symbols.map CodedSymbol.input) = some (0, s)) :
    Represents s (rangeOf symbols) := by
  have hloop := encHistLoop_refines (start_represents stream) fullRange_ready symbols
  unfold encHistMulti at h
  rcases hresult : encHistLoop (.start stream) (symbols.map CodedSymbol.input) with
    _ | ⟨s'⟩ | ⟨s'⟩ <;> rw [hresult] at h hloop
  · cases h
  · cases h
  · cases h
    exact hloop

/-! ## Ending the stream -/

theorem encTerminate_wide (h : Represents s r) (hr : r.Ready 256 3)
    (hwide : 2 * 256 ^ 3 ≤ r.width) :
    ∃ t, encTerminate s = some (r.shifts + 1, t) ∧
      leading 256 (byteDigits t.stream) (r.shifts + 1) = r.low / 256 ^ 3 + 1 := by
  have hgt : s.wUpper > 0x01FFFFFF#32 := (wide_iff h.width).2 hwide
  obtain ⟨stream, hcarry, hhalf, hlow⟩ := h.add 0x01000000#32
    (Nat.lt_of_le_of_lt (Nat.add_le_add_left hr.wide _) hr.bounded)
  obtain ⟨stream', n, full, hput, hcount, -, hlead⟩ := putByte_spec
    (s := { s with stream := stream, streamval := s.streamval + 0x01000000#32 })
    h.inside hhalf
  rw [encTerminate, if_pos hgt]
  simp only [hcarry, bind_eq_bind, bind_some, hput]
  rw [h.index] at hcount hlead
  refine ⟨{ s with stream := stream', streamval := s.streamval + 0x01000000#32,
                   full := full }, ?_, ?_⟩
  · rw [← hcount]
    rfl
  · rw [toNat_ofNat] at hlow
    rw [hcount] at hlead
    dsimp only at hlead ⊢
    omega

theorem highByte_toNat (x : BitVec 32) :
    ((x >>> 8).setWidth 16 &&& 0xFF00#16).toNat = x.toNat / 256 ^ 2 % 256 * 256 := by
  have hmask : (x >>> 8).setWidth 16 &&& 0xFF00#16 = ((x >>> 8).setWidth 16 >>> 8) <<< 8 :=
    (shiftLeft_ushiftRight (x := (x >>> 8).setWidth 16) (n := 8)).symm
  rw [hmask]
  simp only [toNat_shiftLeft, toNat_ushiftRight, toNat_setWidth]
  omega

theorem orByte_toNat {word : BitVec 16} (hzero : word.toNat % 256 = 0) (x : BitVec 32) :
    (word ||| (x >>> 24).setWidth 16).toNat = word.toNat + x.toNat / 256 ^ 3 := by
  have hor := Nat.two_pow_add_eq_or_of_lt (i := 8)
    (show x.toNat / 256 ^ 3 < 2 ^ 8 by omega) (word.toNat / 256)
  rw [show 2 ^ 8 * (word.toNat / 256) = word.toNat by omega] at hor
  rw [toNat_or, firstByte_toNat, hor]

theorem encTerminate_narrow (h : Represents s r) (hr : r.Ready 256 3)
    (hnarrow : ¬2 * 256 ^ 3 ≤ r.width)
    (hinside : s.full = false → s.streamIndex + 1 < streamMaxW16At60ms) :
    ∃ t, encTerminate s = some (r.shifts + 2, t) ∧
      leading 256 (byteDigits t.stream) (r.shifts + 2) = r.low / 256 ^ 2 + 1 := by
  have hle : ¬s.wUpper > 0x01FFFFFF#32 := mt (wide_iff h.width).1 hnarrow
  obtain ⟨stream, hcarry, hhalf, hlow⟩ := h.add 0x00010000#32
    (Nat.lt_of_le_of_lt (Nat.add_le_add_left (Nat.le_trans (by decide) hr.wide) _) hr.bounded)
  have hindex := h.index
  rw [encTerminate, if_neg hle]
  simp only [hcarry, bind_eq_bind, bind_some]
  cases hfull : s.full with
  | true =>
    have hword : (((s.streamval + 0x00010000#32) >>> 16).setWidth 16).toNat =
        (s.streamval + 0x00010000#32).toNat / 256 ^ 2 := by
      simp only [toNat_setWidth, toNat_ushiftRight]
      omega
    rw [hfull, byteCount, if_pos rfl, Nat.add_zero] at hindex
    rw [store, dif_pos h.inside]
    refine ⟨_, by rw [← hindex]; rfl, ?_⟩
    rw [← hindex, leading_bytes_even, toNat_ofNat] at hlow
    rw [← hindex, show 2 * s.streamIndex + 2 = 2 * (s.streamIndex + 1) from rfl, leading_bytes_even,
      (leading_words_set h.inside _).2]
    omega
  | false =>
    have hinside := hinside hfull
    have hcell : digits stream s.streamIndex = stream[s.streamIndex].toNat := dif_pos h.inside
    have hzero := hhalf hfull
    rw [hfull, byteCount, if_neg (by decide)] at hindex
    simp only [Bool.false_eq_true, ↓reduceIte, Vector.getElem?_eq_getElem h.inside, bind_some]
    rw [store, dif_pos h.inside]
    simp only [store, dif_pos hinside]
    refine ⟨_, by rw [← hindex]; rfl, ?_⟩
    rw [← hindex, leading_bytes_odd, toNat_ofNat] at hlow
    rw [hcell] at hzero
    rw [← hindex, show 2 * s.streamIndex + 1 + 2 = 2 * (s.streamIndex + 1) + 1 from rfl,
      leading_bytes_odd, (leading_words_set hinside _).1, (leading_words_set h.inside _).2,
      digits_set_self, orByte_toNat hzero, highByte_toNat]
    omega

/-- The last byte of the code would be behind the last word. -/
def LastByteOutside (s : BitstrEnc) : Prop :=
  s.streamIndex = streamMaxW16At60ms - 1 ∧ s.full = false ∧
    ¬s.wUpper > 0x01FFFFFF#32
  deriving Decidable

theorem encTerminate_spec (h : Represents s r) (hr : r.Ready 256 3) (hinside : ¬LastByteOutside s) :
    ∃ t, encTerminate s = some (codeLength r, t) ∧
      leading 256 (byteDigits t.stream) (codeLength r) = codeValue r := by
  unfold codeLength codeValue
  split
  case isTrue hwide => exact encTerminate_wide h hr hwide
  case isFalse hnarrow =>
    apply encTerminate_narrow h hr hnarrow
    intro hfull
    apply Nat.lt_of_le_of_ne h.inside
    intro hlast
    exact hinside ⟨by omega, hfull, mt (wide_iff h.width).1 hnarrow⟩

theorem encTerminate_outside (h : LastByteOutside s) : encTerminate s = none := by
  obtain ⟨hindex, hfull, hle⟩ := h
  have hout : ∀ stream word, store stream (s.streamIndex + 1) word = none :=
    fun (stream : Vector (BitVec 16) streamMaxW16At60ms) word =>
      dif_neg (by rw [hindex]; decide)
  rw [encTerminate, if_neg hle]
  simp [hfull, hout]

/-! ## The same bytes -/

/-- The bytes of a word. -/
def wordBytes (word : BitVec 16) : List (BitVec 8) := [(word >>> 8).setWidth 8, word.setWidth 8]

/-- The bytes of the stream. -/
def BitstrEnc.bytes (s : BitstrEnc) : List (BitVec 8) := s.stream.toList.flatMap wordBytes

def SameBitstream (stream : Vector (BitVec 8) streamSizeMax)
    (symbols : List CodedSymbol) (s : BitstrEnc) : Prop :=
  ∃ sFloat n tFloat t,
    Isac.encHistMulti (.start stream) (symbols.map CodedSymbol.input) = some sFloat ∧
    Isac.encTerminate sFloat = some (n, tFloat) ∧
    encTerminate s = some (n, t) ∧
    t.bytes.take n = tFloat.stream.toList.take n

theorem getElem?_wordBytes (words : List (BitVec 16)) (k : Nat) :
    (words.flatMap wordBytes)[2 * k]? =
        words[k]?.map (fun word : BitVec 16 => (word >>> 8).setWidth 8) ∧
      (words.flatMap wordBytes)[2 * k + 1]? =
        words[k]?.map (fun word : BitVec 16 => word.setWidth 8) := by
  induction words generalizing k with
  | nil => simp
  | cons word words ih =>
    cases k with
    | zero => exact ⟨rfl, rfl⟩
    | succ k => exact ih k

theorem getElem?_bytes (s : BitstrEnc) {j : Nat} (h : j < 2 * streamMaxW16At60ms) :
    ∃ byte, s.bytes[j]? = some byte ∧ byte.toNat = byteDigits s.stream j := by
  have hhalf : j / 2 < streamMaxW16At60ms := by omega
  have hdigit : digits s.stream (j / 2) = s.stream[j / 2].toNat := dif_pos hhalf
  obtain ⟨heven, hodd⟩ := getElem?_wordBytes s.stream.toList (j / 2)
  rw [Vector.getElem?_toList, Vector.getElem?_eq_getElem hhalf] at heven hodd
  unfold BitstrEnc.bytes byteDigits
  rw [hdigit]
  rcases Nat.mod_two_eq_zero_or_one j with hmod | hmod
  · rw [show 2 * (j / 2) = j by omega] at heven
    refine ⟨_, heven, ?_⟩
    rw [if_pos hmod, toNat_setWidth, toNat_ushiftRight]
    omega
  · rw [show 2 * (j / 2) + 1 = j by omega] at hodd
    refine ⟨_, hodd, ?_⟩
    rw [if_neg (by omega), toNat_setWidth]

theorem bytes_take_eq {stream : Vector (BitVec 8) streamSizeMax}
    {n : Nat} (hn : n ≤ 2 * streamMaxW16At60ms)
    (h : leading 256 (byteDigits s.stream) n = leading 256 (digits stream) n) :
    s.bytes.take n = stream.toList.take n := by
  have hdigits := leading_inj (fun i _ => byteDigits_lt s.stream i)
    (fun i _ => digits_lt stream i) h
  apply List.ext_getElem?
  intro i
  by_cases hi : i < n
  · have hsize : i < streamSizeMax := Nat.lt_of_lt_of_le (Nat.lt_of_lt_of_le hi hn) (by decide)
    obtain ⟨byte, hbyte, hvalue⟩ := getElem?_bytes s (Nat.lt_of_lt_of_le hi hn)
    have hcell : digits stream i = stream[i].toNat := dif_pos hsize
    rw [List.getElem?_take_of_lt hi, List.getElem?_take_of_lt hi, hbyte,
      Vector.getElem?_toList, Vector.getElem?_eq_getElem hsize]
    congr 1
    apply eq_of_toNat_eq
    rw [hvalue, hdigits i hi, hcell]
  · rw [List.getElem?_take_eq_none (by omega), List.getElem?_take_eq_none (by omega)]

theorem Represents.codeLength_le (h : Represents s r)
    (hinside : ¬LastByteOutside s) : codeLength r ≤ 2 * streamMaxW16At60ms := by
  have hindex := h.index
  have hin := h.inside
  unfold codeLength
  unfold byteCount at hindex
  split
  · split at hindex <;> omega
  case isFalse hnarrow =>
    split at hindex
    · omega
    case isFalse hfull =>
      have hlast : s.streamIndex ≠ streamMaxW16At60ms - 1 := by
        intro hlast
        apply hinside
        exact ⟨hlast, by simpa using hfull, mt (wide_iff h.width).1 hnarrow⟩
      omega

/-- **The two encoders emit the same bitstream** for every list on which
`WebRtcIsacfix_EncHistMulti` returns 0, except when it has stored 399 bytes and
the code takes two more. -/
theorem sameBitstream_iff (stream : Vector (BitVec 8) streamSizeMax)
    (words : Vector (BitVec 16) streamMaxW16At60ms) (symbols : List CodedSymbol) (s : BitstrEnc)
    (hreturn : encHistMulti (.start words) (symbols.map CodedSymbol.input) = some (0, s)) :
    SameBitstream stream symbols s ↔ ¬LastByteOutside s := by
  have hrep := represents_of_encHistMulti hreturn
  have hready := rangeOf_ready symbols
  constructor
  · rintro ⟨sFloat, n, tFloat, t, -, -, hend, -⟩ houtside
    rw [encTerminate_outside houtside] at hend
    cases hend
  · intro hinside
    have hlength := hrep.codeLength_le hinside
    obtain ⟨t, hend, hcode⟩ := encTerminate_spec hrep hready hinside
    obtain ⟨sFloat, tFloat, hfloat, hendFloat, hcodeFloat⟩ :=
      encode_ends stream (Nat.le_trans hlength (by decide))
    exact ⟨sFloat, _, tFloat, t, hfloat, hendFloat, hend,
      bytes_take_eq hlength (hcode.trans hcodeFloat.symm)⟩

/-- A table whose first symbol has two units of probability. -/
def twoUnitTable : CdfTable where
  entries := [0#16, 2#16, 65535#16]
  first := rfl
  last := rfl
  increasing := by decide

/-- Two bytes for each of the first symbols and one for the last. -/
def oddSymbols (n : Nat) : List CodedSymbol :=
  List.replicate n improbable ++ [⟨twoUnitTable, 0, by decide⟩]

theorem sameBitstream_five :
    ∃ s, encHistMulti (.start (Vector.replicate streamMaxW16At60ms 0#16))
        ((oddSymbols 2).map CodedSymbol.input) = some (0, s) ∧
      SameBitstream (Vector.replicate streamSizeMax 0#8) (oddSymbols 2) s := by
  have hrun : (encHistMulti (.start (Vector.replicate streamMaxW16At60ms 0#16))
      ((oddSymbols 2).map CodedSymbol.input)).map
        (fun r => (r.1, decide (LastByteOutside r.2))) = some (0, false) := by
    decide +kernel
  obtain ⟨⟨code, s⟩, hreturn, hresult⟩ := map_eq_some_iff.1 hrun
  obtain ⟨hcode, hinside⟩ := Prod.mk.inj hresult
  subst hcode
  exact ⟨s, hreturn, (sameBitstream_iff _ _ _ s hreturn).2 (of_decide_eq_false hinside)⟩

/-- With 399 bytes stored, the last of the two that end the code is written
behind the words. -/
theorem not_sameBitstream_odd :
    ∃ s, encHistMulti (.start (Vector.replicate streamMaxW16At60ms 0#16))
        ((oddSymbols 199).map CodedSymbol.input) = some (0, s) ∧
      ¬SameBitstream (Vector.replicate streamSizeMax 0#8) (oddSymbols 199) s := by
  have hrun : (encHistMulti (.start (Vector.replicate streamMaxW16At60ms 0#16))
      ((oddSymbols 199).map CodedSymbol.input)).map
        (fun r => (r.1, decide (LastByteOutside r.2))) = some (0, true) := by
    decide +kernel
  obtain ⟨⟨code, s⟩, hreturn, hresult⟩ := map_eq_some_iff.1 hrun
  obtain ⟨hcode, houtside⟩ := Prod.mk.inj hresult
  subst hcode
  refine ⟨s, hreturn, ?_⟩
  rintro ⟨sFloat, n, tFloat, t, -, -, hend, -⟩
  rw [encTerminate_outside (of_decide_eq_true houtside)] at hend
  cases hend

end WebrtcCore.Ports.Isacfix
