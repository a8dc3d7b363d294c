import WebrtcCore.Verified.RangeCoder

/-!
# The iSAC histogram coder (`isac/main/source/arith_routines{,_hist}.c`)

The encoder keeps the lower end of a range in the bytes it has written and a
32-bit register, and the width in another; the two decoders differ in how they
search a cdf table.  Positions in the stream are numbers, so the pointers of
the source are positions here; a read or write outside an array, and a loop
that does not end, are `none`.
-/

namespace WebrtcCore.Ports.Isac

open Verified Digits RangeCoder

def streamSizeMax : Nat := 600

structure Bitstr where
  stream : Vector (BitVec 8) streamSizeMax
  wUpper : BitVec 32
  streamval : BitVec 32
  streamIndex : Nat

/-- A coder at the beginning of a stream. -/
def Bitstr.start (stream : Vector (BitVec 8) streamSizeMax) : Bitstr where
  stream := stream
  wUpper := 0xFFFFFFFF#32
  streamval := 0#32
  streamIndex := 0

/-- The part of a width below a cdf value: the product of a 32-bit and a 16-bit
number in two halves, without the low 16 bits. -/
def widthBelow (wUpper cdf : BitVec 32) : BitVec 32 :=
  let wUpperLsb := wUpper &&& 0x0000FFFF#32
  let wUpperMsb := wUpper >>> 16
  wUpperMsb * cdf + ((wUpperLsb * cdf) >>> 16)

/-- The bound that an entry of a cdf table takes of a width. -/
def cdfBound (wUpper : BitVec 32) (cdf : BitVec 16) : BitVec 32 :=
  widthBelow wUpper (cdf.setWidth 32)

/-- The test of the renormalisation loops. -/
def belowTopByte (wUpper : BitVec 32) : Prop := wUpper &&& 0xFF000000#32 = 0#32
  deriving Decidable

/-- Rounds of a renormalisation loop.  A width that is not zero needs at most
three, and one that is zero would go on for ever. -/
def renormalizeFuel : Nat := 4

/-! ## Encoding -/

/-- The renormalisation loop of the encoder. -/
def renormalizeEnc : Nat → Bitstr → Option Bitstr
  | 0, _ => none
  | fuel + 1, s =>
    if belowTopByte s.wUpper then do
      let stream ← store s.stream s.streamIndex ((s.streamval >>> 24).setWidth 8)
      renormalizeEnc fuel
        { stream := stream
          wUpper := s.wUpper <<< 8
          streamval := s.streamval <<< 8
          streamIndex := s.streamIndex + 1 }
    else some s

/-- The carry into the stream when `streamval` has wrapped around. -/
def addCarry (stream : Vector (BitVec 8) streamSizeMax) (streamIndex : Nat)
    (streamval value : BitVec 32) : Option (Vector (BitVec 8) streamSizeMax) :=
  if streamval < value then carry stream streamIndex else some stream

/-- The body of the loop of `WebRtcIsac_EncHistMulti`. -/
def encHist (s : Bitstr) (cdf : List (BitVec 16)) (data : Nat) : Option Bitstr := do
  let cdfLo ← cdf[data]?
  let cdfHi ← cdf[data + 1]?
  let wLower := cdfBound s.wUpper cdfLo + 1#32
  let wUpper := cdfBound s.wUpper cdfHi - wLower
  let streamval := s.streamval + wLower
  let stream ← addCarry s.stream s.streamIndex streamval wLower
  renormalizeEnc renormalizeFuel
    { stream := stream
      wUpper := wUpper
      streamval := streamval
      streamIndex := s.streamIndex }

/-- `WebRtcIsac_EncHistMulti`: the data with their tables. -/
def encHistMulti (s : Bitstr) (input : List (List (BitVec 16) × Nat)) :
    Option Bitstr :=
  input.foldlM (fun s i => encHist s i.1 i.2) s

/-- `WebRtcIsac_EncTerminate`: the length it returns and the stream. -/
def encTerminate (s : Bitstr) : Option (Nat × Bitstr) := do
  if s.wUpper > 0x01FFFFFF#32 then
    let streamval := s.streamval + 0x01000000#32
    let stream ← addCarry s.stream s.streamIndex streamval 0x01000000#32
    let stream ← store stream s.streamIndex ((streamval >>> 24).setWidth 8)
    return (s.streamIndex + 1, { s with stream := stream, streamval := streamval })
  else
    let streamval := s.streamval + 0x00010000#32
    let stream ← addCarry s.stream s.streamIndex streamval 0x00010000#32
    let stream ← store stream s.streamIndex ((streamval >>> 24).setWidth 8)
    let stream ← store stream (s.streamIndex + 1)
      (((streamval >>> 16) &&& 0x00FF#32).setWidth 8)
    return (s.streamIndex + 2, { s with stream := stream, streamval := streamval })

/-! ## Decoding -/

/-- The local variables of a decoder.  `wLower` is not reset from one symbol
to the next. -/
structure DecState where
  streamPtr : Nat
  wLower : BitVec 32
  wUpper : BitVec 32
  streamval : BitVec 32

/-- The first word of the stream. -/
def readWord (stream : Vector (BitVec 8) streamSizeMax) (ptr : Nat) :
    Option (BitVec 32) := do
  let byte0 ← stream[ptr]?
  let byte1 ← stream[ptr + 1]?
  let byte2 ← stream[ptr + 2]?
  let byte3 ← stream[ptr + 3]?
  return byte0.setWidth 32 <<< 24 ||| byte1.setWidth 32 <<< 16 |||
    byte2.setWidth 32 <<< 8 ||| byte3.setWidth 32

/-- The renormalisation loop of the decoders. -/
def renormalizeDec (stream : Vector (BitVec 8) streamSizeMax) :
    Nat → DecState → Option DecState
  | 0, _ => none
  | fuel + 1, d =>
    if belowTopByte d.wUpper then do
      let byte ← stream[d.streamPtr + 1]?
      renormalizeDec stream fuel
        { d with
          streamPtr := d.streamPtr + 1
          wUpper := d.wUpper <<< 8
          streamval := d.streamval <<< 8 ||| byte.setWidth 32 }
    else some d

/-- What a search in a cdf table finds: the symbol and its bounds. -/
structure Found where
  data : Int
  wLower : BitVec 32
  wUpper : BitVec 32
  deriving DecidableEq, Repr

/-- Both decoders, once the symbol is found: take its part of the range and
read on. -/
def narrowDec (stream : Vector (BitVec 8) streamSizeMax) (d : DecState)
    (found : Found) : Option DecState :=
  let wLower := found.wLower + 1#32
  renormalizeDec stream renormalizeFuel
    { d with
      wLower := wLower
      wUpper := found.wUpper - wLower
      streamval := d.streamval - wLower }

/-- The loop over the symbols.  The step may return from the function with an
error code; the symbols before it have been written. -/
def decodeLoop {ι : Type}
    (step : DecState → ι → Option (Except Int (Int × DecState))) :
    DecState → List ι → Option (List Int × Except Int DecState)
  | d, [] => some ([], .ok d)
  | d, i :: rest => do
      match ← step d i with
      | .error code => return ([], .error code)
      | .ok (data, d') =>
        let (datas, result) ← decodeLoop step d' rest
        return (data :: datas, result)

/-- What a decoder leaves: the value it returns, the data it has written, and
the stream. -/
structure Decoded where
  returned : Int
  data : List Int
  streamdata : Bitstr

/-- The variables of a decoder before its loop.  On the first call for a stream
`streamval` is read from it. -/
def startDec (s : Bitstr) : Option DecState :=
  if s.streamIndex = 0 then
    (readWord s.stream 0).map fun streamval => ⟨3, 0#32, s.wUpper, streamval⟩
  else some ⟨s.streamIndex, 0#32, s.wUpper, s.streamval⟩

/-- The end of a decoder: the number of bytes in the original stream is
determined by the width. -/
def endDec (s : Bitstr) : List Int × Except Int DecState → Decoded
  | (data, .error code) => ⟨code, data, s⟩
  | (data, .ok d) =>
    ⟨if d.wUpper > 0x01FFFFFF#32 then (d.streamPtr : Int) - 2
      else (d.streamPtr : Int) - 1, data,
      { s with
        streamIndex := d.streamPtr
        wUpper := d.wUpper
        streamval := d.streamval }⟩

/-- A decoder around its loop. -/
def decodeHist {ι : Type}
    (step : Vector (BitVec 8) streamSizeMax → DecState → ι →
      Option (Except Int (Int × DecState)))
    (s : Bitstr) (input : List ι) : Option Decoded :=
  if s.wUpper = 0#32 then some ⟨-2, [], s⟩
  else do
    let d ← startDec s
    let result ← decodeLoop (step s.stream) d input
    return endDec s result

/-! ### Searching one step at a time -/

/-- The loop upwards: `cdfPtr` has the bound `wTmp` below the value. -/
def oneStepUp (cdf : List (BitVec 16)) (wUpper streamval : BitVec 32) :
    Nat → Nat → BitVec 32 → Option (Except Int Found)
  | 0, _, _ => none
  | fuel + 1, cdfPtr, wTmp => do
      let value ← cdf[cdfPtr]?
      if value = 65535#16 then return .error (-3)
      let value ← cdf[cdfPtr + 1]?
      let wNext := cdfBound wUpper value
      if streamval ≤ wNext then return .ok ⟨cdfPtr, wTmp, wNext⟩
      oneStepUp cdf wUpper streamval fuel (cdfPtr + 1) wNext

/-- The loop downwards: `cdfPtr` has the bound `wTmp` not below the value. -/
def oneStepDown (cdf : List (BitVec 16)) (wUpper streamval : BitVec 32) :
    Nat → BitVec 32 → Option (Except Int Found)
  | 0, _ => some (.error (-3))
  | cdfPtr + 1, wTmp => do
      let value ← cdf[cdfPtr]?
      let wNext := cdfBound wUpper value
      if streamval > wNext then return .ok ⟨cdfPtr, wNext, wTmp⟩
      oneStepDown cdf wUpper streamval cdfPtr wNext

def oneStepSearch (cdf : List (BitVec 16)) (initIndex : BitVec 16)
    (wUpper streamval : BitVec 32) : Option (Except Int Found) := do
  let value ← cdf[initIndex.toNat]?
  let wTmp := cdfBound wUpper value
  if streamval > wTmp then
    oneStepUp cdf wUpper streamval cdf.length initIndex.toNat wTmp
  else oneStepDown cdf wUpper streamval initIndex.toNat wTmp

/-- The body of the loop of `WebRtcIsac_DecHistOneStepMulti`. -/
def decHistOneStep (stream : Vector (BitVec 8) streamSizeMax) (d : DecState)
    (input : List (BitVec 16) × BitVec 16) :
    Option (Except Int (Int × DecState)) := do
  match ← oneStepSearch input.1 input.2 d.wUpper d.streamval with
  | .error code => return .error code
  | .ok found =>
    let d' ← narrowDec stream d found
    return .ok (found.data, d')

/-- `WebRtcIsac_DecHistOneStepMulti`: tables with their initial indices. -/
def decHistOneStepMulti (s : Bitstr) (input : List (List (BitVec 16) × BitVec 16)) :
    Option Decoded :=
  decodeHist decHistOneStep s input

/-! ### Searching by bisection -/

/-- An entry of a table, by an index that may be negative. -/
def cdfAt (cdf : List (BitVec 16)) (cdfPtr : Int) : Option (BitVec 16) :=
  if 0 ≤ cdfPtr then cdf[cdfPtr.toNat]? else none

/-- The loop of the bisection.  `size_tmp` starts below `2 ^ 15`. -/
def bisectLoop (cdf : List (BitVec 16)) (wUpper streamval : BitVec 32) :
    Nat → Nat → Int → BitVec 32 → BitVec 32 → Option Found
  | 0, _, _, _, _ => none
  | fuel + 1, sizeTmp, cdfPtr, wLower, wUpper' => do
      let value ← cdfAt cdf cdfPtr
      let wTmp := cdfBound wUpper value
      let sizeTmp := sizeTmp >>> 1
      if sizeTmp = 0 then
        if streamval > wTmp then return ⟨cdfPtr, wTmp, wUpper'⟩
        else return ⟨cdfPtr - 1, wLower, wTmp⟩
      else if streamval > wTmp then
        bisectLoop cdf wUpper streamval fuel sizeTmp (cdfPtr + sizeTmp) wTmp wUpper'
      else
        bisectLoop cdf wUpper streamval fuel sizeTmp (cdfPtr - sizeTmp) wLower wTmp

/-- The body of the loop of `WebRtcIsac_DecHistBisectMulti`. -/
def decHistBisect (stream : Vector (BitVec 8) streamSizeMax) (d : DecState)
    (input : List (BitVec 16) × BitVec 16) :
    Option (Except Int (Int × DecState)) := do
  let sizeTmp := input.2.toNat >>> 1
  let found ← bisectLoop input.1 d.wUpper d.streamval 16 sizeTmp
    ((sizeTmp : Int) - 1) d.wLower d.wUpper
  let d' ← narrowDec stream d found
  if d'.wUpper = 0#32 then return .error (-2)
  return .ok (found.data, d')

/-- `WebRtcIsac_DecHistBisectMulti`: tables with their sizes plus one. -/
def decHistBisectMulti (s : Bitstr) (input : List (List (BitVec 16) × BitVec 16)) :
    Option Decoded :=
  decodeHist decHistBisect s input

end WebrtcCore.Ports.Isac
