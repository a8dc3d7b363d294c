import WebrtcCore.Ports.RingBufferWrapper

/-!
# The doubling loop of the byte ring (`audio/utility/common_tool.cc`)

`CalculatedExpansionCapacity` doubles the capacity until the write fits.  The loop starts at
`BufferCapacity()`, which is zero when there is no ring: `WebRtc_CreateBuffer` returns a null
handle for zero elements and when it finds no memory.  In expandable mode a write that is not
empty then keeps the loop going for ever, and this is all that can keep a write from returning in
any state that calls lead to (`bufferWrite_returns_iff`).  The states carry little (`Kept`); a ring
beyond `kMaxBufferSize` may be in any state.
-/

namespace WebrtcCore.Ports.RingBufferWrapper

open Verified CMemory Simulation Tape Ports.RingBuffer Option

/-! ## Calls that may find no memory -/

/-- The constructor.  No allocation of `2 ^ 63` bytes or more succeeds. -/
def construct (capacity : Nat) (autoAdjustCapacity : Bool) : RingBufferWrapper :=
  if capacity < 2 ^ 63 then create capacity autoAdjustCapacity
  else ⟨none, autoAdjustCapacity⟩

/-- One call on a wrapper, with `AdjustCapacity` among them.  `outOfMemory` is a
constructor or a call for which `WebRtc_CreateBuffer` returns null: the old ring
is freed, and writing to the null handle does nothing. -/
inductive Call
  | op (op : Op)
  | adjustCapacity (capacity : Nat)
  | outOfMemory

def call (w : RingBufferWrapper) : Call → Option RingBufferWrapper
  | .op op => (step w op).map Prod.snd
  | .adjustCapacity capacity =>
    if capacity < 2 ^ 63 then w.adjustCapacity capacity
    else if capacity < w.bufferCurrentSize ∨ capacity = w.bufferCapacity then some w
    else some { w with buffHandle := none }
  | .outOfMemory => some { w with buffHandle := none }

/-! ## What every defined call keeps -/

private theorem bind_some_returns {α β : Type} {x : Option α} {f : α → β} {b : β}
    (h : (x.bind fun a => some (f a)) = some b) : ∃ a, x = some a ∧ f a = b := by
  obtain ⟨a, ha, hb⟩ := bind_eq_some_iff.1 h
  exact ⟨a, ha, some.inj hb⟩

section Ring

variable {rb rb' : RingBuffer UInt8} {n : Nat} {t : Tape UInt8}

theorem writeBuffer_keeps (h : Layout n 0 rb t) (hn : n < 2 ^ 64) {src : List UInt8}
    {count k : Nat} (hwrite : rb.writeBuffer src count = some (k, rb')) :
    ∃ t', Layout n 0 rb' t' := by
  obtain ⟨m, hm, heq⟩ : ∃ m, m = min rb.availableWrite count ∧
      rb.writeBuffer src count = rb.writeBuffer src m := by
    by_cases hfree : rb.availableWrite ≤ count
    · exact ⟨_, (Nat.min_eq_left hfree).symm, writeBuffer_of_free_le rb src count hfree⟩
    · exact ⟨count, by omega, rfl⟩
  by_cases hsrc : src.length < m
  · rw [writeBuffer_overrun rb (by omega)] at hwrite
    contradiction
  · have hlen : (src.take m).length = m := by simp; omega
    obtain ⟨data, hlayout, hkeeps⟩ := writeBuffer_layout h hn (src.take m)
    rw [hlen, writeBuffer_take rb (by omega), ← heq, hwrite] at hlayout
    obtain ⟨-, rfl⟩ := Prod.mk.inj (some.inj hlayout)
    exact ⟨_, hkeeps⟩

theorem moveReadPtr_keeps (h : Layout n 0 rb t) (hn : n < 2 ^ 30) {count moved : Int}
    (hmove : rb.moveReadPtr count = some (moved, rb')) : ∃ t', Layout n 0 rb' t' := by
  obtain ⟨hmoved, hlayout⟩ := moveReadPtr_layout h (by omega) count
    (readPos_add_seek_inInt h hn count)
  rw [hmove] at hmoved
  obtain ⟨-, rfl⟩ := Prod.mk.inj (some.inj hmoved)
  exact ⟨_, hlayout⟩

/-- A ring of at least one byte whose positions make sense below
`kMaxBufferSize`. -/
structure Kept (rb : RingBuffer UInt8) : Prop where
  size : rb.elementSize = 1
  pos : 0 < rb.elementCount
  lt : rb.elementCount < 2 ^ 63
  layout : rb.elementCount < kMaxBufferSize → ∃ t, Layout rb.elementCount 0 rb t

theorem Kept.frame (h : Kept rb)
    (hframe : rb'.elementCount = rb.elementCount ∧ rb'.elementSize = rb.elementSize)
    (hlayout : ∀ t, rb.elementCount < kMaxBufferSize → Layout rb.elementCount 0 rb t →
      ∃ t', Layout rb.elementCount 0 rb' t') : Kept rb' where
  size := hframe.2.trans h.size
  pos := hframe.1 ▸ h.pos
  lt := hframe.1 ▸ h.lt
  layout := by
    rw [hframe.1]
    intro hsmall
    obtain ⟨t, ht⟩ := h.layout hsmall
    exact hlayout t hsmall ht

theorem kept_of_writeBuffer (h : Kept rb) {src : List UInt8} {count k : Nat}
    (hwrite : rb.writeBuffer src count = some (k, rb')) : Kept rb' := by
  obtain ⟨hcount, hsize, -⟩ := writeBuffer_frame hwrite
  have hlt := h.lt
  exact h.frame ⟨hcount, hsize⟩ fun t _ ht => writeBuffer_keeps ht (by omega) hwrite

theorem kept_of_moveReadPtr (h : Kept rb) {count moved : Int}
    (hmove : rb.moveReadPtr count = some (moved, rb')) : Kept rb' :=
  h.frame (moveReadPtr_frame hmove) fun t hsmall ht =>
    moveReadPtr_keeps ht (by unfold kMaxBufferSize at hsmall; omega) hmove

theorem kept_of_initBuffer (h : Kept rb) : Kept (rb.initBuffer 0) :=
  h.frame ⟨rfl, rfl⟩ fun _ _ _ => ⟨_, initBuffer_layout 0 rfl⟩

theorem kept_of_createBuffer {capacity : Nat} (hlt : capacity < 2 ^ 63)
    (hcreate : RingBuffer.createBuffer 0 capacity 1 = some rb) : Kept rb := by
  unfold RingBuffer.createBuffer at hcreate
  split at hcreate
  · contradiction
  · obtain rfl := some.inj hcreate
    exact ⟨rfl, by simp only [RingBuffer.initBuffer]; omega, hlt,
      fun _ => ⟨_, initBuffer_layout 0 rfl⟩⟩

end Ring

section Handle

variable {handle handle' : Handle}

/-- No ring, or one that is kept. -/
def KeptHandle (handle : Handle) : Prop := ∀ rb, handle = some rb → Kept rb

theorem keptHandle_none : KeptHandle none := fun _ h => nomatch h

theorem keptHandle_some {rb : RingBuffer UInt8} (h : Kept rb) : KeptHandle (some rb) :=
  fun _ hsome => some.inj hsome ▸ h

theorem keptHandle_createBuffer {capacity : Nat} (hlt : capacity < 2 ^ 63) :
    KeptHandle (RingBuffer.createBuffer 0 capacity 1) :=
  fun _ hcreate => kept_of_createBuffer hlt hcreate

variable (h : KeptHandle handle)
include h

theorem keptHandle_webRtcWriteBuffer {src : List UInt8} {count k : Nat}
    (hwrite : webRtcWriteBuffer handle src count = some (k, handle')) :
    KeptHandle handle' := by
  cases handle with
  | none =>
    obtain ⟨-, rfl⟩ := Prod.mk.inj (some.inj hwrite)
    exact keptHandle_none
  | some rb =>
    obtain ⟨r, hr, ⟨⟩⟩ := bind_some_returns hwrite
    exact keptHandle_some (kept_of_writeBuffer (h rb rfl) hr)

theorem keptHandle_webRtcMoveReadPtr {count moved : Int}
    (hmove : webRtcMoveReadPtr handle count = some (moved, handle')) :
    KeptHandle handle' := by
  cases handle with
  | none =>
    obtain ⟨-, rfl⟩ := Prod.mk.inj (some.inj hmove)
    exact keptHandle_none
  | some rb =>
    rw [webRtcMoveReadPtr, bind_eq_some_iff] at hmove
    obtain ⟨r, hr, heq⟩ := hmove
    obtain ⟨-, rfl⟩ := Prod.mk.inj (some.inj heq)
    exact keptHandle_some (kept_of_moveReadPtr (h rb rfl) hr)

theorem keptHandle_webRtcReadBuffer {dataPtr : Bool} {count : Nat} {xs : List UInt8}
    (hread : webRtcReadBuffer handle dataPtr count = some (xs, handle')) :
    KeptHandle handle' := by
  cases handle with
  | none =>
    obtain ⟨-, rfl⟩ := Prod.mk.inj (some.inj hread)
    exact keptHandle_none
  | some rb =>
    obtain ⟨r, hr, hrest⟩ := bind_eq_some_iff.1 hread
    obtain ⟨_, -, heq⟩ := bind_eq_some_iff.1 hrest
    obtain ⟨-, rfl⟩ := Prod.mk.inj (some.inj heq)
    obtain ⟨_, _, hmove⟩ := readBuffer_moves hr
    exact keptHandle_some (kept_of_moveReadPtr (h rb rfl) hmove)

theorem keptHandle_webRtcInitBuffer (hinit : webRtcInitBuffer handle = some handle') :
    KeptHandle handle' := by
  cases handle with
  | none => contradiction
  | some rb =>
    obtain rfl := some.inj hinit
    exact keptHandle_some (kept_of_initBuffer (h rb rfl))

theorem keptHandle_copyUnread {old : RingBuffer UInt8} {readSize : Nat}
    (hcopy : copyUnread old readSize handle = some handle') :
    KeptHandle handle' := by
  obtain ⟨r, hfirst, hrest⟩ := bind_eq_some_iff.1 hcopy
  have hkept := keptHandle_webRtcWriteBuffer h hfirst
  generalize (if 0 < sizeSub old.writePos old.readPos then sizeSub old.writePos old.readPos
    else sizeSub old.elementCount old.readPos) = readSize1 at hrest
  simp only at hrest
  split at hrest
  · obtain ⟨q, hsecond, rfl⟩ := bind_some_returns hrest
    exact keptHandle_webRtcWriteBuffer hkept hsecond
  · obtain rfl := some.inj hrest
    exact hkept

omit h

end Handle

section Wrapper

variable {w w' : RingBufferWrapper}

theorem keptHandle_adjustCapacity (h : KeptHandle w.buffHandle) {capacity : Nat}
    (hlt : capacity < 2 ^ 63) (hadjust : w.adjustCapacity capacity = some w') :
    KeptHandle w'.buffHandle := by
  have hnew := keptHandle_createBuffer hlt
  unfold adjustCapacity at hadjust
  split at hadjust
  · obtain rfl := some.inj hadjust
    exact h
  · simp only at hadjust
    split at hadjust
    · obtain ⟨old, -, hrest⟩ := bind_eq_some_iff.1 hadjust
      obtain ⟨handle, hcopy, rfl⟩ := bind_some_returns hrest
      exact keptHandle_copyUnread hnew hcopy
    · obtain rfl := some.inj hadjust
      exact hnew

theorem calculatedExpansionCapacity_le {size capacity : Nat}
    (h : w.calculatedExpansionCapacity size = some capacity) :
    capacity ≤ kMaxBufferSize := by
  obtain ⟨newSize, -, rfl⟩ := bind_some_returns h
  split <;> omega

theorem keptHandle_expand (h : KeptHandle w.buffHandle) {size : Nat}
    (hexpand : w.expand size = some w') : KeptHandle w'.buffHandle := by
  obtain ⟨capacity, hcapacity, hrest⟩ := bind_eq_some_iff.1 hexpand
  obtain ⟨w₁, hadjust, hrest⟩ := bind_eq_some_iff.1 hrest
  have hle := calculatedExpansionCapacity_le hcapacity
  have hkept := keptHandle_adjustCapacity h (by unfold kMaxBufferSize at hle; omega) hadjust
  split at hrest
  · simp only at hrest
    split at hrest
    · obtain ⟨r, hmove, rfl⟩ := bind_some_returns hrest
      exact keptHandle_webRtcMoveReadPtr hkept hmove
    · obtain rfl := some.inj hrest
      exact hkept
  · obtain rfl := some.inj hrest
    exact hkept

private theorem keptHandle_write_back {v : RingBufferWrapper} (h : KeptHandle v.buffHandle)
    {data : List UInt8} {k : Nat}
    (hwrite : ((webRtcWriteBuffer v.buffHandle data data.length).bind fun r =>
      some (r.1, { v with buffHandle := r.2 })) = some (k, w')) :
    KeptHandle w'.buffHandle := by
  obtain ⟨r, hwritten, ⟨⟩⟩ := bind_some_returns hwrite
  exact keptHandle_webRtcWriteBuffer h hwritten

theorem keptHandle_bufferWrite (h : KeptHandle w.buffHandle) {data : List UInt8} {k : Nat}
    (hwrite : w.bufferWrite data = some (k, w')) : KeptHandle w'.buffHandle := by
  simp only [bufferWrite] at hwrite
  split at hwrite
  · split at hwrite
    · obtain ⟨w₁, hexpand, hrest⟩ := bind_eq_some_iff.1 hwrite
      exact keptHandle_write_back (keptHandle_expand h hexpand) hrest
    · obtain ⟨q, hmove, hrest⟩ := bind_eq_some_iff.1 hwrite
      exact keptHandle_write_back (v := { w with buffHandle := q.2 })
        (keptHandle_webRtcMoveReadPtr h hmove) hrest
  · exact keptHandle_write_back h hwrite

theorem keptHandle_step (h : KeptHandle w.buffHandle) {op : Op} {obs : Obs}
    (hstep : step w op = some (obs, w')) : KeptHandle w'.buffHandle := by
  cases op with
  | write data =>
    obtain ⟨r, hwrite, ⟨⟩⟩ := bind_some_returns hstep
    exact keptHandle_bufferWrite h hwrite
  | read dataPtr size =>
    obtain ⟨r, hread, ⟨⟩⟩ := bind_some_returns hstep
    obtain ⟨q, hq, rfl⟩ := bind_some_returns hread
    exact keptHandle_webRtcReadBuffer h hq
  | seek offset =>
    obtain ⟨r, hseek, ⟨⟩⟩ := bind_some_returns hstep
    obtain ⟨q, hq, rfl⟩ := bind_some_returns hseek
    exact keptHandle_webRtcMoveReadPtr h hq
  | clear =>
    obtain ⟨r, hclear, ⟨⟩⟩ := bind_some_returns hstep
    obtain ⟨q, hq, rfl⟩ := bind_some_returns hclear
    exact keptHandle_webRtcInitBuffer h hq

theorem keptHandle_call (h : KeptHandle w.buffHandle) {c : Call}
    (hcall : call w c = some w') : KeptHandle w'.buffHandle := by
  cases c with
  | op op =>
    obtain ⟨r, hstep, rfl⟩ := map_eq_some_iff.1 hcall
    exact keptHandle_step h hstep
  | adjustCapacity capacity =>
    simp only [call] at hcall
    split at hcall
    · exact keptHandle_adjustCapacity h ‹_› hcall
    · split at hcall <;> obtain rfl := some.inj hcall
      · exact h
      · exact keptHandle_none
  | outOfMemory =>
    obtain rfl := some.inj hcall
    exact keptHandle_none

theorem keptHandle_construct (c : Nat) (auto : Bool) :
    KeptHandle (construct c auto).buffHandle := by
  unfold construct
  split
  · exact keptHandle_createBuffer ‹_›
  · exact keptHandle_none

theorem keptHandle_exec {c : Nat} {auto : Bool} {calls : List Call}
    (hrun : exec call (construct c auto) calls = some w) : KeptHandle w.buffHandle :=
  @exec_invariant _ _ call (fun w => KeptHandle w.buffHandle)
    (fun _ _ _ h hcall => keptHandle_call h hcall) calls _ _ (keptHandle_construct c auto) hrun

end Wrapper

/-! ## The loop -/

theorem expansionLoop_zero {write : Nat} (hwrite : 0 < write) (fuel : Nat) :
    expansionLoop 0 write fuel 0 = none := by
  induction fuel with
  | zero => rfl
  | succ fuel ih =>
    rw [expansionLoop, if_pos (by simpa [sizeSub] using hwrite)]
    exact ih

theorem expansionLoop_large (cur : Nat) {write s : Nat} (hwrite : write ≤ kMaxBufferSize)
    (hs : kMaxBufferSize ≤ s) (hlt : s < 2 ^ 63) (fuel : Nat) :
    ∃ s', expansionLoop cur write (fuel + 2) s = some s' ∧ kMaxBufferSize ≤ s' := by
  rw [expansionLoop]
  by_cases hless : sizeSub s cur < write
  · have hdouble : sizeMul s 2 = s * 2 := Nat.mod_eq_of_lt (by omega)
    have hroom : ¬ sizeSub (s * 2) cur < write := by
      unfold sizeSub at hless ⊢
      omega
    refine ⟨s * 2, ?_, by omega⟩
    rw [if_pos hless, hdouble, expansionLoop, if_neg hroom]
  · exact ⟨s, if_neg hless, hs⟩

/-- A write of so many bytes enters the loop. -/
def EntersLoop (w : RingBufferWrapper) (size : Nat) : Prop :=
  sizeSub w.bufferCapacity w.bufferCurrentSize < size ∧ w.autoAdjustCapacity = true
  deriving Decidable

def bufferWriteIn (rounds : Nat) (w : RingBufferWrapper) (data : List UInt8) :
    Option (Option (Nat × RingBufferWrapper)) :=
  if EntersLoop w data.length then
    (expansionLoop w.bufferCurrentSize data.length rounds w.bufferCapacity).map fun newSize => do
      let w ← w.expandTo data.length
        (if kMaxBufferSize < newSize then kMaxBufferSize else newSize)
      let (written, handle) ← webRtcWriteBuffer w.buffHandle data data.length
      some (written, { w with buffHandle := handle })
  else some (w.bufferWrite data)

theorem bufferWriteIn_join (w : RingBufferWrapper) (data : List UInt8) :
    (bufferWriteIn 65 w data).join = w.bufferWrite data := by
  unfold bufferWriteIn
  split
  · next henters =>
      simp only [bufferWrite, if_pos henters.1, if_pos henters.2, expand,
        calculatedExpansionCapacity]
      cases expansionLoop w.bufferCurrentSize data.length 65 w.bufferCapacity <;> rfl
  · rfl

/-- What the loop owes `BufferWrite`: a capacity within the limit that has room for
the write, or is the limit. -/
def ExpandsWithin (w : RingBufferWrapper) (size : Nat) : Prop :=
  ∃ capacity, w.calculatedExpansionCapacity size = some capacity ∧
    capacity ≤ kMaxBufferSize ∧
    min kMaxBufferSize (w.bufferCurrentSize + size) ≤ capacity

/-- The write returns, and finds such a capacity if it needs one. -/
def WriteReturns (w : RingBufferWrapper) (data : List UInt8) : Prop :=
  (∃ rounds result, bufferWriteIn rounds w data = some result) ∧
    (EntersLoop w data.length → ExpandsWithin w data.length)

theorem ExpandsWithin.writeReturns {w : RingBufferWrapper} {data : List UInt8}
    (h : EntersLoop w data.length → ExpandsWithin w data.length) : WriteReturns w data := by
  refine ⟨⟨65, ?_⟩, h⟩
  unfold bufferWriteIn
  split
  · next henters =>
      obtain ⟨capacity, hcapacity, -⟩ := h henters
      obtain ⟨newSize, hloop, -⟩ := bind_eq_some_iff.1 hcapacity
      exact ⟨_, by rw [hloop, map_some]⟩
  · exact ⟨_, rfl⟩

theorem expandsWithin_of_loop {w : RingBufferWrapper} {size newSize : Nat}
    (hloop : expansionLoop w.bufferCurrentSize size 65 w.bufferCapacity = some newSize)
    (hroom : min kMaxBufferSize (w.bufferCurrentSize + size) ≤ newSize) :
    ExpandsWithin w size := by
  refine ⟨if kMaxBufferSize < newSize then kMaxBufferSize else newSize, ?_, ?_, ?_⟩
  · simp [calculatedExpansionCapacity, hloop]
  all_goals split <;> omega

variable {w : RingBufferWrapper} {rb : RingBuffer UInt8} (h : Kept rb)
  (hhandle : w.buffHandle = some rb)
include h hhandle

theorem Kept.bufferCapacity : w.bufferCapacity = rb.elementCount := by
  have hlt := h.lt
  simp only [RingBufferWrapper.bufferCapacity, hhandle, h.size, sizeMul]
  omega

theorem Kept.expandsWithin {size : Nat} (hsize : size ≤ kMaxBufferSize) : ExpandsWithin w size := by
  have hlt := h.lt
  have hpos := h.pos
  have hmax : kMaxBufferSize < 2 ^ 26 := by decide
  have hcapacity := h.bufferCapacity hhandle
  by_cases hsmall : rb.elementCount < kMaxBufferSize
  · obtain ⟨t, ht⟩ := h.layout hsmall
    have hcurrent : w.bufferCurrentSize = t.unread := by
      rw [bufferCurrentSize, hhandle]
      exact ht.availableRead (by omega)
    have hu := ht.unread_le
    have hbound : t.unread + size ≤ rb.elementCount * 2 ^ 64 := by omega
    obtain ⟨s, hloop, hroom, -⟩ :=
      expansionLoop_spec (show t.unread + size ≤ 2 ^ 62 by omega) 64 rb.elementCount hu
        (by omega) hbound
    exact expandsWithin_of_loop (by rw [hcurrent, hcapacity, hloop]) (by rw [hcurrent]; omega)
  · obtain ⟨s, hloop, hroom⟩ := expansionLoop_large w.bufferCurrentSize hsize
      (show kMaxBufferSize ≤ rb.elementCount by omega) hlt 63
    exact expandsWithin_of_loop (by rw [hcapacity, hloop]) (by omega)

omit h hhandle

/-! ## Every state of a run -/

section Result

variable {c : Nat} {auto : Bool} {calls : List Call} {w : RingBufferWrapper}

/-- **A write returns** in a state that a run reaches exactly when the mode is fixed, there is a
ring, or there is nothing to write; otherwise its loop runs for ever. -/
theorem bufferWrite_returns_iff (hrun : exec call (construct c auto) calls = some w)
    {data : List UInt8} (hsize : data.length ≤ kMaxBufferSize) :
    (WriteReturns w data ↔ (w.autoAdjustCapacity = true → 0 < w.bufferCapacity ∨ data = [])) ∧
      (¬WriteReturns w data → ∀ rounds, bufferWriteIn rounds w data = none) ∧
      (bufferWriteIn 65 w data).join = w.bufferWrite data := by
  suffices h : (w.autoAdjustCapacity = true → 0 < w.bufferCapacity ∨ data = []) ∧
      WriteReturns w data ∨
      ¬(w.autoAdjustCapacity = true → 0 < w.bufferCapacity ∨ data = []) ∧
        ∀ rounds, bufferWriteIn rounds w data = none by
    rw [and_iff_left (bufferWriteIn_join w data)]
    obtain ⟨hcond, hreturns⟩ | ⟨hcond, hnone⟩ := h
    · exact ⟨iff_of_true hreturns hcond, fun hnot => absurd hreturns hnot⟩
    · refine ⟨iff_of_false ?_ hcond, fun _ => hnone⟩
      rintro ⟨⟨rounds, result, hsome⟩, -⟩
      rw [hnone rounds] at hsome
      contradiction
  cases hhandle : w.buffHandle with
  | some rb =>
    have hkept := keptHandle_exec hrun rb hhandle
    have hcapacity : 0 < w.bufferCapacity := by
      rw [hkept.bufferCapacity hhandle]
      exact hkept.pos
    exact .inl ⟨fun _ => .inl hcapacity,
      ExpandsWithin.writeReturns fun _ => hkept.expandsWithin hhandle hsize⟩
  | none =>
    have hcapacity : w.bufferCapacity = 0 := by
      simp only [RingBufferWrapper.bufferCapacity, hhandle]
    have hcurrent : w.bufferCurrentSize = 0 := by
      simp only [bufferCurrentSize, hhandle, webRtcAvailableRead]
    have henters : EntersLoop w data.length ↔ 0 < data.length ∧ w.autoAdjustCapacity = true := by
      rw [EntersLoop, hcapacity, hcurrent]
      rfl
    by_cases hloop : EntersLoop w data.length
    · refine .inr ⟨fun hcond => ?_, fun rounds => ?_⟩
      · obtain ⟨hpos, hauto⟩ := henters.1 hloop
        obtain hring | rfl := hcond hauto
        · omega
        · exact Nat.lt_irrefl 0 hpos
      · rw [bufferWriteIn, if_pos hloop, hcurrent, hcapacity,
          expansionLoop_zero (henters.1 hloop).1]
        rfl
    · refine .inl ⟨fun hauto => .inr ?_, ExpandsWithin.writeReturns fun h => absurd h hloop⟩
      exact List.eq_nil_of_length_eq_zero
        (Nat.eq_zero_of_not_pos fun hpos => hloop (henters.2 ⟨hpos, hauto⟩))

/-- After three bytes into a ring of four, ten more ask for more room and get it. -/
theorem bufferWrite_returns_four :
    ∃ w, exec call (construct 4 true) [.op (.write [1, 2, 3])] = some w ∧
      w.bufferCapacity = 4 ∧ EntersLoop w 10 ∧ WriteReturns w (List.replicate 10 0) :=
  ⟨_, rfl, rfl, by decide, (bufferWrite_returns_iff
    (show exec call (construct 4 true) [.op (.write [1, 2, 3])] = some _ from rfl)
    (by decide)).1.2 fun _ => .inl (by decide)⟩

/-- A wrapper of capacity zero in expandable mode: the first byte does not fit, and
the loop that makes room for it never ends. -/
theorem bufferWrite_zero_capacity :
    (∀ rounds, bufferWriteIn rounds (construct 0 true) [7] = none) ∧
      ¬WriteReturns (construct 0 true) [7] := by
  have hforever : ∀ rounds, bufferWriteIn rounds (construct 0 true) [7] = none := by
    intro rounds
    exact congrArg (Option.map _) (expansionLoop_zero Nat.one_pos rounds)
  refine ⟨hforever, ?_⟩
  rintro ⟨⟨rounds, result, hsome⟩, -⟩
  rw [hforever rounds] at hsome
  contradiction

end Result

end WebrtcCore.Ports.RingBufferWrapper
