import WebrtcCore.Ports.RingBufferWrapper

/-!
# The byte ring of fixed size (`audio/utility/common_tool.cc`)

Without `auto_adjust_capacity_` a `RingBufferWrapper` keeps its capacity, and
a write that finds too little room first moves the read position past the
oldest bytes.  The move is `WebRtc_MoveReadPtr`, which adds the read position
and the number of bytes in an `int`; from `2 ^ 30` bytes on the sum of the two
can overflow.  `keepsLatest_iff` says that this is all that can go wrong: in
every state that a run reaches, a write of at most the capacity leaves the
latest bytes exactly when that sum is an `int`.
-/

namespace WebrtcCore.Ports.RingBufferWrapper

open Verified CMemory Simulation Tape Ports.RingBuffer List Option

/-- The last `k` elements of a list. -/
def latest {α : Type} (k : Nat) (xs : List α) : List α := xs.drop (xs.length - k)

def KeepsLatest (c : Nat) (w : RingBufferWrapper) (data : List UInt8) : Prop :=
  ∃ w', w.bufferWrite data = some (data.length, w') ∧
    w'.unread = latest (min c (w.unread.length + data.length)) (w.unread ++ data)

/-- The read position after the bytes that have to go is an `int`. -/
def RoomIsInt (w : RingBufferWrapper) (size : Nat) : Prop :=
  ∀ rb, w.buffHandle = some rb →
    rb.readPos + (size - (w.bufferCapacity - w.bufferCurrentSize)) < 2 ^ 31

section Write

variable {w : RingBufferWrapper} {n : Nat} {rb : RingBuffer UInt8} {t : Tape UInt8}

theorem seek_drops (h : Layout n 0 rb t) {k : Nat} (hk : k ≤ t.unread) :
    (t.seek n k).1 = k ∧ (t.seek n k).2.contents 0 = (t.contents 0).drop k := by
  have hseek := seek_unread h k
  rw [Nat.min_eq_left hk] at hseek
  rw [hseek]
  exact ⟨rfl, (Tape.contents_consume h.wf 0 k).2⟩

theorem bufferWrite_fits (h : Holds w n rb t) (data : List UInt8)
    (hfit : t.unread + data.length ≤ n) :
    ∃ rb' t', w.bufferWrite data = some (data.length, { w with buffHandle := some rb' }) ∧
      Holds { w with buffHandle := some rb' } n rb' t' ∧
      t'.contents 0 = t.contents 0 ++ data ∧ rb'.readPos = rb.readPos := by
  obtain ⟨rb', t', hwrite, hrest⟩ := h.write_fits data hfit
  refine ⟨rb', t', ?_, hrest⟩
  simp [bufferWrite, h.free, if_neg (show ¬ n - t.unread < data.length by omega), hwrite]

theorem keepsLatest_of_fits (h : Holds w n rb t) {data : List UInt8}
    (hfit : t.unread + data.length ≤ n) : KeepsLatest n w data := by
  obtain ⟨rb', t', hwrite, hholds, hcontents, -⟩ := bufferWrite_fits h data hfit
  refine ⟨_, hwrite, ?_⟩
  rw [hholds.unread, hcontents, ← h.unread, latest, length_append, h.unread_length,
    Nat.min_eq_right hfit, Nat.sub_self, drop_zero]

theorem bufferWrite_overwrites (h : Holds w n rb t) (hmode : w.autoAdjustCapacity = false)
    {data : List UInt8} (hneed : n - t.unread < data.length) :
    w.bufferWrite data =
      (webRtcMoveReadPtr w.buffHandle
        (intOfSize (sizeSub data.length (n - t.unread)))).bind fun r =>
          (webRtcWriteBuffer r.2 data data.length).bind fun q =>
            some (q.1, { w with buffHandle := q.2 }) := by
  simp [bufferWrite, h.free, if_pos hneed, hmode]

theorem keepsLatest_iff_roomIsInt (h : Holds w n rb t) (hmode : w.autoAdjustCapacity = false)
    {data : List UInt8} (hdata : data.length ≤ n) :
    KeepsLatest n w data ↔ RoomIsInt w data.length := by
  have hu := h.layout.unread_le
  have hr := h.layout.read_le
  have hlt := h.lt
  have hroom : RoomIsInt w data.length ↔ rb.readPos + (data.length - (n - t.unread)) < 2 ^ 31 := by
    simp [RoomIsInt, h.handle, h.bufferCapacity, h.bufferCurrentSize]
  rw [hroom]
  by_cases hneed : n - t.unread < data.length
  · -- the bytes that have to go
    generalize hk : data.length - (n - t.unread) = k
    have hcount : intOfSize (sizeSub data.length (n - t.unread)) = k := by
      rw [sizeSub_of_le (by omega) (by omega), hk, intOfSize_of_lt (by omega)]
    obtain ⟨hdistance, hdrop⟩ := seek_drops h.layout (show k ≤ t.unread by omega)
    have hwrite := bufferWrite_overwrites h hmode hneed
    rw [hcount] at hwrite
    constructor
    · rintro ⟨w', hsome, -⟩
      apply Classical.byContradiction
      intro hover
      have hnone := h.moveReadPtr_overflow k (by rw [hdistance]; unfold InInt; omega)
      rw [hwrite, hnone] at hsome
      cases hsome
    · intro hint
      obtain ⟨hmove, hmoved⟩ := h.moveReadPtr k (by rw [hdistance]; unfold InInt; omega)
      have hunread := h.layout.wf.unread_seek k
      obtain ⟨rb', t', hwritten, hholds, hcontents, -⟩ := hmoved.write_fits data (by omega)
      refine ⟨{ w with buffHandle := some rb' }, ?_, ?_⟩
      · rw [hwrite, hmove, bind_some, hwritten, bind_some]
      · rw [hholds.unread, hcontents, hdrop, ← h.unread, latest, length_append,
          h.unread_length, Nat.min_eq_left (by omega),
          show t.unread + data.length - n = k by omega,
          drop_append_of_le_length (by rw [h.unread_length]; omega)]
  · exact iff_of_true (keepsLatest_of_fits h (by omega)) (by omega)

end Write

/-! ## Runs -/

/-- A wrapper in the mode of fixed size, around a ring of `c` bytes. -/
def IsFixed (c : Nat) (w : RingBufferWrapper) : Prop :=
  w.autoAdjustCapacity = false ∧ ∃ rb t, Holds w c rb t

section Steps

variable {c : Nat} {w w' : RingBufferWrapper}

theorem IsFixed.moveReadPtr (h : IsFixed c w) {count : Int} {moved : Int} {handle : Handle}
    (hmove : webRtcMoveReadPtr w.buffHandle count = some (moved, handle)) :
    IsFixed c { w with buffHandle := handle } := by
  obtain ⟨hmode, rb, t, hholds⟩ := h
  by_cases hsum : InInt (rb.readPos + (t.seek c count).1)
  · obtain ⟨hsome, hmoved⟩ := hholds.moveReadPtr count hsum
    rw [hsome, some.injEq, Prod.mk.injEq] at hmove
    rw [← hmove.2]
    exact ⟨hmode, _, _, hmoved⟩
  · rw [hholds.moveReadPtr_overflow count hsum] at hmove
    cases hmove

theorem IsFixed.write (h : IsFixed c w) {data : List UInt8} {k : Nat} {handle : Handle}
    (hwrite : webRtcWriteBuffer w.buffHandle data data.length = some (k, handle)) :
    IsFixed c { w with buffHandle := handle } := by
  obtain ⟨hmode, rb, t, hholds⟩ := h
  obtain ⟨k', rb', t', hsome, hwritten⟩ := hholds.write_some data
  rw [hsome, some.injEq, Prod.mk.injEq] at hwrite
  rw [← hwrite.2]
  exact ⟨hmode, rb', t', hwritten⟩

theorem IsFixed.step (h : IsFixed c w) {op : Op} {o : Obs} (hstep : step w op = some (o, w')) :
    IsFixed c w' := by
  cases op with
  | write data =>
    obtain ⟨handle, mode⟩ := w
    obtain rfl : mode = false := h.1
    simp only [RingBufferWrapper.step, bufferWrite, Bool.false_eq_true,
      ↓reduceIte, bind_eq_bind] at hstep
    split at hstep <;>
      simp only [bind_some, bind_eq_some_iff, some.injEq] at hstep
    · obtain ⟨_, ⟨⟨_, _⟩, hmove, ⟨_, _⟩, hwrite, rfl⟩, -, rfl⟩ := hstep
      exact (h.moveReadPtr hmove).write hwrite
    · obtain ⟨_, ⟨⟨_, _⟩, hwrite, rfl⟩, -, rfl⟩ := hstep
      exact h.write hwrite
  | read dataPtr size =>
    obtain ⟨hmode, rb, t, hholds⟩ := h
    by_cases hsum : InInt (rb.readPos + (min size t.unread : Nat))
    · obtain ⟨t', hread, hholds', -⟩ := hholds.bufferRead dataPtr size hsum
      simp only [RingBufferWrapper.step, hread, bind_some, some.injEq, Prod.mk.injEq] at hstep
      rw [← hstep.2]
      exact ⟨hmode, _, t', hholds'⟩
    · have hnone := readBuffer_overflow hholds.layout hholds.lt dataPtr size hsum
      simp [RingBufferWrapper.step, bufferRead, webRtcReadBuffer, hholds.handle, hnone] at hstep
  | seek offset =>
    simp only [RingBufferWrapper.step, bufferSeek, bind_eq_bind, bind_eq_some_iff,
      some.injEq] at hstep
    obtain ⟨_, ⟨⟨_, _⟩, hmove, rfl⟩, -, rfl⟩ := hstep
    exact h.moveReadPtr hmove
  | clear =>
    obtain ⟨hmode, rb, t, hholds⟩ := h
    obtain ⟨hclear, hholds'⟩ := hholds.clear
    simp only [RingBufferWrapper.step, hclear, bind_some, some.injEq, Prod.mk.injEq] at hstep
    rw [← hstep.2]
    exact ⟨hmode, _, _, hholds'⟩

end Steps

/-- **A wrapper of fixed size keeps the latest bytes while the read position is an
`int`.**  In every state that a run reaches, a write of at most the capacity meets
its specification exactly when the read position and the number of bytes that have
to go add up to an `int`; the sum always does below `2 ^ 30` bytes. -/
theorem keepsLatest_iff {c : Nat} (hpos : 0 < c) (hc : c < 2 ^ 31) {ops : List Op} {obs : List Obs}
    {w : RingBufferWrapper} (hrun : runM step (create c false) ops = some (obs, w))
    {data : List UInt8} (hdata : data.length ≤ c) :
    (KeepsLatest c w data ↔ RoomIsInt w data.length) ∧ (c < 2 ^ 30 → RoomIsInt w data.length) := by
  obtain ⟨rb₀, hcreate, -⟩ := create_holds hpos hc false
  obtain ⟨hmode, rb, t, hholds⟩ : IsFixed c w :=
    runM_invariant_of_mem (fun _ _ _ _ _ h hstep => h.step hstep) ⟨rfl, rb₀, Tape.empty, hcreate⟩
      hrun
  refine ⟨keepsLatest_iff_roomIsInt hholds hmode hdata, ?_⟩
  intro hsmall rb' hrb'
  have hr := hholds.layout.read_le
  obtain rfl : rb = rb' := some.inj (hholds.handle.symm.trans hrb')
  omega

theorem keepsLatest_four :
    ∃ obs w, runM step (create 4 false) [.write [1, 2, 3]] = some (obs, w) ∧
      KeepsLatest 4 w [4, 5] := by
  have hrun : ∃ r, runM step (create 4 false) [.write [1, 2, 3]] = some r :=
    isSome_iff_exists.mp (by decide +kernel)
  obtain ⟨⟨obs, w⟩, hrun⟩ := hrun
  have h := @keepsLatest_iff 4 (by decide) (by decide) _ obs w hrun [4, 5] (by decide)
  exact ⟨obs, w, hrun, h.1.mpr (h.2 (by decide))⟩

/-- One byte is written and read, so that the read position is 1, and then the ring is
filled. -/
def shiftedRun (c : Nat) : List Op := [.write [0], .read false 1, .write (List.replicate c 0)]

theorem runM_shiftedRun {c : Nat} (hpos : 0 < c) (hc : c < 2 ^ 31) :
    ∃ obs rb t, runM step (create c false) (shiftedRun c) = some (obs, ⟨some rb, false⟩) ∧
      Holds ⟨some rb, false⟩ c rb t ∧ t.unread = c ∧ rb.readPos = 1 := by
  obtain ⟨rb₀, h₀, hread₀⟩ := create_holds hpos hc false
  have hempty : (Tape.empty : Tape UInt8).unread = 0 := rfl
  -- one byte in
  obtain ⟨rb₁, t₁, hwrite₁, h₁, hcontents₁, hread₁⟩ :=
    bufferWrite_fits h₀ [0] (by rw [hempty]; exact hpos)
  have hunread₁ : t₁.unread = 1 := by
    rw [← h₁.unread_length, h₁.unread, hcontents₁]
    rfl
  -- and out again
  obtain ⟨t₂, hread, h₂, hcontents₂⟩ := h₁.bufferRead false 1 (by
    rw [hread₁, hread₀, hunread₁]
    decide)
  have hunread₂ : t₂.unread = 0 := by
    rw [← h₂.unread_length, h₂.unread, hcontents₂, hcontents₁]
    rfl
  have hread₂ : (afterMove c (min 1 t₁.unread : Nat) rb₁).readPos = 1 := by
    rw [hunread₁, afterMove, hread₁, hread₀, if_neg (by omega)]
    rfl
  -- and the ring is filled
  obtain ⟨rb₃, t₃, hwrite₃, h₃, hcontents₃, hread₃⟩ :=
    bufferWrite_fits h₂ (replicate c 0) (Nat.le_of_eq (by
      rw [hunread₂, length_replicate, Nat.zero_add]))
  have hunread₃ : t₃.unread = c := by
    rw [← h₃.unread_length, h₃.unread, hcontents₃, length_append, length_replicate,
      ← h₂.unread, h₂.unread_length, hunread₂, Nat.zero_add]
  refine ⟨[.wrote 1, .got ((t₁.contents 0).take 1), .wrote c], rb₃, t₃, ?_, h₃, hunread₃,
    hread₃.trans hread₂⟩
  simp only [shiftedRun, runM, step, hwrite₁, hread, hwrite₃, bind_some, length_replicate]
  rfl

/-- With `2 ^ 31 - 1` bytes, overwriting the full ring moves the read position from 1 by
all of them, which is not an `int`. -/
theorem keepsLatest_overflow :
    ∃ obs w, runM step (create (2 ^ 31 - 1) false) (shiftedRun (2 ^ 31 - 1)) = some (obs, w) ∧
      ¬ KeepsLatest (2 ^ 31 - 1) w (List.replicate (2 ^ 31 - 1) 0) := by
  obtain ⟨obs, rb, t, hrun, hholds, hfull, hread⟩ :=
    runM_shiftedRun (show 0 < 2 ^ 31 - 1 by decide) (by decide)
  refine ⟨obs, _, hrun, ?_⟩
  rw [keepsLatest_iff_roomIsInt hholds rfl (Nat.le_of_eq length_replicate)]
  intro hroom
  have hint := hroom rb hholds.handle
  rw [hholds.bufferCapacity, hholds.bufferCurrentSize, length_replicate] at hint
  omega

end WebrtcCore.Ports.RingBufferWrapper
