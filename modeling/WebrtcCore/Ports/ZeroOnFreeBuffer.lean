import WebrtcCore.Verified.CMemory
import WebrtcCore.Verified.ObjectStore
import WebrtcCore.Verified.Simulation

/-!
# Buffers that are zeroed before they are freed

Port of `BufferT<T, ZeroOnFree>` (`rtc_base/buffer.h`) with the storage blocks that it allocates
and releases.  A block is a row of bytes, each with a mark that says whether the program has ever
written it; new memory is unmarked, and a block is recorded as it is when it is released.

A family of buffers shares one heap, and a block belongs to at most one of them.  `none` is a
failed check, undefined behaviour, or an allocation that is too large.
-/

namespace WebrtcCore.Ports.ZeroOnFreeBuffer

open Verified CMemory ObjectStore Simulation Option

/-! ### Storage blocks -/

/-- A byte of a storage block, and whether it has ever been written. -/
structure Cell where
  value : UInt8
  written : Bool
deriving DecidableEq, Repr

/-- A byte that has been written is zero. -/
def Cell.Clean (c : Cell) : Prop := c.written = true → c.value = 0

/-- A storage block; `id` is the number of its allocation. -/
structure Block where
  id : Nat
  length : Nat
  cell : Nat → Cell

def Block.Clean (r : Block) : Prop := ∀ i < r.length, (r.cell i).Clean

/-- The number of the allocations, and the blocks that were released, as they were then. -/
structure Heap where
  allocated : Nat
  released : List Block

/-- A write of `count` bytes. -/
def write (cell : Nat → Cell) (pos count : Nat) (value : Nat → UInt8) : Nat → Cell :=
  fun i => if pos ≤ i ∧ i < pos + count then ⟨value (i - pos), true⟩ else cell i

def explicitZeroMemory (cell : Nat → Cell) (pos count : Nat) : Nat → Cell :=
  write cell pos count fun _ => 0

/-- The writes of a setter into a view that starts at `pos`. -/
def writeAll (cell : Nat → Cell) (pos : Nat) (writes : List (Nat × UInt8)) : Nat → Cell :=
  writes.foldl (fun cell it => write cell (pos + it.1) 1 fun _ => it.2) cell

/-! ### The template -/

/-- The template arguments, `sizeof(T)` for `T`, and whether `RTC_DCHECK_IS_ON`. -/
structure Template where
  sizeofT : Nat
  zeroOnFree : Bool
  dcheckIsOn : Bool
deriving DecidableEq, Repr

abbrev Setter := (Nat → UInt8) → List (Nat × UInt8) × Nat

/-- The setter writes only the space it reports. -/
def Setter.WritesReported (t : Template) (setter : Setter) : Prop :=
  ∀ view, ∀ it ∈ (setter view).1, it.1 < (setter view).2 * t.sizeofT

/-- `BufferT<T, ZeroOnFree>`; `data_` is null if the capacity is zero, and otherwise the
block with this number and these bytes. -/
structure BufferT where
  size : Nat
  capacity : Nat
  blockId : Nat
  cell : Nat → Cell

namespace BufferT

variable (t : Template) (fresh : Nat → Nat → UInt8)

/-- `RTC_DCHECK(IsConsistent())`. -/
def dcheckConsistent (b : BufferT) : Option Unit :=
  demand (t.dcheckIsOn = true → b.size ≤ b.capacity)

/-- The block that `data_` points to. -/
def block (b : BufferT) : Block := ⟨b.blockId, b.capacity * t.sizeofT, b.cell⟩

/-- What the destructor of `data_` does. -/
def release (b : BufferT) (heap : Heap) : Heap :=
  if 0 < b.capacity then { heap with released := b.block t :: heap.released } else heap

/-- `new T[capacity]`, for a buffer of some size. -/
def allocate (heap : Heap) (size capacity : Nat) : Option (BufferT × Heap) :=
  (demand (capacity * t.sizeofT < 2 ^ 63)).map fun _ =>
    (⟨size, capacity, heap.allocated, fun i => ⟨fresh heap.allocated i, false⟩⟩,
      { heap with allocated := heap.allocated + 1 })

def maybeZeroCompleteBuffer (b : BufferT) : BufferT :=
  if t.zeroOnFree = true ∧ 0 < b.capacity then
    { b with cell := explicitZeroMemory b.cell 0 (b.capacity * t.sizeofT) }
  else b

def zeroTrailingData (b : BufferT) (count : Nat) : Option BufferT :=
  (demand (b.size + count ≤ b.capacity)).map fun _ =>
    { b with cell := explicitZeroMemory b.cell (b.size * t.sizeofT) (count * t.sizeofT) }

/-- The end of `SetSize` and of `SetData`. -/
def zeroWhatIsGone (b : BufferT) (oldSize : Nat) : Option BufferT :=
  if t.zeroOnFree = true ∧ b.size < oldSize then b.zeroTrailingData t (oldSize - b.size)
  else some b

/-- `BufferT(size, capacity)`. -/
def create (heap : Heap) (size capacity : Nat) : Option (BufferT × Heap) :=
  if 0 < max size capacity then allocate t fresh heap size (max size capacity)
  else some (⟨0, 0, 0, fun _ => ⟨0, false⟩⟩, heap)

/-- `memcpy` of `size` elements into the block, at element `pos`. -/
def memcpy (b : BufferT) (pos : Nat) (data : List UInt8) (size : Nat) : Option BufferT :=
  (demand (pos + size ≤ b.capacity ∧ size * t.sizeofT ≤ data.length)).map fun _ =>
    { b with cell := write b.cell (pos * t.sizeofT) (size * t.sizeofT) fun i => data.getD i 0 }

/-- `BufferT(data, size, capacity)`. -/
def createFrom (heap : Heap) (data : List UInt8) (size capacity : Nat) :
    Option (BufferT × Heap) := do
  let (b, heap) ← create t fresh heap size capacity
  let b ← b.memcpy t 0 data size
  return (b, heap)

def ensureCapacityWithHeadroom (b : BufferT) (heap : Heap) (capacity : Nat)
    (extraHeadroom : Bool) : Option (BufferT × Heap) := do
  b.dcheckConsistent t
  if capacity ≤ b.capacity then return (b, heap)
  let newCapacity := if extraHeadroom then max capacity (b.capacity + b.capacity / 2) else capacity
  let (new, heap) ← allocate t fresh heap b.size newCapacity
  -- `data_` is null without a block, and then nothing is copied
  demand (0 < b.capacity → b.size ≤ b.capacity)
  let count := if 0 < b.capacity then b.size * t.sizeofT else 0
  return ({ new with cell := write new.cell 0 count fun i => (b.cell i).value },
    (b.maybeZeroCompleteBuffer t).release t heap)

/-- `AppendData(data, size)`.  The data are in memory next to the block, so the sum of the
sizes does not wrap around. -/
def appendData (b : BufferT) (heap : Heap) (data : List UInt8) (size : Nat) :
    Option (BufferT × Heap) := do
  b.dcheckConsistent t
  let newSize := b.size + size
  let (b, heap) ← b.ensureCapacityWithHeadroom t fresh heap newSize true
  let b ← b.memcpy t b.size data size
  return ({ b with size := newSize }, heap)

def setData (b : BufferT) (heap : Heap) (data : List UInt8) (size : Nat) :
    Option (BufferT × Heap) := do
  b.dcheckConsistent t
  let oldSize := b.size
  let (b, heap) ← { b with size := 0 }.appendData t fresh heap data size
  let b ← b.zeroWhatIsGone t oldSize
  return (b, heap)

def setSize (b : BufferT) (heap : Heap) (size : Nat) : Option (BufferT × Heap) := do
  let oldSize := b.size
  let (b, heap) ← b.ensureCapacityWithHeadroom t fresh heap size true
  let b ← { b with size := size }.zeroWhatIsGone t oldSize
  return (b, heap)

def ensureCapacity (b : BufferT) (heap : Heap) (capacity : Nat) : Option (BufferT × Heap) :=
  b.ensureCapacityWithHeadroom t fresh heap capacity false

def appendDataWith (b : BufferT) (heap : Heap) (maxElements : Nat) (setter : Setter) :
    Option (Nat × BufferT × Heap) := do
  b.dcheckConsistent t
  let oldSize := b.size
  let (b, heap) ← b.setSize t fresh heap (sizeAdd oldSize maxElements)
  b.dcheckConsistent t
  let base := oldSize * t.sizeofT
  let (writes, writtenElements) := setter fun i => (b.cell (base + i)).value
  demand (∀ it ∈ writes, it.1 < maxElements * t.sizeofT ∧ base + it.1 < b.capacity * t.sizeofT)
  -- `RTC_CHECK_LE(written_elements, max_elements)`
  demand (writtenElements ≤ maxElements)
  demand (oldSize + writtenElements ≤ b.capacity)
  return (writtenElements,
    { b with size := oldSize + writtenElements, cell := writeAll b.cell base writes }, heap)

/-- `SetData(max_elements, setter)`. -/
def setDataWith (b : BufferT) (heap : Heap) (maxElements : Nat) (setter : Setter) :
    Option (Nat × BufferT × Heap) := do
  b.dcheckConsistent t
  let oldSize := b.size
  let (written, b, heap) ← { b with size := 0 }.appendDataWith t fresh heap maxElements setter
  let b ← b.zeroWhatIsGone t oldSize
  return (written, b, heap)

def clear (b : BufferT) : BufferT := { b.maybeZeroCompleteBuffer t with size := 0 }

/-- A buffer after `OnMovedFrom`. -/
def movedFrom : BufferT := ⟨if t.dcheckIsOn then 1 else 0, 0, 0, fun _ => ⟨0, false⟩⟩

/-- A write through `operator[]` or `data()` to a byte of the elements. -/
def store (b : BufferT) (pos : Nat) (value : UInt8) : Option BufferT :=
  (demand (pos < b.size * t.sizeofT ∧ pos < b.capacity * t.sizeofT)).map fun _ =>
    { b with cell := write b.cell pos 1 fun _ => value }

end BufferT

/-! ### Buffers that are used together -/

/-- The buffers that live, by their addresses, and the heap. -/
structure World where
  buffers : Store BufferT
  heap : Heap

namespace World

variable (t : Template) (fresh : Nat → Nat → UInt8)

/-- Before the first call. -/
def empty : World := ⟨fun _ => none, ⟨0, []⟩⟩

/-- A constructor at an address where no buffer lives. -/
def construct (w : World) (p : Nat) (made : Option (BufferT × Heap)) : Option World := do
  demand ((w.buffers p).isNone = true)
  let (b, heap) ← made
  return ⟨w.buffers.put p b, heap⟩

/-- A call on a buffer. -/
def on (w : World) (p : Nat) (call : BufferT → Heap → Option (BufferT × Heap)) :
    Option World := do
  let b ← w.buffers p
  let (b, heap) ← call b w.heap
  return ⟨w.buffers.put p b, heap⟩

/-- `BufferT(BufferT&& buf)`. -/
def moveConstruct (w : World) (p q : Nat) : Option World := do
  demand ((w.buffers p).isNone = true)
  let buf ← w.buffers q
  buf.dcheckConsistent t
  return ⟨(w.buffers.put p buf).put q (.movedFrom t), w.heap⟩

def moveAssign (w : World) (p q : Nat) : Option World := do
  let this ← w.buffers p
  let buf ← w.buffers q
  buf.dcheckConsistent t
  return ⟨(w.buffers.put p buf).put q (.movedFrom t),
    (this.maybeZeroCompleteBuffer t).release t w.heap⟩

def swap (w : World) (p q : Nat) : Option World := do
  let a ← w.buffers p
  let b ← w.buffers q
  return { w with buffers := (w.buffers.put p b).put q a }

/-- `~BufferT()`. -/
def destroy (w : World) (p : Nat) : Option World := do
  let b ← w.buffers p
  return ⟨w.buffers.erase p, (b.maybeZeroCompleteBuffer t).release t w.heap⟩

end World

/-- A call.  The constructor without arguments is `create` with size and capacity zero. -/
inductive Call where
  | create (p size capacity : Nat)
  | createFrom (p : Nat) (data : List UInt8) (size capacity : Nat)
  | moveConstruct (p q : Nat)
  | moveAssign (p q : Nat)
  | swap (p q : Nat)
  | destroy (p : Nat)
  | setData (p : Nat) (data : List UInt8) (size : Nat)
  | setDataWith (p maxElements : Nat) (setter : Setter)
  | appendData (p : Nat) (data : List UInt8) (size : Nat)
  | appendDataWith (p maxElements : Nat) (setter : Setter)
  | setSize (p size : Nat)
  | ensureCapacity (p capacity : Nat)
  | clear (p : Nat)
  | store (p pos : Nat) (value : UInt8)

/-- The setters write only the space they report. -/
def Call.WritesReported (t : Template) : Call → Prop
  | .setDataWith _ _ setter => setter.WritesReported t
  | .appendDataWith _ _ setter => setter.WritesReported t
  | _ => True

section Run

variable (t : Template) (fresh : Nat → Nat → UInt8)

def step (w : World) : Call → Option World
  | .create p size capacity => w.construct p (BufferT.create t fresh w.heap size capacity)
  | .createFrom p data size capacity =>
    w.construct p (BufferT.createFrom t fresh w.heap data size capacity)
  | .moveConstruct p q => w.moveConstruct t p q
  | .moveAssign p q => w.moveAssign t p q
  | .swap p q => w.swap p q
  | .destroy p => w.destroy t p
  | .setData p data size => w.on p fun b heap => b.setData t fresh heap data size
  | .setDataWith p maxElements setter =>
    w.on p fun b heap => (b.setDataWith t fresh heap maxElements setter).map Prod.snd
  | .appendData p data size => w.on p fun b heap => b.appendData t fresh heap data size
  | .appendDataWith p maxElements setter =>
    w.on p fun b heap => (b.appendDataWith t fresh heap maxElements setter).map Prod.snd
  | .setSize p size => w.on p fun b heap => b.setSize t fresh heap size
  | .ensureCapacity p capacity => w.on p fun b heap => b.ensureCapacity t fresh heap capacity
  | .clear p => w.on p fun b heap => some (b.clear t, heap)
  | .store p pos value => w.on p fun b heap => (b.store t pos value).map fun b => (b, heap)

end Run

/-! ### Up to where a block may hold something -/

/-- Who holds a block after a part of an operation, given who held it before. -/
structure Keeps (owns : Nat → Prop) (heap : Heap) (owns' : Nat → Prop) (heap' : Heap) :
    Prop where
  allocated : heap.allocated ≤ heap'.allocated
  kept : ∀ r ∈ heap.released, r ∈ heap'.released
  clean : ∀ r ∈ heap'.released, r ∈ heap.released ∨ r.Clean
  owner : ∀ k, owns k ∨ heap.allocated ≤ k ∧ k < heap'.allocated →
    owns' k ∨ ∃ r ∈ heap'.released, r.id = k

namespace Keeps

variable {owns owns' owns'' : Nat → Prop} {heap heap' heap'' : Heap}

theorem refl (owns : Nat → Prop) (heap : Heap) : Keeps owns heap owns heap where
  allocated := Nat.le_refl _
  kept _ hr := hr
  clean _ hr := .inl hr
  owner k hk := by
    cases hk with
    | inl howns => exact .inl howns
    | inr hnew => omega

theorem trans (h : Keeps owns heap owns' heap') (h' : Keeps owns' heap' owns'' heap'') :
    Keeps owns heap owns'' heap'' where
  allocated := Nat.le_trans h.allocated h'.allocated
  kept r hr := h'.kept r (h.kept r hr)
  clean r hr := by
    cases h'.clean r hr with
    | inl hold => exact h.clean r hold
    | inr hclean => exact .inr hclean
  owner k hk := by
    by_cases hlater : heap'.allocated ≤ k ∧ k < heap''.allocated
    · exact h'.owner k (.inr hlater)
    · have hfirst : owns k ∨ heap.allocated ≤ k ∧ k < heap'.allocated :=
        hk.imp_right fun hnew => ⟨hnew.1, by omega⟩
      cases h.owner k hfirst with
      | inl howns => exact h'.owner k (.inl howns)
      | inr hreleased =>
        obtain ⟨r, hr, hid⟩ := hreleased
        exact .inr ⟨r, h'.kept r hr, hid⟩

theorem imp {owns₁ owns₁' : Nat → Prop} (h : Keeps owns heap owns' heap')
    (hbefore : ∀ k, owns₁ k → owns k) (hafter : ∀ k, owns' k → owns₁' k) :
    Keeps owns₁ heap owns₁' heap' :=
  { h with owner := fun k hk => (h.owner k (hk.imp_left (hbefore k))).imp_left (hafter k) }

theorem frame (h : Keeps owns heap owns' heap') (others : Nat → Prop) :
    Keeps (fun k => owns k ∨ others k) heap (fun k => owns' k ∨ others k) heap' := by
  refine { h with owner := fun k hk => ?_ }
  by_cases hothers : others k
  · exact .inl (.inr hothers)
  · have hk' : owns k ∨ heap.allocated ≤ k ∧ k < heap'.allocated :=
      hk.imp_left fun h => h.resolve_right hothers
    exact (h.owner k hk').imp_left .inl

end Keeps

namespace BufferT

variable {t : Template} {fresh : Nat → Nat → UInt8} {b b' : BufferT} {heap heap' : Heap}

/-- What has been written from element `n` on is zero. -/
def CleanFrom (t : Template) (n : Nat) (b : BufferT) : Prop :=
  ∀ i, n * t.sizeofT ≤ i → i < b.capacity * t.sizeofT → (b.cell i).Clean

/-- What has been written to the spare capacity is zero. -/
def Clean (t : Template) (b : BufferT) : Prop := b.CleanFrom t b.size

/-- The block belongs to the buffer. -/
def Owns (b : BufferT) (k : Nat) : Prop := 0 < b.capacity ∧ b.blockId = k

theorem CleanFrom.mono {m n : Nat} (h : b.CleanFrom t m) (hmn : m ≤ n) : b.CleanFrom t n :=
  fun i hi => h i (Nat.le_trans (Nat.mul_le_mul_right _ hmn) hi)

theorem cleanFrom_of_capacity_eq_zero (h : b.capacity = 0) (n : Nat) : b.CleanFrom t n := by
  intro i _ hi
  rw [h, Nat.zero_mul] at hi
  exact absurd hi (Nat.not_lt_zero i)

end BufferT

variable {pos i : Nat}

theorem write_of_outside {cell : Nat → Cell} {count : Nat} {value : Nat → UInt8}
    (h : i < pos ∨ pos + count ≤ i) : write cell pos count value i = cell i := by
  unfold write
  rw [if_neg (by omega)]

theorem write_inside {cell : Nat → Cell} {count : Nat} {value : Nat → UInt8} (hpos : pos ≤ i)
    (hi : i < pos + count) :
    write cell pos count value i = ⟨value (i - pos), true⟩ := by
  unfold write
  rw [if_pos ⟨hpos, hi⟩]

theorem writeAll_of_outside {bound : Nat} {writes : List (Nat × UInt8)}
    (hwrites : ∀ it ∈ writes, it.1 < bound) (hi : pos + bound ≤ i) (cell : Nat → Cell) :
    writeAll cell pos writes i = cell i := by
  induction writes generalizing cell with
  | nil => rfl
  | cons it writes ih =>
    rw [List.forall_mem_cons] at hwrites
    have hrest := ih hwrites.2 (write cell (pos + it.1) 1 fun _ => it.2)
    have hfirst : write cell (pos + it.1) 1 (fun _ => it.2) i = cell i :=
      write_of_outside (by omega)
    exact hrest.trans hfirst

namespace BufferT

variable {t : Template} {fresh : Nat → Nat → UInt8} {b b' : BufferT} {heap heap' : Heap}

/-! ### The parts of an operation -/

theorem maybeZeroCompleteBuffer_clean (hz : t.zeroOnFree = true) (b : BufferT) :
    ∃ cell, b.maybeZeroCompleteBuffer t = { b with cell } ∧ CleanFrom t 0 { b with cell } := by
  unfold maybeZeroCompleteBuffer
  split
  case isTrue =>
    refine ⟨_, rfl, fun i _ hi => ?_⟩
    dsimp only [explicitZeroMemory] at hi ⊢
    rw [write_inside (Nat.zero_le i) (by omega)]
    exact fun _ => rfl
  case isFalse hnone =>
    have hcapacity : b.capacity = 0 := Nat.eq_zero_of_not_pos fun hpos => hnone ⟨hz, hpos⟩
    exact ⟨b.cell, rfl, cleanFrom_of_capacity_eq_zero hcapacity 0⟩

theorem release_keeps (hz : t.zeroOnFree = true) (b : BufferT) (heap : Heap) :
    Keeps b.Owns heap (fun _ => False) ((b.maybeZeroCompleteBuffer t).release t heap) := by
  obtain ⟨cell, heq, hclean⟩ := maybeZeroCompleteBuffer_clean hz b
  rw [heq, release]
  split
  case isTrue h =>
    refine ⟨Nat.le_refl _, fun r hr => List.mem_cons_of_mem _ hr, ?_, ?_⟩
    · intro r hr
      cases List.mem_cons.mp hr with
      | inl heq =>
        rw [heq]
        exact .inr fun i hi => hclean i (by omega) hi
      | inr hold => exact .inl hold
    · intro k hk
      cases hk with
      | inl howns => exact .inr ⟨_, List.mem_cons_self, howns.2⟩
      | inr hnew => exact absurd hnew.2 (Nat.not_lt_of_le hnew.1)
  case isFalse h =>
    refine ⟨Nat.le_refl _, fun r hr => hr, fun r hr => .inl hr, ?_⟩
    intro k hk
    cases hk with
    | inl howns => exact absurd howns.1 h
    | inr hnew => exact absurd hnew.2 (Nat.not_lt_of_le hnew.1)

theorem allocate_keeps {size capacity : Nat} (hcapacity : 0 < capacity)
    (h : allocate t fresh heap size capacity = some (b, heap')) :
    b.size = size ∧ b.capacity = capacity ∧ b.CleanFrom t 0 ∧
      Keeps (fun _ => False) heap b.Owns heap' := by
  rw [allocate, map_eq_some_iff] at h
  obtain ⟨_, _, heq⟩ := h
  obtain ⟨rfl, rfl⟩ := Prod.mk.inj heq
  refine ⟨rfl, rfl, fun i _ _ hwritten => absurd hwritten Bool.false_ne_true, ?_⟩
  refine ⟨Nat.le_succ _, fun r hr => hr, fun r hr => .inl hr, ?_⟩
  intro k hk
  cases hk with
  | inl hfalse => exact hfalse.elim
  | inr hnew =>
    dsimp only at hnew
    exact .inl ⟨hcapacity, by dsimp only; omega⟩

end BufferT

/-! ### Operations -/

namespace BufferT

variable {t : Template} {fresh : Nat → Nat → UInt8} {b b' : BufferT} {heap heap' : Heap}

variable {capacity n size : Nat} {data : List UInt8}

theorem ensureCapacityWithHeadroom_clean (hz : t.zeroOnFree = true) {extraHeadroom : Bool}
    (hclean : b.CleanFrom t n) (hn : b.size ≤ n)
    (h : b.ensureCapacityWithHeadroom t fresh heap capacity extraHeadroom = some (b', heap')) :
    b'.size = b.size ∧ b'.CleanFrom t n ∧ Keeps b.Owns heap b'.Owns heap' := by
  simp only [ensureCapacityWithHeadroom, bind_eq_bind, bind_eq_some_iff] at h
  obtain ⟨_, _, h⟩ := h
  split at h
  case isTrue =>
    obtain ⟨rfl, rfl⟩ := Prod.mk.inj (some.inj h)
    exact ⟨rfl, hclean, .refl _ _⟩
  case isFalse hgrow =>
    obtain ⟨⟨new, heap₁⟩, hallocate, h⟩ := bind_eq_some_iff.mp h
    obtain ⟨_, _, h⟩ := bind_eq_some_iff.mp h
    obtain ⟨rfl, rfl⟩ := Prod.mk.inj (some.inj h)
    have hpos : 0 < if extraHeadroom = true then max capacity (b.capacity + b.capacity / 2)
        else capacity := by
      split <;> omega
    obtain ⟨hsize, _, hnew, hkeeps⟩ := allocate_keeps hpos hallocate
    refine ⟨hsize, ?_, ?_⟩
    · intro i hi hcapacity
      have hcount : (if 0 < b.capacity then b.size * t.sizeofT else 0) ≤ i := by
        have hle := Nat.mul_le_mul_right t.sizeofT hn
        split <;> omega
      dsimp only
      rw [write_of_outside (by omega)]
      exact hnew i (by omega) hcapacity
    · -- both blocks are there between the allocation and the release
      have hboth : Keeps b.Owns heap (fun k => b.Owns k ∨ new.Owns k) heap₁ :=
        (hkeeps.frame b.Owns).imp (fun _ => .inr) fun _ => Or.symm
      have hfree := (release_keeps hz b heap₁).frame new.Owns
      exact hboth.trans (hfree.imp (fun _ => id) fun _ howns => howns.resolve_left id)

theorem memcpy_clean {pos : Nat} (hclean : b.CleanFrom t n)
    (h : b.memcpy t pos data size = some b') :
    b'.size = b.size ∧ b'.Owns = b.Owns ∧ b'.CleanFrom t (max n (pos + size)) := by
  obtain ⟨_, _, rfl⟩ := map_eq_some_iff.mp h
  refine ⟨rfl, rfl, ?_⟩
  intro i hi hcapacity
  rw [← Nat.mul_max_mul_right, Nat.max_le, Nat.add_mul] at hi
  dsimp only
  rw [write_of_outside (.inr hi.2)]
  exact hclean i hi.1 hcapacity

theorem appendData_clean (hz : t.zeroOnFree = true) (hclean : b.CleanFrom t n) (hn : b.size ≤ n)
    (h : b.appendData t fresh heap data size = some (b', heap')) :
    b.size ≤ b'.size ∧ b'.CleanFrom t (max n b'.size) ∧ Keeps b.Owns heap b'.Owns heap' := by
  simp only [appendData, bind_eq_bind, bind_eq_some_iff] at h
  obtain ⟨_, _, ⟨b₁, heap₁⟩, hensure, b₂, hmemcpy, h⟩ := h
  obtain ⟨rfl, rfl⟩ := Prod.mk.inj (some.inj h)
  obtain ⟨hsize, hclean₁, hkeeps⟩ := ensureCapacityWithHeadroom_clean hz hclean hn hensure
  obtain ⟨_, howns, hclean₂⟩ := memcpy_clean hclean₁ hmemcpy
  rw [hsize] at hclean₂
  exact ⟨Nat.le_add_right _ _, hclean₂, howns ▸ hkeeps⟩

theorem zeroWhatIsGone_clean (hz : t.zeroOnFree = true) {oldSize : Nat} (hclean : b.CleanFrom t n)
    (h : b.zeroWhatIsGone t oldSize = some b') :
    b'.CleanFrom t n ∧ (n ≤ max oldSize b.size → b'.Clean t) ∧ b'.Owns = b.Owns := by
  unfold zeroWhatIsGone at h
  split at h
  case isTrue hless =>
    obtain ⟨_, _, rfl⟩ := map_eq_some_iff.mp h
    refine ⟨fun i hi hcapacity => ?_, fun hn i hi hcapacity => ?_, rfl⟩ <;>
      dsimp only [explicitZeroMemory, write] at hi ⊢ <;> split
    · exact fun _ => rfl
    · exact hclean i hi hcapacity
    · exact fun _ => rfl
    · have hold := Nat.mul_le_mul_right t.sizeofT (show n ≤ b.size + (oldSize - b.size) by omega)
      rw [Nat.add_mul] at hold
      exact hclean i (by omega) hcapacity
  case isFalse hless =>
    have hle : ¬b.size < oldSize := fun hlt => hless ⟨hz, hlt⟩
    obtain rfl := some.inj h
    exact ⟨hclean, fun hn => hclean.mono (by omega), rfl⟩

variable (hz : t.zeroOnFree = true)
include hz

theorem setData_clean (hclean : b.Clean t)
    (h : b.setData t fresh heap data size = some (b', heap')) :
    b'.Clean t ∧ Keeps b.Owns heap b'.Owns heap' := by
  simp only [setData, bind_eq_bind, bind_eq_some_iff] at h
  obtain ⟨_, _, ⟨b₁, heap₁⟩, happend, b₂, hzero, h⟩ := h
  obtain ⟨rfl, rfl⟩ := Prod.mk.inj (some.inj h)
  have hold : BufferT.CleanFrom t b.size { b with size := 0 } := hclean
  obtain ⟨_, hclean₁, hkeeps⟩ := appendData_clean hz hold (Nat.zero_le _) happend
  obtain ⟨_, hclean₂, howns⟩ := zeroWhatIsGone_clean hz hclean₁ hzero
  exact ⟨hclean₂ (Nat.le_refl _), howns ▸ hkeeps⟩

theorem setSize_clean (hclean : b.CleanFrom t n) (hn : b.size ≤ n)
    (h : b.setSize t fresh heap size = some (b', heap')) :
    b'.CleanFrom t n ∧ (n = b.size → b'.Clean t) ∧ Keeps b.Owns heap b'.Owns heap' := by
  simp only [setSize, bind_eq_bind, bind_eq_some_iff] at h
  obtain ⟨⟨b₁, heap₁⟩, hensure, b₂, hzero, h⟩ := h
  obtain ⟨rfl, rfl⟩ := Prod.mk.inj (some.inj h)
  obtain ⟨_, hclean₁, hkeeps⟩ := ensureCapacityWithHeadroom_clean hz hclean hn hensure
  have hsized : BufferT.CleanFrom t n { b₁ with size := size } := hclean₁
  obtain ⟨hclean₂, hclean₃, howns⟩ := zeroWhatIsGone_clean hz hsized hzero
  exact ⟨hclean₂, fun heq => hclean₃ (heq ▸ Nat.le_max_left _ _), howns ▸ hkeeps⟩

theorem appendDataWith_clean {maxElements written : Nat} {setter : Setter}
    (hsetter : setter.WritesReported t) (hclean : b.CleanFrom t n) (hn : b.size ≤ n)
    (h : b.appendDataWith t fresh heap maxElements setter = some (written, b', heap')) :
    b.size ≤ b'.size ∧ b'.CleanFrom t (max n b'.size) ∧ Keeps b.Owns heap b'.Owns heap' := by
  simp only [appendDataWith, bind_eq_bind, bind_eq_some_iff] at h
  obtain ⟨_, _, ⟨b₁, heap₁⟩, hsize, _, _, _, _, _, _, _, _, h⟩ := h
  obtain ⟨_, h⟩ := Prod.mk.inj (some.inj h)
  obtain ⟨rfl, rfl⟩ := Prod.mk.inj h
  obtain ⟨hclean₁, _, hkeeps⟩ := setSize_clean hz hclean hn hsize
  refine ⟨Nat.le_add_right _ _, ?_, hkeeps⟩
  intro i hi hcapacity
  dsimp only at hi ⊢
  rw [← Nat.mul_max_mul_right, Nat.max_le, Nat.add_mul] at hi
  rw [writeAll_of_outside (hsetter _) hi.2]
  exact hclean₁ i hi.1 hcapacity

theorem setDataWith_clean {maxElements written : Nat} {setter : Setter}
    (hsetter : setter.WritesReported t) (hclean : b.Clean t)
    (h : b.setDataWith t fresh heap maxElements setter = some (written, b', heap')) :
    b'.Clean t ∧ Keeps b.Owns heap b'.Owns heap' := by
  simp only [setDataWith, bind_eq_bind, bind_eq_some_iff] at h
  obtain ⟨_, _, ⟨_, b₁, heap₁⟩, happend, b₂, hzero, h⟩ := h
  obtain ⟨_, h⟩ := Prod.mk.inj (some.inj h)
  obtain ⟨rfl, rfl⟩ := Prod.mk.inj h
  have hold : BufferT.CleanFrom t b.size { b with size := 0 } := hclean
  obtain ⟨_, hclean₁, hkeeps⟩ := appendDataWith_clean hz hsetter hold (Nat.zero_le _) happend
  obtain ⟨_, hclean₂, howns⟩ := zeroWhatIsGone_clean hz hclean₁ hzero
  exact ⟨hclean₂ (Nat.le_refl _), howns ▸ hkeeps⟩

omit hz

theorem create_clean (h : create t fresh heap size capacity = some (b, heap')) :
    b.size = size ∧ b.CleanFrom t 0 ∧ Keeps (fun _ => False) heap b.Owns heap' := by
  unfold create at h
  split at h
  case isTrue hpos =>
    obtain ⟨hsize, _, hclean, hkeeps⟩ := allocate_keeps hpos h
    exact ⟨hsize, hclean, hkeeps⟩
  case isFalse hzero =>
    obtain ⟨rfl, rfl⟩ := Prod.mk.inj (some.inj h)
    have hsize : 0 = size := by omega
    exact ⟨hsize, cleanFrom_of_capacity_eq_zero rfl 0,
      (Keeps.refl _ _).imp (fun _ => id) fun _ => False.elim⟩

theorem createFrom_clean (h : createFrom t fresh heap data size capacity = some (b, heap')) :
    b.Clean t ∧ Keeps (fun _ => False) heap b.Owns heap' := by
  simp only [createFrom, bind_eq_bind, bind_eq_some_iff] at h
  obtain ⟨⟨b₁, heap₁⟩, hcreate, b₂, hmemcpy, h⟩ := h
  obtain ⟨rfl, rfl⟩ := Prod.mk.inj (some.inj h)
  obtain ⟨hsize₁, hclean₁, hkeeps⟩ := create_clean hcreate
  obtain ⟨hsize, howns, hclean₂⟩ := memcpy_clean hclean₁ hmemcpy
  have hend : max 0 (0 + size) = b₂.size := by omega
  rw [hend] at hclean₂
  exact ⟨hclean₂, howns ▸ hkeeps⟩

theorem clear_clean (hz : t.zeroOnFree = true) (b : BufferT) (heap : Heap) :
    (b.clear t).Clean t ∧ Keeps b.Owns heap (b.clear t).Owns heap := by
  obtain ⟨cell, heq, hclean⟩ := maybeZeroCompleteBuffer_clean hz b
  rw [clear, heq]
  exact ⟨hclean, .refl _ _⟩

theorem store_clean {pos : Nat} {value : UInt8} (hclean : b.Clean t)
    (h : b.store t pos value = some b') (heap : Heap) :
    b'.Clean t ∧ Keeps b.Owns heap b'.Owns heap := by
  rw [store, map_eq_some_iff] at h
  obtain ⟨_, hpos, rfl⟩ := h
  rw [demand_eq_some_iff] at hpos
  refine ⟨?_, .refl _ _⟩
  intro i hi hcapacity
  dsimp only at hi ⊢
  rw [write_of_outside (by omega)]
  exact hclean i hi hcapacity

end BufferT

/-! ### Runs -/

namespace World

variable {t : Template} {fresh : Nat → Nat → UInt8} {w w' : World}

/-- A buffer that lives holds the block. -/
def Owns (w : World) (k : Nat) : Prop := ∃ p b, w.buffers p = some b ∧ b.Owns k

/-- A buffer other than the one at `p` holds the block. -/
def OwnsBeside (w : World) (p k : Nat) : Prop := ∃ q b, q ≠ p ∧ w.buffers q = some b ∧ b.Owns k

/-- The buffers that live are clean, and so is every block that none of them holds. -/
structure Sound (t : Template) (w : World) : Prop where
  live : ∀ p b, w.buffers p = some b → b.Clean t
  blocks : Keeps (fun _ => False) empty.heap w.Owns w.heap

theorem sound_empty : Sound t empty where
  live _ b h := absurd h (some_ne_none b).symm
  blocks := (Keeps.refl _ _).imp (fun _ => id) fun _ => False.elim

theorem Sound.step (h : w.Sound t) (hlive : ∀ p b, w'.buffers p = some b → b.Clean t)
    (hkeeps : Keeps w.Owns w.heap w'.Owns w'.heap) : w'.Sound t :=
  ⟨hlive, h.blocks.trans hkeeps⟩

variable {b : BufferT} {p q : Nat}

theorem Sound.live_put (h : w.Sound t) (hb : b.Clean t) (p : Nat) :
    ∀ q b', (w.buffers.put p b) q = some b' → b'.Clean t := by
  intro q b' hq
  cases Store.of_put hq with
  | inl hnew => exact hnew.2 ▸ hb
  | inr hold => exact h.live q b' hold.2

theorem owns_or_beside (hb : w.buffers p = some b) {k : Nat} (h : w.Owns k) :
    b.Owns k ∨ w.OwnsBeside p k := by
  obtain ⟨q, b', hq, howns⟩ := h
  by_cases heq : q = p
  · rw [heq, hb, some.injEq] at hq
    exact .inl (hq ▸ howns)
  · exact .inr ⟨q, b', heq, hq, howns⟩

theorem ownsBeside_of_isNone (hp : (w.buffers p).isNone = true) {k : Nat} (h : w.Owns k) :
    w.OwnsBeside p k := by
  obtain ⟨q, b, hq, howns⟩ := h
  refine ⟨q, b, ?_, hq, howns⟩
  intro heq
  rw [← heq, hq] at hp
  exact absurd hp Bool.false_ne_true

theorem Sound.put {b' : BufferT} {owns : Nat → Prop} {heap' : Heap} (h : w.Sound t)
    (hclean : b'.Clean t) (hkeeps : Keeps owns w.heap b'.Owns heap')
    (howns : ∀ k, w.Owns k → owns k ∨ w.OwnsBeside p k) :
    Sound t ⟨w.buffers.put p b', heap'⟩ := by
  refine h.step (h.live_put hclean p) ((hkeeps.frame (w.OwnsBeside p)).imp howns ?_)
  intro k hk
  cases hk with
  | inl hnew => exact ⟨p, b', Store.put_self _ _ _, hnew⟩
  | inr hbeside =>
    obtain ⟨q, b, hne, hq, hb⟩ := hbeside
    exact ⟨q, b, (Store.put_of_ne _ hne _).trans hq, hb⟩

theorem Sound.on {call : BufferT → Heap → Option (BufferT × Heap)} (h : w.Sound t)
    (hcall : ∀ b b' heap', b.Clean t → call b w.heap = some (b', heap') → b'.Clean t ∧ Keeps b.Owns
      w.heap b'.Owns heap') (hon : w.on p call = some w') : w'.Sound t := by
  simp only [World.on, bind_eq_bind, bind_eq_some_iff] at hon
  obtain ⟨b, hb, ⟨b', heap'⟩, hmade, hw⟩ := hon
  obtain rfl := some.inj hw
  obtain ⟨hclean, hkeeps⟩ := hcall b b' heap' (h.live p b hb) hmade
  exact h.put hclean hkeeps fun k => owns_or_beside hb

theorem Sound.construct {made : Option (BufferT × Heap)} (h : w.Sound t)
    (hmade : ∀ b' heap', made = some (b', heap') → b'.Clean t ∧ Keeps (fun _ => False) w.heap
      b'.Owns heap') (hw : w.construct p made = some w') : w'.Sound t := by
  simp only [World.construct, bind_eq_bind, bind_eq_some_iff, demand_eq_some_iff] at hw
  obtain ⟨_, hnone, ⟨b', heap'⟩, hb', hw⟩ := hw
  obtain rfl := some.inj hw
  obtain ⟨hclean, hkeeps⟩ := hmade b' heap' hb'
  exact h.put hclean hkeeps fun k hk => .inr (ownsBeside_of_isNone hnone hk)

theorem Sound.move {buf : BufferT} {heap' : Heap} (h : w.Sound t) (hbuf : w.buffers q = some buf)
    (hkeeps : Keeps w.Owns w.heap (w.OwnsBeside p) heap') :
    Sound t ⟨(w.buffers.put p buf).put q (.movedFrom t), heap'⟩ := by
  refine h.step ?_ (hkeeps.imp (fun _ => id) ?_)
  · intro r b hr
    cases Store.of_put hr with
    | inl hnew =>
      rw [hnew.2]
      exact BufferT.cleanFrom_of_capacity_eq_zero rfl _
    | inr hold => exact h.live_put (h.live q buf hbuf) p r b hold.2
  · intro k hk
    obtain ⟨r, b, hne, hr, howns⟩ := hk
    by_cases heq : r = q
    · rw [heq, hbuf, some.injEq] at hr
      rw [heq] at hne
      exact ⟨p, buf, (Store.put_of_ne _ (Ne.symm hne) _).trans (Store.put_self _ _ _), hr ▸ howns⟩
    · exact ⟨r, b, ((Store.put_of_ne _ heq _).trans (Store.put_of_ne _ hne _)).trans hr, howns⟩

theorem Sound.moveConstruct (h : w.Sound t) (hw : w.moveConstruct t p q = some w') :
    w'.Sound t := by
  simp only [World.moveConstruct, bind_eq_bind, bind_eq_some_iff, demand_eq_some_iff] at hw
  obtain ⟨_, hnone, buf, hbuf, _, _, hw⟩ := hw
  obtain rfl := some.inj hw
  exact h.move hbuf ((Keeps.refl _ _).imp (fun _ => id) fun k => ownsBeside_of_isNone hnone)

theorem keeps_release (hz : t.zeroOnFree = true) (hb : w.buffers p = some b) :
    Keeps w.Owns w.heap (w.OwnsBeside p) ((b.maybeZeroCompleteBuffer t).release t w.heap) :=
  ((BufferT.release_keeps hz b w.heap).frame (w.OwnsBeside p)).imp
    (fun _ => owns_or_beside hb) fun _ hk => hk.resolve_left id

theorem Sound.moveAssign (hz : t.zeroOnFree = true) (h : w.Sound t)
    (hw : w.moveAssign t p q = some w') : w'.Sound t := by
  simp only [World.moveAssign, bind_eq_bind, bind_eq_some_iff] at hw
  obtain ⟨this, hthis, buf, hbuf, _, _, hw⟩ := hw
  obtain rfl := some.inj hw
  exact h.move hbuf (keeps_release hz hthis)

theorem Sound.swap (h : w.Sound t) (hw : w.swap p q = some w') : w'.Sound t := by
  simp only [World.swap, bind_eq_bind, bind_eq_some_iff] at hw
  obtain ⟨a, ha, b, hb, hw⟩ := hw
  obtain rfl := some.inj hw
  refine h.step ?_ ((Keeps.refl _ _).imp (fun _ => id) ?_)
  · intro r c hr
    cases Store.of_put hr with
    | inl hnew => exact hnew.2 ▸ h.live p a ha
    | inr hold => exact h.live_put (h.live q b hb) p r c hold.2
  · intro k hk
    obtain ⟨r, c, hr, howns⟩ := hk
    by_cases hrp : r = p
    · rw [hrp, ha, some.injEq] at hr
      exact ⟨q, a, Store.put_self _ _ _, hr ▸ howns⟩
    · by_cases hrq : r = q
      · rw [hrq, hb, some.injEq] at hr
        have hpq : p ≠ q := fun heq => hrp (hrq.trans heq.symm)
        exact ⟨p, b, (Store.put_of_ne _ hpq _).trans (Store.put_self _ _ _), hr ▸ howns⟩
      · exact ⟨r, c, ((Store.put_of_ne _ hrq _).trans (Store.put_of_ne _ hrp _)).trans hr, howns⟩

theorem Sound.destroy (hz : t.zeroOnFree = true) (h : w.Sound t) (hw : w.destroy t p = some w') :
    w'.Sound t := by
  simp only [World.destroy, bind_eq_bind, bind_eq_some_iff] at hw
  obtain ⟨b, hb, hw⟩ := hw
  obtain rfl := some.inj hw
  refine h.step (fun q b' hq => h.live q b' (Store.of_erase hq)) ?_
  refine (keeps_release hz hb).imp (fun _ => id) ?_
  intro k hk
  obtain ⟨q, c, hne, hq, howns⟩ := hk
  exact ⟨q, c, (Store.erase_of_ne _ hne).trans hq, howns⟩

end World

/-! ### No secrets are left behind -/

section Secrets

variable {t : Template} {fresh : Nat → Nat → UInt8} {w w' : World}

theorem step_sound (hz : t.zeroOnFree = true) {call : Call} (hcall : call.WritesReported t)
    (hw : w.Sound t) (h : step t fresh w call = some w') : w'.Sound t := by
  unfold step at h
  cases call with
  | create p size capacity =>
    refine hw.construct (fun b' heap' hmade => ?_) h
    obtain ⟨_, hclean, hkeeps⟩ := BufferT.create_clean hmade
    exact ⟨hclean.mono (Nat.zero_le _), hkeeps⟩
  | createFrom p data size capacity =>
    exact hw.construct (fun b' heap' hmade => BufferT.createFrom_clean hmade) h
  | moveConstruct p q => exact hw.moveConstruct h
  | moveAssign p q => exact hw.moveAssign hz h
  | swap p q => exact hw.swap h
  | destroy p => exact hw.destroy hz h
  | setData p data size =>
    refine hw.on (fun b b' heap' hclean hb => ?_) h
    exact BufferT.setData_clean hz hclean hb
  | setDataWith p maxElements setter =>
    refine hw.on (fun b b' heap' hclean hb => ?_) h
    obtain ⟨⟨written, _⟩, hb, rfl⟩ := map_eq_some_iff.mp hb
    exact BufferT.setDataWith_clean hz hcall hclean hb
  | appendData p data size =>
    refine hw.on (fun b b' heap' hclean hb => ?_) h
    obtain ⟨hsize, hclean', hkeeps⟩ := BufferT.appendData_clean hz hclean (Nat.le_refl _) hb
    rw [Nat.max_eq_right hsize] at hclean'
    exact ⟨hclean', hkeeps⟩
  | appendDataWith p maxElements setter =>
    refine hw.on (fun b b' heap' hclean hb => ?_) h
    obtain ⟨⟨written, _⟩, hb, rfl⟩ := map_eq_some_iff.mp hb
    obtain ⟨hsize, hclean', hkeeps⟩ :=
      BufferT.appendDataWith_clean hz hcall hclean (Nat.le_refl _) hb
    rw [Nat.max_eq_right hsize] at hclean'
    exact ⟨hclean', hkeeps⟩
  | setSize p size =>
    refine hw.on (fun b b' heap' hclean hb => ?_) h
    exact (BufferT.setSize_clean hz hclean (Nat.le_refl _) hb).2.imp_left fun hclean' => hclean' rfl
  | ensureCapacity p capacity =>
    refine hw.on (fun b b' heap' hclean hb => ?_) h
    obtain ⟨hsize, hclean', hkeeps⟩ :=
      BufferT.ensureCapacityWithHeadroom_clean hz hclean (Nat.le_refl _) hb
    rw [← hsize] at hclean'
    exact ⟨hclean', hkeeps⟩
  | clear p =>
    refine hw.on (fun b b' heap' hclean hb => ?_) h
    obtain ⟨rfl, rfl⟩ := Prod.mk.inj (some.inj hb)
    exact BufferT.clear_clean hz b _
  | store p pos value =>
    refine hw.on (fun b b' heap' hclean hb => ?_) h
    obtain ⟨_, hstore, heq⟩ := map_eq_some_iff.mp hb
    obtain ⟨rfl, rfl⟩ := Prod.mk.inj heq
    exact BufferT.store_clean hclean hstore _

/-- After every run: a byte that has been written is zero unless it is in use, in the spare
capacity of the buffers and in the blocks that were released; and these are all blocks. -/
theorem written_is_zero_or_in_use (t : Template) (hz : t.zeroOnFree = true)
    (fresh : Nat → Nat → UInt8) (calls : List Call) (hcalls : ∀ call ∈ calls, call.WritesReported t)
    (w : World) (h : exec (step t fresh) World.empty calls = some w) :
    (∀ p b, w.buffers p = some b → ∀ i, b.size * t.sizeofT ≤ i → i < b.capacity * t.sizeofT →
        (b.cell i).written = true → (b.cell i).value = 0) ∧
      (∀ r ∈ w.heap.released, ∀ i < r.length, (r.cell i).written = true → (r.cell i).value = 0) ∧
      ∀ k < w.heap.allocated,
        (∃ p b, w.buffers p = some b ∧ 0 < b.capacity ∧ b.blockId = k) ∨
          ∃ r ∈ w.heap.released, r.id = k := by
  have hsound : w.Sound t :=
    exec_invariant_of_mem (fun s call s' hcall hs => step_sound hz (hcalls call hcall) hs)
      World.sound_empty h
  refine ⟨hsound.live, ?_, ?_⟩
  · intro r hr
    cases hsound.blocks.clean r hr with
    | inl hempty => exact absurd hempty List.not_mem_nil
    | inr hclean => exact hclean
  · intro k hk
    exact hsound.blocks.owner k (.inr ⟨Nat.zero_le k, hk⟩)

/-- A setter that is offered four bytes and writes one. -/
def writeOne : Setter := fun _ => ([(0, 7)], 1)

/-- A secret is set, shortened, extended by a setter, moved and given up. -/
def lifeOfSecret : List Call :=
  [.create 0 0 0, .setData 0 [1, 2, 3, 4] 4, .setDataWith 0 4 writeOne, .setSize 0 9,
    .ensureCapacity 0 20, .create 1 2 2, .moveAssign 1 0, .appendDataWith 1 4 writeOne,
    .clear 1, .destroy 1, .destroy 0]

theorem writeOne_writesReported (t : Template) (h : 0 < t.sizeofT) : writeOne.WritesReported t := by
  intro view it hit
  rw [List.mem_singleton.mp hit]
  show 0 < 1 * t.sizeofT
  omega

theorem lifeOfSecret_leaves_nothing :
    ∃ w, exec (step ⟨1, true, false⟩ fun _ _ => 9) World.empty lifeOfSecret = some w ∧
      w.heap.released.length = 4 ∧
      (∀ r ∈ w.heap.released, ∀ i < r.length,
        (r.cell i).written = true → (r.cell i).value = 0) := by
  let w := (exec (step ⟨1, true, false⟩ fun _ _ => 9) World.empty lifeOfSecret).get (by decide)
  have hw : exec (step ⟨1, true, false⟩ fun _ _ => 9) World.empty lifeOfSecret = some w :=
    (some_get _).symm
  have hcalls : ∀ call ∈ lifeOfSecret, call.WritesReported ⟨1, true, false⟩ := by
    have hsetter := writeOne_writesReported ⟨1, true, false⟩ (by decide)
    simp [lifeOfSecret, Call.WritesReported, hsetter]
  refine ⟨w, hw, by decide, ?_⟩
  exact (written_is_zero_or_in_use _ rfl _ _ hcalls w hw).2.1

end Secrets

end WebrtcCore.Ports.ZeroOnFreeBuffer
