import WebrtcCore.Verified.CMemory

/-!
# `rtc::Buffer`

Port of `BufferT<uint8_t>` (`rtc_base/buffer.h`): an allocation and the number
of its elements that are in use.  `IsConsistent` is a field, so every function
here keeps it.  New memory holds whatever `fresh` says, a parameter of all
functions that allocate.
-/

namespace WebrtcCore.Ports

open Verified.CMemory

/-- `BufferT<uint8_t>`; an allocation of size zero is the null pointer. -/
structure Buffer where
  cells : List UInt8
  size : Nat
  size_le : size ≤ cells.length

namespace Buffer

/-- `new T[n]`. -/
def allocate (fresh : Nat → UInt8) (n : Nat) : List UInt8 := (List.range n).map fresh

@[simp] theorem allocate_length (fresh : Nat → UInt8) (n : Nat) :
    (allocate fresh n).length = n := by
  simp [allocate]

def capacity (b : Buffer) : Nat := b.cells.length

/-- The elements in use. -/
def contents (b : Buffer) : List UInt8 := b.cells.take b.size

theorem contents_length (b : Buffer) : b.contents.length = b.size :=
  List.length_take_of_le b.size_le

/-- `BufferT()`. -/
def empty : Buffer := ⟨[], 0, Nat.le_refl 0⟩

/-- `BufferT(size, capacity)`. -/
def create (fresh : Nat → UInt8) (size capacity : Nat) : Buffer where
  cells := allocate fresh (max size capacity)
  size := size
  size_le := by rw [allocate_length]; exact Nat.le_max_left _ _

/-- `BufferT(data, size, capacity)`. -/
def createFrom (fresh : Nat → UInt8) (data : List UInt8) (capacity : Nat) : Buffer where
  cells := overwrite (allocate fresh (max data.length capacity)) 0 data
  size := data.length
  size_le := by
    rw [overwrite_length (by rw [allocate_length]; omega), allocate_length]
    exact Nat.le_max_left _ _

/-- The capacity that `EnsureCapacityWithHeadroom` allocates. -/
def newCapacity (b : Buffer) (capacity : Nat) (extraHeadroom : Bool) : Nat :=
  if extraHeadroom then max capacity (b.capacity + b.capacity / 2) else capacity

theorem le_newCapacity (b : Buffer) (capacity : Nat) (extraHeadroom : Bool) :
    capacity ≤ b.newCapacity capacity extraHeadroom := by
  unfold newCapacity
  split <;> omega

def ensureCapacityWithHeadroom (fresh : Nat → UInt8) (b : Buffer) (capacity : Nat)
    (extraHeadroom : Bool) : Buffer :=
  if h : capacity ≤ b.capacity then b
  else
    { cells := overwrite (allocate fresh (b.newCapacity capacity extraHeadroom)) 0 b.contents
      size := b.size
      size_le := by
        have hsize := b.size_le
        have hnew := b.le_newCapacity capacity extraHeadroom
        unfold Buffer.capacity at h
        rw [overwrite_length (by rw [allocate_length, contents_length]; omega),
          allocate_length]
        omega }

def ensureCapacity (fresh : Nat → UInt8) (b : Buffer) (capacity : Nat) : Buffer :=
  b.ensureCapacityWithHeadroom fresh capacity false

section EnsureCapacity

variable (fresh : Nat → UInt8) (b : Buffer) (capacity : Nat) (extraHeadroom : Bool)

theorem ensureCapacityWithHeadroom_size :
    (b.ensureCapacityWithHeadroom fresh capacity extraHeadroom).size = b.size := by
  unfold ensureCapacityWithHeadroom
  split <;> rfl

theorem contents_ensureCapacityWithHeadroom :
    (b.ensureCapacityWithHeadroom fresh capacity extraHeadroom).contents = b.contents := by
  unfold ensureCapacityWithHeadroom
  split
  case isTrue => rfl
  case isFalse =>
    have htake := overwrite_take_add b.contents
      (Nat.zero_le (allocate fresh (b.newCapacity capacity extraHeadroom)).length)
    rw [Nat.zero_add, contents_length] at htake
    exact htake

theorem capacity_ensureCapacityWithHeadroom :
    (b.ensureCapacityWithHeadroom fresh capacity extraHeadroom).capacity =
      if capacity ≤ b.capacity then b.capacity
      else b.newCapacity capacity extraHeadroom := by
  have hsize := b.size_le
  have hnew := b.le_newCapacity capacity extraHeadroom
  unfold ensureCapacityWithHeadroom
  split
  case isTrue h => rfl
  case isFalse h =>
    unfold Buffer.capacity at h ⊢
    rw [overwrite_length (by rw [allocate_length, contents_length]; omega), allocate_length]

theorem le_capacity_ensureCapacityWithHeadroom :
    capacity ≤ (b.ensureCapacityWithHeadroom fresh capacity extraHeadroom).capacity := by
  rw [capacity_ensureCapacityWithHeadroom]
  split
  case isTrue h => exact h
  case isFalse => exact b.le_newCapacity capacity extraHeadroom

theorem capacity_ensureCapacity :
    (b.ensureCapacity fresh capacity).capacity = max b.capacity capacity := by
  rw [ensureCapacity, capacity_ensureCapacityWithHeadroom, newCapacity, if_neg Bool.false_ne_true]
  split <;> omega

end EnsureCapacity

def setSize (fresh : Nat → UInt8) (b : Buffer) (size : Nat) : Buffer where
  cells := (b.ensureCapacityWithHeadroom fresh size true).cells
  size := size
  size_le := b.le_capacity_ensureCapacityWithHeadroom fresh size true

def appendData (fresh : Nat → UInt8) (b : Buffer) (data : List UInt8) : Buffer where
  cells := overwrite
    (b.ensureCapacityWithHeadroom fresh (b.size + data.length) true).cells b.size data
  size := b.size + data.length
  size_le := by
    have hle := b.le_capacity_ensureCapacityWithHeadroom fresh (b.size + data.length) true
    rw [overwrite_length hle]
    exact hle

def clear (b : Buffer) : Buffer where
  cells := b.cells
  size := 0
  size_le := Nat.zero_le _

def setData (fresh : Nat → UInt8) (b : Buffer) (data : List UInt8) : Buffer :=
  b.clear.appendData fresh data

/-- A `memmove` or `recv` into the allocation, at element `pos`. -/
def store (b : Buffer) (pos : Nat) (data : List UInt8)
    (h : pos + data.length ≤ b.capacity) : Buffer where
  cells := overwrite b.cells pos data
  size := b.size
  size_le := by
    rw [overwrite_length h]
    exact b.size_le

section Contents

variable (fresh : Nat → UInt8) (b : Buffer)

variable (data : List UInt8)

theorem contents_createFrom (capacity : Nat) :
    (createFrom fresh data capacity).contents = data := by
  have htake := overwrite_take_add data
    (Nat.zero_le (allocate fresh (max data.length capacity)).length)
  rw [Nat.zero_add] at htake
  exact htake

theorem capacity_create (size capacity : Nat) :
    (create fresh size capacity).capacity = max size capacity := allocate_length fresh _

theorem capacity_createFrom (capacity : Nat) :
    (createFrom fresh data capacity).capacity = max data.length capacity := by
  show (overwrite _ _ _).length = _
  rw [overwrite_length (by rw [allocate_length]; omega), allocate_length]

theorem take_contents_setSize (size : Nat) {k : Nat} (hk : k ≤ b.size) (hsize : k ≤ size) :
    (b.setSize fresh size).contents.take k = b.contents.take k := by
  have hcontents := b.contents_ensureCapacityWithHeadroom fresh size true
  unfold contents at hcontents
  rw [ensureCapacityWithHeadroom_size] at hcontents
  calc (b.setSize fresh size).contents.take k
      = (b.ensureCapacityWithHeadroom fresh size true).cells.take k := by
        rw [contents, List.take_take]
        exact congrArg (List.take · _) (Nat.min_eq_left hsize)
    _ = ((b.ensureCapacityWithHeadroom fresh size true).cells.take b.size).take k := by
        rw [List.take_take, Nat.min_eq_left hk]
    _ = b.contents.take k := by rw [hcontents, contents]

theorem contents_setSize_of_le {size : Nat} (h : size ≤ b.size) :
    (b.setSize fresh size).contents = b.contents.take size := by
  rw [← b.take_contents_setSize fresh size h (Nat.le_refl size)]
  exact (List.take_of_length_le (Nat.le_of_eq (contents_length _))).symm

theorem contents_appendData : (b.appendData fresh data).contents = b.contents ++ data := by
  have hcontents := b.contents_ensureCapacityWithHeadroom fresh (b.size + data.length) true
  have hle := b.le_capacity_ensureCapacityWithHeadroom fresh (b.size + data.length) true
  unfold contents at hcontents
  rw [ensureCapacityWithHeadroom_size] at hcontents
  unfold Buffer.capacity at hle
  show (overwrite _ _ _).take (b.size + data.length) = _
  rw [overwrite_take_add data (by omega), hcontents, contents]

theorem contents_setData : (b.setData fresh data).contents = data := by
  rw [setData, contents_appendData]
  rfl

theorem contents_setSize_store (pos : Nat) (data : List UInt8)
    (h : pos + data.length ≤ b.capacity) :
    ((b.store pos data h).setSize fresh (pos + data.length)).contents =
      b.cells.take pos ++ data := by
  have hcap : pos + data.length ≤ (b.store pos data h).capacity := by
    show _ ≤ (overwrite _ _ _).length
    rw [overwrite_length h]
    exact h
  show List.take _ (ensureCapacityWithHeadroom fresh _ _ _).cells = _
  rw [ensureCapacityWithHeadroom, dif_pos hcap]
  exact overwrite_take_add data (Nat.le_trans (Nat.le_add_right _ _) h)

theorem capacity_setSize_of_le {size : Nat} (h : size ≤ b.capacity) :
    (b.setSize fresh size).capacity = b.capacity := by
  show (b.ensureCapacityWithHeadroom fresh size true).capacity = _
  rw [capacity_ensureCapacityWithHeadroom, if_pos h]

theorem capacity_appendData_of_le {data : List UInt8} (h : b.size + data.length ≤ b.capacity) :
    (b.appendData fresh data).capacity = b.capacity := by
  have hle := b.le_capacity_ensureCapacityWithHeadroom fresh (b.size + data.length) true
  show (overwrite _ _ _).length = _
  rw [overwrite_length hle]
  exact capacity_setSize_of_le fresh b h

theorem capacity_le_setData : b.capacity ≤ (b.setData fresh data).capacity := by
  have hle := b.clear.le_capacity_ensureCapacityWithHeadroom fresh (0 + data.length) true
  have hnew := b.clear.le_newCapacity (0 + data.length) true
  have hclear : b.clear.capacity = b.capacity := rfl
  show _ ≤ (overwrite (b.clear.ensureCapacityWithHeadroom fresh (0 + data.length) true).cells
    0 data).length
  rw [overwrite_length hle]
  show _ ≤ (b.clear.ensureCapacityWithHeadroom fresh (0 + data.length) true).capacity
  rw [capacity_ensureCapacityWithHeadroom]
  split <;> omega

end Contents

end Buffer

end WebrtcCore.Ports
