import WebrtcCore.Ports.Buffer
import WebrtcCore.Verified.Sharing
import WebrtcCore.Verified.Simulation

/-!
# `CopyOnWriteBuffer` (`rtc_base/copy_on_write_buffer.{h,cc}`)

A `CopyOnWriteBuffer` is a slice of a reference-counted `rtc::Buffer`.  Copies and slices share
the store, and a function that writes makes a store of its own first unless it has the only
reference and enough capacity.

The port is a family of buffers over a list of stores.  A store is freed when the last buffer of
the family leaves it, and an access to it is then undefined.  The bytes that a caller passes lie
outside of all stores, except where it passes a buffer of the family.
-/

namespace WebrtcCore.Ports.CopyOnWriteBuffer

open Verified Ports.Buffer CMemory Sharing Simulation List Option

/-- The members of `CopyOnWriteBuffer`; `buffer` is the number of the store. -/
structure Handle where
  buffer : Option Nat
  offset : Nat
  size : Nat
  deriving DecidableEq, Repr

/-- A family of buffers over their stores. -/
abbrev Buffers := Family Buffer Handle

/-- A buffer with its store. -/
abbrev View := Option Buffer × Handle

/-- The bytes at `cdata()`. -/
def View.bytes : View → List UInt8
  | (some b, h) => (b.cells.drop h.offset).take h.size
  | (none, _) => []

def View.capacity : View → Nat
  | (some b, h) => b.capacity - h.offset
  | (none, _) => 0

def View.IsConsistent (v : View) : Prop :=
  match v.2.buffer, v.1 with
  | some _, some b => 0 < b.capacity ∧ v.2.offset ≤ b.size ∧ v.2.offset + v.2.size ≤ b.size
  | some _, none => False
  | none, _ => v.2.size = 0 ∧ v.2.offset = 0

instance (v : View) : Decidable v.IsConsistent := by
  unfold View.IsConsistent
  split <;> infer_instance

namespace Buffers

variable (f : Buffers)

/-- All buffers with their stores. -/
def views : List View := Sharing.views Handle.buffer f

/-- The visible bytes of all buffers. -/
def values : List (List UInt8) := f.views.map View.bytes

def HasOneRef (a : Nat) : Prop := refs Handle.buffer f a = 1
  deriving Decidable

/-- A buffer, and its store with its number. -/
def find (i : Nat) : Option (Handle × Option (Nat × Buffer)) :=
  f.handles[i]?.bind fun h =>
    match h.buffer with
    | none => some (h, none)
    | some a => f.stores[a]?.map fun b => (h, some (a, b))

/-- `buffer_ = new RefCountedBuffer(…)`, with `offset_` zero. -/
def replaceStore (i : Nat) (b : Buffer) (size : Nat) : Buffers :=
  ⟨f.stores ++ [b], f.handles.set i ⟨some f.stores.length, 0, size⟩⟩

/-- A change of the members alone. -/
def setHandle (i : Nat) (h : Handle) : Buffers := { f with handles := f.handles.set i h }

/-- A change of the store in place. -/
def mutate (i : Nat) (change : Handle → Buffer → Option (Buffer × Handle)) : Option Buffers :=
  match f.find i with
  | some (h, some (a, b)) =>
    (change h b).map fun r => ⟨f.stores.set a r.1, f.handles.set i r.2⟩
  | _ => none

/-- `UnshareAndEnsureCapacity` of a buffer that has a store. -/
def unshareAndEnsureCapacity (fresh : Nat → UInt8) (i : Nat) (h : Handle) (a : Nat) (b : Buffer)
    (newCapacity : Nat) : Buffers :=
  if f.HasOneRef a ∧ newCapacity ≤ View.capacity (some b, h) then f
  else
    f.replaceStore i (Buffer.createFrom fresh (View.bytes (some b, h)) newCapacity) h.size

def setData (fresh : Nat → UInt8) (i : Nat) (data : List UInt8) : Option Buffers :=
  match f.find i with
  | none => none
  | some (_, none) =>
    if 0 < data.length then
      some (f.replaceStore i (Buffer.createFrom fresh data data.length) data.length)
    else some (f.setHandle i ⟨none, 0, 0⟩)
  | some (h, some (a, b)) =>
    if ¬f.HasOneRef a then
      some (f.replaceStore i (Buffer.createFrom fresh data (View.capacity (some b, h)))
        data.length)
    else f.mutate i fun h b => some (b.setData fresh data, ⟨h.buffer, 0, data.length⟩)

/-- The end of `AppendData`, on a store that the buffer may write to. -/
def appendInPlace (fresh : Nat → UInt8) (i : Nat) (data : List UInt8) : Option Buffers :=
  f.mutate i fun h b =>
    -- Remove data to the right of the slice.
    some ((b.setSize fresh (h.offset + h.size)).appendData fresh data,
      { h with size := h.size + data.length })

def appendData (fresh : Nat → UInt8) (i : Nat) (data : List UInt8) : Option Buffers :=
  match f.find i with
  | none => none
  | some (_, none) =>
    some (f.replaceStore i (Buffer.createFrom fresh data data.length) data.length)
  | some (h, some (a, b)) =>
    (f.unshareAndEnsureCapacity fresh i h a b
      (max (View.capacity (some b, h)) (h.size + data.length))).appendInPlace fresh i data

def appendBuffer (fresh : Nat → UInt8) (i j : Nat) : Option Buffers :=
  match f.find j with
  | none => none
  | some (_, none) => f.appendData fresh i []
  | some (h', some (a', b')) =>
    match f.find i with
    | some (h, some (a, b)) =>
      let f₁ := f.unshareAndEnsureCapacity fresh i h a b
        (max (View.capacity (some b, h)) (h.size + h'.size))
      if refs Handle.buffer f₁ a' = 0 then none
      else f₁.stores[a']?.bind fun b' =>
        f₁.appendInPlace fresh i (View.bytes (some b', h'))
    | _ => f.appendData fresh i (View.bytes (some b', h'))

def setSize (fresh : Nat → UInt8) (i size : Nat) : Option Buffers :=
  match f.find i with
  | none => none
  | some (_, none) =>
    if 0 < size then some (f.replaceStore i (Buffer.create fresh size size) size) else some f
  | some (h, some (a, b)) =>
    if size ≤ h.size then some (f.setHandle i { h with size := size })
    else
      (f.unshareAndEnsureCapacity fresh i h a b
        (max (View.capacity (some b, h)) size)).mutate i fun h b =>
          some (b.setSize fresh (size + h.offset), { h with size := size })

def ensureCapacity (fresh : Nat → UInt8) (i newCapacity : Nat) : Option Buffers :=
  match f.find i with
  | none => none
  | some (_, none) =>
    if 0 < newCapacity then some (f.replaceStore i (Buffer.create fresh 0 newCapacity) 0)
    else some f
  | some (h, some (a, b)) =>
    if newCapacity ≤ View.capacity (some b, h) then some f
    else some (f.unshareAndEnsureCapacity fresh i h a b newCapacity)

def clear (fresh : Nat → UInt8) (i : Nat) : Option Buffers :=
  match f.find i with
  | none => none
  | some (_, none) => some f
  | some (h, some (a, b)) =>
    if f.HasOneRef a then f.mutate i fun h b => some (b.clear, ⟨h.buffer, 0, 0⟩)
    else some (f.replaceStore i (Buffer.create fresh 0 (View.capacity (some b, h))) 0)

/-- `MutableData`, and a write of `data` at `pos` behind the pointer returned.  A
null pointer can only be used to write nothing. -/
def mutableData (fresh : Nat → UInt8) (i pos : Nat) (data : List UInt8) : Option Buffers :=
  match f.find i with
  | none => none
  | some (_, none) => if data = [] then some f else none
  | some (h, some (a, b)) =>
    (f.unshareAndEnsureCapacity fresh i h a b (View.capacity (some b, h))).mutate i
      fun h b =>
        if hfits : h.offset + pos + data.length ≤ b.capacity then
          some (b.store (h.offset + pos) data hfits, h)
        else none

/-- A new buffer without a store. -/
def push (h : Handle) : Buffers := { f with handles := f.handles ++ [h] }

/-- A new buffer with a new store. -/
def pushStore (b : Buffer) (size : Nat) : Buffers :=
  ⟨f.stores ++ [b], f.handles ++ [⟨some f.stores.length, 0, size⟩]⟩

/-- `CopyOnWriteBuffer(size, capacity)`. -/
def createSized (fresh : Nat → UInt8) (size capacity : Nat) : Buffers :=
  if 0 < size ∨ 0 < capacity then f.pushStore (Buffer.create fresh size capacity) size
  else f.push ⟨none, 0, size⟩

/-- `CopyOnWriteBuffer(data, size, capacity)`. -/
def createData (fresh : Nat → UInt8) (data : List UInt8) (capacity : Nat) : Buffers :=
  if 0 < data.length ∨ 0 < capacity then
    f.pushStore (Buffer.createFrom fresh data capacity) data.length
  else f.push ⟨none, 0, data.length⟩

/-- `Slice`; `none` if its checks fail. -/
def slice (i offset length : Nat) : Option Buffers :=
  f.handles[i]?.bind fun h =>
    if offset ≤ h.size ∧ length + offset ≤ h.size then
      some (f.push { h with offset := h.offset + offset, size := length })
    else none

/-- Move construction. -/
def move (i : Nat) : Option Buffers :=
  f.handles[i]?.map fun h => (f.setHandle i ⟨none, 0, 0⟩).push h

/-- Copy assignment, and `SetData(buf)`. -/
def assign (i j : Nat) : Option Buffers :=
  f.handles[j]?.map fun h => if i = j then f else f.setHandle i h

/-- Move assignment.  A `scoped_refptr` that is moved to itself keeps its
pointer. -/
def moveAssign (i j : Nat) : Option Buffers :=
  f.handles[j]?.map fun h =>
    if i = j then f.setHandle i ⟨h.buffer, 0, 0⟩
    else (f.setHandle i h).setHandle j ⟨none, 0, 0⟩

end Buffers

/-- What a program does with buffers.  A buffer that is destroyed stays in the
list, without a store. -/
inductive Op
  | create
  | createSized (size capacity : Nat)
  | createData (data : List UInt8) (capacity : Nat)
  | copy (i : Nat)
  | move (i : Nat)
  | slice (i offset length : Nat)
  | assign (i j : Nat)
  | moveAssign (i j : Nat)
  | setData (i : Nat) (data : List UInt8)
  | appendData (i : Nat) (data : List UInt8)
  | appendBuffer (i j : Nat)
  | setSize (i size : Nat)
  | ensureCapacity (i newCapacity : Nat)
  | clear (i : Nat)
  | mutableData (i pos : Nat) (data : List UInt8)
  | destroy (i : Nat)

/-- An operation, and what the memory holds that it allocates. -/
structure Call where
  fresh : Nat → UInt8
  op : Op

def Buffers.apply (f : Buffers) (call : Call) : Option Buffers :=
  match call.op with
  | .create => some (f.push ⟨none, 0, 0⟩)
  | .createSized size capacity => some (f.createSized call.fresh size capacity)
  | .createData data capacity => some (f.createData call.fresh data capacity)
  | .copy i => f.handles[i]?.map f.push
  | .move i => f.move i
  | .slice i offset length => f.slice i offset length
  | .assign i j => f.assign i j
  | .moveAssign i j => f.moveAssign i j
  | .setData i data => f.setData call.fresh i data
  | .appendData i data => f.appendData call.fresh i data
  | .appendBuffer i j => f.appendBuffer call.fresh i j
  | .setSize i size => f.setSize call.fresh i size
  | .ensureCapacity i newCapacity => f.ensureCapacity call.fresh i newCapacity
  | .clear i => f.clear call.fresh i
  | .mutableData i pos data => f.mutableData call.fresh i pos data
  | .destroy i => some (f.setHandle i ⟨none, 0, 0⟩)

/-- One call, with the bytes that are visible afterwards. -/
def step (f : Buffers) (call : Call) : Option (List (List UInt8) × Buffers) :=
  (f.apply call).map fun f' => (f'.values, f')

/-- The start of a program: no buffers. -/
def start : Buffers := ⟨[], []⟩

/-! ## Buffers and their stores -/

/-- A buffer is null, or a slice of the elements of its store that are in use. -/
inductive View.Sound : View → Prop
  | null : View.Sound (none, ⟨none, 0, 0⟩)
  | slice {a offset size : Nat} {b : Buffer} (h : offset + size ≤ b.size) :
      View.Sound (some b, ⟨some a, offset, size⟩)

/-- Every buffer of the family is sound. -/
def Buffers.Sound (f : Buffers) : Prop := ∀ v ∈ f.views, v.Sound

/-- Buffer `i` is null. -/
def OnNull (f : Buffers) (i : Nat) : Prop := f.handles[i]? = some ⟨none, 0, 0⟩

/-- Buffer `i` is a slice of store `a`. -/
structure OnStore (f : Buffers) (i a : Nat) (b : Buffer) (offset size : Nat) : Prop where
  handle : f.handles[i]? = some ⟨some a, offset, size⟩
  store : f.stores[a]? = some b
  fits : offset + size ≤ b.size

section Family

variable {f f' : Buffers} {i a offset size : Nat} {b : Buffer}

theorem Buffers.Sound.closed (h : f.Sound) : Closed Handle.buffer f := by
  intro handle hmem a haddr
  have hview : view Handle.buffer f.stores handle ∈ f.views := mem_map_of_mem hmem
  have hsound := h _ hview
  rw [view, haddr, bind_some] at hsound
  cases hstore : f.stores[a]? with
  | some b => exact (List.getElem?_eq_some_iff.1 hstore).1
  | none =>
    rw [hstore] at hsound
    cases hsound
    cases haddr

theorem Buffers.Sound.cases (h : f.Sound) (hi : i < f.handles.length) :
    OnNull f i ∨ ∃ a b offset size, OnStore f i a b offset size := by
  have hhandle := getElem?_eq_getElem hi
  have hview : view Handle.buffer f.stores f.handles[i] ∈ f.views := mem_map_of_mem (getElem_mem hi)
  have hsound := h _ hview
  generalize f.handles[i] = handle at hhandle hsound
  obtain ⟨buffer, offset, size⟩ := handle
  cases buffer with
  | none =>
    left
    cases hsound
    exact hhandle
  | some a =>
    right
    rw [view, bind_some] at hsound
    cases hstore : f.stores[a]? with
    | none =>
      rw [hstore] at hsound
      cases hsound
    | some b =>
      rw [hstore] at hsound
      cases hsound with
      | slice hfits => exact ⟨a, b, offset, size, hhandle, hstore, hfits⟩

theorem View.capacity_slice {buffer : Option Nat} :
    View.capacity (some b, ⟨buffer, offset, size⟩) = b.capacity - offset := rfl

theorem OnNull.find (h : OnNull f i) : f.find i = some (⟨none, 0, 0⟩, none) := by
  rw [Buffers.find, h]
  rfl

theorem OnNull.view (h : OnNull f i) : f.views[i]? = some (none, ⟨none, 0, 0⟩) := by
  rw [Buffers.views, views_getElem?, h]
  rfl

theorem OnStore.find (h : OnStore f i a b offset size) :
    f.find i = some (⟨some a, offset, size⟩, some (a, b)) := by
  rw [Buffers.find, h.handle]
  show Option.map _ f.stores[a]? = _
  rw [h.store]
  rfl

theorem OnStore.view (h : OnStore f i a b offset size) :
    f.views[i]? = some (some b, ⟨some a, offset, size⟩) := by
  rw [Buffers.views, views_getElem?, h.handle]
  show some (Option.bind (some a) _, _) = _
  rw [bind_some, h.store]

theorem OnStore.lt (h : OnStore f i a b offset size) : i < f.handles.length :=
  (List.getElem?_eq_some_iff.1 h.handle).1

/-- The family `f'` is `f` with another view of buffer `i`. -/
structure Changed (f f' : Buffers) (i : Nat) (v : View) : Prop where
  views : f'.views = f.views.set i v
  sound : v.Sound

variable {v : View}

theorem Changed.all {P : View → Prop} (h : Changed f f' i v) (hall : ∀ w ∈ f.views, P w)
    (hv : P v) : ∀ w ∈ f'.views, P w := by
  intro w hw
  rw [h.views] at hw
  rcases mem_or_eq_of_mem_set hw with hw | rfl
  · exact hall w hw
  · exact hv

theorem Changed.refl (hv : f.views[i]? = some v) (hsound : v.Sound) : Changed f f i v where
  views := by
    obtain ⟨hi, rfl⟩ := List.getElem?_eq_some_iff.1 hv
    rw [set_getElem_self]
  sound := hsound

theorem Changed.trans {f'' : Buffers} {w : View} (h : Changed f f' i v) (h' : Changed f' f'' i w) :
    Changed f f'' i w where
  views := by rw [h'.views, h.views, set_set]
  sound := h'.sound

theorem Changed.values (h : Changed f f' i v) : f'.values = f.values.set i v.bytes := by
  rw [Buffers.values, h.views, map_set]
  rfl

theorem replaceStore_changed (h : f.Sound) (i : Nat) {size : Nat} (hfits : size ≤ b.size) :
    Changed f (f.replaceStore i b size) i (some b, ⟨some f.stores.length, 0, size⟩) where
  views := views_point h.closed i b rfl
  sound := .slice (by omega)

theorem setHandle_changed (i : Nat) {h : Handle} (hview : view Handle.buffer f.stores h = v)
    (hsound : v.Sound) : Changed f (f.setHandle i h) i v where
  views := hview ▸ views_set i h
  sound := hsound

theorem setHandle_null_changed (f : Buffers) (i : Nat) :
    Changed f (f.setHandle i ⟨none, 0, 0⟩) i (none, ⟨none, 0, 0⟩) :=
  setHandle_changed i rfl .null

theorem view_slice (hstore : f.stores[a]? = some b) :
    view Handle.buffer f.stores ⟨some a, offset, size⟩ = (some b, ⟨some a, offset, size⟩) := by
  rw [view, bind_some, hstore]

theorem replaceStore_onStore (hi : i < f.handles.length) {size : Nat} (hfits : size ≤ b.size) :
    OnStore (f.replaceStore i b size) i f.stores.length b 0 size where
  handle := getElem?_set_self hi
  store := getElem?_concat_length
  fits := by omega

theorem replaceStore_hasOneRef (h : f.Sound) (hi : i < f.handles.length) (b : Buffer)
    (size : Nat) : (f.replaceStore i b size).HasOneRef f.stores.length :=
  refs_point h.closed hi b rfl

theorem mutate_changed (h : OnStore f i a b offset size) (hsole : f.HasOneRef a)
    (change : Handle → Buffer → Option (Buffer × Handle)) {b' : Buffer} {offset' size' : Nat}
    (hchange : change ⟨some a, offset, size⟩ b = some (b', ⟨some a, offset', size'⟩))
    (hfits : offset' + size' ≤ b'.size) :
    ∃ f', f.mutate i change = some f' ∧ Changed f f' i (some b', ⟨some a, offset', size'⟩) := by
  refine ⟨_, by rw [Buffers.mutate, h.find]; dsimp only; rw [hchange, map_some], ?_, ?_⟩
  · exact views_modify b' hsole h.handle rfl rfl (List.getElem?_eq_some_iff.1 h.store).1
  · exact .slice hfits

theorem bytes_length (h : offset + size ≤ b.size) :
    (View.bytes (some b, ⟨some a, offset, size⟩)).length = size := by
  have hle := b.size_le
  show ((b.cells.drop offset).take size).length = size
  apply length_take_of_le
  rw [length_drop]
  omega

theorem unshare_spec (hsound : f.Sound) (h : OnStore f i a b offset size) (fresh : Nat → UInt8)
    (newCapacity : Nat) :
    ∃ f₁ a₁ b₁ offset₁, f.unshareAndEnsureCapacity fresh i ⟨some a, offset, size⟩ a b
        newCapacity = f₁ ∧
      OnStore f₁ i a₁ b₁ offset₁ size ∧ f₁.HasOneRef a₁ ∧
      Changed f f₁ i (some b₁, ⟨some a₁, offset₁, size⟩) ∧
      View.bytes (some b₁, ⟨some a₁, offset₁, size⟩) = View.bytes (some b, ⟨some a, offset, size⟩) ∧
      newCapacity ≤ b₁.capacity - offset₁ ∧
      (0 < b.capacity → (0 < b₁.capacity ↔
        (f.HasOneRef a ∧ newCapacity ≤ b.capacity - offset) ∨ 0 < max size newCapacity)) := by
  have hlength := bytes_length (a := a) h.fits
  unfold Buffers.unshareAndEnsureCapacity
  split
  case isTrue hkeep =>
    refine ⟨f, a, b, offset, rfl, h, hkeep.1, .refl h.view (.slice h.fits), rfl, hkeep.2, ?_⟩
    intro hpos
    exact ⟨fun _ => .inl hkeep, fun _ => hpos⟩
  case isFalse hnew =>
    have hcapacity := Buffer.capacity_createFrom fresh
      (View.bytes (some b, ⟨some a, offset, size⟩)) newCapacity
    have hcontents := Buffer.contents_createFrom fresh
      (View.bytes (some b, ⟨some a, offset, size⟩)) newCapacity
    have hsize : (Buffer.createFrom fresh (View.bytes (some b, ⟨some a, offset, size⟩))
        newCapacity).size = size := hlength
    rw [hlength] at hcapacity
    refine ⟨_, _, _, 0, rfl, replaceStore_onStore h.lt (Nat.le_of_eq hsize.symm),
      replaceStore_hasOneRef hsound h.lt _ _,
      replaceStore_changed hsound i (Nat.le_of_eq hsize.symm), ?_, ?_, ?_⟩
    · rw [Buffer.contents, hsize] at hcontents
      exact hcontents
    · rw [hcapacity]
      exact Nat.le_max_right _ _
    · intro _
      rw [hcapacity]
      exact ⟨.inr, fun hpos => hpos.elim (fun hkeep => absurd hkeep hnew) id⟩

theorem bytes_eq_contents (h : offset + size ≤ b.size) :
    View.bytes (some b, ⟨some a, offset, size⟩) = (b.contents.drop offset).take size := by
  show (b.cells.drop offset).take size = ((b.cells.take b.size).drop offset).take size
  rw [drop_take, take_take, Nat.min_eq_left (by omega)]

/-- The store of a buffer, if it has one, has capacity. -/
def View.Held (v : View) : Prop := ∀ b, v.1 = some b → 0 < b.capacity

theorem View.held_some {h : Handle} : View.Held (some b, h) ↔ 0 < b.capacity :=
  ⟨fun held => held b rfl, fun hpos _ hb => some.inj hb ▸ hpos⟩

theorem View.held_none (h : Handle) : View.Held (none, h) := by
  intro b hb
  cases hb

/-- Buffer `i` with its store. -/
def Buffers.at (f : Buffers) (i : Nat) : View := f.views[i]?.getD (none, ⟨none, 0, 0⟩)

/-- Buffer `i` shares its store and has no capacity of its own: it is a slice at
the very end of the store. -/
def Buffers.Exhausted (f : Buffers) (i : Nat) : Prop :=
  match (f.at i).2.buffer with
  | none => False
  | some a => ¬f.HasOneRef a ∧ (f.at i).capacity = 0

instance (f : Buffers) (i : Nat) : Decidable (f.Exhausted i) := by
  unfold Buffers.Exhausted
  split <;> infer_instance

theorem OnNull.at_eq (h : OnNull f i) : f.at i = (none, ⟨none, 0, 0⟩) := by
  rw [Buffers.at, h.view]
  rfl

theorem OnStore.at_eq (h : OnStore f i a b offset size) :
    f.at i = (some b, ⟨some a, offset, size⟩) := by
  rw [Buffers.at, h.view]
  rfl

theorem OnNull.not_exhausted (h : OnNull f i) : ¬f.Exhausted i := by
  rw [Buffers.Exhausted, h.at_eq]
  exact id

theorem OnStore.exhausted_iff (h : OnStore f i a b offset size) :
    f.Exhausted i ↔ ¬f.HasOneRef a ∧ b.capacity - offset = 0 := by
  rw [Buffers.Exhausted, h.at_eq]
  exact Iff.rfl

def Does (f : Buffers) (i : Nat) (result : Option Buffers) (expected : List UInt8 → Prop)
    (keeps : Prop) : Prop :=
  ∃ f' v, result = some f' ∧ Changed f f' i v ∧ expected v.bytes ∧
    ((f.at i).Held → (v.Held ↔ keeps))

section Calls

variable {result : Option Buffers} {expected : List UInt8 → Prop} {keeps : Prop}

theorem OnNull.does (h : OnNull f i) (hresult : result = some f) (hexpected : expected [])
    (hkeeps : keeps) : Does f i result expected keeps :=
  ⟨f, _, hresult, .refl h.view .null, hexpected, fun _ => iff_of_true (View.held_none _) hkeeps⟩

theorem Buffers.Sound.does_replaceStore (h : f.Sound) (hfits : size ≤ b.size)
    (hexpected : expected ((b.cells.drop 0).take size)) (hkeeps : 0 < b.capacity ↔ keeps) :
    Does f i (some (f.replaceStore i b size)) expected keeps :=
  ⟨_, _, rfl, replaceStore_changed h i hfits, hexpected, fun _ => View.held_some.trans hkeeps⟩

theorem Changed.does_mutate {f₁ : Buffers} {v : View} (h₁ : Changed f f₁ i v)
    (hstore : OnStore f₁ i a b offset size) (hsole : f₁.HasOneRef a)
    (change : Handle → Buffer → Option (Buffer × Handle)) {b' : Buffer} {offset' size' : Nat}
    (hchange : change ⟨some a, offset, size⟩ b = some (b', ⟨some a, offset', size'⟩))
    (hfits : offset' + size' ≤ b'.size)
    (hexpected : expected (View.bytes (some b', ⟨some a, offset', size'⟩)))
    (hkeeps : (f.at i).Held → (0 < b'.capacity ↔ keeps)) :
    Does f i (f₁.mutate i change) expected keeps := by
  obtain ⟨f', hf', hchanged⟩ := mutate_changed hstore hsole change hchange hfits
  exact ⟨f', _, hf', h₁.trans hchanged, hexpected, fun held => View.held_some.trans (hkeeps held)⟩

theorem OnStore.refl (h : OnStore f i a b offset size) :
    Changed f f i (some b, ⟨some a, offset, size⟩) :=
  .refl h.view (.slice h.fits)

theorem OnStore.held_iff (h : OnStore f i a b offset size) : (f.at i).Held ↔ 0 < b.capacity := by
  rw [h.at_eq, View.held_some]

variable (fresh : Nat → UInt8) (hsound : f.Sound) (hi : i < f.handles.length)

include hsound hi in
theorem setData_does (data : List UInt8) :
    Does f i (f.setData fresh i data) (· = data) (data = [] → ¬f.Exhausted i) := by
  have hcontents := Buffer.contents_createFrom fresh data
  have hcapacity := Buffer.capacity_createFrom fresh data
  rcases hsound.cases hi with hnull | ⟨a, b, offset, size, hstore⟩
  · rw [Buffers.setData, hnull.find]
    dsimp only
    have hkeeps : data = [] → ¬f.Exhausted i := fun _ => hnull.not_exhausted
    split
    case isTrue hpos =>
      apply hsound.does_replaceStore (Nat.le_refl _) (hcontents _)
      rw [hcapacity, Nat.max_self]
      exact iff_of_true hpos hkeeps
    case isFalse hempty =>
      have hnil : data = [] := length_eq_zero_iff.1 (by omega)
      exact ⟨_, _, rfl, setHandle_null_changed f i, hnil.symm,
        fun _ => iff_of_true (View.held_none _) hkeeps⟩
  · rw [Buffers.setData, hstore.find, hstore.exhausted_iff]
    dsimp only
    split
    case isTrue hshared =>
      apply hsound.does_replaceStore (Nat.le_refl _) (hcontents _)
      rw [hcapacity, ← length_eq_zero_iff, View.capacity_slice]
      simp only [hshared, not_false_eq_true, true_and]
      omega
    case isFalse hsole =>
      have hsole := Decidable.not_not.1 hsole
      refine hstore.refl.does_mutate hstore hsole _ rfl (Nat.le_refl _) ?_ ?_
      · rw [bytes_eq_contents (Nat.le_refl _), Buffer.contents_setData, drop_zero, take_length]
      · rw [hstore.held_iff]
        intro held
        have hle := b.capacity_le_setData fresh data
        exact iff_of_true (by omega) fun _ hexhausted => hexhausted.1 hsole

theorem append_slice (hfits : offset + size ≤ b.size) (data : List UInt8)
    (hroom : size + data.length ≤ b.capacity - offset) :
    View.bytes (some ((b.setSize fresh (offset + size)).appendData fresh data),
        ⟨some a, offset, size + data.length⟩) =
      View.bytes (some b, ⟨some a, offset, size⟩) ++ data ∧
    ((b.setSize fresh (offset + size)).appendData fresh data).capacity = b.capacity := by
  have hle : b.size ≤ b.capacity := b.size_le
  constructor
  · rw [bytes_eq_contents (Nat.le_of_eq (Nat.add_assoc _ _ _).symm), bytes_eq_contents hfits,
      Buffer.contents_appendData, Buffer.contents_setSize_of_le fresh b hfits]
    have hcontents : (b.contents.take (offset + size)).length = offset + size :=
      length_take_of_le (by rw [Buffer.contents_length]; exact hfits)
    rw [drop_append_of_le_length (by omega), drop_take, Nat.add_sub_cancel_left]
    apply take_of_length_le
    rw [length_append, length_take]
    omega
  · rw [Buffer.capacity_appendData_of_le, Buffer.capacity_setSize_of_le fresh b (by omega)]
    rw [Buffer.capacity_setSize_of_le fresh b (by omega)]
    show offset + size + data.length ≤ b.capacity
    omega

include hsound hi in
theorem appendData_does (data : List UInt8) :
    Does f i (f.appendData fresh i data) (· = (f.at i).bytes ++ data)
      (data = [] → (f.at i).2.buffer ≠ none ∧ ¬f.Exhausted i) := by
  rcases hsound.cases hi with hnull | ⟨a, b, offset, size, hstore⟩
  · rw [Buffers.appendData, hnull.find, hnull.at_eq]
    apply hsound.does_replaceStore (Nat.le_refl _) (Buffer.contents_createFrom fresh data _)
    rw [Buffer.capacity_createFrom, Nat.max_self, length_pos_iff]
    exact ⟨fun hne hnil => absurd hnil hne, fun hkeeps hnil => (hkeeps hnil).1 rfl⟩
  · rw [Buffers.appendData, hstore.find, hstore.exhausted_iff]
    dsimp only
    obtain ⟨f₁, a₁, b₁, offset₁, hf₁, hstore₁, hsole, hchanged₁, hbytes₁, hcapacity, hheld⟩ :=
      unshare_spec hsound hstore fresh
        (max (View.capacity (some b, ⟨some a, offset, size⟩)) (size + data.length))
    rw [hf₁]
    obtain ⟨hbytes, hcapacity'⟩ := append_slice (a := a₁) fresh hstore₁.fits data (by omega)
    refine hchanged₁.does_mutate hstore₁ hsole _ rfl (Nat.le_of_eq (Nat.add_assoc _ _ _).symm) ?_ ?_
    · rw [hbytes, hbytes₁, hstore.at_eq]
    · rw [hstore.held_iff, hcapacity', hstore.at_eq, ← length_eq_zero_iff]
      intro held
      have hfits := hstore.fits
      have hle : b.size ≤ b.capacity := b.size_le
      rw [hheld held, View.capacity_slice]
      by_cases hone : f.HasOneRef a
      · simp only [hone, true_and, not_true_eq_false, false_and, not_false_eq_true, ne_eq,
          reduceCtorEq, implies_true, iff_true]
        omega
      · simp only [hone, false_and, false_or, not_false_eq_true, true_and, ne_eq, reduceCtorEq]
        omega

theorem unshare_store (f : Buffers) (i : Nat) (h : Handle) (a : Nat) (b : Buffer)
    (newCapacity : Nat) {k : Nat} {b' : Buffer} (hk : f.stores[k]? = some b') :
    (f.unshareAndEnsureCapacity fresh i h a b newCapacity).stores[k]? = some b' := by
  unfold Buffers.unshareAndEnsureCapacity
  split
  case isTrue => exact hk
  case isFalse =>
    show (f.stores ++ [_])[k]? = _
    rw [getElem?_append_left (List.getElem?_eq_some_iff.1 hk).1, hk]

theorem unshare_handle (f : Buffers) {i k : Nat} (hk : i ≠ k) (h : Handle) (a : Nat)
    (b : Buffer) (newCapacity : Nat) :
    (f.unshareAndEnsureCapacity fresh i h a b newCapacity).handles[k]? = f.handles[k]? := by
  unfold Buffers.unshareAndEnsureCapacity
  split
  case isTrue => rfl
  case isFalse => exact getElem?_set_ne hk

include hsound in
theorem unshare_refs (h : OnStore f i a b offset size) (newCapacity : Nat) :
    refs Handle.buffer (f.unshareAndEnsureCapacity fresh i ⟨some a, offset, size⟩ a b
        newCapacity) a = 0 ↔ f.HasOneRef a ∧ b.capacity - offset < newCapacity := by
  have hpos : 0 < refs Handle.buffer f a := refs_pos h.handle rfl
  unfold Buffers.unshareAndEnsureCapacity
  split
  case isTrue hkeep =>
    have hle : newCapacity ≤ b.capacity - offset := hkeep.2
    exact iff_of_false (Nat.ne_of_gt hpos) fun hless => by omega
  case isFalse hnew =>
    have hrefs := refs_point_old hsound.closed
      (Buffer.createFrom fresh (View.bytes (some b, ⟨some a, offset, size⟩)) newCapacity)
      ⟨some f.stores.length, 0, size⟩ h.handle (a := a) rfl rfl
    have hsole : f.HasOneRef a ↔ refs Handle.buffer f a = 1 := Iff.rfl
    rw [hsole, View.capacity_slice] at hnew
    rw [Buffers.replaceStore, hrefs, hsole]
    omega

/-- Buffer `i` is alone on its store, and twice its bytes do not fit there. -/
def Buffers.Outgrown (f : Buffers) (i : Nat) : Prop :=
  match (f.at i).2.buffer with
  | none => False
  | some a => f.HasOneRef a ∧ (f.at i).capacity < (f.at i).2.size + (f.at i).2.size

instance (f : Buffers) (i : Nat) : Decidable (f.Outgrown i) := by
  unfold Buffers.Outgrown
  split <;> infer_instance

theorem OnNull.not_outgrown (h : OnNull f i) : ¬f.Outgrown i := by
  rw [Buffers.Outgrown, h.at_eq]
  exact id

theorem OnStore.outgrown_iff (h : OnStore f i a b offset size) :
    f.Outgrown i ↔ f.HasOneRef a ∧ b.capacity - offset < size + size := by
  rw [Buffers.Outgrown, h.at_eq]
  exact Iff.rfl

include hsound hi in
theorem appendBuffer_eq {j : Nat} (hj : j < f.handles.length) :
    f.appendBuffer fresh i j =
      if i = j ∧ f.Outgrown i then none else f.appendData fresh i (f.at j).bytes := by
  rcases hsound.cases hj with hnull | ⟨a', b', offset', size', hstore'⟩
  · have hnone : ¬(i = j ∧ f.Outgrown i) := fun h => hnull.not_outgrown (h.1 ▸ h.2)
    rw [if_neg hnone, hnull.at_eq, Buffers.appendBuffer, hnull.find]
    rfl
  rcases hsound.cases hi with hnull | ⟨a, b, offset, size, hstore⟩
  · rw [if_neg fun h => hnull.not_outgrown h.2, hstore'.at_eq, Buffers.appendBuffer, hstore'.find]
    rw [hnull.find]
  · have happend : f.appendData fresh i (View.bytes (some b', ⟨some a', offset', size'⟩)) =
        (f.unshareAndEnsureCapacity fresh i ⟨some a, offset, size⟩ a b
          (max (View.capacity (some b, ⟨some a, offset, size⟩)) (size + size'))).appendInPlace
            fresh i (View.bytes (some b', ⟨some a', offset', size'⟩)) := by
      rw [Buffers.appendData, hstore.find]
      rw [bytes_length hstore'.fits]
    rw [Buffers.appendBuffer, hstore'.find, hstore'.at_eq, happend]
    rw [hstore.find]
    dsimp only
    rw [unshare_store fresh f i _ a b _ hstore'.store, bind_some]
    have hrefs : refs Handle.buffer (f.unshareAndEnsureCapacity fresh i ⟨some a, offset, size⟩
        a b (max (View.capacity (some b, ⟨some a, offset, size⟩)) (size + size'))) a' = 0 ↔
        i = j ∧ f.HasOneRef a ∧ b.capacity - offset < size + size := by
      by_cases hij : i = j
      · subst hij
        have hsame := hstore.handle.symm.trans hstore'.handle
        simp only [some.injEq, Handle.mk.injEq] at hsame
        obtain ⟨ha, hoffset, hsize⟩ := hsame
        subst ha hoffset hsize
        rw [unshare_refs fresh hsound hstore, View.capacity_slice, eq_self, true_and]
        apply and_congr_right
        intro _
        omega
      · have hhandle := unshare_handle fresh f hij ⟨some a, offset, size⟩ a b
          (max (View.capacity (some b, ⟨some a, offset, size⟩)) (size + size'))
        exact iff_of_false (Nat.ne_of_gt (refs_pos (hhandle.trans hstore'.handle) rfl))
          fun h => hij h.1
    simp only [hrefs, hstore.outgrown_iff]

include hsound hi

theorem ensureCapacity_does (newCapacity : Nat) :
    Does f i (f.ensureCapacity fresh i newCapacity) (· = (f.at i).bytes) True := by
  rcases hsound.cases hi with hnull | ⟨a, b, offset, size, hstore⟩
  · rw [Buffers.ensureCapacity, hnull.find, hnull.at_eq]
    dsimp only
    split
    case isTrue hpos =>
      refine hsound.does_replaceStore (Nat.le_refl _) rfl (iff_of_true ?_ trivial)
      rw [Buffer.capacity_create]
      omega
    case isFalse => exact hnull.does rfl rfl trivial
  · rw [Buffers.ensureCapacity, hstore.find, hstore.at_eq]
    dsimp only
    split
    case isTrue =>
      refine ⟨f, _, rfl, hstore.refl, rfl, fun held => iff_of_true ?_ trivial⟩
      exact hstore.at_eq ▸ held
    case isFalse hless =>
      obtain ⟨f₁, a₁, b₁, offset₁, hf₁, _, _, hchanged, hbytes, _, hheld⟩ :=
        unshare_spec hsound hstore fresh newCapacity
      refine ⟨_, _, congrArg some hf₁, hchanged, hbytes, ?_⟩
      rw [hstore.held_iff, View.held_some]
      exact fun held => iff_of_true ((hheld held).2 (.inr (by omega))) trivial

theorem clear_does : Does f i (f.clear fresh i) (· = []) (¬f.Exhausted i) := by
  rcases hsound.cases hi with hnull | ⟨a, b, offset, size, hstore⟩
  · rw [Buffers.clear, hnull.find]
    exact hnull.does rfl rfl hnull.not_exhausted
  · rw [Buffers.clear, hstore.find, hstore.exhausted_iff]
    dsimp only
    split
    case isTrue hsole =>
      refine hstore.refl.does_mutate hstore hsole _ rfl (Nat.le_refl _) rfl ?_
      rw [hstore.held_iff]
      exact fun held => iff_of_true held fun hexhausted => hexhausted.1 hsole
    case isFalse hshared =>
      refine hsound.does_replaceStore (Nat.le_refl _) rfl ?_
      rw [Buffer.capacity_create, View.capacity_slice]
      simp only [hshared, not_false_eq_true, true_and]
      omega

theorem setSize_does (size : Nat) :
    Does f i (f.setSize fresh i size)
      (fun bytes => bytes.length = size ∧
        bytes.take (f.at i).bytes.length = (f.at i).bytes.take size) True := by
  rcases hsound.cases hi with hnull | ⟨a, b, offset, oldSize, hstore⟩
  · rw [Buffers.setSize, hnull.find, hnull.at_eq]
    dsimp only
    split
    case isTrue hpos =>
      apply hsound.does_replaceStore (Nat.le_refl _)
      · exact ⟨bytes_length (a := 0) (Nat.le_of_eq (Nat.zero_add _)), take_nil.symm⟩
      · rw [Buffer.capacity_create, Nat.max_self]
        exact iff_of_true hpos trivial
    case isFalse hzero =>
      have hsize : size = 0 := by omega
      exact hnull.does rfl ⟨hsize.symm, take_nil.symm⟩ trivial
  · have hfits := hstore.fits
    have hlength := bytes_length (a := a) hfits
    rw [Buffers.setSize, hstore.find, hstore.at_eq, hlength]
    dsimp only
    split
    case isTrue hle =>
      have htake : View.bytes (some b, ⟨some a, offset, size⟩) =
          (View.bytes (some b, ⟨some a, offset, oldSize⟩)).take size := by
        show _ = ((b.cells.drop offset).take oldSize).take size
        rw [take_take, Nat.min_eq_left hle]
        rfl
      refine ⟨_, _, rfl, setHandle_changed i (view_slice hstore.store) (.slice (by omega)),
        ⟨bytes_length (by omega), ?_⟩, ?_⟩
      · rw [htake]
        apply take_of_length_le
        rw [length_take]
        omega
      · rw [hstore.at_eq]
        exact fun held => iff_of_true held trivial
    case isFalse hless =>
      obtain ⟨f₁, a₁, b₁, offset₁, hf₁, hstore₁, hsole, hchanged₁, hbytes₁, hcapacity, _⟩ :=
        unshare_spec hsound hstore fresh
          (max (View.capacity (some b, ⟨some a, offset, oldSize⟩)) size)
      have hfits₁ := hstore₁.fits
      have hroom : size + offset₁ ≤ b₁.capacity := by omega
      have hnew : offset₁ + size ≤ (b₁.setSize fresh (size + offset₁)).size :=
        Nat.le_of_eq (Nat.add_comm _ _)
      rw [hf₁]
      refine hchanged₁.does_mutate hstore₁ hsole _ rfl hnew ⟨bytes_length hnew, ?_⟩ ?_
      · have hcommon := b₁.take_contents_setSize fresh (size + offset₁)
          (k := offset₁ + oldSize) hfits₁ (by omega)
        have hall : (View.bytes (some b, ⟨some a, offset, oldSize⟩)).take size =
            View.bytes (some b, ⟨some a, offset, oldSize⟩) :=
          take_of_length_le (by omega)
        rw [hall, ← hbytes₁, bytes_eq_contents hnew, bytes_eq_contents hfits₁, take_take,
          Nat.min_eq_left (by omega)]
        have hdrop := congrArg (drop offset₁) hcommon
        rw [drop_take, drop_take, Nat.add_sub_cancel_left] at hdrop
        exact hdrop
      · intro _
        rw [b₁.capacity_setSize_of_le fresh hroom]
        exact iff_of_true (by omega) trivial

theorem mutableData_does {pos : Nat} {data : List UInt8}
    (hfits : pos + data.length ≤ (f.at i).2.size) :
    Does f i (f.mutableData fresh i pos data)
      (· = overwrite (f.at i).bytes pos data) (¬f.Exhausted i) := by
  rcases hsound.cases hi with hnull | ⟨a, b, offset, size, hstore⟩
  · rw [hnull.at_eq] at hfits ⊢
    have hnil : data = [] := length_eq_zero_iff.1 (by dsimp only at hfits; omega)
    rw [Buffers.mutableData, hnull.find, hnil, overwrite_nil]
    exact hnull.does (if_pos rfl) rfl hnull.not_exhausted
  · rw [hstore.at_eq] at hfits
    rw [Buffers.mutableData, hstore.find, hstore.exhausted_iff, hstore.at_eq]
    dsimp only at hfits ⊢
    obtain ⟨f₁, a₁, b₁, offset₁, hf₁, hstore₁, hsole, hchanged₁, hbytes₁, hcapacity, hheld⟩ :=
      unshare_spec hsound hstore fresh (View.capacity (some b, ⟨some a, offset, size⟩))
    have hfits₁ := hstore₁.fits
    have hle : b₁.size ≤ b₁.capacity := b₁.size_le
    have hroom : offset₁ + pos + data.length ≤ b₁.capacity := by omega
    rw [hf₁]
    refine hchanged₁.does_mutate hstore₁ hsole _ (dif_pos hroom) hfits₁ ?_ ?_
    · rw [← hbytes₁]
      exact slice_overwrite (Nat.le_trans hfits₁ hle) hfits
    · rw [hstore.held_iff]
      intro held
      have hsame : (b₁.store (offset₁ + pos) data hroom).capacity = b₁.capacity :=
        overwrite_length hroom
      have hslice := hstore.fits
      have hle' : b.size ≤ b.capacity := b.size_le
      rw [hsame, hheld held, View.capacity_slice]
      by_cases hone : f.HasOneRef a
      · simp [hone]
      · simp only [hone, false_and, false_or, not_false_eq_true, true_and]
        omega

end Calls

/-- The family `f'` is `f` with one more buffer. -/
structure Pushed (f f' : Buffers) (v : View) : Prop where
  views : f'.views = f.views ++ [v]
  sound : v.Sound

theorem Pushed.all {P : View → Prop} (h : Pushed f f' v) (hall : ∀ w ∈ f.views, P w) (hv : P v) :
    ∀ w ∈ f'.views, P w := by
  intro w hw
  rw [h.views, mem_append, mem_singleton] at hw
  cases hw with
  | inl hw => exact hall w hw
  | inr hw => exact hw ▸ hv

theorem push_pushed {h : Handle} (hview : view Handle.buffer f.stores h = v) (hsound : v.Sound) :
    Pushed f (f.push h) v where
  views := hview ▸ views_push h
  sound := hsound

theorem push_null (f : Buffers) : Pushed f (f.push ⟨none, 0, 0⟩) (none, ⟨none, 0, 0⟩) :=
  push_pushed rfl .null

theorem pushStore_pushed (h : f.Sound) (hfits : size ≤ b.size) :
    Pushed f (f.pushStore b size) (some b, ⟨some f.stores.length, 0, size⟩) where
  views := by
    have hview : view Handle.buffer (f.stores ++ [b]) ⟨some f.stores.length, 0, size⟩ =
        (some b, ⟨some f.stores.length, 0, size⟩) := view_last f.stores b rfl
    rw [← hview]
    show views _ _ = views _ f ++ _
    rw [← views_store h.closed b]
    exact views_push (f := ⟨f.stores ++ [b], f.handles⟩) _
  sound := .slice (by omega)

end Family

/-! ## Programs -/

/-- What a program may do: it names buffers that exist, and stays inside them. -/
def Allowed (f : Buffers) : Op → Prop
  | .create | .createSized _ _ | .createData _ _ => True
  | .copy i | .move i | .setData i _ | .appendData i _ | .setSize i _ | .ensureCapacity i _
  | .clear i | .destroy i => i < f.handles.length
  | .assign i j | .moveAssign i j | .appendBuffer i j =>
    i < f.handles.length ∧ j < f.handles.length
  | .slice i offset length => i < f.handles.length ∧ length + offset ≤ (f.at i).2.size
  | .mutableData i pos data =>
    i < f.handles.length ∧ pos + data.length ≤ (f.at i).2.size

instance (f : Buffers) (op : Op) : Decidable (Allowed f op) := by
  cases op <;> unfold Allowed <;> infer_instance

def Keeps (f : Buffers) : Op → Prop
  | .setData i data => data = [] → ¬f.Exhausted i
  | .appendData i data => data = [] → (f.at i).2.buffer ≠ none ∧ ¬f.Exhausted i
  | .appendBuffer i j => (f.at j).bytes = [] → (f.at i).2.buffer ≠ none ∧ ¬f.Exhausted i
  | .clear i | .mutableData i _ _ => ¬f.Exhausted i
  | _ => True

instance (f : Buffers) (op : Op) : Decidable (Keeps f op) := by
  cases op <;> unfold Keeps <;> infer_instance

/-- A buffer that outgrows its own store is appended to itself. -/
def Outgrows (f : Buffers) : Op → Prop
  | .appendBuffer i j => i = j ∧ f.Outgrown i
  | _ => False

instance (f : Buffers) (op : Op) : Decidable (Outgrows f op) := by
  cases op <;> unfold Outgrows <;> infer_instance

/-- The value of buffer `i`. -/
def valueAt (values : List (List UInt8)) (i : Nat) : List UInt8 := values[i]?.getD []

/-- What each call does to independent lists.  Nothing is said of new bytes. -/
def ValueActs (values : List (List UInt8)) : Op → List (List UInt8) → Prop
  | .create, values' => values' = values ++ [[]]
  | .createSized size _, values' => ∃ new, new.length = size ∧ values' = values ++ [new]
  | .createData data _, values' => values' = values ++ [data]
  | .copy i, values' => values' = values ++ [valueAt values i]
  | .move i, values' => values' = values.set i [] ++ [valueAt values i]
  | .slice i offset length, values' =>
    values' = values ++ [((valueAt values i).drop offset).take length]
  | .assign i j, values' => values' = values.set i (valueAt values j)
  | .moveAssign i j, values' => values' = (values.set i (valueAt values j)).set j []
  | .setData i data, values' => values' = values.set i data
  | .appendData i data, values' => values' = values.set i (valueAt values i ++ data)
  | .appendBuffer i j, values' => values' = values.set i (valueAt values i ++ valueAt values j)
  | .setSize i size, values' => ∃ new, new.length = size ∧
      new.take (valueAt values i).length = (valueAt values i).take size ∧
      values' = values.set i new
  | .ensureCapacity _ _, values' => values' = values
  | .clear i, values' => values' = values.set i []
  | .mutableData i pos data, values' =>
    values' = values.set i (overwrite (valueAt values i) pos data)
  | .destroy i, values' => values' = values.set i []

/-- Every store that a buffer points to has capacity. -/
def Buffers.Held (f : Buffers) : Prop := ∀ v ∈ f.views, v.Held

def Comes (f : Buffers) (result : Option Buffers) (acts : List (List UInt8) → Prop)
    (keeps : Prop) : Prop :=
  ∃ f', result = some f' ∧ f'.Sound ∧ acts f'.values ∧ (f.Held → (f'.Held ↔ keeps))

section Programs

variable {f f' : Buffers} {i : Nat}

theorem valueAt_values (f : Buffers) (i : Nat) : valueAt f.values i = (f.at i).bytes := by
  rw [valueAt, Buffers.values, getElem?_map, Buffers.at]
  cases f.views[i]? <;> rfl

theorem Buffers.at_of_all {P : View → Prop} (h : ∀ v ∈ f.views, P v)
    (hnull : P (none, ⟨none, 0, 0⟩)) (i : Nat) : P (f.at i) := by
  rw [Buffers.at]
  cases hview : f.views[i]? with
  | none => exact hnull
  | some v => exact h v (mem_of_getElem? hview)

theorem Buffers.Sound.at (h : f.Sound) (i : Nat) : (f.at i).Sound := at_of_all h .null i

theorem Buffers.Held.at (h : f.Held) (i : Nat) : (f.at i).Held := at_of_all h (View.held_none _) i

variable {result : Option Buffers} {acts : List (List UInt8) → Prop} {keeps : Prop}
  (hsound : f.Sound) (hi : i < f.handles.length)

include hsound

omit hsound in
theorem comes_of (hresult : result = some f') (hsound' : f'.Sound) (hacts : acts f'.values)
    (hheld : f.Held → f'.Held) : Comes f result acts True :=
  ⟨f', hresult, hsound', hacts, fun held => iff_of_true (hheld held) trivial⟩

include hi in
theorem Changed.comes {v : View} (hresult : result = some f') (h : Changed f f' i v)
    (hacts : acts (f.values.set i v.bytes)) (hkeeps : (f.at i).Held → (v.Held ↔ keeps)) :
    Comes f result acts keeps := by
  refine ⟨f', hresult, h.all hsound h.sound, by rw [h.values]; exact hacts, ?_⟩
  intro held
  rw [← hkeeps (held.at i)]
  constructor
  · intro held'
    apply held'
    rw [h.views]
    exact mem_set (by rw [Buffers.views, views_length]; exact hi) v
  · intro heldv
    exact h.all held heldv

include hi in
theorem Does.comes {expected : List UInt8 → Prop} (h : Does f i result expected keeps)
    (hacts : ∀ bytes, expected bytes → acts (f.values.set i bytes)) :
    Comes f result acts keeps := by
  obtain ⟨f', v, hresult, hchanged, hexpected, hkeeps⟩ := h
  exact hchanged.comes hsound hi hresult (hacts _ hexpected) hkeeps

theorem Pushed.comes {v : View} (hresult : result = some f') (h : Pushed f f' v)
    (hacts : acts (f.values ++ [v.bytes])) (hheld : f.Held → v.Held) :
    Comes f result acts True := by
  refine comes_of hresult (h.all hsound h.sound) ?_ fun held => h.all held (hheld held)
  rw [Buffers.values, h.views, map_append]
  exact hacts

omit hsound in
theorem length_values (f : Buffers) : f.values.length = f.handles.length := by
  rw [Buffers.values, length_map, Buffers.views, views_length]

omit hsound in
include hi in
theorem set_valueAt : f.values.set i (valueAt f.values i) = f.values := by
  have hlength : i < f.values.length := by
    rw [length_values]
    exact hi
  rw [valueAt, getElem?_eq_getElem hlength]
  exact set_getElem_self hlength

variable {h : Handle} {j : Nat}

omit hsound in
theorem at_of_handle (hh : f.handles[i]? = some h) : f.at i = view Handle.buffer f.stores h := by
  rw [Buffers.at, Buffers.views, views_getElem?, hh]
  rfl

theorem setHandle_at (i : Nat) (hh : f.handles[j]? = some h) :
    Changed f (f.setHandle i h) i (f.at j) :=
  setHandle_changed i (at_of_handle hh).symm (hsound.at j)

theorem createSized_comes (fresh : Nat → UInt8) (size capacity : Nat) :
    Comes f (some (f.createSized fresh size capacity))
      (ValueActs f.values (.createSized size capacity)) True := by
  unfold Buffers.createSized
  split
  case isTrue hpos =>
    apply (pushStore_pushed hsound (Nat.le_refl _)).comes hsound rfl
    · exact ⟨_, bytes_length (Nat.le_of_eq (Nat.zero_add _)), rfl⟩
    · intro _
      rw [View.held_some, Buffer.capacity_create]
      omega
  case isFalse hzero =>
    have hsize : size = 0 := by omega
    subst hsize
    exact (push_null f).comes hsound rfl ⟨[], rfl, rfl⟩ fun _ => View.held_none _

theorem createData_comes (fresh : Nat → UInt8) (data : List UInt8) (capacity : Nat) :
    Comes f (some (f.createData fresh data capacity))
      (ValueActs f.values (.createData data capacity)) True := by
  unfold Buffers.createData
  split
  case isTrue hpos =>
    apply (pushStore_pushed hsound (Nat.le_refl _)).comes hsound rfl
    · exact congrArg (fun bytes => f.values ++ [bytes])
        (Buffer.contents_createFrom fresh data capacity)
    · intro _
      rw [View.held_some, Buffer.capacity_createFrom]
      omega
  case isFalse hzero =>
    have hnil : data = [] := length_eq_zero_iff.1 (by omega)
    subst hnil
    exact (push_null f).comes hsound rfl rfl fun _ => View.held_none _

include hi

theorem slice_comes {offset length : Nat} (hfits : length + offset ≤ (f.at i).2.size) :
    Comes f (f.slice i offset length) (ValueActs f.values (.slice i offset length)) True := by
  rcases hsound.cases hi with hnull | ⟨a, b, offset', size, hstore⟩
  · rw [hnull.at_eq] at hfits
    dsimp only at hfits
    have hoffset : offset = 0 := by omega
    have hlength : length = 0 := by omega
    subst hoffset hlength
    apply (push_null f).comes hsound
    · rw [Buffers.slice, hnull]
      rfl
    · rfl
    · intro _
      exact View.held_none _
  · rw [hstore.at_eq] at hfits
    dsimp only at hfits
    have hslice := hstore.fits
    have hpushed : Pushed f (f.push ⟨some a, offset' + offset, length⟩) _ :=
      push_pushed (view_slice hstore.store) (.slice (by omega))
    apply hpushed.comes hsound
    · rw [Buffers.slice, hstore.handle, bind_some, if_pos (by dsimp only; omega)]
    · rw [ValueActs, valueAt_values, hstore.at_eq]
      show _ ++ [(b.cells.drop (offset' + offset)).take length] =
        _ ++ [(((b.cells.drop offset').take size).drop offset).take length]
      rw [drop_take, take_take, drop_drop, Nat.min_eq_left (by omega)]
    · intro held
      have heldi := held.at i
      rw [hstore.at_eq] at heldi
      exact heldi

theorem copy_comes : Comes f (f.handles[i]?.map f.push) (ValueActs f.values (.copy i)) True := by
  have hhandle := getElem?_eq_getElem hi
  apply (push_pushed (at_of_handle hhandle).symm (hsound.at i)).comes hsound
  · rw [hhandle, map_some]
  · rw [ValueActs, valueAt_values]
  · intro held
    exact held.at i

theorem move_comes : Comes f (f.move i) (ValueActs f.values (.move i)) True := by
  obtain ⟨f₁, hf₁, hsound₁, hvalues₁, hheld₁⟩ := copy_comes hsound hi
  have hchanged := setHandle_null_changed f₁ i
  refine comes_of ?_ (hchanged.all hsound₁ .null) ?_
    fun held => hchanged.all ((hheld₁ held).2 trivial) (View.held_none _)
  · rw [getElem?_eq_getElem hi, map_some, some.injEq] at hf₁
    rw [Buffers.move, getElem?_eq_getElem hi, ← hf₁]
    show some (Family.mk f.stores (f.handles.set i ⟨none, 0, 0⟩ ++ [f.handles[i]])) =
      some (Family.mk f.stores ((f.handles ++ [f.handles[i]]).set i ⟨none, 0, 0⟩))
    rw [set_append_left i _ hi]
  · have hcopy : f₁.values = f.values ++ [valueAt f.values i] := hvalues₁
    rw [hchanged.values, hcopy, set_append_left i _ (by rw [length_values]; exact hi)]
    rfl

theorem assign_comes (hj : j < f.handles.length) :
    Comes f (f.assign i j) (ValueActs f.values (.assign i j)) True := by
  have hhandle := getElem?_eq_getElem hj
  rw [Buffers.assign, hhandle]
  split
  case isTrue hij =>
    subst hij
    exact comes_of rfl hsound (set_valueAt hi).symm id
  case isFalse =>
    have hset := setHandle_at hsound i hhandle
    refine comes_of rfl (hset.all hsound (hsound.at j)) ?_ fun held => hset.all held (held.at j)
    rw [hset.values, ValueActs, valueAt_values]

theorem moveAssign_self_changed :
    ∃ v, Changed f (f.setHandle i ⟨f.handles[i].buffer, 0, 0⟩) i v ∧ v.bytes = [] ∧
      ((f.at i).Held → v.Held) := by
  rcases hsound.cases hi with hnull | ⟨a, b, offset, size, hstore⟩
  · have hhandle : f.handles[i] = ⟨none, 0, 0⟩ := (List.getElem?_eq_some_iff.1 hnull).2
    rw [hhandle]
    exact ⟨_, setHandle_null_changed f i, rfl, fun _ => View.held_none _⟩
  · have hhandle : f.handles[i] = ⟨some a, offset, size⟩ :=
      (List.getElem?_eq_some_iff.1 hstore.handle).2
    rw [hhandle, hstore.at_eq]
    exact ⟨_, setHandle_changed i (view_slice hstore.store) (.slice (Nat.zero_le _)), rfl, id⟩

theorem moveAssign_comes (hj : j < f.handles.length) :
    Comes f (f.moveAssign i j) (ValueActs f.values (.moveAssign i j)) True := by
  have hhandle := getElem?_eq_getElem hj
  rw [Buffers.moveAssign, hhandle]
  split
  case isTrue hij =>
    subst hij
    obtain ⟨v, hchanged, hbytes, hheld⟩ := moveAssign_self_changed hsound hi
    apply hchanged.comes hsound hi rfl
    · rw [hbytes, ValueActs, set_set]
    · intro held
      exact iff_of_true (hheld held) trivial
  case isFalse =>
    have hfirst := setHandle_at hsound i hhandle
    have hsecond := setHandle_null_changed (f.setHandle i f.handles[j]) j
    refine comes_of rfl (hsecond.all (hfirst.all hsound (hsound.at j)) .null) ?_
      fun held => hsecond.all (hfirst.all held (held.at j)) (View.held_none _)
    rw [hsecond.values, hfirst.values, ValueActs, valueAt_values]
    rfl

omit hi

theorem apply_comes (call : Call) (hallowed : Allowed f call.op) (hgrown : ¬Outgrows f call.op) :
    Comes f (f.apply call) (ValueActs f.values call.op) (Keeps f call.op) := by
  obtain ⟨fresh, op⟩ := call
  cases op with
  | create => exact (push_null f).comes hsound rfl rfl fun _ => View.held_none _
  | createSized size capacity => exact createSized_comes hsound fresh size capacity
  | createData data capacity => exact createData_comes hsound fresh data capacity
  | copy i => exact copy_comes hsound hallowed
  | move i => exact move_comes hsound hallowed
  | slice i offset length => exact slice_comes hsound hallowed.1 hallowed.2
  | assign i j => exact assign_comes hsound hallowed.1 hallowed.2
  | moveAssign i j => exact moveAssign_comes hsound hallowed.1 hallowed.2
  | setData i data =>
    apply (setData_does fresh hsound hallowed data).comes hsound hallowed
    rintro _ rfl
    rfl
  | appendData i data =>
    apply (appendData_does fresh hsound hallowed data).comes hsound hallowed
    rintro _ rfl
    rw [ValueActs, valueAt_values]
  | appendBuffer i j =>
    have hdoes := appendData_does fresh hsound hallowed.1 (f.at j).bytes
    have heq := appendBuffer_eq fresh hsound hallowed.1 hallowed.2
    rw [← heq.trans (if_neg hgrown)] at hdoes
    apply hdoes.comes hsound hallowed.1
    rintro _ rfl
    rw [ValueActs, valueAt_values, valueAt_values]
  | setSize i size =>
    apply (setSize_does fresh hsound hallowed size).comes hsound hallowed
    intro bytes hbytes
    rw [← valueAt_values] at hbytes
    exact ⟨bytes, hbytes.1, hbytes.2, rfl⟩
  | ensureCapacity i newCapacity =>
    apply (ensureCapacity_does fresh hsound hallowed newCapacity).comes hsound hallowed
    rintro _ rfl
    rw [ValueActs, ← valueAt_values, set_valueAt hallowed]
  | clear i =>
    apply (clear_does fresh hsound hallowed).comes hsound hallowed
    rintro _ rfl
    rfl
  | mutableData i pos data =>
    apply (mutableData_does fresh hsound hallowed.1 hallowed.2).comes hsound hallowed.1
    rintro _ rfl
    rw [ValueActs, valueAt_values]
  | destroy i =>
    exact (setHandle_null_changed f i).comes hsound hallowed rfl rfl
      fun _ => iff_of_true (View.held_none _) trivial

theorem apply_outgrows {call : Call} (hallowed : Allowed f call.op)
    (hgrown : Outgrows f call.op) : f.apply call = none := by
  obtain ⟨fresh, op⟩ := call
  cases op with
  | appendBuffer i j =>
    exact (appendBuffer_eq fresh hsound hallowed.1 hallowed.2).trans (if_pos hgrown)
  | _ => exact hgrown.elim

end Programs

variable {f : Buffers}

theorem isConsistent_iff {v : View} (hv : v ∈ f.views) : v.IsConsistent ↔ v.Sound ∧ v.Held := by
  obtain ⟨⟨buffer, offset, size⟩, _, rfl⟩ := mem_map.1 hv
  cases buffer with
  | none =>
    constructor
    · rintro ⟨rfl, rfl⟩
      exact ⟨.null, View.held_none _⟩
    · rintro ⟨hsound, _⟩
      cases hsound
      exact ⟨rfl, rfl⟩
  | some a =>
    rw [view, bind_some]
    cases f.stores[a]? with
    | none =>
      refine iff_of_false id ?_
      rintro ⟨hsound, _⟩
      cases hsound
    | some b =>
      rw [View.held_some]
      show 0 < b.capacity ∧ offset ≤ b.size ∧ offset + size ≤ b.size ↔ _
      constructor
      · rintro ⟨hpos, _, hfits⟩
        exact ⟨.slice hfits, hpos⟩
      · rintro ⟨hsound, hpos⟩
        cases hsound with
        | slice hfits => exact ⟨hpos, by omega, hfits⟩

/-- Every buffer of the family is consistent. -/
def Buffers.IsConsistent (f : Buffers) : Prop := ∀ v ∈ f.views, v.IsConsistent
  deriving Decidable

theorem Buffers.isConsistent_iff (f : Buffers) : f.IsConsistent ↔ f.Sound ∧ f.Held := by
  constructor
  · intro h
    exact ⟨fun v hv => ((CopyOnWriteBuffer.isConsistent_iff hv).1 (h v hv)).1,
      fun v hv => ((CopyOnWriteBuffer.isConsistent_iff hv).1 (h v hv)).2⟩
  · rintro ⟨hsound, hheld⟩ v hv
    exact (CopyOnWriteBuffer.isConsistent_iff hv).2 ⟨hsound v hv, hheld v hv⟩

theorem apply_isConsistent_iff {f' : Buffers} {call : Call} (h : f.IsConsistent)
    (hallowed : Allowed f call.op) (hf' : f.apply call = some f') :
    f'.IsConsistent ↔ Keeps f call.op := by
  obtain ⟨hsound, hheld⟩ := f.isConsistent_iff.1 h
  by_cases hgrown : Outgrows f call.op
  · rw [apply_outgrows hsound hallowed hgrown] at hf'
    cases hf'
  · obtain ⟨f₁, hf₁, hsound₁, _, hkeeps⟩ := apply_comes hsound call hallowed hgrown
    cases hf₁.symm.trans hf'
    rw [f'.isConsistent_iff, ← hkeeps hheld]
    exact and_iff_right hsound₁

theorem start_isConsistent : start.IsConsistent := by
  intro v hv
  exact absurd hv not_mem_nil

/-- **Consistency.**  A call on consistent buffers leaves all buffers consistent
exactly if it is one of those that `Keeps` names, and so does a program made of
such calls, in every state that it reaches from there; at the start there are no
buffers. -/
theorem isConsistent_iff_keeps (f : Buffers) (h : f.IsConsistent) :
    (∀ call f', Allowed f call.op → f.apply call = some f' → (f'.IsConsistent ↔ Keeps f call.op)) ∧
    ∀ calls os f', Along step (fun f call => Allowed f call.op ∧ Keeps f call.op) f calls →
      runM step f calls = some (os, f') → f'.IsConsistent := by
  constructor
  · intro call f' hallowed hf'
    exact apply_isConsistent_iff h hallowed hf'
  · intro calls os f' halong hrun
    refine runM_invariant ?_ calls f f' os h halong hrun
    intro f call o f' h hcall hstep
    rw [step, map_eq_some_iff] at hstep
    obtain ⟨f₁, hf₁, heq⟩ := hstep
    cases heq
    exact (apply_isConsistent_iff h hcall.1 hf₁).2 hcall.2

/-- `Clear` of an empty slice at the end of a shared store, and `AppendData` of
zero bytes to an empty buffer, both leave a store without capacity behind. -/
theorem clear_end_slice_inconsistent :
    Along step (fun f call => Allowed f call.op) start
      [⟨fun _ => 0, .createData [1, 2, 3] 3⟩, ⟨fun _ => 0, .slice 0 3 0⟩, ⟨fun _ => 0, .clear 1⟩] ∧
    (runM step start [⟨fun _ => 0, .createData [1, 2, 3] 3⟩, ⟨fun _ => 0, .slice 0 3 0⟩,
      ⟨fun _ => 0, .clear 1⟩]).map (fun r => decide r.2.IsConsistent) = some false ∧
    Along step (fun f call => Allowed f call.op) start
      [⟨fun _ => 0, .create⟩, ⟨fun _ => 0, .appendData 0 []⟩] ∧
    (runM step start [⟨fun _ => 0, .create⟩, ⟨fun _ => 0, .appendData 0 []⟩]).map
      (fun r => decide r.2.IsConsistent) = some false := by
  decide

theorem append_end_slice_consistent :
    ∃ os f', runM step start [⟨fun _ => 0, .createData [1, 2, 3] 3⟩,
        ⟨fun _ => 0, .slice 0 3 0⟩, ⟨fun _ => 0, .appendData 1 [4]⟩,
        ⟨fun _ => 0, .clear 0⟩] = some (os, f') ∧
      f'.values = [[], [4]] ∧ f'.IsConsistent ∧
      ∀ f'', f'.apply ⟨fun _ => 0, .appendData 0 []⟩ = some f'' → f''.IsConsistent := by
  have hconsistent := (isConsistent_iff_keeps start start_isConsistent).2
    [⟨fun _ => 0, .createData [1, 2, 3] 3⟩, ⟨fun _ => 0, .slice 0 3 0⟩,
      ⟨fun _ => 0, .appendData 1 [4]⟩, ⟨fun _ => 0, .clear 0⟩] _ _ (by decide) rfl
  refine ⟨_, _, rfl, rfl, hconsistent, ?_⟩
  intro f'' hf''
  exact ((isConsistent_iff_keeps _ hconsistent).1 _ f'' (by decide) hf'').2 (by decide)

theorem step_acts {values : List (List UInt8)} (call : Call) (h : f.Sound ∧ values = f.values)
    (hcall : Allowed f call.op ∧ ¬Outgrows f call.op) :
    ∃ observed f' values', step f call = some (observed, f') ∧
      (ValueActs values call.op values' ∧ observed = values') ∧ f'.Sound ∧ values' = f'.values := by
  obtain ⟨hsound, rfl⟩ := h
  obtain ⟨f', hf', hsound', hacts, _⟩ := apply_comes hsound call hcall.1 hcall.2
  exact ⟨f'.values, f', f'.values, by rw [step, hf', map_some], ⟨hacts, rfl⟩, hsound', rfl⟩

/-- **Value semantics.**  A call on sound buffers returns and acts on independent
lists exactly if it does not append a buffer that outgrows its store to itself,
and so do programs made of such calls; at the start there are no buffers. -/
theorem value_semantics_iff (f : Buffers) (hsound : f.Sound) :
    (∀ call, Allowed f call.op →
      ((∃ f', f.apply call = some f' ∧ ValueActs f.values call.op f'.values) ↔
        ¬Outgrows f call.op)) ∧
    ∀ calls, Along step (fun f call => Allowed f call.op ∧ ¬Outgrows f call.op) f calls →
      ∃ os f', runM step f calls = some (os, f') ∧ f'.Sound ∧
        Traces (fun values call observed values' =>
          ValueActs values call.op values' ∧ observed = values') f.values calls os f'.values := by
  constructor
  · intro call hallowed
    constructor
    · rintro ⟨f', hf', _⟩ hgrown
      rw [apply_outgrows hsound hallowed hgrown] at hf'
      cases hf'
    · intro hgrown
      obtain ⟨f', hf', _, hacts, _⟩ := apply_comes hsound call hallowed hgrown
      exact ⟨f', hf', hacts⟩
  · intro calls halong
    obtain ⟨os, f', values, hrun, htraces, hsound, rfl⟩ :=
      runM_traces (fun f values => @step_acts f values) calls (And.intro hsound rfl) halong
    exact ⟨os, f', hrun, hsound, htraces⟩

theorem start_sound : start.Sound := by
  intro v hv
  exact absurd hv not_mem_nil

/-- A buffer that fills its store is appended to itself: the bytes are read after
the store is gone. -/
theorem append_self_freed :
    Along step (fun f call => Allowed f call.op) start
      [⟨fun _ => 0, .createData [97, 98, 99] 3⟩, ⟨fun _ => 0, .appendBuffer 0 0⟩] ∧
    runM step start [⟨fun _ => 0, .createData [97, 98, 99] 3⟩,
      ⟨fun _ => 0, .appendBuffer 0 0⟩] = none :=
  ⟨by decide, rfl⟩

theorem append_self_roomy :
    ∃ os f', runM step start [⟨fun _ => 0, .createData [97, 98, 99] 6⟩,
        ⟨fun _ => 0, .appendBuffer 0 0⟩, ⟨fun _ => 0, .copy 0⟩,
        ⟨fun _ => 0, .mutableData 1 2 [120]⟩] = some (os, f') ∧ f'.Sound ∧
      f'.values = [[97, 98, 99, 97, 98, 99], [97, 98, 120, 97, 98, 99]] ∧
      ∃ f'', f'.apply ⟨fun _ => 0, .slice 1 1 2⟩ = some f'' ∧
        ValueActs f'.values (.slice 1 1 2) f''.values := by
  obtain ⟨os, f', hrun, hsound, _⟩ := (value_semantics_iff start start_sound).2
    [⟨fun _ => 0, .createData [97, 98, 99] 6⟩, ⟨fun _ => 0, .appendBuffer 0 0⟩,
      ⟨fun _ => 0, .copy 0⟩, ⟨fun _ => 0, .mutableData 1 2 [120]⟩] (by decide)
  refine ⟨os, f', hrun, hsound, ?_⟩
  cases hrun
  exact ⟨rfl, ((value_semantics_iff _ hsound).1 ⟨fun _ => 0, .slice 1 1 2⟩ (by decide)).2
    (by decide)⟩

end WebrtcCore.Ports.CopyOnWriteBuffer
