import WebrtcCore.Verified.Ring
import WebrtcCore.Verified.Simulation

/-!
# `SwapQueue` under every interleaving (`rtc_base/swap_queue.h`)

One producer calls `Insert`, one consumer calls `Remove` and `Clear`, and only the counter
`num_elements_` is shared.  The port is a system of two threads that take turns: each step is one
access of the source to memory that the other thread can reach, and the accesses to the counter
are sequentially consistent.  A schedule is a list of actions; one that is not possible does
nothing.  The logs in the state are not part of the program.
-/

namespace WebrtcCore.Ports

open Verified Ring Simulation List

/-- The members of `SwapQueue<T>`. -/
structure SwapQueue (α : Type) where
  nextWriteIndex : Nat
  nextReadIndex : Nat
  numElements : Nat
  queue : List α

namespace SwapQueue

variable {α : Type}

/-- The producer in a call of `Insert`: after the load that found room, after
the swap, and after the increment.  `given` is what `*input` was when the call
began, `input` is what it is. -/
inductive Producer (α : Type)
  | idle
  | loaded (input : α)
  | swapped (given input : α)
  | added (given input : α)

/-- The consumer in a call of `Remove`, after its load, swap and decrement, or
in a call of `Clear`, after its exchange. -/
inductive Consumer (α : Type)
  | idle
  | loaded (output : α)
  | swapped (given output : α)
  | subtracted (given output : α)
  | exchanged (count : Nat)

/-- A call that has returned: the argument before, the value returned, and the
argument after. -/
structure Call (α : Type) where
  given : α
  returned : Bool
  left : α

/-- What the consumer counts out: one value, or all there are. -/
inductive Taken (α : Type)
  | removed (value : α)
  | cleared (count : Nat)

/-- The queue, its two threads, and the logs. -/
structure System (α : Type) where
  q : SwapQueue α
  producer : Producer α
  consumer : Consumer α
  inserts : List (Call α)
  removes : List (Call α)
  inserted : List α
  taken : List (Taken α)

/-- The constructors, which differ in how they fill the slots. -/
def created (slots : List α) : System α where
  q := ⟨0, 0, 0, slots⟩
  producer := .idle
  consumer := .idle
  inserts := []
  removes := []
  inserted := []
  taken := []

/-- `++index`, back to zero at the end. -/
def advance (size index : Nat) : Nat := if index + 1 = size then 0 else index + 1

/-- The index update of `Clear`. -/
def skip (size index count : Nat) : Nat :=
  if size ≤ index + count then index + count - size else index + count

/-- `Insert` begins with the load. -/
def beginInsert (s : System α) (input : α) : System α :=
  if s.q.numElements = s.q.queue.length then
    { s with inserts := s.inserts ++ [⟨input, false, input⟩] }
  else { s with producer := .loaded input }

/-- `swap(*input, queue_[next_write_index_])`. -/
def insertSwap (s : System α) (input : α) : Option (System α) :=
  s.q.queue[s.q.nextWriteIndex]?.map fun slot =>
    { s with
      producer := .swapped input slot
      q := { s.q with queue := s.q.queue.set s.q.nextWriteIndex input } }

/-- `atomic_fetch_add` of `Insert`. -/
def insertAdd (s : System α) (given input : α) : System α :=
  { s with
    producer := .added given input
    q := { s.q with numElements := s.q.numElements + 1 }
    inserted := s.inserted ++ [given] }

/-- The index update of `Insert`, and its return. -/
def insertReturn (s : System α) (given input : α) : System α :=
  { s with
    producer := .idle
    q := { s.q with nextWriteIndex := advance s.q.queue.length s.q.nextWriteIndex }
    inserts := s.inserts ++ [⟨given, true, input⟩] }

/-- The next step of the producer. -/
def producerStep (s : System α) : Option (System α) :=
  match s.producer with
  | .idle => some s
  | .loaded input => insertSwap s input
  | .swapped given input => some (insertAdd s given input)
  | .added given input => some (insertReturn s given input)

/-- `Remove` begins with the load. -/
def beginRemove (s : System α) (output : α) : System α :=
  if s.q.numElements = 0 then
    { s with removes := s.removes ++ [⟨output, false, output⟩] }
  else { s with consumer := .loaded output }

/-- `swap(*output, queue_[next_read_index_])`. -/
def removeSwap (s : System α) (output : α) : Option (System α) :=
  s.q.queue[s.q.nextReadIndex]?.map fun slot =>
    { s with
      consumer := .swapped output slot
      q := { s.q with queue := s.q.queue.set s.q.nextReadIndex output } }

/-- `atomic_fetch_sub` of `Remove`; a counter at zero would wrap around. -/
def removeSubtract (s : System α) (given output : α) : Option (System α) :=
  if s.q.numElements = 0 then none
  else some
    { s with
      consumer := .subtracted given output
      q := { s.q with numElements := s.q.numElements - 1 }
      taken := s.taken ++ [.removed output] }

/-- The index update of `Remove`, and its return. -/
def removeReturn (s : System α) (given output : α) : System α :=
  { s with
    consumer := .idle
    q := { s.q with nextReadIndex := advance s.q.queue.length s.q.nextReadIndex }
    removes := s.removes ++ [⟨given, true, output⟩] }

/-- `Clear` begins with the exchange. -/
def beginClear (s : System α) : System α :=
  { s with
    consumer := .exchanged s.q.numElements
    q := { s.q with numElements := 0 }
    taken := s.taken ++ [.cleared s.q.numElements] }

/-- The index update of `Clear`. -/
def clearReturn (s : System α) (count : Nat) : System α :=
  { s with
    consumer := .idle
    q := { s.q with nextReadIndex := skip s.q.queue.length s.q.nextReadIndex count } }

/-- The next step of the consumer. -/
def consumerStep (s : System α) : Option (System α) :=
  match s.consumer with
  | .idle => some s
  | .loaded output => removeSwap s output
  | .swapped given output => removeSubtract s given output
  | .subtracted given output => some (removeReturn s given output)
  | .exchanged count => some (clearReturn s count)

/-- What a schedule is made of: a thread begins a call or goes on with it. -/
inductive Action (α : Type)
  | insert (input : α)
  | producer
  | remove (output : α)
  | clear
  | consumer

/-- One action.  A thread begins a call only when it is in none. -/
def step (s : System α) : Action α → Option (System α)
  | .insert input =>
    match s.producer with
    | .idle => some (beginInsert s input)
    | _ => some s
  | .producer => producerStep s
  | .remove output =>
    match s.consumer with
    | .idle => some (beginRemove s output)
    | _ => some s
  | .clear =>
    match s.consumer with
    | .idle => some (beginClear s)
    | _ => some s
  | .consumer => consumerStep s

/-- A schedule; `none` is an access outside the queue or a counter below zero. -/
def run (s : System α) (actions : List (Action α)) : Option (System α) := exec step s actions

/-! ## The invariant -/

/-- How far the write index is behind the values counted in. -/
def Producer.lead : Producer α → Nat
  | .added _ _ => 1
  | .idle | .loaded _ | .swapped _ _ => 0

/-- How far the read index is behind the values counted out. -/
def Consumer.lag : Consumer α → Nat
  | .subtracted _ _ => 1
  | .exchanged count => count
  | .idle | .loaded _ | .swapped _ _ => 0

/-- The producer is between its load and its update of the counter. -/
def Producer.InSlot : Producer α → Prop
  | .loaded _ | .swapped _ _ => True
  | _ => False

/-- The consumer is between its load and its update of the counter. -/
def Consumer.InSlot : Consumer α → Prop
  | .loaded _ | .swapped _ _ => True
  | _ => False

/-- What the producer relies on: there is room, and a value that it has swapped
in stays where it is. -/
def Producer.Relies (q : SwapQueue α) (contents : List α) : Producer α → Prop
  | .loaded _ => contents.length < q.queue.length
  | .swapped given _ =>
    contents.length < q.queue.length ∧ q.queue[q.nextWriteIndex]? = some given
  | _ => True

/-- What the consumer relies on: the slots from the read index on are the
contents, of which the first is in its hand after the swap. -/
def Consumer.Relies (q : SwapQueue α) (contents : List α) : Consumer α → Prop
  | .loaded _ => contents ≠ [] ∧ Holds q.queue q.nextReadIndex contents
  | .swapped _ output =>
    ∃ rest, contents = output :: rest ∧ Holds q.queue (q.nextReadIndex + 1) rest
  | consumer => Holds q.queue (q.nextReadIndex + consumer.lag) contents

/-- What holds between any two steps. -/
structure Layout (n : Nat) (s : System α) (contents : List α) : Prop where
  size : s.q.queue.length = n
  count : s.q.numElements = contents.length
  count_le : contents.length ≤ n
  read_lt : s.q.nextReadIndex < n
  write_lt : s.q.nextWriteIndex < n
  lag_le : s.consumer.lag ≤ n
  aligned : (s.q.nextReadIndex + s.consumer.lag + contents.length) % n =
    (s.q.nextWriteIndex + s.producer.lead) % n
  producer : s.producer.Relies s.q contents
  consumer : s.consumer.Relies s.q contents

variable {n : Nat}

theorem advance_lt {index : Nat} (h : index < n) : advance n index < n := by
  unfold advance
  split <;> omega

theorem advance_mod (n index : Nat) : advance n index % n = (index + 1) % n := by
  unfold advance
  split
  case isTrue heq => rw [heq, Nat.mod_self, Nat.zero_mod]
  case isFalse => rfl

theorem skip_lt {index count : Nat} (h : index < n) (hcount : count ≤ n) :
    skip n index count < n := by
  unfold skip
  split <;> omega

theorem skip_mod (n index count : Nat) : skip n index count % n = (index + count) % n := by
  unfold skip
  split
  case isTrue hle => rw [Nat.mod_eq_sub_mod hle]
  case isFalse => rfl

section Steps

variable {n : Nat} {s : System α} {contents : List α}

theorem Layout.write_eq (h : Layout n s contents) (hlead : s.producer.lead = 0) :
    s.q.nextWriteIndex =
      (s.q.nextReadIndex + s.consumer.lag + contents.length) % s.q.queue.length := by
  rw [h.size, h.aligned, hlead, Nat.add_zero, Nat.mod_eq_of_lt h.write_lt]

theorem Consumer.Relies.set_write {x : α} (h : Layout n s contents)
    (hroom : contents.length < n) (hlead : s.producer.lead = 0) :
    s.consumer.Relies { s.q with queue := s.q.queue.set s.q.nextWriteIndex x } contents := by
  rw [h.write_eq hlead]
  have hconsumer := h.consumer
  have hsize := h.size
  cases hc : s.consumer with
  | loaded output =>
    rw [hc] at hconsumer
    exact ⟨hconsumer.1, hconsumer.2.set_outside x (Nat.le_refl _) (by omega)⟩
  | swapped given output =>
    rw [hc] at hconsumer
    obtain ⟨rest, rfl, hholds⟩ := hconsumer
    refine ⟨rest, rfl, ?_⟩
    rw [length_cons, Nat.add_comm rest.length, ← Nat.add_assoc]
    rw [length_cons] at hroom
    exact hholds.set_outside x (Nat.le_refl _) (by omega)
  | idle | subtracted given output | exchanged count =>
    rw [hc] at hconsumer
    exact Holds.set_outside x hconsumer (Nat.le_refl _) (by omega)

theorem Consumer.Relies.push {x : α} (h : Layout n s contents)
    (hlead : s.producer.lead = 0) (hx : s.q.queue[s.q.nextWriteIndex]? = some x) :
    s.consumer.Relies s.q (contents ++ [x]) := by
  have hconsumer := h.consumer
  rw [h.write_eq hlead] at hx
  cases hc : s.consumer with
  | loaded output =>
    rw [hc] at hconsumer hx
    exact ⟨append_ne_nil_of_right_ne_nil _ (cons_ne_nil _ _), hconsumer.2.push hx⟩
  | swapped given output =>
    rw [hc] at hconsumer hx
    obtain ⟨rest, rfl, hholds⟩ := hconsumer
    refine ⟨rest ++ [x], rfl, hholds.push ?_⟩
    rw [length_cons, Nat.add_comm rest.length, ← Nat.add_assoc] at hx
    exact hx
  | idle | subtracted given output | exchanged count =>
    rw [hc] at hconsumer hx
    exact Holds.push hconsumer hx

variable (h : Layout n s contents)
include h

theorem Layout.room (hp : s.producer.InSlot) : contents.length < n ∧ s.producer.lead = 0 := by
  obtain ⟨q, producer, _, _, _, _, _⟩ := s
  cases producer with
  | loaded input => exact ⟨h.size ▸ h.producer, rfl⟩
  | swapped given input => exact ⟨h.size ▸ h.producer.1, rfl⟩
  | idle | added given input => exact hp.elim

theorem Layout.pending (hc : s.consumer.InSlot) : 0 < contents.length ∧ s.consumer.lag = 0 := by
  obtain ⟨q, _, consumer, _, _, _, _⟩ := s
  cases consumer with
  | loaded output => exact ⟨length_pos_iff.2 h.consumer.1, rfl⟩
  | swapped given output =>
    obtain ⟨rest, rfl, _⟩ := h.consumer
    exact ⟨Nat.succ_pos _, rfl⟩
  | idle | subtracted given output | exchanged count => exact hc.elim

theorem Layout.slots_ne (hp : s.producer.InSlot) (hc : s.consumer.InSlot) :
    s.q.nextWriteIndex ≠ s.q.nextReadIndex := by
  have hroom := h.room hp
  have hpending := h.pending hc
  rw [h.write_eq hroom.2, hpending.2, Nat.add_zero, h.size]
  intro heq
  apply offset_ne s.q.nextReadIndex hroom.1 (by omega) (Nat.ne_of_gt hpending.1)
  rw [heq, Nat.add_zero, Nat.mod_eq_of_lt h.read_lt]

theorem beginInsert_layout (hidle : s.producer = .idle) (input : α) :
    Layout n (beginInsert s input) contents := by
  cases s
  cases hidle
  unfold beginInsert
  split
  case isTrue => exact { h with }
  case isFalse hroom =>
    rw [h.count] at hroom
    exact { h with producer := Nat.lt_of_le_of_ne (h.size ▸ h.count_le) hroom }

omit h

variable {input given output : α}

variable (h : Layout n s contents)
include h

theorem insertSwap_layout (hloaded : s.producer = .loaded input) :
    ∃ s', insertSwap s input = some s' ∧ Layout n s' contents := by
  have hwrite := h.size ▸ h.write_lt
  cases s
  cases hloaded
  refine ⟨_, by rw [insertSwap, getElem?_eq_getElem hwrite, Option.map_some], ?_⟩
  exact
    { h with
      size := (length_set).trans h.size
      producer := ⟨(length_set).symm ▸ h.producer, getElem?_set_self hwrite⟩
      consumer := Consumer.Relies.set_write h (h.size ▸ h.producer) rfl }

theorem insertAdd_layout (hswapped : s.producer = .swapped given input) :
    Layout n (insertAdd s given input) (contents ++ [given]) := by
  cases s
  cases hswapped
  have hconsumer := Consumer.Relies.push h rfl h.producer.2
  exact
    { h with
      count := by
        rw [length_append, ← h.count]
        rfl
      count_le := by
        rw [length_append, ← h.size]
        exact h.producer.1
      aligned := by
        rw [length_append, ← Nat.add_assoc, Nat.add_mod]
        exact (congrArg (fun i => (i + 1 % n) % n) h.aligned).trans (Nat.add_mod _ 1 n).symm
      producer := trivial
      consumer := hconsumer }

theorem insertReturn_layout (hadded : s.producer = .added given input) :
    Layout n (insertReturn s given input) contents := by
  cases s
  cases hadded
  have hsize := h.size
  subst hsize
  exact
    { h with
      write_lt := advance_lt h.write_lt
      aligned := h.aligned.trans (advance_mod _ _).symm
      producer := trivial }

theorem beginRemove_layout (hidle : s.consumer = .idle) (output : α) :
    Layout n (beginRemove s output) contents := by
  cases s
  cases hidle
  unfold beginRemove
  split
  case isTrue => exact { h with }
  case isFalse hcount =>
    rw [h.count] at hcount
    exact { h with consumer := ⟨length_pos_iff.1 (Nat.pos_of_ne_zero hcount), h.consumer⟩ }

theorem removeSwap_layout (hloaded : s.consumer = .loaded output) :
    ∃ s', removeSwap s output = some s' ∧ Layout n s' contents := by
  obtain ⟨q, producer, consumer, _, _, _, _⟩ := s
  cases hloaded
  obtain ⟨hne, hholds⟩ := h.consumer
  cases contents with
  | nil => exact absurd rfl hne
  | cons front rest =>
    have hle := h.count_le
    have hsize := h.size
    rw [length_cons] at hle
    have hfront := hholds.head
    rw [h.size, Nat.mod_eq_of_lt h.read_lt] at hfront
    have hset := hholds.tail.set_before output (by omega)
    rw [h.size, Nat.mod_eq_of_lt h.read_lt] at hset
    refine ⟨_, by rw [removeSwap, hfront, Option.map_some], ?_⟩
    exact
      { h with
        size := (length_set).trans h.size
        producer := by
          cases producer with
          | loaded input => exact Nat.lt_of_lt_of_eq h.producer (length_set).symm
          | swapped given input =>
            have hslots := h.slots_ne trivial trivial
            exact ⟨Nat.lt_of_lt_of_eq h.producer.1 (length_set).symm,
              (getElem?_set_ne hslots.symm).trans h.producer.2⟩
          | idle | added given input => trivial
        consumer := ⟨rest, rfl, hset⟩ }

omit h

theorem Producer.Relies.of_length_le {q : SwapQueue α} {contents' : List α}
    {producer : Producer α} (h : producer.Relies q contents)
    (hle : contents'.length ≤ contents.length) : producer.Relies q contents' := by
  cases producer with
  | loaded input => exact Nat.lt_of_le_of_lt hle h
  | swapped given input => exact ⟨Nat.lt_of_le_of_lt hle h.1, h.2⟩
  | idle | added given input => trivial

variable (h : Layout n s contents)
include h

theorem removeSubtract_layout (hswapped : s.consumer = .swapped given output) :
    ∃ s' rest, removeSubtract s given output = some s' ∧ contents = output :: rest ∧
      Layout n s' rest := by
  cases s
  cases hswapped
  obtain ⟨rest, rfl, hholds⟩ := h.consumer
  have hcount := h.count
  have hle := h.count_le
  have haligned := h.aligned
  have hproducer := h.producer.of_length_le (Nat.le_succ rest.length)
  rw [length_cons] at hcount hle haligned
  refine ⟨_, rest, by rw [removeSubtract, if_neg (by omega)], rfl, ?_⟩
  exact
    { h with
      count := Nat.sub_eq_of_eq_add hcount
      count_le := by omega
      lag_le := Nat.le_trans (Nat.le_add_left 1 _) hle
      aligned := by
        rw [← haligned, Consumer.lag, Nat.add_right_comm _ 1]
        rfl
      producer := hproducer
      consumer := hholds }

theorem Layout.catch_up {index : Nat} (hlt : index < n)
    (hindex : index % n = (s.q.nextReadIndex + s.consumer.lag) % n)
    (hholds : Holds s.q.queue (s.q.nextReadIndex + s.consumer.lag) contents)
    (removes : List (Call α)) :
    Layout n
      { s with
        consumer := .idle
        q := { s.q with nextReadIndex := index }
        removes := removes } contents :=
  { h with
    read_lt := hlt
    lag_le := Nat.zero_le n
    aligned := by
      show (index + contents.length) % n = _
      rw [Nat.add_mod, hindex, ← Nat.add_mod]
      exact h.aligned
    consumer := hholds.congr_start (by rw [h.size]; exact hindex.symm) }

theorem removeReturn_layout (hsubtracted : s.consumer = .subtracted given output) :
    Layout n (removeReturn s given output) contents := by
  cases s
  cases hsubtracted
  have hsize := h.size
  subst hsize
  exact h.catch_up (advance_lt h.read_lt) (advance_mod _ _) h.consumer _

theorem beginClear_layout (hidle : s.consumer = .idle) : Layout n (beginClear s) [] := by
  cases s
  cases hidle
  have hproducer : Producer.Relies _ [] _ := h.producer.of_length_le (Nat.zero_le _)
  exact
    { h with
      count := rfl
      count_le := Nat.zero_le n
      lag_le := Nat.le_trans (Nat.le_of_eq h.count) h.count_le
      aligned := (congrArg (fun i => (_ + i) % n) h.count).trans h.aligned
      producer := hproducer
      consumer := Holds.nil _ _ }

theorem clearReturn_layout {count : Nat} (hexchanged : s.consumer = .exchanged count) :
    Layout n (clearReturn s count) contents := by
  cases s
  cases hexchanged
  have hsize := h.size
  subst hsize
  exact h.catch_up (skip_lt h.read_lt h.lag_le) (skip_mod _ _ _) h.consumer _

omit h

end Steps

theorem created_layout {slots : List α} (h : 1 ≤ slots.length) :
    Layout slots.length (created slots) [] where
  size := rfl
  count := rfl
  count_le := Nat.zero_le _
  read_lt := h
  write_lt := h
  lag_le := Nat.zero_le _
  aligned := rfl
  producer := trivial
  consumer := Holds.nil _ _

/-! ## The logs -/

/-- Counting out what was taken, in order, from the values counted in leaves the
rest. -/
def Drains : List (Taken α) → List α → List α → Prop
  | [], values, rest => values = rest
  | .removed value :: taken, values, rest =>
    ∃ values', values = value :: values' ∧ Drains taken values' rest
  | .cleared count :: taken, values, rest =>
    count ≤ values.length ∧ Drains taken (values.drop count) rest

namespace Drains

theorem insert (x : α) (taken : List (Taken α)) :
    ∀ {values rest : List α}, Drains taken values rest →
      Drains taken (values ++ [x]) (rest ++ [x]) := by
  intro values rest h
  induction taken generalizing values with
  | nil => exact congrArg (· ++ [x]) h
  | cons t taken ih =>
    cases t with
    | removed value =>
      obtain ⟨values', rfl, h⟩ := h
      exact ⟨values' ++ [x], rfl, ih h⟩
    | cleared count =>
      refine ⟨?_, ?_⟩
      · rw [length_append]
        exact Nat.le_trans h.1 (Nat.le_add_right _ _)
      · rw [drop_append_of_le_length h.1]
        exact ih h.2

theorem append {taken' : List (Taken α)} (taken : List (Taken α)) :
    ∀ {values middle rest : List α}, Drains taken values middle → Drains taken' middle rest →
      Drains (taken ++ taken') values rest := by
  intro values middle rest h h'
  induction taken generalizing values with
  | nil =>
    cases h
    exact h'
  | cons t taken ih =>
    cases t with
    | removed value =>
      obtain ⟨values', hvalues, h⟩ := h
      exact ⟨values', hvalues, ih h⟩
    | cleared count => exact ⟨h.1, ih h.2⟩

end Drains

/-- The value of an `Insert` that was counted in and has not returned. -/
def Producer.returning : Producer α → List α
  | .added given _ => [given]
  | .idle | .loaded _ | .swapped _ _ => []

/-- The value of a `Remove` that was counted out and has not returned. -/
def Consumer.returning : Consumer α → List α
  | .subtracted _ output => [output]
  | .idle | .loaded _ | .swapped _ _ | .exchanged _ => []

def Taken.value? : Taken α → Option α
  | .removed value => some value
  | .cleared _ => none

/-- The arguments that successful `Insert`s were given. -/
def insertedBy (calls : List (Call α)) : List α := (calls.filter Call.returned).map Call.given

/-- The values that successful `Remove`s left in their argument. -/
def removedBy (calls : List (Call α)) : List α := (calls.filter Call.returned).map Call.left

/-- The logs agree with each other and with the contents. -/
structure Logged (s : System α) (contents : List α) : Prop where
  drains : Drains s.taken s.inserted contents
  inserts : insertedBy s.inserts ++ s.producer.returning = s.inserted
  removes : removedBy s.removes ++ s.consumer.returning = s.taken.filterMap Taken.value?
  untouched : ∀ call ∈ s.inserts ++ s.removes, call.returned = false → call.left = call.given

section Logs

variable {s s' : System α} {contents : List α}

theorem map_returned_append (f : Call α → α) (calls : List (Call α)) (call : Call α) :
    ((calls ++ [call]).filter Call.returned).map f =
      (calls.filter Call.returned).map f ++ if call.returned then [f call] else [] := by
  cases hreturned : call.returned <;> simp [hreturned]

variable {call : Call α} {input given output : α}

variable (h : Logged s contents)
include h

theorem Logged.untouched_of_mem {calls : List (Call α)}
    (hcall : call.returned = false → call.left = call.given)
    (hcalls : ∀ c ∈ calls, c = call ∨ c ∈ s.inserts ++ s.removes) :
    ∀ c ∈ calls, c.returned = false → c.left = c.given := by
  intro c hc
  cases hcalls c hc with
  | inl heq => exact heq ▸ hcall
  | inr hold => exact h.untouched c hold

theorem Logged.untouched_inserts (hcall : call.returned = false → call.left = call.given) :
    ∀ c ∈ (s.inserts ++ [call]) ++ s.removes, c.returned = false → c.left = c.given :=
  h.untouched_of_mem hcall (by grind)

theorem Logged.untouched_removes (hcall : call.returned = false → call.left = call.given) :
    ∀ c ∈ s.inserts ++ (s.removes ++ [call]), c.returned = false → c.left = c.given :=
  h.untouched_of_mem hcall (by grind)

theorem beginInsert_logged (hidle : s.producer = .idle) (input : α) :
    Logged (beginInsert s input) contents := by
  cases s
  cases hidle
  unfold beginInsert
  split
  case isTrue =>
    exact
      { h with
        inserts := by simpa [insertedBy] using h.inserts
        untouched := h.untouched_inserts fun _ => rfl }
  case isFalse => exact { h with }

theorem insertSwap_logged (hloaded : s.producer = .loaded input)
    (hs' : insertSwap s input = some s') :
    Logged s' contents := by
  cases s
  cases hloaded
  obtain ⟨slot, _, rfl⟩ := Option.map_eq_some_iff.1 hs'
  exact { h with }

theorem insertAdd_logged (hswapped : s.producer = .swapped given input) :
    Logged (insertAdd s given input) (contents ++ [given]) := by
  cases s
  cases hswapped
  exact
    { h with
      drains := h.drains.insert given
      inserts := congrArg (· ++ [given]) ((append_nil _).symm.trans h.inserts) }

theorem insertReturn_logged (hadded : s.producer = .added given input) :
    Logged (insertReturn s given input) contents := by
  cases s
  cases hadded
  exact
    { h with
      inserts := by
        show insertedBy (_ ++ [⟨given, true, input⟩]) ++ [] = _
        rw [insertedBy, map_returned_append, append_nil]
        exact h.inserts
      untouched := h.untouched_inserts (by intro hreturned; cases hreturned) }

theorem beginRemove_logged (hidle : s.consumer = .idle) (output : α) :
    Logged (beginRemove s output) contents := by
  cases s
  cases hidle
  unfold beginRemove
  split
  case isTrue =>
    exact
      { h with
        removes := by simpa [removedBy] using h.removes
        untouched := h.untouched_removes fun _ => rfl }
  case isFalse => exact { h with }

theorem removeSwap_logged (hloaded : s.consumer = .loaded output)
    (hs' : removeSwap s output = some s') :
    Logged s' contents := by
  cases s
  cases hloaded
  obtain ⟨slot, _, rfl⟩ := Option.map_eq_some_iff.1 hs'
  exact { h with }

omit h

theorem removeSubtract_logged (h : Logged s (output :: contents))
    (hswapped : s.consumer = .swapped given output)
    (hs' : removeSubtract s given output = some s') : Logged s' contents := by
  cases s
  cases hswapped
  unfold removeSubtract at hs'
  split at hs'
  case isTrue => cases hs'
  case isFalse =>
    cases hs'
    exact
      { h with
        drains := Drains.append _ h.drains ⟨contents, rfl, rfl⟩
        removes := by
          rw [filterMap_append]
          exact congrArg (· ++ [output]) ((append_nil _).symm.trans h.removes) }

theorem removeReturn_logged (h : Logged s contents)
    (hsubtracted : s.consumer = .subtracted given output) :
    Logged (removeReturn s given output) contents := by
  cases s
  cases hsubtracted
  exact
    { h with
      removes := by
        show removedBy (_ ++ [⟨given, true, output⟩]) ++ [] = _
        rw [removedBy, map_returned_append, append_nil]
        exact h.removes
      untouched := h.untouched_removes (by intro hreturned; cases hreturned) }

theorem beginClear_logged (h : Logged s contents) (hidle : s.consumer = .idle)
    (hcount : s.q.numElements = contents.length) : Logged (beginClear s) [] := by
  cases s
  cases hidle
  exact
    { h with
      drains := by
        rw [beginClear, hcount]
        exact Drains.append _ h.drains ⟨Nat.le_refl _, drop_length⟩
      removes := by
        rw [beginClear, filterMap_append]
        exact h.removes.trans (append_nil _).symm }

theorem clearReturn_logged (h : Logged s contents) {count : Nat}
    (hexchanged : s.consumer = .exchanged count) : Logged (clearReturn s count) contents := by
  cases s
  cases hexchanged
  exact { h with }

end Logs

/-! ## Schedules -/

/-- The state of a queue with `n` slots that works. -/
def Works (n : Nat) (s : System α) : Prop := ∃ contents, Layout n s contents ∧ Logged s contents

theorem producerStep_works {s : System α} (h : Works n s) :
    ∃ s', producerStep s = some s' ∧ Works n s' := by
  obtain ⟨contents, hlayout, hlogged⟩ := h
  unfold producerStep
  split
  case h_1 => exact ⟨s, rfl, contents, hlayout, hlogged⟩
  case h_2 input hloaded =>
    obtain ⟨s', hs', hlayout'⟩ := insertSwap_layout hlayout hloaded
    exact ⟨s', hs', contents, hlayout', insertSwap_logged hlogged hloaded hs'⟩
  case h_3 given input hswapped =>
    exact ⟨_, rfl, _, insertAdd_layout hlayout hswapped, insertAdd_logged hlogged hswapped⟩
  case h_4 given input hadded =>
    exact ⟨_, rfl, _, insertReturn_layout hlayout hadded, insertReturn_logged hlogged hadded⟩

theorem consumerStep_works {s : System α} (h : Works n s) :
    ∃ s', consumerStep s = some s' ∧ Works n s' := by
  obtain ⟨contents, hlayout, hlogged⟩ := h
  unfold consumerStep
  split
  case h_1 => exact ⟨s, rfl, contents, hlayout, hlogged⟩
  case h_2 output hloaded =>
    obtain ⟨s', hs', hlayout'⟩ := removeSwap_layout hlayout hloaded
    exact ⟨s', hs', contents, hlayout', removeSwap_logged hlogged hloaded hs'⟩
  case h_3 given output hswapped =>
    obtain ⟨s', rest, hs', rfl, hlayout'⟩ := removeSubtract_layout hlayout hswapped
    exact ⟨s', hs', rest, hlayout', removeSubtract_logged hlogged hswapped hs'⟩
  case h_4 given output hsubtracted =>
    exact ⟨_, rfl, _, removeReturn_layout hlayout hsubtracted,
      removeReturn_logged hlogged hsubtracted⟩
  case h_5 count hexchanged =>
    exact ⟨_, rfl, _, clearReturn_layout hlayout hexchanged, clearReturn_logged hlogged hexchanged⟩

theorem step_works (s : System α) (action : Action α) (h : Works n s) :
    ∃ s', step s action = some s' ∧ Works n s' := by
  cases action with
  | producer => exact producerStep_works h
  | consumer => exact consumerStep_works h
  | insert input =>
    simp only [step]
    split
    case h_1 hidle =>
      obtain ⟨contents, hlayout, hlogged⟩ := h
      exact ⟨_, rfl, contents, beginInsert_layout hlayout hidle input,
        beginInsert_logged hlogged hidle input⟩
    case h_2 => exact ⟨s, rfl, h⟩
  | remove output =>
    simp only [step]
    split
    case h_1 hidle =>
      obtain ⟨contents, hlayout, hlogged⟩ := h
      exact ⟨_, rfl, contents, beginRemove_layout hlayout hidle output,
        beginRemove_logged hlogged hidle output⟩
    case h_2 => exact ⟨s, rfl, h⟩
  | clear =>
    simp only [step]
    split
    case h_1 hidle =>
      obtain ⟨contents, hlayout, hlogged⟩ := h
      exact ⟨_, rfl, [], beginClear_layout hlayout hidle,
        beginClear_logged hlogged hidle hlayout.count⟩
    case h_2 => exact ⟨s, rfl, h⟩

/-- **First in, first out.**  Whatever the schedule, a queue of at least one slot
makes no access outside its slots; its counter stays between zero and the number
of slots and both indices below it; the threads are never between load and
update on one slot; what was counted out is, in order, what was counted in,
values or numbers of values that a `Clear` discards, and as many values are left
as the counter says; the calls that returned are the ones that were counted, up
to the one that is about to return; and a call that failed left its argument
alone. -/
theorem swapQueue_fifo {α : Type} (slots : List α) (h : 1 ≤ slots.length)
    (actions : List (Action α)) :
    ∃ s, run (created slots) actions = some s ∧ s.q.numElements ≤ slots.length ∧
      s.q.nextReadIndex < slots.length ∧ s.q.nextWriteIndex < slots.length ∧
      (s.producer.InSlot → s.consumer.InSlot → s.q.nextWriteIndex ≠ s.q.nextReadIndex) ∧
      (∃ contents, Drains s.taken s.inserted contents ∧ contents.length = s.q.numElements) ∧
      insertedBy s.inserts ++ s.producer.returning = s.inserted ∧
      removedBy s.removes ++ s.consumer.returning = s.taken.filterMap Taken.value? ∧
      (∀ call ∈ s.inserts ++ s.removes, call.returned = false → call.left = call.given) := by
  have hcreated : Works slots.length (created slots) :=
    ⟨[], created_layout h, rfl, rfl, rfl, fun _ hmem => absurd hmem not_mem_nil⟩
  obtain ⟨s, hs, contents, hlayout, hlogged⟩ := exec_keeps step_works actions hcreated
  refine ⟨s, hs, ?_, hlayout.read_lt, hlayout.write_lt, hlayout.slots_ne,
    ⟨contents, hlogged.drains, hlayout.count.symm⟩, hlogged.inserts, hlogged.removes,
    hlogged.untouched⟩
  rw [hlayout.count]
  exact hlayout.count_le

/-- A queue of two slots that runs full and around its end. -/
theorem swapQueue_fifo_two :
    ∃ s, run (created [0, 0])
        [.insert 1, .producer, .producer, .producer, .insert 2, .producer, .producer,
          .remove 0, .consumer, .insert 9, .consumer, .producer, .consumer,
          .insert 3, .producer, .producer, .clear, .producer, .consumer] = some s ∧
      s.q.numElements ≤ 2 ∧ removedBy s.removes ++ s.consumer.returning =
        s.taken.filterMap Taken.value? := by
  obtain ⟨s, hs, hcount, _, _, _, _, _, hremoves, _⟩ :=
    swapQueue_fifo [0, 0] (by decide) [.insert 1, .producer, .producer, .producer, .insert 2,
      .producer, .producer, .remove 0, .consumer, .insert 9, .consumer, .producer, .consumer,
      .insert 3, .producer, .producer, .clear, .producer, .consumer]
  exact ⟨s, hs, hcount, hremoves⟩

end SwapQueue

end WebrtcCore.Ports
