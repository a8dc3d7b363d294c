import Mathlib.Algebra.Group.Int.Defs
import Mathlib.Algebra.Group.Nat.Defs

/-!
# C arithmetic and block copies

The ports follow sources whose behaviour depends on fixed-width arithmetic and the bounds of an
allocation, which `Nat` and `List` hide.

* `size_t` values are natural numbers below `2 ^ 64`; subtraction wraps (`sizeSub`).
* `int` and `int64_t` values are integers; a result outside of the type yields `none` (`int32`,
  `int64`).
* An allocation is a list.  `memcpyFrom` reads a block and `memcpyTo` writes one; both yield
  `none` when the block leaves the allocation.

`none` always means *undefined behaviour*, so a theorem that a ported function returns `some`
says that every access it makes is in bounds.
-/

namespace WebrtcCore.Verified.CMemory

open List

/-- What follows is undefined, or is not reached, unless the condition holds. -/
def demand (p : Prop) [Decidable p] : Option Unit := if p then some () else none

@[simp] theorem demand_eq_some_iff {p : Prop} [Decidable p] {u : Unit} : demand p = some u ↔ p := by
  unfold demand
  split <;> simp_all

theorem demand_of {p : Prop} [Decidable p] (h : p) : demand p = some () := if_pos h

/-- A debug check, in a build with or without them. -/
def dcheck (isOn : Bool) (p : Prop) [Decidable p] : Option Unit := demand (isOn = true → p)

theorem dcheck_of {isOn : Bool} {p : Prop} [Decidable p] (h : p) : dcheck isOn p = some () :=
  demand_of fun _ => h

/-! ## `size_t` -/

/-- `a - b` on `size_t`: the difference modulo `2 ^ 64`. -/
def sizeSub (a b : Nat) : Nat := (a + (2 ^ 64 - b % 2 ^ 64)) % 2 ^ 64

/-- `a + b` on `size_t`. -/
def sizeAdd (a b : Nat) : Nat := (a + b) % 2 ^ 64

/-- `a * b` on `size_t`. -/
def sizeMul (a b : Nat) : Nat := a * b % 2 ^ 64

variable {a b : Nat} {x : Int}

theorem sizeSub_of_le (hab : b ≤ a) (ha : a < 2 ^ 64) : sizeSub a b = a - b := by
  unfold sizeSub
  omega

theorem sizeSub_of_lt (hab : a < b) (hb : b < 2 ^ 64) : sizeSub a b = 2 ^ 64 - (b - a) := by
  unfold sizeSub
  omega

theorem sizeAdd_of_lt (h : a + b < 2 ^ 64) : sizeAdd a b = a + b := Nat.mod_eq_of_lt h

/-! ## `int` and `int64_t` -/

/-- The values an `int` can hold. -/
def InInt (x : Int) : Prop := -2 ^ 31 ≤ x ∧ x < 2 ^ 31
  deriving Decidable

/-- The values an `int64_t` can hold. -/
def InInt64 (x : Int) : Prop := -2 ^ 63 ≤ x ∧ x < 2 ^ 63
  deriving Decidable

theorem InInt.inInt64 (h : InInt x) : InInt64 x := by
  obtain ⟨hlo, hhi⟩ := h
  constructor <;> omega

theorem InInt.bmod_eq (h : InInt x) : x.bmod (2 ^ 32) = x := by
  obtain ⟨hlo, hhi⟩ := h
  rw [Int.bmod_def]
  omega

/-- The conversion `(int) x` of a `size_t`. -/
def intOfSize (x : Nat) : Int := Int.bmod (x : Int) (2 ^ 32)

/-- The conversion `(size_t) x` of an `int`. -/
def sizeOfInt (x : Int) : Nat := (x % 2 ^ 64).toNat

/-- A result of `int` arithmetic; overflow is undefined behaviour. -/
def int32 (x : Int) : Option Int := if InInt x then some x else none

/-- A result of `int64_t` arithmetic. -/
def int64 (x : Int) : Option Int := if InInt64 x then some x else none

/-- `int` addition. -/
def intAdd (a b : Int) : Option Int := int32 (a + b)

/-- `int` subtraction. -/
def intSub (a b : Int) : Option Int := int32 (a - b)

/-- `int64_t` division, towards zero. -/
def int64Div (a b : Int) : Option Int := if b = 0 then none else int64 (a.tdiv b)

theorem intOfSize_of_lt {x : Nat} (h : x < 2 ^ 31) : intOfSize x = x := by
  unfold intOfSize
  rw [Int.bmod_def]
  omega

theorem sizeOfInt_of_nonneg (h0 : 0 ≤ x) (h : x < 2 ^ 64) : sizeOfInt x = x.toNat := by
  unfold sizeOfInt
  omega

theorem int32_of (h : InInt x) : int32 x = some x := if_pos h

theorem int32_eq_none (h : ¬InInt x) : int32 x = none := if_neg h

theorem int64_of (h : InInt64 x) : int64 x = some x := if_pos h

theorem int64Div_of {a b : Int} (hb : b ≠ 0) (h : InInt64 (a.tdiv b)) :
    int64Div a b = some (a.tdiv b) := by
  rw [int64Div, if_neg hb, int64_of h]

theorem intAdd_eq_some {a b : Int} (h : InInt (a + b)) : intAdd a b = some (a + b) := int32_of h

theorem intAdd_eq_none {a b : Int} (h : ¬InInt (a + b)) : intAdd a b = none := int32_eq_none h

theorem intSub_eq_some {a b : Int} (h : InInt (a - b)) : intSub a b = some (a - b) := int32_of h

/-! ## Block copies -/

section Copy

variable {α : Type}

/-- The source operand of a `memcpy`: `count` elements from element `pos`
of an allocation. -/
def memcpyFrom (src : List α) (pos count : Nat) : Option (List α) :=
  if pos + count ≤ src.length then some ((src.drop pos).take count) else none

/-- `dst` with the elements from element `pos` on replaced by `block`. -/
def overwrite (dst : List α) (pos : Nat) (block : List α) : List α :=
  dst.take pos ++ block ++ dst.drop (pos + block.length)

/-- The destination operand of a `memcpy`: overwrite the elements from
element `pos` of an allocation by `block`. -/
def memcpyTo (dst : List α) (pos : Nat) (block : List α) : Option (List α) :=
  if pos + block.length ≤ dst.length then some (overwrite dst pos block)
  else none

variable {dst block src : List α} {pos count : Nat}

theorem overwrite_length (h : pos + block.length ≤ dst.length) :
    (overwrite dst pos block).length = dst.length := by
  simp [overwrite]
  omega

theorem mem_of_mem_overwrite {x : α} (h : x ∈ overwrite dst pos block) : x ∈ dst ∨ x ∈ block := by
  rw [overwrite, append_assoc, mem_append, mem_append] at h
  cases h with
  | inl h => exact .inl (mem_of_mem_take h)
  | inr h => exact h.symm.imp mem_of_mem_drop id

theorem overwrite_take_add (block : List α) (h : pos ≤ dst.length) :
    (overwrite dst pos block).take (pos + block.length) = dst.take pos ++ block := by
  have hlen : (dst.take pos ++ block).length = pos + block.length := by
    rw [length_append, length_take_of_le h]
  rw [overwrite, take_left' hlen]

theorem getElem?_overwrite (h : pos + block.length ≤ dst.length) (i : Nat) :
    (overwrite dst pos block)[i]? =
      if pos ≤ i ∧ i < pos + block.length then block[i - pos]? else dst[i]? := by
  have hpos : (dst.take pos).length = pos := length_take_of_le (by omega)
  unfold overwrite
  rw [append_assoc]
  rcases Nat.lt_or_ge i pos with hlt | hge
  · rw [getElem?_append_left (by omega), getElem?_take_of_lt hlt, if_neg (by omega)]
  · rw [getElem?_append_right (by omega), hpos]
    rcases Nat.lt_or_ge i (pos + block.length) with hin | hout
    · rw [getElem?_append_left (by omega), if_pos ⟨hge, hin⟩]
    · rw [getElem?_append_right (by omega), getElem?_drop, if_neg (by omega)]
      congr 1
      omega

theorem overwrite_nil (dst : List α) (pos : Nat) : overwrite dst pos [] = dst := by simp [overwrite]

theorem overwrite_append {block' : List α} (h : pos + (block ++ block').length ≤ dst.length) :
    overwrite (overwrite dst pos block) (pos + block.length) block' =
      overwrite dst pos (block ++ block') := by
  rw [length_append] at h
  apply ext_getElem?
  intro i
  rw [getElem?_overwrite (by rw [overwrite_length (by omega)]; omega),
    getElem?_overwrite (by omega),
    getElem?_overwrite (by rw [length_append]; omega), length_append]
  by_cases hfirst : pos ≤ i ∧ i < pos + block.length
  · rw [if_neg (by omega), if_pos hfirst, if_pos (by omega), getElem?_append_left (by omega)]
  · by_cases hsecond : pos + block.length ≤ i ∧ i < pos + block.length + block'.length
    · rw [if_pos hsecond, if_pos (by omega), getElem?_append_right (by omega)]
      congr 1
      omega
    · rw [if_neg hsecond, if_neg hfirst, if_neg (by omega)]

theorem overwrite_append_left (front dst block : List α) (pos : Nat) :
    overwrite (front ++ dst) (front.length + pos) block = front ++ overwrite dst pos block := by
  unfold overwrite
  rw [take_length_add_append, Nat.add_assoc]
  simp

theorem overwrite_append_right {front : List α} (h : pos + block.length ≤ front.length)
    (back : List α) :
    overwrite (front ++ back) pos block = overwrite front pos block ++ back := by
  unfold overwrite
  rw [take_append_of_le_length (by omega), drop_append_of_le_length h]
  simp

theorem slice_overwrite {start : Nat} (hslice : start + count ≤ dst.length)
    (h : pos + block.length ≤ count) :
    ((overwrite dst (start + pos) block).drop start).take count =
      overwrite ((dst.drop start).take count) pos block := by
  have hfront : (dst.take start).length = start := length_take_of_le (by omega)
  have hcount : ((dst.drop start).take count).length = count := by
    apply length_take_of_le
    rw [length_drop]
    omega
  calc ((overwrite dst (start + pos) block).drop start).take count
      = ((overwrite (dst.take start ++ dst.drop start) ((dst.take start).length + pos)
          block).drop start).take count := by rw [take_append_drop, hfront]
    _ = (overwrite (dst.drop start) pos block).take count := by
        rw [overwrite_append_left, drop_left' hfront]
    _ = (overwrite ((dst.drop start).take count ++ (dst.drop start).drop count) pos
          block).take count := by rw [take_append_drop]
    _ = overwrite ((dst.drop start).take count) pos block := by
        rw [overwrite_append_right (by omega), take_left' (by
          rw [overwrite_length (by omega), hcount])]

theorem memcpyFrom_eq_some (h : pos + count ≤ src.length) :
    memcpyFrom src pos count = some ((src.drop pos).take count) := if_pos h

theorem memcpyFrom_eq_none (h : src.length < pos + count) : memcpyFrom src pos count = none :=
  if_neg (by omega)

theorem memcpyFrom_take {k : Nat} (hk : k ≤ src.length) (h : pos + count ≤ k) :
    memcpyFrom (src.take k) pos count = memcpyFrom src pos count := by
  rw [memcpyFrom_eq_some (by simp; omega), memcpyFrom_eq_some (by omega),
    drop_take, take_take, Nat.min_eq_left (by omega)]

theorem memcpyTo_eq_some (h : pos + block.length ≤ dst.length) :
    memcpyTo dst pos block = some (overwrite dst pos block) := if_pos h

end Copy

end WebrtcCore.Verified.CMemory
