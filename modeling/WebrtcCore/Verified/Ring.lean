import Mathlib.Data.List.Rotate
import Mathlib.Data.Nat.ModEq
import WebrtcCore.Verified.Tape

/-!
# Rings of cells seen by offset

The cell at offset `i` from a position in a ring of `n` cells is the one at index
`(start + i) % n`.  `Holds ring start contents` says that the cells at the first offsets are
`contents`: a cell outside the contents may be set, one that was set at the end joins them, and
cells leave at the front.

A ring whose cells are copied in blocks is better seen as the list `rotated ring start`, where a
block stored without wrapping is a block at its offset, and one that wraps is two of them.
-/

namespace WebrtcCore.Verified.Ring

open Verified CMemory Tape List

variable {α : Type}

/-- The cells of the ring from `start` on begin with `contents`. -/
def Holds (ring : List α) (start : Nat) (contents : List α) : Prop :=
  ∀ i, i < contents.length → ring[(start + i) % ring.length]? = contents[i]?

theorem offset_ne {n : Nat} (start : Nat) {a b : Nat} (ha : a < n) (hb : b < n) (h : a ≠ b) :
    (start + a) % n ≠ (start + b) % n := by
  intro heq
  exact h (Nat.ModEq.eq_of_lt_of_lt (Nat.ModEq.add_left_cancel' start heq) ha hb)

namespace Holds

variable {ring contents : List α} {start : Nat}

theorem nil (ring : List α) (start : Nat) : Holds ring start [] :=
  fun _ h => absurd h (Nat.not_lt_zero _)

theorem congr_start {start' : Nat} (h : Holds ring start contents)
    (hstart : start % ring.length = start' % ring.length) :
    Holds ring start' contents := by
  intro i hi
  rw [Nat.add_mod, ← hstart, ← Nat.add_mod]
  exact h i hi

theorem push {x : α} (h : Holds ring start contents)
    (hx : ring[(start + contents.length) % ring.length]? = some x) :
    Holds ring start (contents ++ [x]) := by
  intro i hi
  rw [length_append, length_singleton] at hi
  rcases Nat.lt_or_eq_of_le (Nat.le_of_lt_succ hi) with hlt | rfl
  · rw [getElem?_append_left hlt]
    exact h i hlt
  · rw [getElem?_concat_length]
    exact hx

theorem drop (h : Holds ring start contents) (k : Nat) :
    Holds ring (start + k) (contents.drop k) := by
  intro i hi
  rw [length_drop] at hi
  rw [getElem?_drop, Nat.add_assoc]
  exact h (k + i) (by omega)

theorem tail {x : α} (h : Holds ring start (x :: contents)) :
    Holds ring (start + 1) contents := h.drop 1

theorem head {x : α} (h : Holds ring start (x :: contents)) :
    ring[start % ring.length]? = some x := h 0 (Nat.succ_pos _)

theorem set_outside {d : Nat} (x : α) (h : Holds ring start contents)
    (hd : contents.length ≤ d) (hn : d < ring.length) :
    Holds (ring.set ((start + d) % ring.length) x) start contents := by
  intro i hi
  rw [length_set, getElem?_set_ne]
  · exact h i hi
  · exact offset_ne _ hn (by omega) (by omega)

theorem set_before (x : α) (h : Holds ring (start + 1) contents)
    (hn : contents.length < ring.length) :
    Holds (ring.set (start % ring.length) x) (start + 1) contents := by
  have hset := h.set_outside x (d := ring.length - 1) (by omega) (by omega)
  rwa [show start + 1 + (ring.length - 1) = start + ring.length by omega, Nat.add_mod_right] at hset

theorem exchange {y : α} (h : Holds ring start (y :: contents))
    (hfull : contents.length + 1 = ring.length) (x : α) :
    Holds (ring.set (start % ring.length) x) (start + 1) (contents ++ [x]) := by
  refine (h.tail.set_before x (by omega)).push ?_
  rw [length_set, show start + 1 + contents.length = start + ring.length by omega,
    Nat.add_mod_right, getElem?_set_self (Nat.mod_lt _ (by omega))]

theorem self (ring : List α) : Holds ring 0 ring := by
  intro i hi
  rw [Nat.zero_add, Nat.mod_eq_of_lt hi]

end Holds

/-! ## Blocks -/

variable {ring : List α} {start : Nat}

theorem rotated_eq_rotate (h : start ≤ ring.length) : rotated ring start = ring.rotate start :=
  (rotate_eq_drop_append_take h).symm

theorem length_rotated (h : start ≤ ring.length) : (rotated ring start).length = ring.length := by
  rw [rotated_eq_rotate h, length_rotate]

theorem getElem?_rotated (h : start < ring.length) {i : Nat} (hi : i < ring.length) :
    (rotated ring start)[i]? = ring[(start + i) % ring.length]? := by
  rw [rotated_eq_rotate (Nat.le_of_lt h), getElem?_rotate hi, Nat.add_comm]

theorem rotated_add (h : start < ring.length) {k : Nat} (hk : k ≤ ring.length) :
    rotated ring ((start + k) % ring.length) = rotated (rotated ring start) k := by
  have hmod := Nat.mod_lt (start + k) (Nat.zero_lt_of_lt h)
  rw [rotated_eq_rotate (Nat.le_of_lt hmod), rotate_mod, rotated_eq_rotate (Nat.le_of_lt h),
    rotated_eq_rotate (by rw [length_rotate]; exact hk), rotate_rotate]

theorem rotated_overwrite_offset (block : List α) {d : Nat} (h : start < ring.length)
    (hd : d + block.length ≤ ring.length)
    (hp : (start + d) % ring.length + block.length ≤ ring.length) :
    rotated (overwrite ring ((start + d) % ring.length) block) start =
      overwrite (rotated ring start) d block := by
  have hlength := length_rotated (Nat.le_of_lt h)
  have hring := overwrite_length hp
  apply ext_getElem?
  intro i
  rcases Nat.lt_or_ge i ring.length with hi | hi
  · rw [getElem?_rotated (by omega) (by omega), hring, getElem?_overwrite hp,
      getElem?_overwrite (by omega), getElem?_rotated h hi]
    have hinside : ∀ j, j < block.length →
        (start + (d + j)) % ring.length = (start + d) % ring.length + j := by
      intro j hj
      rw [← Nat.add_assoc, ← Nat.mod_add_mod, Nat.mod_eq_of_lt (by omega)]
    by_cases hmem : d ≤ i ∧ i < d + block.length
    · have hat := hinside (i - d) (by omega)
      rw [show d + (i - d) = i by omega] at hat
      rw [if_pos hmem, if_pos (by omega), hat, Nat.add_sub_cancel_left]
    · rw [if_neg hmem, if_neg]
      intro hblock
      -- A cell of the block has an offset in it, and offsets are unique.
      have hat := hinside ((start + i) % ring.length - (start + d) % ring.length) (by omega)
      apply offset_ne start hi (b := d +
        ((start + i) % ring.length - (start + d) % ring.length)) (by omega) (by omega)
      omega
  · rw [getElem?_eq_none (by rw [length_rotated (by omega)]; omega),
      getElem?_eq_none (by rw [overwrite_length (by omega)]; omega)]

theorem rotated_overwrite_wrapped (block block' : List α) {d : Nat}
    (h : start < ring.length) (hd : d + (block ++ block').length ≤ ring.length)
    (hp : (start + d) % ring.length + block.length ≤ ring.length)
    (hwrap : block' ≠ [] → (start + d) % ring.length + block.length = ring.length) :
    rotated (overwrite (overwrite ring ((start + d) % ring.length) block) 0 block') start =
      overwrite (rotated ring start) d (block ++ block') := by
  have hlength := length_rotated (Nat.le_of_lt h)
  have hring := overwrite_length hp
  have hsum := hd
  rw [length_append] at hsum
  rw [← overwrite_append (by rw [hlength]; exact hd),
    ← rotated_overwrite_offset block h (by omega) hp]
  by_cases hnil : block' = []
  · rw [hnil, overwrite_nil, overwrite_nil]
  · have hzero : (start + (d + block.length)) %
        (overwrite ring ((start + d) % ring.length) block).length = 0 := by
      rw [hring, ← Nat.add_assoc, ← Nat.mod_add_mod, hwrap hnil, Nat.mod_self]
    have hstart : start < (overwrite ring ((start + d) % ring.length) block).length := by
      rw [hring]
      exact h
    have hsecond := rotated_overwrite_offset block' (d := d + block.length) hstart (by omega)
      (by rw [hzero]; omega)
    rw [hzero] at hsecond
    exact hsecond

theorem take_rotated (h : start ≤ ring.length) {k : Nat} (hk : k ≤ ring.length) :
    (rotated ring start).take k =
      (ring.drop start).take (min k (ring.length - start)) ++
        ring.take (k - min k (ring.length - start)) := by
  unfold rotated
  rw [take_append, length_drop, take_take]
  congr 1
  · rw [take_eq_take_min, length_drop]
  · congr 1
    omega

end WebrtcCore.Verified.Ring
