import WebrtcCore.Verified.CMemory
import WebrtcCore.Verified.Simulation

/-!
# C arrays indexed by an `int`

An array is a list, an index an integer, and an access outside of the array is
undefined behaviour (`none`).  `realloc` keeps what fits and leaves the rest
indeterminate: what new memory holds is a parameter.  `shiftIn` is the idiom of a
history buffer, `memmove` by one place and a store at the front, and `updateRange` is
a counting loop that rewrites one element after the other.
-/

namespace WebrtcCore.Verified.CArray

open Verified CMemory Simulation List

variable {α : Type}

/-! ## Single elements -/

/-- `xs[i]` as a value. -/
def load (xs : List α) (i : Int) : Option α := if 0 ≤ i then xs[i.toNat]? else none

/-- `xs[i] = x`. -/
def store (xs : List α) (i : Int) (x : α) : Option (List α) :=
  if 0 ≤ i ∧ i < xs.length then some (xs.set i.toNat x) else none

theorem load_ofNat (xs : List α) (i : Nat) : load xs i = xs[i]? := by simp [load]

variable {xs ys : List α} {n start : Nat} {x : α}

theorem load_eq_some {i : Int} (h0 : 0 ≤ i) (h : i < xs.length) : ∃ x, load xs i = some x := by
  rw [load, if_pos h0]
  exact ⟨_, getElem?_eq_getElem (by omega)⟩

theorem store_eq_some {i : Int} (h0 : 0 ≤ i) (h : i < xs.length) (x : α) :
    ∃ ys, store xs i x = some ys ∧ ys.length = xs.length :=
  ⟨xs.set i.toNat x, if_pos ⟨h0, h⟩, length_set⟩

/-! ## Memory management -/

/-- `realloc` to `n` elements, where `fresh` is what new memory holds. -/
def realloc (fresh : Nat → α) (xs : List α) (n : Nat) : List α :=
  (List.range n).map fun i => xs[i]?.getD (fresh i)

@[simp] theorem length_realloc (fresh : Nat → α) (xs : List α) (n : Nat) :
    (realloc fresh xs n).length = n := by
  simp [realloc]

theorem getElem?_realloc (fresh : Nat → α) (xs : List α) {i : Nat} (h : i < n) :
    (realloc fresh xs n)[i]? = some (xs[i]?.getD (fresh i)) := by
  simp [realloc, h]

/-- `memset` of `n` elements from element `start` on. -/
def fill (xs : List α) (start n : Nat) (x : α) : Option (List α) :=
  memcpyTo xs start (List.replicate n x)

theorem fill_spec (h : start + n ≤ xs.length) (x : α) :
    ∃ ys, fill xs start n x = some ys ∧ ys.length = xs.length ∧ (∀ y ∈ ys, y = x ∨ y ∈ xs) ∧
      ∀ i, ys[i]? = if start ≤ i ∧ i < start + n then some x else xs[i]? := by
  have hfits : start + (List.replicate n x).length ≤ xs.length := by rwa [length_replicate]
  refine ⟨_, memcpyTo_eq_some hfits, overwrite_length hfits, ?_, ?_⟩
  · exact fun y hy => (mem_of_mem_overwrite hy).symm.imp_left eq_of_mem_replicate
  · intro i
    rw [getElem?_overwrite hfits, length_replicate]
    split
    · rw [getElem?_replicate, if_pos (by omega)]
    · rfl

theorem fill_all (h : xs.length = n) (x : α) : fill xs 0 n x = some (List.replicate n x) := by
  rw [fill, memcpyTo_eq_some (by rw [length_replicate]; omega), overwrite]
  simp [h]

/-- `memmove(&xs[1], &xs[0], n - 1); xs[0] = x`. -/
def shiftIn (xs : List α) (n : Nat) (x : α) : Option (List α) :=
  (memcpyFrom xs 0 (n - 1)).bind fun block =>
    (memcpyTo xs 1 block).bind fun moved => store moved 0 x

theorem shiftIn_eq (h : xs ≠ []) (x : α) :
    shiftIn xs xs.length x = some (x :: xs.take (xs.length - 1)) := by
  cases xs with
  | nil => exact absurd rfl h
  | cons y ys =>
    have hblock : ((y :: ys).take ys.length).length = ys.length := by simp
    have hmove : memcpyTo (y :: ys) 1 ((y :: ys).take ys.length) =
        some (y :: (y :: ys).take ys.length) := by
      have hlength : (y :: ys).length = 1 + ys.length := by rw [length_cons]; omega
      rw [memcpyTo_eq_some (by omega), overwrite, hblock, drop_eq_nil_of_le (Nat.le_of_eq hlength)]
      simp
    simp only [shiftIn, length_cons, Nat.add_sub_cancel]
    rw [memcpyFrom_eq_some (by simp)]
    simp only [drop_zero, Option.bind_some, hmove]
    simp [store]

theorem shiftIn_spec (hlength : xs.length = n) (hn : 0 < n) (x : α) :
    ∃ ys, shiftIn xs n x = some ys ∧ ys.length = n ∧ ∀ y ∈ ys, y = x ∨ y ∈ xs := by
  have hne : xs ≠ [] := ne_nil_of_length_pos (by omega)
  subst hlength
  refine ⟨_, shiftIn_eq hne x, ?_, ?_⟩
  · rw [length_cons, length_take]
    omega
  · intro y hy
    exact (mem_cons.1 hy).imp_right mem_of_mem_take

/-! ## Loops -/

/-- `for (i = 0; i < n; ++i) xs[i] = f(i, xs[i])`. -/
def updateRange (f : Nat → α → Option α) (n : Nat) (xs : List α) : Option (List α) :=
  exec (fun xs (i : Nat) => (load xs i).bind fun x => (f i x).bind (store xs i)) xs
    (List.range n)

section Loop

variable {f : Nat → α → Option α} {Q : Nat → α → Prop} {xs : List α} {n : Nat}

/-- The array after the first elements have been rewritten. -/
structure Updated (Q : Nat → α → Prop) (xs : List α) (done : List Nat) (ys : List α) :
    Prop where
  length_eq : ys.length = xs.length
  updated : ∀ i ∈ done, ∀ y, ys[i]? = some y → Q i y
  kept : ∀ i, i ∉ done → ys[i]? = xs[i]?

theorem Updated.step {done rest : List Nat} {i : Nat} {ys : List α} (hn : n ≤ xs.length)
    (hf : ∀ i x, i < n → xs[i]? = some x → ∃ y, f i x = some y ∧ Q i y)
    (hall : List.range n = done ++ i :: rest) (h : Updated Q xs done ys) :
    ∃ zs, ((load ys i).bind fun x => (f i x).bind (store ys i)) = some zs ∧
      Updated Q xs (done ++ [i]) zs := by
  have hnodup : (done ++ i :: rest).Nodup := hall ▸ nodup_range
  have hfresh : i ∉ done := by grind
  have hi : i < n := by
    rw [← mem_range, hall]
    simp
  have hlength := h.length_eq
  obtain ⟨x, hx⟩ : ∃ x, xs[i]? = some x := ⟨_, getElem?_eq_getElem (by omega)⟩
  obtain ⟨y, hy, hQ⟩ := hf i x hi hx
  refine ⟨ys.set i y, ?_, ?_, ?_, ?_⟩
  · rw [load_ofNat, h.kept i hfresh, hx, Option.bind_some, hy, Option.bind_some, store,
      if_pos ⟨by omega, by omega⟩]
    simp
  · rw [length_set, hlength]
  · intro j hj z hz
    rw [getElem?_set] at hz
    split at hz
    · next hji =>
        subst hji
        rw [if_pos (by omega)] at hz
        exact Option.some.inj hz ▸ hQ
    · next hji =>
        cases mem_append.1 hj with
        | inl hj => exact h.updated j hj z hz
        | inr hj => exact absurd (mem_singleton.1 hj).symm hji
  · intro j hj
    rw [mem_append, not_or, mem_singleton] at hj
    rw [getElem?_set_ne (fun hij => hj.2 hij.symm), h.kept j hj.1]

theorem updateRange_spec (hn : n ≤ xs.length)
    (hf : ∀ i x, i < n → xs[i]? = some x → ∃ y, f i x = some y ∧ Q i y) :
    ∃ ys, updateRange f n xs = some ys ∧ ys.length = xs.length ∧
      (∀ i y, i < n → ys[i]? = some y → Q i y) ∧ ∀ i, n ≤ i → ys[i]? = xs[i]? := by
  have hstart : Updated Q xs [] xs := ⟨rfl, by simp, fun _ _ => rfl⟩
  have hloop : ∃ ys, updateRange f n xs = some ys ∧ Updated Q xs (range n) ys := by
    apply exec_done _ hstart
    exact fun done i rest s hall hs => hs.step hn hf hall
  obtain ⟨ys, hys, h⟩ := hloop
  refine ⟨ys, hys, h.length_eq, ?_, ?_⟩
  · exact fun i y hi hy => h.updated i (mem_range.2 hi) y hy
  · exact fun i hi => h.kept i fun hmem => absurd (mem_range.1 hmem) (by omega)

theorem updateRange_eq_some (body : Nat → α → α) (hn : n ≤ xs.length) :
    ∃ ys, updateRange (fun i x => some (body i x)) n xs = some ys ∧ ys.length = xs.length := by
  obtain ⟨ys, hys, hlength, _⟩ := updateRange_spec (Q := fun _ _ => True) hn
    fun i x _ _ => ⟨body i x, rfl, trivial⟩
  exact ⟨ys, hys, hlength⟩

end Loop

end WebrtcCore.Verified.CArray
