/-!
# Rectangular arrays of lists

A program that treats several signals alike keeps them in an array of arrays and visits the
entries in two nested loops.  `Filled m n k x` says that `x` has `m` rows of `n` entries, each of
`k` elements, `cell` is an entry, and `visit` is the loop, which fails where one of its turns
does.  `visit_eq_some` is the rule for the loop; `Regroups` is a property that it reduces to one
of a single signal, and `stream` joins what an entry holds over a list of arrays.
-/

namespace WebrtcCore.Verified.Grid

open List

variable {α β : Type}

/-- The array with the given entries. -/
def tabulate (m n : Nat) (g : Nat → Nat → β) : List (List β) :=
  (List.range m).map fun i => (List.range n).map (g i)

/-- An entry of an array. -/
def entry (x : List (List β)) (i j : Nat) : Option β := x[i]?.bind fun row => row[j]?

/-- Two nested loops over the entries. -/
def visit (m n : Nat) (f : Nat → Nat → Option β) : Option (List (List β)) :=
  (List.range m).mapM fun i => (List.range n).mapM (f i)

theorem mapM_eq_some {γ : Type} {f : β → Option γ} {g : β → γ} (xs : List β)
    (h : ∀ x ∈ xs, f x = some (g x)) : xs.mapM f = some (xs.map g) := by
  induction xs with
  | nil => rfl
  | cons x xs ih =>
    rw [forall_mem_cons] at h
    rw [mapM_cons, h.1, ih h.2]
    rfl

theorem visit_eq_some {m n : Nat} {f : Nat → Nat → Option β} {g : Nat → Nat → β}
    (h : ∀ i < m, ∀ j < n, f i j = some (g i j)) : visit m n f = some (tabulate m n g) := by
  apply mapM_eq_some
  intro i hi
  apply mapM_eq_some
  intro j hj
  exact h i (mem_range.1 hi) j (mem_range.1 hj)

theorem entry_tabulate {m n i j : Nat} (hi : i < m) (hj : j < n) (g : Nat → Nat → β) :
    entry (tabulate m n g) i j = some (g i j) := by
  rw [entry, tabulate, getElem?_map, getElem?_range hi, Option.map_some,
    Option.bind_some, getElem?_map, getElem?_range hj, Option.map_some]

theorem map_tabulate {γ : Type} (m n : Nat) (g : Nat → Nat → β) (f : β → γ) :
    (tabulate m n g).map (fun row => row.map f) = tabulate m n fun i j => f (g i j) := by
  rw [tabulate, map_map]
  apply map_congr_left
  intro i _
  exact map_map

/-- All rows have `n` entries, and there are `m` of them. -/
def Shaped (m n : Nat) (x : List (List β)) : Prop :=
  x.length = m ∧ ∀ row ∈ x, row.length = n
  deriving Decidable

/-- The array is rectangular, and all entries have `k` elements. -/
def Filled (m n k : Nat) (x : List (List (List α))) : Prop :=
  Shaped m n x ∧ ∀ row ∈ x, ∀ elements ∈ row, elements.length = k
  deriving Decidable

/-- The elements of an entry. -/
def cell (x : List (List (List α))) (i j : Nat) : List α := (entry x i j).getD []

section Filled

variable {m n k i j : Nat} {x : List (List (List α))}

theorem filled_tabulate {g : Nat → Nat → List α}
    (h : ∀ i < m, ∀ j < n, (g i j).length = k) : Filled m n k (tabulate m n g) := by
  constructor
  · constructor
    · rw [tabulate, length_map, length_range]
    · intro row hrow
      obtain ⟨i, _, rfl⟩ := mem_map.1 hrow
      rw [length_map, length_range]
  · intro row hrow elements helements
    obtain ⟨i, hi, rfl⟩ := mem_map.1 hrow
    obtain ⟨j, hj, rfl⟩ := mem_map.1 helements
    exact h i (mem_range.1 hi) j (mem_range.1 hj)

theorem cell_tabulate (hi : i < m) (hj : j < n) (g : Nat → Nat → List α) :
    cell (tabulate m n g) i j = g i j := by
  rw [cell, entry_tabulate hi hj, Option.getD_some]

theorem Filled.entry_eq (h : Filled m n k x) (hi : i < m) (hj : j < n) :
    entry x i j = some (cell x i j) := by
  have hrow : i < x.length := h.1.1.symm ▸ hi
  have hlength : x[i].length = n := h.1.2 _ (getElem_mem hrow)
  rw [cell, entry, getElem?_eq_getElem hrow, Option.bind_some,
    getElem?_eq_getElem (hlength.symm ▸ hj), Option.getD_some]

theorem Filled.length_cell (h : Filled m n k x) (hi : i < m) (hj : j < n) :
    (cell x i j).length = k := by
  have hentry := h.entry_eq hi hj
  rw [entry, Option.bind_eq_some_iff] at hentry
  obtain ⟨row, hrow, helements⟩ := hentry
  exact h.2 row (mem_of_getElem? hrow) _ (mem_of_getElem? helements)

theorem Filled.tabulate_cell (h : Filled m n k x) : tabulate m n (cell x) = x := by
  apply ext_getElem
  · rw [tabulate, length_map, length_range, h.1.1]
  · intro i hi hi'
    have hrow := h.1.2 _ (getElem_mem hi')
    apply ext_getElem
    · simp only [tabulate, getElem_map, length_map, length_range, hrow]
    · intro j hj hj'
      have hentry := h.entry_eq (h.1.1 ▸ hi') (hrow ▸ hj')
      rw [entry, getElem?_eq_getElem hi', Option.bind_some, getElem?_eq_getElem hj'] at hentry
      simp only [tabulate, getElem_map, getElem_range, Option.some.inj hentry]

theorem visit_filled {f : Nat → Nat → Option (List α)} {g : Nat → Nat → List α}
    (h : ∀ i < m, ∀ j < n, f i j = some (g i j) ∧ (g i j).length = k) :
    ∃ y, visit m n f = some y ∧ Filled m n k y ∧ ∀ i < m, ∀ j < n, cell y i j = g i j :=
  ⟨_, visit_eq_some fun i hi j hj => (h i hi j hj).1,
    filled_tabulate fun i hi j hj => (h i hi j hj).2, fun _ hi _ hj => cell_tabulate hi hj g⟩

end Filled

/-- In every entry the elements kept and those that came in are, in order, those that
went out and those kept now. -/
def Regroups (m n : Nat) (kept came went kept' : List (List (List α))) : Prop :=
  ∀ i < m, ∀ j < n, cell kept i j ++ cell came i j = cell went i j ++ cell kept' i j

section Cut

variable {m n r k : Nat} {kept came : List (List (List α))}

/-- What goes out if every entry is to give `q` elements. -/
def cutFront (m n q r : Nat) (kept came : List (List (List α))) : List (List (List α)) :=
  tabulate m n fun i j => cell kept i j ++ (cell came i j).take (q - r)

/-- What is kept then. -/
def cutBack (m n q r : Nat) (came : List (List (List α))) : List (List (List α)) :=
  tabulate m n fun i j => (cell came i j).drop (q - r)

theorem filled_cutFront (hkept : Filled m n r kept) (hcame : Filled m n k came) {q : Nat}
    (hr : r ≤ q) (hk : q ≤ r + k) : Filled m n q (cutFront m n q r kept came) := by
  apply filled_tabulate
  intro i hi j hj
  rw [length_append, length_take, hkept.length_cell hi hj, hcame.length_cell hi hj]
  omega

theorem filled_cutBack (hcame : Filled m n k came) {q : Nat} (hr : r ≤ q) (hk : q ≤ r + k) :
    Filled m n (r + k - q) (cutBack m n q r came) := by
  apply filled_tabulate
  intro i hi j hj
  rw [length_drop, hcame.length_cell hi hj]
  omega

theorem regroups_cut (q : Nat) :
    Regroups m n kept came (cutFront m n q r kept came) (cutBack m n q r came) := by
  intro i hi j hj
  rw [cutFront, cutBack, cell_tabulate hi hj, cell_tabulate hi hj, append_assoc, take_append_drop]

end Cut

/-- What an entry holds over a list of arrays. -/
def stream (xs : List (List (List (List α)))) (i j : Nat) : List α := xs.flatMap fun x => cell x i j

theorem stream_cons (x : List (List (List α))) (xs : List (List (List (List α)))) (i j : Nat) :
    stream (x :: xs) i j = cell x i j ++ stream xs i j := rfl

theorem stream_concat (xs : List (List (List (List α)))) (x : List (List (List α)))
    (i j : Nat) : stream (xs ++ [x]) i j = stream xs i j ++ cell x i j := by
  rw [stream, flatMap_append, flatMap_singleton]
  rfl

theorem length_stream {m n k i j : Nat} (hi : i < m) (hj : j < n)
    (xs : List (List (List (List α)))) (h : ∀ x ∈ xs, Filled m n k x) :
    (stream xs i j).length = k * xs.length := by
  induction xs with
  | nil => rfl
  | cons x xs ih =>
    rw [forall_mem_cons] at h
    rw [stream_cons, length_append, h.1.length_cell hi hj, ih h.2, length_cons, Nat.mul_succ,
      Nat.add_comm]

end WebrtcCore.Verified.Grid
