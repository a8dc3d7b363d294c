import Mathlib.Data.List.Perm.Basic
import Mathlib.Data.List.Sort
import Mathlib.Order.Lattice

/-!
# Order statistics

The `k`-th smallest of some values, counted from zero and with multiplicity, is the `k`-th
entry of the sorted list.  Two representations of the sorted list are covered:

* the list itself, into which values are inserted at their upper bound and from which they
  are erased at their lower bound, as `std::multiset` does;
* blocks of equal values, each with the number of times it occurs.  Skipping whole blocks
  is the same as indexing into the list (`select_eq_getElem?`).
-/

namespace WebrtcCore.Verified.OrderStatistic

open List

variable {α : Type} [LinearOrder α]

/-- The `k`-th smallest of the values, from zero, if there are more than `k`. -/
def orderStatistic (values : List α) (k : Nat) : Option α :=
  (values.mergeSort fun a b => decide (a ≤ b))[k]?

theorem orderStatistic_of_sorted {sorted values : List α} (hperm : sorted.Perm values)
    (hsorted : sorted.Pairwise (· ≤ ·)) (k : Nat) :
    orderStatistic values k = sorted[k]? := by
  have heq : values.mergeSort (fun a b => decide (a ≤ b)) = sorted :=
    List.Perm.eq_of_pairwise (fun _ _ _ _ => le_antisymm) (pairwise_mergeSort' (· ≤ ·) values)
      hsorted ((mergeSort_perm values _).trans hperm.symm)
  rw [orderStatistic, heq]

/-! ### Bounds in a sorted list -/

/-- The first entry that is not below `x`. -/
def lowerBound (l : List α) (x : α) : Nat := l.findIdx fun y => decide (x ≤ y)

/-- The first entry above `x`. -/
def upperBound (l : List α) (x : α) : Nat := l.findIdx fun y => decide (x < y)

theorem findIdx_le_iff {l : List α} (hl : l.Pairwise (· ≤ ·)) {p : α → Bool}
    (hp : ∀ a b, a ≤ b → p a = true → p b = true) {i : Nat} {y : α} (hy : l[i]? = some y) :
    l.findIdx p ≤ i ↔ p y = true := by
  obtain ⟨hi, rfl⟩ := List.getElem?_eq_some_iff.1 hy
  rw [← not_lt, lt_findIdx_iff, not_iff_comm, Bool.not_eq_true]
  constructor
  · intro hfalse
    refine ⟨hi, fun j hj => ?_⟩
    rcases Nat.lt_or_eq_of_le hj with hlt | rfl
    · exact Bool.eq_false_of_not_eq_true fun hj =>
        absurd (hp _ _ (pairwise_iff_getElem.1 hl j i _ hi hlt) hj) (by simp [hfalse])
    · exact hfalse
  · exact fun h => h.2 i (Nat.le_refl i)

variable {l : List α} {x y : α} {i : Nat}

theorem lowerBound_le_iff (hl : l.Pairwise (· ≤ ·)) (hy : l[i]? = some y) :
    lowerBound l x ≤ i ↔ x ≤ y := by
  rw [lowerBound, findIdx_le_iff hl (fun a b hab ha => ?_) hy, decide_eq_true_eq]
  rw [decide_eq_true_eq] at ha ⊢
  exact le_trans ha hab

theorem upperBound_le_iff (hl : l.Pairwise (· ≤ ·)) (hy : l[i]? = some y) :
    upperBound l x ≤ i ↔ x < y := by
  rw [upperBound, findIdx_le_iff hl (fun a b hab ha => ?_) hy, decide_eq_true_eq]
  rw [decide_eq_true_eq] at ha ⊢
  exact lt_of_lt_of_le ha hab

theorem upperBound_le_length (l : List α) (x : α) : upperBound l x ≤ l.length := findIdx_le_length

theorem mem_iff_getElem?_lowerBound (hl : l.Pairwise (· ≤ ·)) :
    x ∈ l ↔ l[lowerBound l x]? = some x := by
  constructor
  · intro hx
    obtain ⟨i, hi⟩ := getElem?_of_mem hx
    have hle : lowerBound l x ≤ i := (lowerBound_le_iff hl hi).mpr (le_refl x)
    have hlength := (List.getElem?_eq_some_iff.mp hi).1
    have hat : l[lowerBound l x]? = some l[lowerBound l x] :=
      getElem?_eq_getElem (Nat.lt_of_le_of_lt hle hlength)
    have hge : x ≤ l[lowerBound l x] := (lowerBound_le_iff hl hat).mp (Nat.le_refl _)
    have hentry : l[i] = x := (List.getElem?_eq_some_iff.mp hi).2
    cases Nat.eq_or_lt_of_le hle with
    | inl heq => exact heq ▸ hi
    | inr hlt =>
      have hsorted := pairwise_iff_getElem.mp hl _ i (Nat.lt_trans hlt hlength) hlength hlt
      rw [hentry] at hsorted
      rw [hat, le_antisymm hsorted hge]
  · exact mem_of_getElem?

theorem sorted_insertIdx_upperBound (hl : l.Pairwise (· ≤ ·)) (x : α) :
    (l.insertIdx (upperBound l x) x).Pairwise (· ≤ ·) := by
  induction l with
  | nil => exact pairwise_singleton _ _
  | cons y l ih =>
    rw [pairwise_cons] at hl
    rw [upperBound, findIdx_cons]
    by_cases hxy : x < y
    · simp only [hxy, decide_true, cond_true, insertIdx_zero, pairwise_cons]
      refine ⟨?_, hl.1, hl.2⟩
      intro z hz
      cases mem_cons.mp hz with
      | inl heq => exact heq ▸ le_of_lt hxy
      | inr hmem => exact le_of_lt (lt_of_lt_of_le hxy (hl.1 z hmem))
    · simp only [hxy, decide_false, cond_false, insertIdx_succ_cons, pairwise_cons]
      refine ⟨?_, ih hl.2⟩
      intro z hz
      have hperm := perm_insertIdx x l (upperBound_le_length l x)
      cases mem_cons.mp (hperm.mem_iff.mp hz) with
      | inl heq => exact heq ▸ le_of_not_gt hxy
      | inr hmem => exact hl.1 z hmem

/-- The elements of a `std::multiset`, in order. -/
structure OrderedMultiset (α : Type) [LinearOrder α] where
  elements : List α
  sorted : elements.Pairwise (· ≤ ·)

namespace OrderedMultiset

def empty : OrderedMultiset α := ⟨[], List.Pairwise.nil⟩

/-- Insertion behind the elements that are equal. -/
def insert (s : OrderedMultiset α) (x : α) : OrderedMultiset α where
  elements := s.elements.insertIdx (upperBound s.elements x) x
  sorted := sorted_insertIdx_upperBound s.sorted x

/-- Erasure of the element at a position. -/
def eraseAt (s : OrderedMultiset α) (i : Nat) : OrderedMultiset α where
  elements := s.elements.eraseIdx i
  sorted := s.sorted.sublist (List.eraseIdx_sublist _ _)

variable (s : OrderedMultiset α)

theorem insert_perm (x : α) : (s.insert x).elements.Perm (x :: s.elements) :=
  perm_insertIdx x s.elements (upperBound_le_length s.elements x)

theorem eraseAt_perm {s : OrderedMultiset α} {i : Nat} {x : α} (h : s.elements[i]? = some x) :
    (x :: (s.eraseAt i).elements).Perm s.elements := by
  obtain ⟨hi, rfl⟩ := List.getElem?_eq_some_iff.mp h
  exact getElem_cons_eraseIdx_perm hi

theorem getElem?_insert (x : α) (i : Nat) :
    (s.insert x).elements[if upperBound s.elements x ≤ i then i + 1 else i]? = s.elements[i]? := by
  show (s.elements.insertIdx _ x)[_]? = _
  rw [getElem?_insertIdx]
  split
  case isTrue h => rw [if_neg (by omega), if_neg (by omega), Nat.add_sub_cancel]
  case isFalse h => rw [if_pos (by omega)]

theorem getElem?_eraseAt {i j : Nat} (hij : i ≠ j) :
    (s.eraseAt i).elements[if i < j then j - 1 else j]? = s.elements[j]? := by
  show (s.elements.eraseIdx i)[_]? = _
  rw [getElem?_eraseIdx]
  split
  case isTrue h => rw [if_neg (by omega), Nat.sub_add_cancel (by omega)]
  case isFalse h => rw [if_pos (by omega)]

end OrderedMultiset

/-! ### Blocks of equal values -/

/-- The values, block by block. -/
def expand (blocks : List (α × Nat)) : List α := blocks.flatMap fun it => List.replicate it.2 it.1

/-- The value after `k` others, found by skipping blocks. -/
def select : List (α × Nat) → Nat → Option α
  | [], _ => none
  | it :: rest, k => if k < it.2 then some it.1 else select rest (k - it.2)

omit [LinearOrder α] in
theorem expand_cons (it : α × Nat) (rest : List (α × Nat)) :
    expand (it :: rest) = List.replicate it.2 it.1 ++ expand rest := rfl

omit [LinearOrder α] in
theorem select_eq_getElem? (blocks : List (α × Nat)) (k : Nat) :
    select blocks k = (expand blocks)[k]? := by
  induction blocks generalizing k with
  | nil => rfl
  | cons it rest ih =>
    rw [select, expand_cons]
    split
    case isTrue h =>
      rw [getElem?_append_left (by rwa [length_replicate]), getElem?_replicate_of_lt h]
    case isFalse h =>
      rw [ih, getElem?_append_right (by rw [length_replicate]; omega), length_replicate]

omit [LinearOrder α] in
theorem map_expand {β : Type} (f : α → β) (blocks : List (α × Nat)) :
    (expand blocks).map f = expand (blocks.map fun it => (f it.1, it.2)) := by
  induction blocks with
  | nil => rfl
  | cons it rest ih =>
    rw [expand_cons, map_append, map_replicate, ih, map_cons, expand_cons]

omit [LinearOrder α] in
theorem count_expand [DecidableEq α] (blocks : List (α × Nat)) (x : α) :
    (expand blocks).count x = (expand (blocks.filter fun it => it.1 = x)).length := by
  induction blocks with
  | nil => rfl
  | cons it rest ih =>
    rw [expand_cons, count_append, ih, count_replicate]
    by_cases h : it.1 = x
    · simp [h, expand_cons]
    · simp [h]

theorem orderStatistic_zero_le {values : List α} {x y : α} (hx : orderStatistic values 0 = some x)
    (hy : y ∈ values) : x ≤ y := by
  rw [orderStatistic, ← head?_eq_getElem?, head?_eq_some_iff] at hx
  obtain ⟨rest, hrest⟩ := hx
  have hsorted := pairwise_mergeSort' (· ≤ ·) values
  have hmem : y ∈ values.mergeSort fun a b => decide (a ≤ b) :=
    (mergeSort_perm values _).mem_iff.mpr hy
  rw [hrest] at hsorted hmem
  cases mem_cons.mp hmem with
  | inl heq => exact heq ▸ le_refl x
  | inr hin => exact (pairwise_cons.mp hsorted).1 y hin

theorem sorted_expand {blocks : List (α × Nat)}
    (h : blocks.Pairwise fun a b => a.1 < b.1) : (expand blocks).Pairwise (· ≤ ·) := by
  rw [expand, pairwise_flatMap]
  constructor
  · intro it _
    exact pairwise_replicate.mpr (.inr (le_refl it.1))
  · apply h.imp
    intro it it' hlt a ha b hb
    rw [eq_of_mem_replicate ha, eq_of_mem_replicate hb]
    exact le_of_lt hlt

end WebrtcCore.Verified.OrderStatistic
