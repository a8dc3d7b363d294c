import Mathlib.Data.List.Sort

/-!
# Heaps kept in an array

The heap algorithms of the standard library are specified by what they leave in
the array, not by how they move its elements: `Ops` is that contract.  What a
program sees of a heap follows from it alone.  The first element is above all
others (`IsHeap.root_max`), and a loop that pops while the first element has a
property which no lower element can have alone takes out exactly the elements
that have it, highest first (`popWhile_spec`).

A sorted array is a heap, so the contract has an instance for every order
(`sortedOps`).
-/

namespace WebrtcCore.Verified.Heap

open List

variable {α : Type} {lt : α → α → Prop}

/-- What the comparison of a heap has to be. -/
structure StrictWeak (lt : α → α → Prop) : Prop where
  asymm : ∀ a b, lt a b → ¬ lt b a
  neg_trans : ∀ a b c, ¬ lt a b → ¬ lt b c → ¬ lt a c

/-- No element is below the one under it: the cells under `i` are `2 i + 1` and
`2 i + 2`. -/
def IsHeap (lt : α → α → Prop) (cells : List α) : Prop :=
  ∀ i x y, 0 < i → cells[(i - 1) / 2]? = some x → cells[i]? = some y → ¬ lt x y

/-- The contract of `push_heap`, `pop_heap` and `make_heap`, each with the change
of the array's length that goes with it. -/
structure Ops (lt : α → α → Prop) where
  push : List α → α → List α
  pop : List α → List α
  make : List α → List α
  push_perm : ∀ c x, IsHeap lt c → (push c x).Perm (x :: c)
  push_isHeap : ∀ c x, IsHeap lt c → IsHeap lt (push c x)
  pop_perm : ∀ c x, IsHeap lt (x :: c) → (pop (x :: c)).Perm c
  pop_isHeap : ∀ c x, IsHeap lt (x :: c) → IsHeap lt (pop (x :: c))
  make_perm : ∀ c, (make c).Perm c
  make_isHeap : ∀ c, IsHeap lt (make c)

theorem isHeap_nil : IsHeap lt [] := by
  intro i x y _ _ hy
  simp at hy

theorem StrictWeak.irrefl (hlt : StrictWeak lt) (a : α) : ¬ lt a a :=
  fun h => hlt.asymm a a h h

theorem IsHeap.root_max {c : List α} {x : α} (hheap : IsHeap lt (x :: c))
    (hlt : StrictWeak lt) (i : Nat) : ∀ y, (x :: c)[i]? = some y → ¬ lt x y := by
  induction i using Nat.strongRecOn with
  | ind i ih =>
    intro y hy
    cases i with
    | zero =>
      cases hy
      exact hlt.irrefl x
    | succ i =>
      have hlen : i + 1 < (x :: c).length := (List.getElem?_eq_some_iff.mp hy).1
      have hover : (i + 1 - 1) / 2 < (x :: c).length := by omega
      have hz := getElem?_eq_getElem hover
      exact hlt.neg_trans _ _ _ (ih _ (by omega) _ hz) (hheap (i + 1) _ y (Nat.succ_pos i) hz hy)

theorem IsHeap.root_not_lt {c : List α} {x y : α} (hheap : IsHeap lt (x :: c))
    (hlt : StrictWeak lt) (hy : y ∈ x :: c) : ¬ lt x y := by
  have hget := getElem?_of_mem hy
  exact hget.elim fun i hi => hheap.root_max hlt i y hi

/-! ### Popping while the first element qualifies -/

/-- Pop while the first element has the property: what was popped, in that order,
and the array that is left. -/
def popWhile (ops : Ops lt) (p : α → Bool) : Nat → List α → List α × List α
  | 0, c => ([], c)
  | _ + 1, [] => ([], [])
  | fuel + 1, x :: c =>
    if p x then
      (x :: (popWhile ops p fuel (ops.pop (x :: c))).1,
        (popWhile ops p fuel (ops.pop (x :: c))).2)
    else ([], x :: c)

/-- What a loop of pops leaves behind. -/
structure PopsWhile (lt : α → α → Prop) (p : α → Bool) (c : List α)
    (r : List α × List α) : Prop where
  popped : r.1.Perm (c.filter p)
  ordered : r.1.Pairwise fun a b => ¬ lt a b
  left : r.2.Perm (c.filter (!p ·))
  isHeap : IsHeap lt r.2

theorem PopsWhile.stop {p : α → Bool} {c : List α} (hheap : IsHeap lt c)
    (hnone : ∀ x ∈ c, p x = false) : PopsWhile lt p c ([], c) where
  popped := by
    rw [filter_eq_nil_iff.mpr]
    intro x hx
    rw [hnone x hx]
    exact Bool.false_ne_true
  ordered := List.Pairwise.nil
  left := by
    rw [filter_eq_self.mpr]
    intro x hx
    rw [hnone x hx]
    rfl
  isHeap := hheap

theorem PopsWhile.next {p : α → Bool} {c c' : List α} {x : α} {r : List α × List α}
    (hx : p x = true) (hperm : c'.Perm c) (hmax : ∀ y ∈ c, ¬ lt x y)
    (h : PopsWhile lt p c' r) : PopsWhile lt p (x :: c) (x :: r.1, r.2) where
  popped := by
    rw [filter_cons_of_pos hx]
    exact (h.popped.trans (hperm.filter p)).cons x
  ordered := by
    refine List.Pairwise.cons ?_ h.ordered
    intro y hy
    have hmem : y ∈ c'.filter p := h.popped.mem_iff.mp hy
    exact hmax y (hperm.mem_iff.mp (mem_of_mem_filter hmem))
  left := by
    rw [filter_cons_of_neg (by simp [hx])]
    exact h.left.trans (hperm.filter _)
  isHeap := h.isHeap

theorem popWhile_spec (ops : Ops lt) (hlt : StrictWeak lt) (p : α → Bool)
    (hp : ∀ x y, ¬ lt x y → p y = true → p x = true) (fuel : Nat) :
    ∀ c : List α, IsHeap lt c → c.length ≤ fuel → PopsWhile lt p c (popWhile ops p fuel c) := by
  induction fuel with
  | zero =>
    intro c hheap hfuel
    have hnil : c = [] := eq_nil_of_length_eq_zero (by omega)
    subst hnil
    exact PopsWhile.stop hheap (by simp)
  | succ fuel ih =>
    intro c hheap hfuel
    cases c with
    | nil => exact PopsWhile.stop hheap (by simp)
    | cons x c =>
      have hmax : ∀ y ∈ x :: c, ¬ lt x y := fun y hy => hheap.root_not_lt hlt hy
      rw [popWhile]
      by_cases hx : p x = true
      · rw [if_pos hx]
        have hperm := ops.pop_perm c x hheap
        apply PopsWhile.next hx hperm
        · intro y hy
          exact hmax y (mem_cons_of_mem x hy)
        · apply ih _ (ops.pop_isHeap c x hheap)
          rw [hperm.length_eq]
          exact Nat.le_of_succ_le_succ hfuel
      · rw [if_neg hx]
        apply PopsWhile.stop hheap
        intro y hy
        cases hpy : p y with
        | false => rfl
        | true => exact absurd (hp x y (hmax y hy) hpy) hx

/-! ### An instance -/

theorem isHeap_of_pairwise {c : List α} (h : c.Pairwise fun a b => ¬ lt a b) : IsHeap lt c := by
  intro i x y hi hx hy
  have hxi := List.getElem?_eq_some_iff.mp hx
  have hyi := List.getElem?_eq_some_iff.mp hy
  rw [← hxi.2, ← hyi.2]
  exact pairwise_iff_getElem.mp h _ _ hxi.1 hyi.1 (by omega)

/-- Heap operations that keep the whole array sorted. -/
def sortedOps (hlt : StrictWeak lt) [DecidableRel lt] : Ops lt :=
  have htotal : Std.Total fun a b => ¬ lt a b :=
    ⟨fun a b => by
      by_cases hab : lt a b
      · exact Or.inr (hlt.asymm a b hab)
      · exact Or.inl hab⟩
  have htrans : IsTrans α fun a b => ¬ lt a b := ⟨hlt.neg_trans⟩
  have hsorted : ∀ c : List α, IsHeap lt (c.insertionSort fun a b => ¬ lt a b) :=
    fun c => isHeap_of_pairwise (List.pairwise_insertionSort _ c)
  { push := fun c x => (x :: c).insertionSort fun a b => ¬ lt a b
    pop := fun c => c.tail.insertionSort fun a b => ¬ lt a b
    make := fun c => c.insertionSort fun a b => ¬ lt a b
    push_perm := fun c x _ => List.perm_insertionSort _ (x :: c)
    push_isHeap := fun c x _ => hsorted (x :: c)
    pop_perm := fun c _ _ => List.perm_insertionSort _ c
    pop_isHeap := fun c _ _ => hsorted c
    make_perm := fun c => List.perm_insertionSort _ c
    make_isHeap := hsorted }

end WebrtcCore.Verified.Heap
