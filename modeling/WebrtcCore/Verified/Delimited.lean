/-!
# Texts of delimited pairs

A text is a list of symbols, one of which is the delimiter.  `cut` finds the first
delimiter, `split` cuts at all of them, and `writePairs` writes pairs with a delimiter
behind each part.  A scanner that takes pairs from the front (`nextPair`) and one that
splits first both give back the pairs that were written, when no part is empty or has a
delimiter in it (`Clean`).
-/

namespace WebrtcCore.Verified.Delimited

open List

variable {α : Type}

/-- Both parts can be found again. -/
structure Clean (d : α) (p : List α × List α) : Prop where
  fst_ne_nil : p.1 ≠ []
  fst_clean : d ∉ p.1
  snd_ne_nil : p.2 ≠ []
  snd_clean : d ∉ p.2

def writePair (d : α) (p : List α × List α) : List α := p.1 ++ d :: (p.2 ++ [d])

def writePairs (d : α) (items : List (List α × List α)) : List α := items.flatMap (writePair d)

@[simp] theorem writePairs_nil (d : α) : writePairs d [] = [] := rfl

theorem writePairs_cons (d : α) (p : List α × List α) (items : List (List α × List α)) :
    writePairs d (p :: items) = p.1 ++ d :: (p.2 ++ d :: writePairs d items) := by
  simp [writePairs, writePair]

/-! ### Reading -/

variable [DecidableEq α]

/-- What stands before the first delimiter and what stands after it. -/
def cut (d : α) : List α → Option (List α × List α)
  | [] => none
  | x :: xs => if x = d then some ([], xs) else (cut d xs).map fun p => (x :: p.1, p.2)

variable {d : α} {xs rest : List α} {p : List α × List α} {items : List (List α × List α)}

theorem cut_eq_some_iff {t : List α} : cut d xs = some (t, rest) ↔ d ∉ t ∧ xs = t ++ d :: rest := by
  induction xs generalizing t with
  | nil => simp [cut]
  | cons x xs ih =>
    rw [cut]
    by_cases hx : x = d
    · rw [if_pos hx]
      cases t with
      | nil => simp [hx]
      | cons y t =>
        simp only [Option.some.injEq, Prod.mk.injEq, reduceCtorEq, false_and, false_iff,
          mem_cons, not_or, cons_append, cons.injEq]
        intro h
        exact h.1.1 (hx.symm.trans h.2.1)
    · rw [if_neg hx, Option.map_eq_some_iff]
      constructor
      · intro h
        obtain ⟨p, hp, heq⟩ := h
        cases heq
        have hcut := ih.mp hp
        refine ⟨?_, ?_⟩
        · intro hmem
          cases mem_cons.mp hmem with
          | inl h => exact hx h.symm
          | inr h => exact hcut.1 h
        · rw [hcut.2]
          rfl
      · intro h
        cases t with
        | nil => exact absurd (cons.inj h.2).1 hx
        | cons y t =>
          have hcons := cons.inj h.2
          have ht : d ∉ t := fun hmem => h.1 (mem_cons_of_mem y hmem)
          refine ⟨(t, rest), ih.mpr ⟨ht, hcons.2⟩, ?_⟩
          rw [hcons.1]

theorem cut_eq_none_iff : cut d xs = none ↔ d ∉ xs := by
  constructor
  · intro h hmem
    obtain ⟨t, rest, hxs, ht⟩ := eq_append_cons_of_mem hmem
    cases h.symm.trans (cut_eq_some_iff.2 ⟨ht, hxs⟩)
  · intro h
    cases hcut : cut d xs with
    | none => rfl
    | some p => simp [(cut_eq_some_iff.1 hcut).2] at h

/-- All the texts between delimiters; `current` is the one that is being read. -/
def splitFrom (d : α) : List α → List α → List (List α)
  | current, [] => [current]
  | current, x :: xs =>
    if x = d then current :: splitFrom d [] xs else splitFrom d (current ++ [x]) xs

def split (d : α) (xs : List α) : List (List α) := splitFrom d [] xs

theorem splitFrom_append {t : List α} (ht : d ∉ t) (current rest : List α) :
    splitFrom d current (t ++ d :: rest) = (current ++ t) :: splitFrom d [] rest := by
  induction t generalizing current with
  | nil => simp [splitFrom]
  | cons x t ih =>
    have hx : x ≠ d := fun h => ht (h ▸ mem_cons_self)
    rw [cons_append, splitFrom, if_neg hx, ih fun h => ht (mem_cons_of_mem x h)]
    simp

/-- The pair at the front, if both parts are complete and not empty, and what stands
after it. -/
def nextPair (d : α) (xs : List α) : Option ((List α × List α) × List α) :=
  match cut d xs with
  | none => none
  | some (first, xs) =>
    if first = [] then none
    else
      match cut d xs with
      | none => none
      | some (second, xs) => if second = [] then none else some ((first, second), xs)

theorem nextPair_eq_some_iff :
    nextPair d xs = some (p, rest) ↔ Clean d p ∧ xs = p.1 ++ d :: (p.2 ++ d :: rest) := by
  unfold nextPair
  constructor
  · intro h
    cases hfst : cut d xs with
    | none => simp [hfst] at h
    | some r₁ =>
      obtain ⟨first, xs₁⟩ := r₁
      have hcut₁ := cut_eq_some_iff.mp hfst
      simp only [hfst] at h
      split at h
      case isTrue => simp at h
      case isFalse hne₁ =>
        cases hsnd : cut d xs₁ with
        | none => simp [hsnd] at h
        | some r₂ =>
          have hcut₂ := cut_eq_some_iff.mp hsnd
          simp only [hsnd] at h
          split at h
          case isTrue => simp at h
          case isFalse hne₂ =>
            simp only [Option.some.injEq, Prod.mk.injEq] at h
            rw [← h.1, ← h.2]
            refine ⟨⟨hne₁, hcut₁.1, hne₂, hcut₂.1⟩, ?_⟩
            rw [hcut₁.2, hcut₂.2]
  · intro h
    have hfst : cut d xs = some (p.1, p.2 ++ d :: rest) := cut_eq_some_iff.mpr ⟨h.1.fst_clean, h.2⟩
    have hsnd : cut d (p.2 ++ d :: rest) = some (p.2, rest) :=
      cut_eq_some_iff.mpr ⟨h.1.snd_clean, rfl⟩
    simp only [hfst, hsnd, if_neg h.1.fst_ne_nil, if_neg h.1.snd_ne_nil]

theorem nextPair_writePairs (hp : Clean d p) (items : List (List α × List α)) :
    nextPair d (writePairs d (p :: items)) = some (p, writePairs d items) :=
  nextPair_eq_some_iff.mpr ⟨hp, writePairs_cons d p items⟩

theorem nextPair_shorter (h : nextPair d xs = some (p, rest)) : rest.length < xs.length := by
  rw [(nextPair_eq_some_iff.mp h).2]
  simp only [length_append, length_cons]
  omega

theorem nextPair_fuel {fuel : Nat} (hclean : ∀ q ∈ p :: items, Clean d q)
    (hfuel : (writePairs d (p :: items)).length ≤ fuel) :
    ∃ fuel', fuel = fuel' + 1 ∧ writePairs d (p :: items) ≠ [] ∧
      nextPair d (writePairs d (p :: items)) = some (p, writePairs d items) ∧
      (writePairs d items).length ≤ fuel' := by
  have hnext := nextPair_writePairs (forall_mem_cons.mp hclean).1 items
  have hshorter := nextPair_shorter hnext
  exact ⟨fuel - 1, by omega, ne_nil_of_length_pos (by omega), hnext, by omega⟩

theorem nextPair_nil (d : α) : nextPair d [] = none := rfl

theorem writePairs_injective {items' : List (List α × List α)} (hitems : ∀ p ∈ items, Clean d p)
    (hitems' : ∀ p ∈ items', Clean d p) (h : writePairs d items = writePairs d items') :
    items = items' := by
  induction items generalizing items' with
  | nil =>
    cases items' with
    | nil => rfl
    | cons q items' =>
      have hnext := nextPair_writePairs (hitems' q mem_cons_self) items'
      rw [← h, writePairs_nil, nextPair_nil] at hnext
      simp at hnext
  | cons p items ih =>
    have hp := forall_mem_cons.mp hitems
    have hnext := nextPair_writePairs hp.1 items
    cases items' with
    | nil =>
      rw [h, writePairs_nil, nextPair_nil] at hnext
      simp at hnext
    | cons q items' =>
      have hq := forall_mem_cons.mp hitems'
      have hnext' := nextPair_writePairs hq.1 items'
      rw [← h, hnext, Option.some.injEq, Prod.mk.injEq] at hnext'
      rw [hnext'.1, ih hp.2 hq.2 hnext'.2]

theorem split_writePairs (hitems : ∀ p ∈ items, Clean d p) :
    split d (writePairs d items) = (items.flatMap fun p => [p.1, p.2]) ++ [[]] := by
  unfold split
  induction items with
  | nil => rfl
  | cons p items ih =>
    have hp := forall_mem_cons.mp hitems
    rw [writePairs_cons, splitFrom_append hp.1.fst_clean, splitFrom_append hp.1.snd_clean, ih hp.2]
    rfl

end WebrtcCore.Verified.Delimited
