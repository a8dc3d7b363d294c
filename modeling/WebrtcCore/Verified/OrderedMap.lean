import Mathlib.Algebra.BigOperators.Group.List.Basic
import WebrtcCore.Verified.StrictOrder

/-!
# Ordered maps

An ordered map as the list of its pairs in the order in which an iterator meets
them.  The first pair has the least key.  Assigning to a key keeps the list sorted
(`Sorted.assign`), and under a key that is new it adds the pair and changes nothing
else (`assign_perm`).  Under a strict total order of the keys a map is determined by what
`List.lookup` finds (`lookup_assign`, `Sorted.ext`), and so is the sum of its values
(`Sorted.sum_eq`).
-/

namespace WebrtcCore.Verified.OrderedMap

open Verified Heap StrictOrder List

variable {κ ν : Type} {lt : κ → κ → Prop}

/-- The keys increase along the list. -/
def Sorted (lt : κ → κ → Prop) (m : List (κ × ν)) : Prop := m.Pairwise fun a b => lt a.1 b.1

/-- `m[k] = v`. -/
def assign (lt : κ → κ → Prop) [DecidableRel lt] (k : κ) (v : ν) :
    List (κ × ν) → List (κ × ν)
  | [] => [(k, v)]
  | p :: m =>
    if lt k p.1 then (k, v) :: p :: m
    else if lt p.1 k then p :: assign lt k v m
    else (k, v) :: m

theorem trans_of_strictWeak (hlt : StrictWeak lt) {a b c : κ} (hab : lt a b) (hbc : lt b c) :
    lt a c :=
  Classical.byContradiction fun hac =>
    hlt.neg_trans a c b hac (hlt.asymm b c hbc) hab

section Assign

variable [DecidableRel lt] {k : κ} {v : ν} {m : List (κ × ν)}

theorem mem_assign {p : κ × ν} (h : p ∈ assign lt k v m) : p = (k, v) ∨ p ∈ m := by
  induction m with
  | nil => exact Or.inl (mem_singleton.mp h)
  | cons q m ih =>
    rw [assign] at h
    split at h
    case isTrue => exact mem_cons.mp h
    case isFalse =>
      split at h
      case isTrue =>
        cases mem_cons.mp h with
        | inl hq => exact Or.inr (mem_cons.mpr (Or.inl hq))
        | inr hm =>
          cases ih hm with
          | inl hnew => exact Or.inl hnew
          | inr hold => exact Or.inr (mem_cons_of_mem q hold)
      case isFalse =>
        cases mem_cons.mp h with
        | inl hnew => exact Or.inl hnew
        | inr hm => exact Or.inr (mem_cons_of_mem q hm)

theorem Sorted.assign (hlt : StrictWeak lt) (h : Sorted lt m) (k : κ) (v : ν) :
    Sorted lt (assign lt k v m) := by
  induction m with
  | nil => exact pairwise_singleton _ _
  | cons p m ih =>
    have hp := pairwise_cons.mp h
    rw [OrderedMap.assign]
    split
    case isTrue hkp =>
      apply List.Pairwise.cons _ h
      intro q hq
      cases mem_cons.mp hq with
      | inl heq => exact heq ▸ hkp
      | inr hm => exact trans_of_strictWeak hlt hkp (hp.1 q hm)
    case isFalse hkp =>
      split
      case isTrue hpk =>
        apply List.Pairwise.cons _ (ih hp.2)
        intro q hq
        cases mem_assign hq with
        | inl hnew => exact hnew ▸ hpk
        | inr hold => exact hp.1 q hold
      case isFalse hpk =>
        apply List.Pairwise.cons _ hp.2
        intro q hq
        exact Classical.byContradiction fun hkq =>
          hlt.neg_trans p.1 k q.1 hpk hkq (hp.1 q hq)

theorem assign_perm (hfresh : ∀ p ∈ m, lt k p.1 ∨ lt p.1 k) :
    (assign lt k v m).Perm ((k, v) :: m) := by
  induction m with
  | nil => exact List.Perm.refl _
  | cons p m ih =>
    have hp := forall_mem_cons.mp hfresh
    rw [assign]
    split
    case isTrue => exact List.Perm.refl _
    case isFalse hkp =>
      rw [if_pos (hp.1.resolve_left hkp)]
      exact ((ih hp.2).cons p).trans (List.Perm.swap (k, v) p m)

end Assign

theorem Sorted.eq_of_mem (hlt : StrictTotal lt) {m₁ m₂ : List (κ × ν)}
    (h₁ : Sorted lt m₁) (h₂ : Sorted lt m₂) (h : ∀ p, p ∈ m₁ ↔ p ∈ m₂) : m₁ = m₂ := by
  have hnodup {m : List (κ × ν)} (hm : Sorted lt m) : m.Nodup := by
    apply List.Pairwise.imp _ hm
    intro p q hpq heq
    exact hlt.ne_of_lt hpq (congrArg Prod.fst heq)
  have hperm : m₁.Perm m₂ := (perm_ext_iff_of_nodup (hnodup h₁) (hnodup h₂)).mpr h
  exact hperm.eq_of_pairwise (fun p q _ _ hpq hqp => absurd hqp (hlt.asymm hpq)) h₁ h₂

section Lookup

variable [DecidableEq κ] [BEq κ] [LawfulBEq κ] {k : κ} {v : ν} {m m₁ m₂ : List (κ × ν)}

theorem lookup_cons_eq (p : κ × ν) (m : List (κ × ν)) (k : κ) :
    (p :: m).lookup k = if k = p.1 then some p.2 else m.lookup k := by
  rw [lookup_cons]
  by_cases hk : k = p.1
  · rw [if_pos hk, beq_iff_eq.mpr hk]
  · rw [if_neg hk, beq_eq_false_iff_ne.mpr hk]

theorem lookup_assign [DecidableRel lt] (hlt : StrictTotal lt) (k : κ) (v : ν)
    (m : List (κ × ν)) (k' : κ) :
    (assign lt k v m).lookup k' = if k' = k then some v else m.lookup k' := by
  induction m with
  | nil => rw [assign, lookup_cons_eq]
  | cons p m ih =>
    rw [assign]
    split
    case isTrue => rw [lookup_cons_eq]
    case isFalse hkp =>
      split
      case isTrue hpk =>
        have hne : k ≠ p.1 := (hlt.ne_of_lt hpk).symm
        rw [lookup_cons_eq, lookup_cons_eq, ih]
        by_cases hk : k' = k
        · rw [if_pos hk, if_pos hk, if_neg (hk ▸ hne)]
        · rw [if_neg hk, if_neg hk]
      case isFalse hpk =>
        rw [lookup_cons_eq, lookup_cons_eq, hlt.connected k p.1 hkp hpk]
        by_cases hk : k' = p.1
        · rw [if_pos hk, if_pos hk]
        · rw [if_neg hk, if_neg hk, if_neg hk]

theorem lookup_filter_key (q : κ → Bool) (m : List (κ × ν)) (k : κ) :
    (m.filter fun p => q p.1).lookup k = if q k then m.lookup k else none := by
  induction m with
  | nil => simp
  | cons p m ih =>
    rw [filter_cons, lookup_cons_eq]
    by_cases hk : k = p.1
    · by_cases hq : q p.1
      · rw [if_pos hq, lookup_cons_eq, if_pos hk, if_pos hk, hk, if_pos hq]
      · rw [if_neg hq, ih, hk, if_neg hq, if_neg hq]
    · by_cases hq : q p.1
      · rw [if_pos hq, lookup_cons_eq, if_neg hk, if_neg hk, ih]
      · rw [if_neg hq, if_neg hk, ih]

omit [DecidableEq κ] in
theorem mem_of_lookup (h : m.lookup k = some v) : (k, v) ∈ m := by
  obtain ⟨front, back, rfl, -⟩ := lookup_eq_some_iff.1 h
  exact mem_append_right front mem_cons_self

omit [DecidableEq κ] in
theorem lookup_eq_none_of_ne (h : ∀ p ∈ m, p.1 ≠ k) : m.lookup k = none :=
  lookup_eq_none_iff.mpr fun p hp => bne_iff_ne.mpr (h p hp).symm

theorem Sorted.lookup_of_mem (hlt : StrictTotal lt) (hm : Sorted lt m) (h : (k, v) ∈ m) :
    m.lookup k = some v := by
  induction m with
  | nil => simp at h
  | cons p m ih =>
    have hp := pairwise_cons.mp hm
    rw [lookup_cons_eq]
    cases mem_cons.mp h with
    | inl heq => rw [← heq, if_pos rfl]
    | inr hmem =>
      rw [if_neg (hlt.ne_of_lt (hp.1 _ hmem)).symm]
      exact ih hp.2 hmem

theorem Sorted.ext (hlt : StrictTotal lt) (h₁ : Sorted lt m₁) (h₂ : Sorted lt m₂)
    (h : ∀ k, m₁.lookup k = m₂.lookup k) : m₁ = m₂ := by
  apply Sorted.eq_of_mem hlt h₁ h₂
  intro p
  constructor
  · intro hp
    exact mem_of_lookup ((h p.1).symm.trans (h₁.lookup_of_mem hlt hp))
  · intro hp
    exact mem_of_lookup ((h p.1).trans (h₂.lookup_of_mem hlt hp))

end Lookup

section Sum

variable [AddCommMonoid ν] {m m₁ m₂ : List (κ × ν)}

/-- The sum of the values. -/
def sum (m : List (κ × ν)) : ν := (m.map Prod.snd).sum

@[simp] theorem sum_nil : sum ([] : List (κ × ν)) = 0 := rfl

@[simp] theorem sum_cons (p : κ × ν) (m : List (κ × ν)) : sum (p :: m) = p.2 + sum m := by
  simp [sum]

/-- The pairs that count for the sum. -/
def support [DecidableEq ν] (m : List (κ × ν)) : List (κ × ν) := m.filter fun p => !decide (p.2 = 0)

theorem sum_support [DecidableEq ν] (m : List (κ × ν)) : sum (support m) = sum m := by
  unfold support
  induction m with
  | nil => rfl
  | cons p m ih =>
    by_cases hp : p.2 = 0
    · simp [hp, ih]
    · simp [hp, ih]

variable [DecidableEq κ] [BEq κ] [LawfulBEq κ]

theorem sum_assign [DecidableRel lt] (hlt : StrictTotal lt) (hm : Sorted lt m) (k : κ) (v : ν) :
    sum (assign lt k ((m.lookup k).getD 0 + v) m) = sum m + v := by
  induction m with
  | nil => simp [assign]
  | cons p m ih =>
    have hp := pairwise_cons.mp hm
    rw [assign]
    split
    case isTrue hkp =>
      have hnone : (p :: m).lookup k = none := by
        apply lookup_eq_none_of_ne
        intro q hq
        cases mem_cons.mp hq with
        | inl heq => exact heq ▸ (hlt.ne_of_lt hkp).symm
        | inr hmem => exact (hlt.ne_of_lt (hlt.trans _ _ _ hkp (hp.1 q hmem))).symm
      rw [hnone, sum_cons, Option.getD_none, zero_add, add_comm]
    case isFalse hkp =>
      split
      case isTrue hpk =>
        have hne : k ≠ p.1 := (hlt.ne_of_lt hpk).symm
        rw [lookup_cons_eq, if_neg hne, sum_cons, sum_cons, ih hp.2, add_assoc]
      case isFalse hpk =>
        have hk := hlt.connected k p.1 hkp hpk
        rw [lookup_cons_eq, if_pos hk, Option.getD_some, sum_cons, sum_cons, add_right_comm]

theorem Sorted.mem_support_iff [DecidableEq ν] (hlt : StrictTotal lt) (hm : Sorted lt m)
    {p : κ × ν} :
    p ∈ support m ↔ p.2 ≠ 0 ∧ (m.lookup p.1).getD 0 = p.2 := by
  rw [support, mem_filter, Bool.not_eq_true', decide_eq_false_iff_not]
  constructor
  · intro h
    rw [hm.lookup_of_mem hlt h.1]
    exact ⟨h.2, rfl⟩
  · intro h
    cases hp : m.lookup p.1 with
    | none => exact absurd (by rw [← h.2, hp]; rfl) h.1
    | some v =>
      rw [hp, Option.getD_some] at h
      rw [h.2] at hp
      exact ⟨mem_of_lookup hp, h.1⟩

theorem Sorted.sum_eq [DecidableEq ν] (hlt : StrictTotal lt) (h₁ : Sorted lt m₁)
    (h₂ : Sorted lt m₂) (h : ∀ k, (m₁.lookup k).getD 0 = (m₂.lookup k).getD 0) :
    sum m₁ = sum m₂ := by
  rw [← sum_support m₁, ← sum_support m₂]
  apply congrArg
  apply Sorted.eq_of_mem hlt (List.Pairwise.filter _ h₁) (List.Pairwise.filter _ h₂)
  intro p
  rw [← support, ← support, h₁.mem_support_iff hlt, h₂.mem_support_iff hlt, h p.1]

end Sum

end WebrtcCore.Verified.OrderedMap
