/-!
# Objects behind pointers

A store says which object lives at an address, if one does.  Writing through a pointer
and deleting are undefined at an address without an object.

Objects carry a label that no operation changes.  `Within label K` says that a part of a
program touches only objects whose label is in `K` and creates none; it composes, and two
parts that work on different labels do not disturb each other.
-/

namespace WebrtcCore.Verified.ObjectStore

variable {α κ : Type}

/-- The objects that live, by their addresses. -/
abbrev Store (α : Type) := Nat → Option α

namespace Store

def put (s : Store α) (p : Nat) (a : α) : Store α := fun q => if q = p then some a else s q

def modify (s : Store α) (p : Nat) (f : α → α) : Option (Store α) :=
  (s p).map fun a => s.put p (f a)

def erase (s : Store α) (p : Nat) : Store α := fun q => if q = p then none else s q

def delete (s : Store α) (p : Nat) : Option (Store α) := (s p).map fun _ => s.erase p

theorem put_self (s : Store α) (p : Nat) (a : α) : s.put p a p = some a := if_pos rfl

variable {p q : Nat} {s : Store α} {a : α}

theorem put_of_ne (s : Store α) (h : q ≠ p) (a : α) : s.put p a q = s q := if_neg h

theorem of_put {b : α} (h : s.put p a q = some b) : q = p ∧ b = a ∨ q ≠ p ∧ s q = some b := by
  by_cases heq : q = p
  · rw [heq, put_self] at h
    exact .inl ⟨heq, (Option.some.inj h).symm⟩
  · rw [put_of_ne s heq] at h
    exact .inr ⟨heq, h⟩

theorem modify_eq (h : s p = some a) (f : α → α) : s.modify p f = some (s.put p (f a)) := by
  rw [modify, h, Option.map_some]

theorem delete_eq (h : s p = some a) : s.delete p = some (s.erase p) := by
  rw [delete, h, Option.map_some]

theorem erase_self (s : Store α) (p : Nat) : s.erase p p = none := if_pos rfl

theorem erase_of_ne (s : Store α) (h : q ≠ p) : s.erase p q = s q := if_neg h

theorem of_erase (h : s.erase p q = some a) : s q = some a := by
  by_cases heq : q = p
  · rw [heq, erase_self] at h
    exact absurd h nofun
  · rw [erase_of_ne s heq] at h
    exact h

end Store

/-- Only objects with a label in `K` are touched, labels stay, and no object is new. -/
structure Within (label : α → κ) (K : κ → Prop) (s s' : Store α) : Prop where
  frame : ∀ q, (∀ a, s q = some a → ¬ K (label a)) → s' q = s q
  labels : ∀ q a', s' q = some a' → ∃ a, s q = some a ∧ label a' = label a

variable {label : α → κ} {K L : κ → Prop} {s s' s'' : Store α}

theorem Within.refl (label : α → κ) (K : κ → Prop) (s : Store α) : Within label K s s where
  frame _ _ := rfl
  labels _ a h := ⟨a, h, rfl⟩

theorem Within.kept (h : Within label K s s') {q : Nat} {a : α} (ha : s q = some a)
    (hK : ¬ K (label a)) : s' q = some a := by
  rw [h.frame q, ha]
  intro b hb
  rw [ha] at hb
  exact Option.some.inj hb ▸ hK

theorem Within.mono (h : Within label K s s') (hKL : ∀ k, K k → L k) : Within label L s s' where
  frame q hq := h.frame q fun a ha hK => hq a ha (hKL _ hK)
  labels := h.labels

theorem Within.trans (h : Within label K s s') (h' : Within label K s' s'') :
    Within label K s s'' where
  frame q hq := by
    have hsame := h.frame q hq
    rw [← hsame]
    apply h'.frame
    intro a ha
    rw [hsame] at ha
    exact hq a ha
  labels q a ha := by
    obtain ⟨b, hb, hlabel⟩ := h'.labels q a ha
    obtain ⟨c, hc, hlabel'⟩ := h.labels q b hb
    exact ⟨c, hc, hlabel.trans hlabel'⟩

theorem Within.put {p : Nat} {a b : α} (ha : s p = some a) (hb : label b = label a)
    (hK : K (label a)) : Within label K s (s.put p b) where
  frame q hq := by
    apply Store.put_of_ne
    intro heq
    rw [heq] at hq
    exact hq a ha hK
  labels q a' ha' := by
    obtain ⟨rfl, rfl⟩ | ⟨-, hold⟩ := Store.of_put ha'
    · exact ⟨a, ha, hb⟩
    · exact ⟨a', hold, rfl⟩

theorem Within.erase {p : Nat} {a : α} (ha : s p = some a) (hK : K (label a)) :
    Within label K s (s.erase p) where
  frame q hq := by
    apply Store.erase_of_ne
    intro heq
    rw [heq] at hq
    exact hq a ha hK
  labels q a' ha' := ⟨a', Store.of_erase ha', rfl⟩

end WebrtcCore.Verified.ObjectStore
