import WebrtcCore.Verified.Heap

/-!
# Comparisons through a key

A comparison that looks at one part after the other is the order of a key.  When
the order of the keys is a strict total order, the comparison is a strict weak order
whose incomparable elements are those with equal keys (`StrictTotal.strictWeak` and
`StrictTotal.incomparable_iff`).  Keys are pairs and texts: `StrictTotal.pair` and
`strictTotal_list`.
-/

namespace WebrtcCore.Verified.StrictOrder

open Verified.Heap

variable {α β κ : Type}

structure StrictTotal (lt : κ → κ → Prop) : Prop where
  irrefl : ∀ a, ¬ lt a a
  trans : ∀ a b c, lt a b → lt b c → lt a c
  connected : ∀ a b, ¬ lt a b → ¬ lt b a → a = b

/-- The first part decides, unless it is equal. -/
def Pair (r : α → α → Prop) (s : β → β → Prop) (p q : α × β) : Prop :=
  r p.1 q.1 ∨ p.1 = q.1 ∧ s p.2 q.2

section

variable {lt : κ → κ → Prop} {r : α → α → Prop} {s : β → β → Prop}

theorem StrictTotal.asymm (h : StrictTotal lt) {a b : κ} (hab : lt a b) : ¬ lt b a :=
  fun hba => h.irrefl a (h.trans a b a hab hba)

theorem StrictTotal.ne_of_lt (h : StrictTotal lt) {a b : κ} (hab : lt a b) : a ≠ b :=
  fun heq => h.irrefl b (heq ▸ hab)

theorem StrictTotal.neg_trans (h : StrictTotal lt) {a b c : κ} (hab : ¬ lt a b) (hbc : ¬ lt b c) :
    ¬ lt a c := by
  intro hac
  by_cases hba : lt b a
  · exact hbc (h.trans _ _ _ hba hac)
  · rw [h.connected _ _ hab hba] at hac
    exact hbc hac

theorem StrictTotal.flip (h : StrictTotal lt) : StrictTotal fun a b => lt b a where
  irrefl := h.irrefl
  trans a b c hab hbc := h.trans c b a hbc hab
  connected a b hab hba := h.connected a b hba hab

theorem StrictTotal.pair (hr : StrictTotal r) (hs : StrictTotal s) : StrictTotal (Pair r s) where
  irrefl a h := by
    cases h with
    | inl h => exact hr.irrefl _ h
    | inr h => exact hs.irrefl _ h.2
  trans a b c hab hbc := by
    cases hab with
    | inl hab =>
      cases hbc with
      | inl hbc => exact .inl (hr.trans _ _ _ hab hbc)
      | inr hbc => exact .inl (hbc.1 ▸ hab)
    | inr hab =>
      cases hbc with
      | inl hbc => exact .inl (hab.1 ▸ hbc)
      | inr hbc => exact .inr ⟨hab.1.trans hbc.1, hs.trans _ _ _ hab.2 hbc.2⟩
  connected a b hab hba := by
    have hfst : a.1 = b.1 := hr.connected _ _ (fun h => hab (.inl h)) (fun h => hba (.inl h))
    have hsnd : a.2 = b.2 :=
      hs.connected _ _ (fun h => hab (.inr ⟨hfst, h⟩)) (fun h => hba (.inr ⟨hfst.symm, h⟩))
    exact Prod.ext hfst hsnd

theorem StrictTotal.of_key (h : StrictTotal lt) {f : α → κ}
    (hinj : ∀ a b, f a = f b → a = b) (hr : ∀ a b, r a b ↔ lt (f a) (f b)) :
    StrictTotal r where
  irrefl a ha := h.irrefl _ ((hr a a).mp ha)
  trans a b c hab hbc := (hr a c).mpr (h.trans _ _ _ ((hr a b).mp hab) ((hr b c).mp hbc))
  connected a b hab hba :=
    hinj a b (h.connected _ _ (fun hlt => hab ((hr a b).mpr hlt))
      (fun hlt => hba ((hr b a).mpr hlt)))

variable {f : α → κ} (h : StrictTotal lt) (hr : ∀ a b, r a b ↔ lt (f a) (f b))

include h hr

theorem StrictTotal.strictWeak : StrictWeak r where
  asymm a b hab hba := h.asymm ((hr a b).mp hab) ((hr b a).mp hba)
  neg_trans a b c := by
    rw [hr, hr, hr]
    exact h.neg_trans

theorem StrictTotal.incomparable_iff (a b : α) : ¬ r a b ∧ ¬ r b a ↔ f a = f b := by
  rw [hr, hr]
  constructor
  · intro hne
    exact h.connected _ _ hne.1 hne.2
  · intro heq
    rw [heq]
    exact ⟨h.irrefl _, h.irrefl _⟩

end

theorem strictTotal_nat : StrictTotal (fun a b : Nat => a < b) where
  irrefl := Nat.lt_irrefl
  trans _ _ _ := Nat.lt_trans
  connected a b hab hba := by omega

theorem strictTotal_int : StrictTotal (fun a b : Int => a < b) where
  irrefl := Int.lt_irrefl
  trans _ _ _ := Int.lt_trans
  connected a b hab hba := by omega

theorem strictTotal_uint8 : StrictTotal (fun a b : UInt8 => a < b) :=
  strictTotal_nat.of_key (fun _ _ => UInt8.toNat_inj.mp) fun _ _ => UInt8.lt_iff_toNat_lt

theorem strictTotal_uint16 : StrictTotal (fun a b : UInt16 => a < b) :=
  strictTotal_nat.of_key (fun _ _ => UInt16.toNat_inj.mp) fun _ _ => UInt16.lt_iff_toNat_lt

theorem strictTotal_uint32 : StrictTotal (fun a b : UInt32 => a < b) :=
  strictTotal_nat.of_key (fun _ _ => UInt32.toNat_inj.mp) fun _ _ => UInt32.lt_iff_toNat_lt

theorem strictTotal_list [LT α] (h : StrictTotal (fun a b : α => a < b)) :
    StrictTotal (fun as bs : List α => as < bs) := by
  have htrans : Trans (fun a b : α => a < b) (fun a b => a < b) (fun a b => a < b) :=
    ⟨fun hab hbc => h.trans _ _ _ hab hbc⟩
  have hasymm : Std.Asymm (fun a b : α => a < b) := ⟨fun a b hab => h.asymm hab⟩
  have hantisymm : Std.Antisymm (fun a b : α => ¬ a < b) :=
    ⟨fun a b hab hba => h.connected a b hab hba⟩
  exact ⟨List.lt_irrefl, fun _ _ _ => List.lt_trans, fun _ _ hab hba => List.le_antisymm hba hab⟩

end WebrtcCore.Verified.StrictOrder
