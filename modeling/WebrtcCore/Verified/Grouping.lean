/-!
# Lists of groups

An aggregate, such as a bucket with a sum, stands for a run of consecutive values.  `Groups R
bs us` says that the aggregates `bs` stand for the values `us`, in their order, where `R b g`
says what one aggregate stands for.  Aggregates can be taken and added at both ends
(`Groups.cons`, `Groups.append`, `Groups.split`).
-/

namespace WebrtcCore.Verified.Grouping

variable {α β : Type}

inductive Groups (R : β → List α → Prop) : List β → List α → Prop
  | nil : Groups R [] []
  | cons {b : β} {g : List α} {bs : List β} {us : List α} (head : R b g)
      (tail : Groups R bs us) : Groups R (b :: bs) (g ++ us)

namespace Groups

variable {R : β → List α → Prop} {bs bs' : List β} {us us' : List α}

theorem singleton {b : β} {g : List α} (h : R b g) : Groups R [b] g := by
  have hcons := Groups.cons h .nil
  rwa [List.append_nil] at hcons

theorem append (h : Groups R bs us) (h' : Groups R bs' us') : Groups R (bs ++ bs') (us ++ us') := by
  induction h with
  | nil => exact h'
  | cons head tail ih =>
    rw [List.append_assoc]
    exact .cons head ih

theorem split (h : Groups R (bs ++ bs') us) :
    ∃ front back, us = front ++ back ∧ Groups R bs front ∧ Groups R bs' back := by
  induction bs generalizing us with
  | nil => exact ⟨[], us, rfl, .nil, h⟩
  | cons b bs ih =>
    obtain _ | ⟨head, tail⟩ := h
    obtain ⟨front, back, rfl, hfront, hback⟩ := ih tail
    exact ⟨_, back, (List.append_assoc ..).symm, .cons head hfront, hback⟩

theorem of_singleton {b : β} (h : Groups R [b] us) : R b us := by
  obtain _ | ⟨head, _ | _⟩ := h
  rwa [List.append_nil]

theorem exists_of_mem (h : Groups R bs us) {u : α} (hu : u ∈ us) :
    ∃ b ∈ bs, ∃ g, R b g ∧ u ∈ g := by
  induction h with
  | nil => cases hu
  | cons head tail ih =>
    rcases List.mem_append.1 hu with hu | hu
    · exact ⟨_, List.mem_cons_self, _, head, hu⟩
    · obtain ⟨b, hb, g, hg, hug⟩ := ih hu
      exact ⟨b, List.mem_cons_of_mem _ hb, g, hg, hug⟩

end Groups

end WebrtcCore.Verified.Grouping
