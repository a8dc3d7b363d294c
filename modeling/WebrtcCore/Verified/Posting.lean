import Mathlib.Data.List.Nodup

/-!
# Posted items with a time before which they are not delivered

A queue with timers takes items that are to be delivered at once and items that
are to be delivered no earlier than a given time.  An `Entry` is a posted item
with its place in the posting order.  Delayed entries are delivered by time and
then by that place; `Before` is this order.
-/

namespace WebrtcCore.Verified.Posting

/-- A posted item: its place in the posting order, and the time before which it is
not to be delivered if it was delayed. -/
structure Entry (α : Type) where
  number : Nat
  due : Option Int
  item : α

variable {α : Type}

/-- The time to deliver a delayed entry has come. -/
def Entry.isDue (now : Int) (e : Entry α) : Bool :=
  match e.due with
  | some time => decide (time ≤ now)
  | none => false

/-- By time, then by posting order. -/
def Entry.Before (a b : Entry α) : Prop :=
  ∃ s t, a.due = some s ∧ b.due = some t ∧ (s < t ∨ s = t ∧ a.number < b.number)

theorem Entry.isDue_iff {now : Int} {e : Entry α} :
    e.isDue now = true ↔ ∃ t, e.due = some t ∧ t ≤ now := by
  rw [Entry.isDue]
  cases e.due with
  | none => simp
  | some t => simp

theorem Entry.isDue_later {now later : Int} {e : Entry α} (h : e.isDue now = true)
    (hle : now ≤ later) : e.isDue later = true := by
  obtain ⟨t, ht, hdue⟩ := isDue_iff.mp h
  exact isDue_iff.mpr ⟨t, ht, Int.le_trans hdue hle⟩

theorem Entry.Before.asymm {a b : Entry α} (hab : a.Before b) (hba : b.Before a) : False := by
  obtain ⟨s, t, hs, ht, hlt⟩ := hab
  obtain ⟨t', s', ht', hs', hgt⟩ := hba
  rw [hs] at hs'
  rw [ht] at ht'
  cases hs'
  cases ht'
  omega

theorem perm_of_count {l l' k k' : List α} (h : l.Perm l')
    (hcount : ∀ [DecidableEq α] (a : α), l.count a = l'.count a → k.count a = k'.count a) :
    k.Perm k' := by
  classical
  rw [List.perm_iff_count]
  intro a
  exact hcount a (List.perm_iff_count.mp h a)

theorem perm_cons_filter {es : List (Entry α)} {e : Entry α}
    (hnodup : (es.map (·.number)).Nodup) (he : e ∈ es) :
    es.Perm (e :: es.filter (·.number != e.number)) := by
  classical
  refine (List.perm_cons_erase he).trans (.cons e (.of_eq ?_))
  rw [(List.Nodup.of_map _ hnodup).erase_eq_filter]
  apply List.filter_congr
  intro y hy
  have hnumber : y.number = e.number ↔ y = e := ⟨List.inj_on_of_nodup_map hnodup hy he, congrArg _⟩
  rw [bne, bne, Bool.not_inj_iff, Bool.eq_iff_iff, beq_iff_eq, beq_iff_eq, hnumber]

end WebrtcCore.Verified.Posting
