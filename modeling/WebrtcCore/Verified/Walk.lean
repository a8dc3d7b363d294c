/-!
# Walks that end at a value or get stuck

A search that steps through candidates until their value passes a target needs
another way out when the target is out of reach.  A common one is to give up
when two neighbours have the same value.  `walk` is such a search, with a bound
on its rounds; `walk_returns` says that it ends if there is a reason to ahead,
`walk_path` says where, and `walk_eq_none` that it does not end on a set of states
that it never leaves.  `walk_unique`: the bound on the rounds does not matter.
-/

namespace WebrtcCore.Verified.Walk

variable {σ β : Type} [DecidableEq β]

/-- How a walk ends: at a state, with the value of the one before it, or between two
states of the same value. -/
inductive Outcome (σ β : Type)
  | stopped (last : β) (s : σ)
  | stuck
  deriving DecidableEq

/-- Step on while the value asks for it. -/
def walk (value : σ → β) (next : σ → σ) (goOn : β → Bool) :
    Nat → β → σ → Option (Outcome σ β)
  | 0, _, _ => none
  | fuel + 1, last, s =>
    if goOn (value s) then
      if value s = value (next s) then some .stuck
      else walk value next goOn fuel (value s) (next s)
    else some (.stopped last s)

section Rules

variable {value : σ → β} {next : σ → σ} {goOn : β → Bool}

variable {path : Nat → σ} {j : Nat}

theorem walk_returns (hpath : ∀ i < j, next (path i) = path (i + 1))
    (hstop : goOn (value (path j)) = false ∨ value (path j) = value (next (path j)))
    {fuel : Nat} (hfuel : j < fuel) (last : β) :
    ∃ r, walk value next goOn fuel last (path 0) = some r := by
  obtain ⟨fuel, rfl⟩ : ∃ n, fuel = n + 1 := ⟨fuel - 1, by omega⟩
  induction j generalizing path fuel last with
  | zero =>
    rw [walk]
    split
    · next hgo =>
        rw [if_pos (hstop.resolve_left (by simp [hgo]))]
        exact ⟨_, rfl⟩
    · exact ⟨_, rfl⟩
  | succ j ih =>
    rw [walk, hpath 0 (Nat.succ_pos j)]
    split
    · split
      · exact ⟨_, rfl⟩
      · obtain ⟨n, rfl⟩ : ∃ n, fuel = n + 1 := ⟨fuel - 1, by omega⟩
        exact @ih (fun i => path (i + 1)) (fun i hi => hpath (i + 1) (by omega)) hstop
          (value (path 0)) n (by omega)
    · exact ⟨_, rfl⟩

theorem walk_unique {fuel fuel' : Nat} {last : β} {s : σ} {r r' : Outcome σ β}
    (h : walk value next goOn fuel last s = some r)
    (h' : walk value next goOn fuel' last s = some r') : r = r' := by
  induction fuel generalizing fuel' last s with
  | zero => contradiction
  | succ fuel ih =>
    cases fuel' with
    | zero => contradiction
    | succ fuel' =>
      rw [walk] at h h'
      split at h
      · rw [if_pos ‹_›] at h'
        split at h
        · rw [if_pos ‹_›] at h'
          exact Option.some.inj (h.symm.trans h')
        · rw [if_neg ‹_›] at h'
          exact ih h h'
      · rw [if_neg ‹_›] at h'
        exact Option.some.inj (h.symm.trans h')

theorem walk_path (hpath : ∀ i ≤ j, next (path i) = path (i + 1))
    (hgo : ∀ i ≤ j, 1 ≤ i → goOn (value (path i)) = true)
    (hend : goOn (value (path (j + 1))) = false) {fuel : Nat} (hfuel : j < fuel) :
    walk value next goOn fuel (value (path 0)) (path 1) =
      some (if ∀ i ≤ j, 1 ≤ i → value (path i) ≠ value (path (i + 1)) then
        .stopped (value (path j)) (path (j + 1)) else .stuck) := by
  induction j generalizing path fuel with
  | zero =>
    obtain ⟨fuel, rfl⟩ : ∃ n, fuel = n + 1 := ⟨fuel - 1, by omega⟩
    rw [walk, if_neg (by rw [hend]; decide), if_pos fun i hi hpos => by omega]
  | succ j ih =>
    obtain ⟨fuel, rfl⟩ : ∃ n, fuel = n + 1 := ⟨fuel - 1, by omega⟩
    rw [walk, if_pos (hgo 1 (by omega) (Nat.le_refl 1)), hpath 1 (by omega)]
    by_cases hequal : value (path 1) = value (path 2)
    · rw [if_pos hequal, if_neg fun hne => hne 1 (by omega) (Nat.le_refl 1) hequal]
    · rw [if_neg hequal, @ih (fun i => path (i + 1)) (fun i hi => hpath (i + 1) (by omega))
        (fun i hi _ => hgo (i + 1) (by omega) (by omega)) hend fuel (by omega)]
      congr 1
      refine ite_congr (propext ⟨?_, fun hne i hi _ => hne (i + 1) (by omega) (by omega)⟩)
        (fun _ => rfl) fun _ => rfl
      rintro hne (_ | _ | i) hi hpos
      · omega
      · exact hequal
      · exact hne (i + 1) (by omega) (by omega)

theorem walk_eq_none {P : σ → Prop}
    (hstep : ∀ s, P s → goOn (value s) = true ∧ value s ≠ value (next s) ∧ P (next s))
    (fuel : Nat) (last : β) {s : σ} (hs : P s) : walk value next goOn fuel last s = none := by
  induction fuel generalizing last s with
  | zero => rfl
  | succ fuel ih =>
    obtain ⟨hgo, hne, hnext⟩ := hstep s hs
    rw [walk, if_pos hgo, if_neg hne]
    exact ih _ hnext

end Rules

end WebrtcCore.Verified.Walk
