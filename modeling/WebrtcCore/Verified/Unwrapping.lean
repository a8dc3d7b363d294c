import Mathlib.Data.Int.Order.Basic
import Mathlib.Data.List.Chain
import WebrtcCore.Verified.Simulation

/-!
# Unwrapping

A sequence of integers is sent as what is left of each after wrapping, and is to be
recovered from that.  `runM_recovers` is the induction: a state that goes with the last
number, from which one step recovers a number that is near to it.  `not_recovers` says that
numbers in a bounded range are not enough for all sequences.
-/

namespace WebrtcCore.Verified.Unwrapping

open Simulation List

variable {σ ι : Type} {step : σ → ι → Option (Int × σ)} {wrap : Int → ι}
  {near : Int → Int → Prop} {R : Int → σ → Prop}

/-- Less than half of `m` apart. -/
def Within (m x y : Int) : Prop := 2 * (y - x) < m ∧ 2 * (x - y) < m
  deriving Decidable

theorem runM_recovers
    (hstep : ∀ x y s, R x s → near x y → ∃ s', step s (wrap y) = some (y, s') ∧ R y s')
    (xs : List Int) :
    ∀ {x : Int} {s : σ}, R x s → (x :: xs).IsChain near →
      ∃ s', runM step s (xs.map wrap) = some (xs, s') := by
  induction xs with
  | nil => exact fun {_ s} _ _ => ⟨s, rfl⟩
  | cons y xs ih =>
    intro x s h hchain
    rw [isChain_cons_cons] at hchain
    obtain ⟨s₁, hs₁, h₁⟩ := hstep x y s h hchain.1
    obtain ⟨s', hs'⟩ := ih h₁ hchain.2
    refine ⟨s', ?_⟩
    rw [map_cons, runM_cons_of_step hs₁, hs']
    rfl

/-- `n` steps of a constant size, from 0 on. -/
def climb (size : Int) (n : Nat) : List Int := (List.range (n + 1)).map fun i : Nat => size * i

theorem climb_isChain {size : Int} (hpos : 0 ≤ size) (hnear : ∀ x, 0 ≤ x → near x (x + size))
    (n : Nat) : (climb size n).IsChain near := by
  rw [isChain_iff_getElem]
  intro i hi
  simp only [climb, getElem_map, getElem_range, Int.natCast_add, Int.natCast_one,
    Int.mul_add, Int.mul_one]
  exact hnear _ (Int.mul_nonneg hpos (Int.natCast_nonneg i))

theorem lt_of_runM {bound : Int} (hstep : ∀ s y o s', step s (wrap y) = some (o, s') → o < bound)
    (ys : List Int) :
    ∀ {s s' : σ} {os : List Int}, runM step s (ys.map wrap) = some (os, s') →
      ∀ o ∈ os, o < bound := by
  induction ys with
  | nil => exact nofun
  | cons y ys ih =>
    intro s s' os h
    obtain ⟨o, s₁, os, hs₁, hs₂, rfl⟩ := runM_cons_eq_some_iff.1 h
    exact forall_mem_cons.2 ⟨hstep s y o s₁ hs₁, ih hs₂⟩

theorem not_recovers {m : Int} (bound size : Int) (n : Nat) (hpos : 0 ≤ size) (hm : 0 < m)
    (hnear : ∀ x, 0 ≤ x → near x (x + size))
    (hstep : ∀ s y o s', step s (wrap y) = some (o, s') → o < bound) (hn : bound ≤ size * n)
    (s : σ) :
    ¬ ∀ x xs, 0 ≤ x → x < m → (x :: xs).IsChain near →
      ∃ s', runM step s ((x :: xs).map wrap) = some (x :: xs, s') := by
  intro h
  have hcons : climb size n = 0 :: (climb size n).tail := by
    rw [climb, range_succ_eq_map, map_cons, Int.natCast_zero, Int.mul_zero, tail_cons]
  have hchain := climb_isChain hpos hnear n
  rw [hcons] at hchain
  obtain ⟨s', hs'⟩ := h 0 _ (Int.le_refl 0) hm hchain
  rw [← hcons] at hs'
  have hmem : size * n ∈ climb size n := mem_map.2 ⟨n, mem_range.2 (Nat.lt_succ_self n), rfl⟩
  exact Int.not_lt.2 hn (lt_of_runM hstep _ hs' _ hmem)

end WebrtcCore.Verified.Unwrapping
