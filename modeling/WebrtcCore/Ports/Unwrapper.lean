import WebrtcCore.Verified.CMemory
import WebrtcCore.Verified.Unwrapping

/-!
# Unwrapping timestamps and sequence numbers

`modules/include/module_common_types_public.h`: `IsNewer` and the class template
`Unwrapper`, which extends a number of 16 or 32 bits to the one next to the last that was
seen.  The last number has 64 bits in the source and is unbounded in `unwrap`: a call moves it
by less than `2 ^ 32`.  In `step` the sums are checked (`SumsFit`); they fit in a run of `2 ^ 31`
calls (`step_of_behind`).
-/

namespace WebrtcCore.Ports

open Verified CMemory Simulation Unwrapping

structure Unwrapper where
  lastValue : Option Int := none
deriving DecidableEq

namespace Unwrapper

/-- The types that the templates are used with. -/
inductive Unsigned where
  | uint16
  | uint32

namespace Unsigned

/-- `std::numeric_limits<U>::max() + 1` -/
def size : Unsigned → Int
  | .uint16 => 2 ^ 16
  | .uint32 => 2 ^ 32

/-- `a - b`: operands of 16 bits are promoted to `int`, those of 32 bits wrap around. -/
def minus : Unsigned → Int → Int → Int
  | .uint16, a, b => a - b
  | .uint32, a, b => (a - b) % 2 ^ 32

end Unsigned

def isNewer (u : Unsigned) (value prevValue : Int) : Bool :=
  let kBreakpoint := u.size / 2
  if u.minus value prevValue = kBreakpoint then value > prevValue
  else value ≠ prevValue && u.minus value prevValue % u.size < kBreakpoint

def unwrapWithoutUpdate (u : Unsigned) (s : Unwrapper) (value : Int) : Int :=
  match s.lastValue with
  | none => value
  | some last =>
    let croppedLast := last % u.size
    let delta := u.minus value croppedLast
    let delta :=
      if isNewer u value croppedLast then if delta < 0 then delta + u.size else delta
      else if delta > 0 ∧ last + delta - u.size ≥ 0 then delta - u.size
      else delta
    last + delta

def updateLast (_ : Unwrapper) (lastValue : Int) : Unwrapper := ⟨some lastValue⟩

def unwrap (u : Unsigned) (s : Unwrapper) (value : Int) : Int × Unwrapper :=
  let unwrapped := unwrapWithoutUpdate u s value
  (unwrapped, updateLast s unwrapped)

section Specification

variable {u : Unsigned} {last x : Int}

theorem minus_mod (x last : Int) :
    u.minus (x % u.size) (last % u.size) % u.size = (x - last) % u.size := by
  cases u <;> simp only [Unsigned.minus, Unsigned.size] <;> omega

theorem isNewer_of_near (h : last - u.size / 2 < x) (h' : x < last + u.size / 2) :
    isNewer u (x % u.size) (last % u.size) = true ↔ last < x := by
  have hne : u.minus (x % u.size) (last % u.size) ≠ u.size / 2 := by
    cases u <;> simp only [Unsigned.minus, Unsigned.size] at h h' ⊢ <;> omega
  rw [isNewer, if_neg hne, minus_mod, Bool.and_eq_true, decide_eq_true_iff, decide_eq_true_iff]
  cases u <;> simp only [Unsigned.size] at h h' ⊢ <;> omega

theorem unwrapWithoutUpdate_of_near (hlast : 0 ≤ last) (h : last - u.size / 2 < x)
    (h' : x < last + u.size / 2) :
    unwrapWithoutUpdate u ⟨some last⟩ (x % u.size) = if 0 ≤ x then x else x + u.size := by
  have hnewer := isNewer_of_near h h'
  simp only [unwrapWithoutUpdate, hnewer]
  cases u <;> simp only [Unsigned.minus, Unsigned.size] at h h' ⊢ <;> omega

theorem unwrapWithoutUpdate_nonneg {value : Int} (s : Unwrapper) (hvalue : 0 ≤ value)
    (hlast : ∀ last ∈ s.lastValue, 0 ≤ last) : 0 ≤ unwrapWithoutUpdate u s value := by
  unfold unwrapWithoutUpdate
  split
  · exact hvalue
  · next last hsome =>
      have hlast := hlast last hsome
      have hdelta : 0 ≤ last + u.minus value (last % u.size) := by
        cases u <;> simp only [Unsigned.minus, Unsigned.size] <;> omega
      have hsize : 0 < u.size := by cases u <;> decide
      dsimp only
      split
      · split <;> omega
      · split <;> omega

end Specification

/-! ## Runs -/

/-- The sums of a call fit in an `int64_t`: the one that is returned and, where a wrap
backwards is considered, the one before it. -/
def SumsFit (u : Unsigned) (s : Unwrapper) (value : Int) : Prop :=
  InInt64 (unwrapWithoutUpdate u s value) ∧
    ∀ last ∈ s.lastValue, isNewer u value (last % u.size) = false →
      0 < u.minus value (last % u.size) → InInt64 (last + u.minus value (last % u.size))
  deriving Decidable

inductive Call where
  | unwrap (value : Int)
  | unwrapWithoutUpdate (value : Int)

/-- The number that is passed. -/
def Call.value : Call → Int
  | .unwrap value | .unwrapWithoutUpdate value => value

def step (u : Unsigned) (s : Unwrapper) : Call → Option (Int × Unwrapper)
  | .unwrap value => do
    demand (SumsFit u s value)
    return unwrap u s value
  | .unwrapWithoutUpdate value => do
    demand (SumsFit u s value)
    return (unwrapWithoutUpdate u s value, s)

section Runs

variable {u : Unsigned} {s s' : Unwrapper} {value : Int}

/-- `y` may follow `x`: less than half of the range away, and no sum overflows. -/
def Near (u : Unsigned) (x y : Int) : Prop :=
  Within u.size x y ∧ 0 ≤ y ∧ (if x ≤ y then y else y + u.size) < 2 ^ 63

theorem step_of_near {x y : Int} (hx : 0 ≤ x) (hnear : Near u x y) :
    step u ⟨some x⟩ (.unwrap (y % u.size)) = some (y, ⟨some y⟩) := by
  obtain ⟨⟨hup, hdown⟩, hy, hfits⟩ := hnear
  have hsize : 0 < u.size ∧ u.size / 2 * 2 = u.size := by cases u <;> decide
  have hlow : x - u.size / 2 < y := by omega
  have hhigh : y < x + u.size / 2 := by omega
  have hvalue : unwrapWithoutUpdate u ⟨some x⟩ (y % u.size) = y := by
    rw [unwrapWithoutUpdate_of_near hx hlow hhigh, if_pos hy]
  have hsums : SumsFit u ⟨some x⟩ (y % u.size) := by
    refine ⟨?_, ?_⟩
    · split at hfits <;> exact ⟨by omega, by omega⟩
    · intro last hlast hold hdelta
      cases hlast
      -- the step is one back, since a number is not newer than itself
      cases u <;> simp only [Unsigned.minus, Unsigned.size] at * <;>
        exact ⟨by omega, by omega⟩
  simp only [step, unwrap, demand_of hsums, hvalue]
  rfl

theorem unwrapWithoutUpdate_near (hvalue : 0 ≤ value ∧ value < u.size) :
    u.size ∣ unwrapWithoutUpdate u s value - value ∧
      ∀ last ∈ s.lastValue, last - u.size < unwrapWithoutUpdate u s value ∧
        unwrapWithoutUpdate u s value < last + u.size := by
  unfold unwrapWithoutUpdate
  split
  · rename_i hnone
    rw [hnone, Int.sub_self]
    exact ⟨Int.dvd_zero _, nofun⟩
  · rename_i last hsome
    rw [hsome]
    refine ⟨?_, fun last' hlast => ?_⟩
    · cases u <;> simp only [Unsigned.minus, Unsigned.size] at hvalue ⊢ <;> omega
    · cases hlast
      cases u <;> simp only [Unsigned.minus, Unsigned.size] at hvalue ⊢ <;>
      omega

/-- The last number is not negative and not yet `k` rounds ahead. -/
def Behind (u : Unsigned) (k : Nat) (s : Unwrapper) : Prop :=
  ∀ last ∈ s.lastValue, 0 ≤ last ∧ last < k * u.size

theorem step_of_behind {k : Nat} (h : Behind u k s) (hk : (k + 1 : Nat) * u.size ≤ 2 ^ 63)
    (hvalue : 0 ≤ value ∧ value < u.size) :
    step u s (.unwrap value) = some (unwrap u s value) ∧ Behind u (k + 1) (unwrap u s value).2 := by
  have hnonneg := unwrapWithoutUpdate_nonneg s hvalue.1 (u := u) fun last h' => (h last h').1
  have hnear := (unwrapWithoutUpdate_near (u := u) (s := s) hvalue).2
  have hround : ((k + 1 : Nat) : Int) * u.size = k * u.size + u.size := by
    rw [Int.natCast_add, Int.add_mul]
    omega
  have hahead : unwrapWithoutUpdate u s value < (k + 1 : Nat) * u.size := by
    cases hs : s.lastValue with
    | none =>
      have hfirst : unwrapWithoutUpdate u s value = value := by rw [unwrapWithoutUpdate, hs]
      have hrounds : 0 ≤ (k : Int) * u.size :=
        Int.mul_nonneg (Int.natCast_nonneg k) (Int.le_trans hvalue.1 (Int.le_of_lt hvalue.2))
      omega
    | some last =>
      have hlast := (h last hs).2
      have hup := (hnear last hs).2
      omega
  have hsums : SumsFit u s value := by
    refine ⟨⟨by omega, by omega⟩, fun last hs _ _ => ?_⟩
    have hdelta : u.minus value (last % u.size) < u.size := by
      cases u <;> simp only [Unsigned.minus, Unsigned.size] at hvalue ⊢ <;> omega
    have hlast := h last hs
    exact ⟨by omega, by omega⟩
  refine ⟨?_, fun last hs => ?_⟩
  · rw [step, demand_of hsums]
    rfl
  · cases hs
    exact ⟨hnonneg, hahead⟩

/-- No negative number has been unwrapped last. -/
def NotNegative (s : Unwrapper) : Prop := ∀ last ∈ s.lastValue, 0 ≤ last

theorem step_eq {call : Call} {o : Int} (h : step u s call = some (o, s')) :
    SumsFit u s call.value ∧ o = unwrapWithoutUpdate u s call.value ∧ (s' = s ∨ s' = ⟨some o⟩) := by
  cases call <;>
    simp only [step, Option.bind_eq_bind, Option.bind_eq_some_iff, demand_eq_some_iff] at h
  · obtain ⟨_, hfits, rfl, rfl⟩ := h
    exact ⟨hfits, rfl, .inr rfl⟩
  · obtain ⟨_, hfits, rfl, rfl⟩ := h
    exact ⟨hfits, rfl, .inl rfl⟩

/-- **Sequences of numbers that are not negative are recovered** as long as the sums fit.
Whatever the calls are, the results are not negative, congruent to what was passed and less
than a round away from the number that was unwrapped before. -/
theorem unwrap_recovers_nonneg (u : Unsigned) :
    (∀ (x : Int) (xs : List Int), 0 ≤ x → x < u.size → (x :: xs).IsChain (Near u) →
      ∃ s, runM (step u) {} ((x :: xs).map fun y => .unwrap (y % u.size)) = some (x :: xs, s)) ∧
    ∀ calls outs s call o s', (∀ c ∈ call :: calls, 0 ≤ c.value ∧ c.value < u.size) →
      runM (step u) {} calls = some (outs, s) → step u s call = some (o, s') →
      0 ≤ o ∧ u.size ∣ o - call.value ∧
        ∀ last ∈ s.lastValue, last - u.size < o ∧ o < last + u.size := by
  constructor
  · intro x xs hx hlt hchain
    have hfirst : step u {} (.unwrap (x % u.size)) = some (x, ⟨some x⟩) := by
      rw [Int.emod_eq_of_lt hx hlt, step, demand_of]
      · rfl
      · refine ⟨?_, nofun⟩
        show InInt64 x
        cases u <;> simp only [Unsigned.size] at hlt <;> exact ⟨by omega, by omega⟩
    have hnext : ∀ x y s, 0 ≤ x ∧ s = ⟨some x⟩ → Near u x y →
        ∃ s', step u s (.unwrap (y % u.size)) = some (y, s') ∧ 0 ≤ y ∧ s' = ⟨some y⟩ := by
      rintro x y s ⟨hx, rfl⟩ hnear
      exact ⟨⟨some y⟩, step_of_near hx hnear, hnear.2.1, rfl⟩
    obtain ⟨s, hs⟩ := runM_recovers hnext xs ⟨hx, rfl⟩ hchain
    refine ⟨s, ?_⟩
    rw [List.map_cons, runM_cons_of_step hfirst, hs]
    rfl
  · intro calls outs s call o s' hvalues hrun hstep
    rw [List.forall_mem_cons] at hvalues
    have hnew : NotNegative {} := fun _ h => nomatch h
    have hs : NotNegative s := by
      refine runM_invariant_of_mem (fun t c o t' hc ht hstep => ?_) hnew hrun
      obtain ⟨_, rfl, rfl | rfl⟩ := step_eq hstep
      · exact ht
      · exact fun last hlast =>
          Option.some.inj hlast ▸ unwrapWithoutUpdate_nonneg t (hvalues.2 c hc).1 ht
    obtain ⟨_, rfl, _⟩ := step_eq hstep
    exact ⟨unwrapWithoutUpdate_nonneg s hvalues.1.1 hs, unwrapWithoutUpdate_near hvalues.1⟩

end Runs

/-- Over the end of 16 bits and back. -/
theorem unwrap_recovers_65537_nonneg :
    ∃ s, runM (step .uint16) {} ([65535, 65537, 65534].map fun y => .unwrap
      (y % Unsigned.uint16.size)) = some ([65535, 65537, 65534], s) :=
  (unwrap_recovers_nonneg .uint16).1 65535 [65537, 65534] (by decide) (by decide)
    (by simp [Near, Within, Unsigned.size])

/-- The sum of an `int64_t` overflows in a sequence of `2 ^ 33` steps. -/
theorem unwrap_overflows_upwards :
    ¬ ∀ (x : Int) (xs : List Int), 0 ≤ x → x < Unsigned.uint32.size →
      (x :: xs).IsChain (fun x y => Within Unsigned.uint32.size x y ∧ 0 ≤ y) →
      ∃ s, runM (step .uint32) {} ((x :: xs).map fun y => .unwrap (y % Unsigned.uint32.size)) =
        some (x :: xs, s) := by
  refine not_recovers (2 ^ 63) (2 ^ 31 - 1) (2 ^ 33) (by decide) (by decide) ?_ ?_ (by decide) _
  · intro x hx
    simp only [Within, Unsigned.size]
    omega
  · intro s y o s' hstep
    obtain ⟨hfits, rfl, _⟩ := step_eq hstep
    exact hfits.1.2

end Unwrapper

end WebrtcCore.Ports
