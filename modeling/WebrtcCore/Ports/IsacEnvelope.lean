import WebrtcCore.Verified.CMemory

/-!
# Square roots of the envelope (`isac/fix/source/arith_routines_logist.c`)

`WebRtcIsacfix_DecLogisticMulti2` takes the square root of each value of the
envelope by Newton's iteration, from the estimate `res` that the value before it
has left behind.  `WebRtcIsac_DecodeSpec` (`isac/main/source/entropy_coding.c`)
has the same loop.  The division is by `res`, and a value of zero halves it at
each step.

`none` stands for undefined behaviour: a division by zero, or a result outside of
`int32_t`.
-/

namespace WebrtcCore.Ports.IsacEnvelope

open Verified.CMemory Option

/-- `newRes`: `(inSqrt / res + res) >> 1`. -/
def newtonStep (inSqrt res : Int) : Option Int :=
  if res = 0 then none
  else do
    let quotient ← int32 (inSqrt.tdiv res)
    let sum ← int32 (quotient + res)
    some (sum >>> (1 : Nat))

/-- The `do` loop with `i` more rounds to go after this one: the `res` that it
leaves, and each `newRes` that it computes. -/
def newtonLoop (inSqrt : Int) : Nat → Int → Option (Int × List Int)
  | 0, res => do
      let newRes ← newtonStep inSqrt res
      some (res, [newRes])
  | i + 1, res => do
      let newRes ← newtonStep inSqrt res
      if newRes ≠ res then
        let (last, trace) ← newtonLoop inSqrt i newRes
        some (last, newRes :: trace)
      else some (res, [newRes])

/-- `inSqrt`, the magnitude of a value. -/
def magnitude (value : Int) : Option Int := if value < 0 then int32 (-value) else some value

/-- The square root of one value: the `res` that is left for the next one, and
each `newRes`. -/
def envelopeRoot (value res : Int) : Option (Int × List Int) := do
  let inSqrt ← magnitude value
  let newRes ← newtonStep inSqrt res
  let (res, trace) ← newtonLoop inSqrt 10 newRes
  some (res, newRes :: trace)

/-- The square roots of some values in order: each `newRes`. -/
def envelopeRoots : Int → List (BitVec 32) → Option (List Int)
  | _, [] => some []
  | res, value :: values => do
      let (res, trace) ← envelopeRoot value.toInt res
      let rest ← envelopeRoots res values
      some (trace ++ rest)

def countLeadingZeros32 (n : BitVec 32) : Nat := if n = 0#32 then 32 else 31 - Nat.log2 n.toNat

def getSizeInBits (n : BitVec 32) : Nat := 32 - countLeadingZeros32 n

/-- The first estimate. -/
def firstRes (value : BitVec 32) : Int := (1 <<< (getSizeInBits value >>> 1) : Nat)

/-- The iteration over the envelope `envQ8`; the first estimate reads its first
value. -/
def decodeRoots (envQ8 : List (BitVec 32)) : Option (List Int) := do
  let first ← envQ8.head?
  envelopeRoots (firstRes first) envQ8

/-! ## One step -/

variable {a r : Nat} {value : Int}

theorem newtonStep_natCast {q : Nat} (hq : a / r = q) (hr : r ≠ 0) :
    newtonStep a r = if q + r < 0x80000000 then some (((q + r) / 2 : Nat) : Int) else none := by
  have hquotient : (a : Int).tdiv r = (q : Int) := congrArg Nat.cast hq
  unfold newtonStep
  rw [if_neg (by omega), hquotient, bind_eq_bind]
  by_cases hfits : q + r < 0x80000000
  · have hshift : ((q : Int) + (r : Int)) >>> (1 : Nat) = (((q + r) / 2 : Nat) : Int) := by
      rw [Int.shiftRight_eq_div_pow]
      omega
    rw [if_pos hfits, int32_of ⟨by omega, by omega⟩, bind_some,
      int32_of ⟨by omega, by omega⟩, bind_some, hshift]
  · rw [if_neg hfits]
    by_cases hquotient : (q : Int) < 0x80000000
    · rw [int32_of ⟨by omega, hquotient⟩, bind_some, int32_eq_none (by unfold InInt; omega),
        bind_none]
    · rw [int32_eq_none (by unfold InInt; omega), bind_none]

theorem newtonStep_halves (hr : r ≠ 0) (hle : r ≤ 0x40000000) :
    newtonStep (0 : Nat) r = some ((r / 2 : Nat) : Int) := by
  rw [newtonStep_natCast (Nat.zero_div r) hr, Nat.zero_add, if_pos (by omega)]

/-- An estimate from which the iteration for `a` can go on: it is positive, and
the first sum fits. -/
structure Estimate (a r : Nat) : Prop where
  pos : 1 ≤ r
  le : r ≤ 0x40000000
  fits : a = 0x7FFFFFFF → r ≠ 1

theorem Estimate.step (h : Estimate a r) (ha : 1 ≤ a) (hlt : a < 0x80000000) :
    ∃ r', newtonStep a r = some ((r' : Nat) : Int) ∧ Estimate a r' := by
  obtain ⟨hpos, hle, hfits⟩ := h
  have hstep := newtonStep_natCast (rfl : a / r = a / r) (show r ≠ 0 by omega)
  have hone : r = 1 → a / r = a := fun h => by rw [h, Nat.div_one]
  have htwo : r = 2 → a / r = a / 2 := fun h => by rw [h]
  have hhalf : 2 ≤ r → a / r ≤ a / 2 := fun h => Nat.div_le_div_left h (by decide)
  have hwhole : r ≤ a → 1 ≤ a / r := fun h => Nat.div_pos h (by omega)
  generalize a / r = q at *
  refine ⟨(q + r) / 2, ?_, ?_, ?_, ?_⟩
  · rw [hstep, if_pos (by omega)]
  · omega
  · omega
  · omega

theorem newtonStep_eq_none (hpos : 1 ≤ r) (hle : r ≤ 0x40000000) (h : ¬Estimate a r) :
    newtonStep a r = none := by
  have hbad : a = 0x7FFFFFFF ∧ r = 1 := by
    apply Classical.byContradiction
    intro hgood
    exact h ⟨hpos, hle, fun hmax hone => hgood ⟨hmax, hone⟩⟩
  rw [hbad.1, hbad.2]
  exact if_neg (by decide)

/-! ## The loop -/

theorem newtonLoop_pos (ha : 1 ≤ a) (hlt : a < 0x80000000) (i : Nat) :
    ∀ {r : Nat}, Estimate a r → ∃ (last : Nat) (trace : List Int),
      newtonLoop a i r = some ((last : Int), trace) ∧ 1 ≤ last ∧ last ≤ 0x40000000 ∧
        ∀ newRes ∈ trace, 0 ≤ newRes := by
  induction i with
  | zero =>
    intro r h
    obtain ⟨r', hstep, -⟩ := h.step ha hlt
    refine ⟨r, [(r' : Int)], ?_, h.pos, h.le, by simp⟩
    rw [newtonLoop, hstep]
    rfl
  | succ i ih =>
    intro r h
    obtain ⟨r', hstep, h'⟩ := h.step ha hlt
    obtain ⟨last, trace, hrest, hpos, hle, htrace⟩ := ih h'
    rw [newtonLoop, hstep, bind_eq_bind, bind_some]
    split
    case isTrue =>
      refine ⟨last, (r' : Int) :: trace, ?_, hpos, hle, by simpa using htrace⟩
      rw [hrest]
      rfl
    case isFalse => exact ⟨r, [(r' : Int)], rfl, h.pos, h.le, by simp⟩

theorem newtonLoop_zero (i : Nat) :
    ∀ {r : Nat}, r ≤ 0x40000000 →
      (2 ^ i ≤ r → ∃ trace : List Int,
        newtonLoop (0 : Nat) i r = some (((r / 2 ^ i : Nat) : Int), trace) ∧
        ∀ newRes ∈ trace, 0 ≤ newRes) ∧
      (r < 2 ^ i → newtonLoop (0 : Nat) i r = none) := by
  induction i with
  | zero =>
    intro r hle
    refine ⟨?_, ?_⟩
    · intro hpos
      refine ⟨[((r / 2 : Nat) : Int)], ?_, by simp; omega⟩
      rw [newtonLoop, newtonStep_halves (by omega) hle, Nat.pow_zero, Nat.div_one]
      rfl
    · intro hzero
      obtain rfl : r = 0 := by omega
      rfl
  | succ i ih =>
    intro r hle
    by_cases hzero : r = 0
    · subst hzero
      exact ⟨fun h => absurd h (by have := Nat.two_pow_pos (i + 1); omega), fun _ => rfl⟩
    · obtain ⟨hlong, hshort⟩ := ih (r := r / 2) (by omega)
      have hne : ((r / 2 : Nat) : Int) ≠ (r : Int) := by omega
      rw [newtonLoop, newtonStep_halves hzero hle, bind_eq_bind, bind_some, if_pos hne]
      refine ⟨?_, ?_⟩
      · intro h
        obtain ⟨trace, hrest, htrace⟩ := hlong (by omega)
        refine ⟨((r / 2 : Nat) : Int) :: trace, ?_, ?_⟩
        · rw [hrest, Nat.div_div_eq_div_mul, Nat.mul_comm 2]
          rfl
        · intro newRes hmem
          rcases List.mem_cons.1 hmem with rfl | hmem
          · omega
          · exact htrace newRes hmem
      · intro h
        rw [hshort (by omega)]
        rfl

/-! ## One value -/

def RootSafe (value res : Int) : Prop :=
  value ≠ -0x80000000 ∧ (value = 0 → 2048 ≤ res) ∧ (value.natAbs = 0x7FFFFFFF → res ≠ 1)

theorem magnitude_eq (hlow : -0x80000000 < value) (hhigh : value < 0x80000000) :
    magnitude value = some ((value.natAbs : Nat) : Int) := by
  unfold magnitude
  split
  case isTrue hneg =>
    rw [int32_of ⟨by omega, by omega⟩]
    congr 1
    omega
  case isFalse hnonneg =>
    congr 1
    omega

theorem envelopeRoot_eq (hlow : -0x80000000 < value) (hhigh : value < 0x80000000) (res : Int) :
    envelopeRoot value res = (newtonStep (value.natAbs : Nat) res).bind fun newRes =>
      (newtonLoop (value.natAbs : Nat) 10 newRes).bind fun r => some (r.1, newRes :: r.2) := by
  unfold envelopeRoot
  rw [magnitude_eq hlow hhigh]
  rfl

/-- What a defined iteration does. -/
def Roots (value : Int) (res : Nat) : Prop :=
  ∃ (last : Nat) (trace : List Int), envelopeRoot value res = some ((last : Int), trace) ∧
    1 ≤ last ∧ last ≤ 0x40000000 ∧ ∀ newRes ∈ trace, 0 ≤ newRes

theorem envelopeRoot_zero {res : Nat} (hpos : 1 ≤ res) (hle : res ≤ 0x40000000) :
    (2048 ≤ res → Roots 0 res) ∧ (res < 2048 → envelopeRoot 0 res = none) := by
  obtain ⟨hlong, hshort⟩ := newtonLoop_zero 10 (r := res / 2) (by omega)
  have hroot := @envelopeRoot_eq 0 (by decide) (by decide) res
  rw [show ((Int.natAbs 0 : Nat) : Int) = ((0 : Nat) : Int) from rfl,
    newtonStep_halves (by omega) hle, bind_some] at hroot
  refine ⟨?_, ?_⟩
  · intro h
    obtain ⟨trace, hloop, htrace⟩ := hlong (by omega)
    rw [hloop] at hroot
    refine ⟨_, _, hroot, by omega, by omega, ?_⟩
    intro newRes hmem
    rcases List.mem_cons.1 hmem with rfl | hmem
    · omega
    · exact htrace newRes hmem
  · intro h
    rw [hshort (by omega)] at hroot
    exact hroot

theorem envelopeRoot_nonzero {res : Nat} (hlow : -0x80000000 < value) (hhigh : value < 0x80000000)
    (hne : value ≠ 0) (hpos : 1 ≤ res) (hle : res ≤ 0x40000000) :
    (Estimate value.natAbs res → Roots value res) ∧
      (¬Estimate value.natAbs res → envelopeRoot value res = none) := by
  have hroot := envelopeRoot_eq hlow hhigh res
  refine ⟨?_, ?_⟩
  · intro h
    obtain ⟨r, hstep, hr⟩ := h.step (by omega) (by omega)
    obtain ⟨last, trace, hloop, hlast, hbound, htrace⟩ := newtonLoop_pos (by omega) (by omega) 10 hr
    rw [hstep, bind_some, hloop] at hroot
    exact ⟨last, _, hroot, hlast, hbound, by simpa using htrace⟩
  · intro h
    rw [newtonStep_eq_none hpos hle h] at hroot
    exact hroot

theorem envelopeRoot_iff {res : Nat} (hlow : -0x80000000 ≤ value) (hhigh : value < 0x80000000)
    (hpos : 1 ≤ res) (hle : res ≤ 0x40000000) :
    (RootSafe value res → Roots value res) ∧
      (¬RootSafe value res → envelopeRoot value res = none) := by
  by_cases hleast : value = -0x80000000
  · refine ⟨fun h => absurd hleast h.1, fun _ => ?_⟩
    rw [hleast]
    rfl
  have habove : -0x80000000 < value := by omega
  by_cases hzero : value = 0
  · subst hzero
    obtain ⟨hlong, hshort⟩ := envelopeRoot_zero hpos hle
    refine ⟨?_, ?_⟩
    · intro h
      have hlast := h.2.1 rfl
      exact hlong (by omega)
    · intro h
      apply hshort
      apply Nat.lt_of_not_le
      intro hlast
      exact h ⟨by decide, fun _ => by omega, fun hmax => absurd hmax (by decide)⟩
  · obtain ⟨hgood, hbad⟩ := envelopeRoot_nonzero habove hhigh hzero hpos hle
    have hiff : RootSafe value res ↔ Estimate value.natAbs res := by
      constructor
      · intro h
        exact ⟨hpos, hle, fun hmax hone => h.2.2 hmax (by rw [hone]; rfl)⟩
      · intro h
        refine ⟨hleast, fun h0 => absurd h0 hzero, fun hmax hone => h.fits hmax ?_⟩
        omega
    rw [hiff]
    exact ⟨hgood, hbad⟩

/-! ## The envelope -/

/-- Each value is safe from the estimate with which the iteration comes to it. -/
def SafeFrom : Int → List (BitVec 32) → Prop
  | _, [] => True
  | res, value :: values =>
    RootSafe value.toInt res ∧
      ∀ r, envelopeRoot value.toInt res = some r → SafeFrom r.1 values

/-- Every `newRes` of a run over some values is defined and non-negative. -/
def RunsFrom (res : Int) (values : List (BitVec 32)) : Prop :=
  ∃ trace, envelopeRoots res values = some trace ∧ ∀ newRes ∈ trace, 0 ≤ newRes

theorem toInt_bounds (value : BitVec 32) : -0x80000000 ≤ value.toInt ∧ value.toInt < 0x80000000 :=
  ⟨value.le_toInt, value.toInt_lt⟩

theorem runsFrom_cons_iff {value : BitVec 32} {values : List (BitVec 32)} {res last : Int}
    {trace : List Int} (hroot : envelopeRoot value.toInt res = some (last, trace))
    (htrace : ∀ newRes ∈ trace, 0 ≤ newRes) :
    RunsFrom res (value :: values) ↔ RunsFrom last values := by
  unfold RunsFrom
  have hrun : envelopeRoots res (value :: values) =
      (envelopeRoots last values).bind fun rest => some (trace ++ rest) := by
    rw [envelopeRoots, hroot]
    rfl
  rw [hrun]
  cases hrest : envelopeRoots last values with
  | none => simp
  | some rest =>
    constructor
    · rintro ⟨all, hall, hnonneg⟩
      cases hall
      exact ⟨rest, rfl, fun x hx => hnonneg x (List.mem_append_right _ hx)⟩
    · rintro ⟨rest', hrest', hnonneg⟩
      cases hrest'
      exact ⟨trace ++ rest, rfl, List.forall_mem_append.2 ⟨htrace, hnonneg⟩⟩

theorem runsFrom_iff (values : List (BitVec 32)) :
    ∀ {res : Nat}, 1 ≤ res → res ≤ 0x40000000 → (RunsFrom res values ↔ SafeFrom res values) := by
  induction values with
  | nil =>
    intro res _ _
    exact ⟨fun _ => trivial, fun _ => ⟨[], rfl, by simp⟩⟩
  | cons value values ih =>
    intro res hpos hle
    obtain ⟨hlow, hhigh⟩ := toInt_bounds value
    obtain ⟨hsafe, hunsafe⟩ := envelopeRoot_iff hlow hhigh hpos hle
    by_cases h : RootSafe value.toInt res
    · obtain ⟨last, trace, hroot, hlast, hbound, htrace⟩ := hsafe h
      rw [runsFrom_cons_iff hroot htrace, ih hlast hbound]
      constructor
      · intro hrest
        refine ⟨h, ?_⟩
        intro r hr
        cases hroot.symm.trans hr
        exact hrest
      · intro hrest
        exact hrest.2 _ hroot
    · constructor
      · rintro ⟨trace, hrun, -⟩
        rw [envelopeRoots, hunsafe h] at hrun
        cases hrun
      · intro hrest
        exact absurd hrest.1 h

theorem firstRes_bounds (value : BitVec 32) :
    ∃ res : Nat, firstRes value = res ∧ 1 ≤ res ∧ res ≤ 0x40000000 := by
  have hsize : getSizeInBits value >>> 1 ≤ 30 := by
    rw [getSizeInBits]
    omega
  refine ⟨_, rfl, ?_, ?_⟩
  · rw [Nat.one_shiftLeft]
    exact Nat.two_pow_pos _
  · rw [Nat.one_shiftLeft]
    exact Nat.pow_le_pow_right (by decide) hsize

theorem safeFrom_of_moderate (values : List (BitVec 32)) :
    ∀ {res : Int}, (∀ value ∈ values, value.toInt ≠ 0 ∧ -0x7FFFFFFF < value.toInt ∧
      value.toInt < 0x7FFFFFFF) → SafeFrom res values := by
  induction values with
  | nil =>
    intro res _
    trivial
  | cons value values ih =>
    intro res h
    obtain ⟨hne, hlow, hhigh⟩ := h value List.mem_cons_self
    refine ⟨⟨by omega, fun hzero => absurd hzero hne, fun hmax => by omega⟩, ?_⟩
    intro r _
    exact ih fun x hx => h x (List.mem_cons_of_mem _ hx)

/-- For an envelope of at least one value the iteration never divides by zero or
overflows, and every `newRes` is non-negative, exactly if each value is safe when
the iteration comes to it.  All of them are if none is zero or has a magnitude of
`2 ^ 31 - 1` or more. -/
theorem decodeRoots_iff (first : BitVec 32) (values : List (BitVec 32)) :
    ((∃ trace, decodeRoots (first :: values) = some trace ∧ ∀ newRes ∈ trace, 0 ≤ newRes) ↔
      SafeFrom (firstRes first) (first :: values)) ∧
    ((∀ value ∈ first :: values, value.toInt ≠ 0 ∧ -0x7FFFFFFF < value.toInt ∧
      value.toInt < 0x7FFFFFFF) → SafeFrom (firstRes first) (first :: values)) := by
  obtain ⟨res, hres, hpos, hle⟩ := firstRes_bounds first
  refine ⟨?_, safeFrom_of_moderate _⟩
  rw [hres, ← runsFrom_iff (first :: values) hpos hle, ← hres]
  rfl

/-- Three values of different sizes and signs. -/
theorem decodeRoots_three :
    ∃ trace, decodeRoots [65536#32, 1#32, BitVec.ofInt 32 (-400)] = some trace ∧
      ∀ newRes ∈ trace, 0 ≤ newRes := by
  obtain ⟨hiff, hmoderate⟩ := decodeRoots_iff 65536#32 [1#32, BitVec.ofInt 32 (-400)]
  apply hiff.2
  apply hmoderate
  intro value hmem
  simp only [List.mem_cons, List.not_mem_nil, or_false] at hmem
  rcases hmem with rfl | rfl | rfl <;> decide

/-- An envelope of one zero: the estimate 1 is halved, and the loop divides by
zero. -/
theorem decodeRoots_divides_by_zero :
    ¬∃ trace, decodeRoots [0#32] = some trace ∧ ∀ newRes ∈ trace, 0 ≤ newRes := by
  rintro ⟨trace, htrace, -⟩
  cases htrace

end WebrtcCore.Ports.IsacEnvelope
