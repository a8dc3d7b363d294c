import Mathlib.Algebra.Ring.Int.Defs
import Mathlib.Data.Set.Basic
import WebrtcCore.Verified.CMemory
import WebrtcCore.Verified.StrictOrder
import WebrtcCore.Verified.Unwrapping

/-!
# Sequence numbers that wrap around

`rtc_base/numerics/mod_ops.h` and `rtc_base/numerics/sequence_number_util.h`: sums,
differences and comparisons of numbers of an unsigned type, modulo `M` or, if `M` is 0, modulo
the size of the type, and the class template `SeqNumUnwrapper`, whose sum is an `int64_t`.
-/

namespace WebrtcCore.Ports.SequenceNumbers

open Verified CMemory Simulation StrictOrder Unwrapping Option

/-- The parameters of the templates: an unsigned type of some width and a value of it. -/
structure SeqNum where
  width : Nat
  M : Nat
  width_pos : 0 < width
  M_lt : M < 2 ^ width

namespace SeqNum

/-- The number of sequence numbers, and where wrapping occurs. -/
def size (T : SeqNum) : Nat := if T.M = 0 then 2 ^ T.width else T.M

/-- `a - b`: operands of fewer than 32 bits are promoted to `int`. -/
def minus (T : SeqNum) (a b : Int) : Int := if T.width < 32 then a - b else (a - b) % 2 ^ T.width

/-- The conversion to the type. -/
def convert (T : SeqNum) (x : Int) : Nat := (x % 2 ^ T.width).toNat

def forwardDiff (T : SeqNum) (a b : Nat) : Nat :=
  if T.M = 0 then T.convert (T.minus b a)
  else if a ≤ b then T.convert (T.minus b a)
  else T.convert (T.minus T.M (T.minus a b))

def reverseDiff (T : SeqNum) (a b : Nat) : Nat := T.forwardDiff b a

def minDiff (T : SeqNum) (a b : Nat) : Nat := min (T.forwardDiff a b) (T.reverseDiff a b)

def aheadOrAt (T : SeqNum) (a b : Nat) : Bool :=
  if T.M = 0 then
    let maxDist : Nat := (2 ^ T.width - 1) / 2 + 1
    if T.minus a b = maxDist then b < a else T.forwardDiff b a < maxDist
  else
    let maxDist := T.M / 2
    if T.M % 2 = 0 ∧ T.minDiff a b = maxDist then b < a else T.forwardDiff b a ≤ maxDist

def aheadOf (T : SeqNum) (a b : Nat) : Bool := a ≠ b && T.aheadOrAt a b

def ascendingSeqNumComp (T : SeqNum) (a b : Nat) : Bool := T.aheadOf a b

def descendingSeqNumComp (T : SeqNum) (a b : Nat) : Bool := T.aheadOf b a

/-! ## Comparison -/

variable {T : SeqNum} {a b : Nat}

theorem size_pos (T : SeqNum) : 0 < T.size := by
  unfold size
  split
  · exact Nat.two_pow_pos T.width
  · omega

theorem size_le (T : SeqNum) : T.size ≤ 2 ^ T.width := by
  have h := T.M_lt
  unfold size
  split <;> omega

theorem convert_minus (T : SeqNum) (x y : Int) :
    T.convert (T.minus x y) = ((x - y) % 2 ^ T.width).toNat := by
  unfold convert minus
  split
  · rfl
  · rw [Int.emod_emod]

theorem emod_of_lt {m : Nat} (ha : a < m) (hb : b < m) :
    (((b : Int) - a) % m).toNat = if a ≤ b then b - a else m - (a - b) := by
  split
  · rw [Int.emod_eq_of_lt (by omega) (by omega)]
    omega
  · rw [← Int.add_emod_right, Int.emod_eq_of_lt (by omega) (by omega)]
    omega

theorem forwardDiff_eq (ha : a < T.size) (hb : b < T.size) :
    T.forwardDiff a b = if a ≤ b then b - a else T.size - (a - b) := by
  have hle := T.size_le
  have hpow : ((2 ^ T.width : Nat) : Int) = 2 ^ T.width := by push_cast; rfl
  have hdiff := emod_of_lt (a := a) (b := b) (m := 2 ^ T.width) (by omega) (by omega)
  rw [hpow] at hdiff
  unfold forwardDiff
  rw [convert_minus, hdiff]
  by_cases hM : T.M = 0
  · rw [if_pos hM, size, if_pos hM]
  · rw [if_neg hM]
    by_cases hab : a ≤ b
    · rw [if_pos hab, if_pos hab, if_pos hab]
    · -- neither subtraction wraps
      have hsize : T.size = T.M := if_neg hM
      have hminus : T.minus a b = a - b := by
        unfold minus
        split
        · rfl
        · rw [Int.emod_eq_of_lt (by omega) (by omega)]
      rw [if_neg hab, if_neg hab, convert_minus, Int.emod_eq_of_lt (by omega) (by omega)]
      omega

theorem aheadOrAt_iff (ha : a < T.size) (hb : b < T.size) :
    T.aheadOrAt a b = true ↔
      2 * T.forwardDiff b a < T.size ∨ 2 * T.forwardDiff b a = T.size ∧ b < a := by
  have hforward := forwardDiff_eq hb ha
  unfold aheadOrAt
  by_cases hM : T.M = 0
  · have hsize : T.size = 2 ^ T.width := if_pos hM
    have heven : 2 ^ T.width = 2 * 2 ^ (T.width - 1) := by
      rw [← Nat.pow_succ', Nat.succ_eq_add_one, Nat.sub_add_cancel T.width_pos]
    have hminus : T.minus a b = a - b ∨ T.minus a b = T.forwardDiff b a := by
      unfold minus
      split
      · exact .inl rfl
      · refine .inr ?_
        rw [forwardDiff, if_pos hM, convert_minus, Int.toNat_of_nonneg]
        exact Int.emod_nonneg _ (Int.ne_of_gt (Int.pow_pos (by decide)))
    rw [if_pos hM]
    dsimp only
    split at hforward <;> split <;> simp only [decide_eq_true_eq] <;> omega
  · have hsize : T.size = T.M := if_neg hM
    have hreverse := forwardDiff_eq ha hb
    rw [if_neg hM, minDiff, reverseDiff]
    dsimp only
    split at hforward <;> split at hreverse <;> split <;> simp only [decide_eq_true_eq] <;> omega

/-- `a` is one of the numbers of half a round from `start` on. -/
def InWindow (T : SeqNum) (start a : Nat) : Prop := a < T.size ∧ T.forwardDiff start a < T.size / 2

theorem aheadOf_iff {start : Nat} (hstart : start < T.size) (ha : T.InWindow start a)
    (hb : T.InWindow start b) :
    T.aheadOf a b = true ↔ T.forwardDiff start b < T.forwardDiff start a := by
  obtain ⟨ha, hposa⟩ := ha
  obtain ⟨hb, hposb⟩ := hb
  rw [aheadOf, Bool.and_eq_true, decide_eq_true_iff, aheadOrAt_iff ha hb]
  rw [forwardDiff_eq hstart ha] at hposa ⊢
  rw [forwardDiff_eq hstart hb] at hposb ⊢
  rw [forwardDiff_eq hb ha]
  split at hposa <;> split at hposb <;> split <;> omega

theorem strictTotal_of_position {S : Set Nat} {start : Nat} (hstart : start < T.size)
    (hS : ∀ a ∈ S, T.InWindow start a) :
    StrictTotal (fun a b : S => T.aheadOf a b = true) where
  irrefl a := by
    rw [aheadOf_iff hstart (hS a a.2) (hS a a.2)]
    exact Nat.lt_irrefl _
  trans a b c := by
    rw [aheadOf_iff hstart (hS a a.2) (hS b b.2), aheadOf_iff hstart (hS b b.2) (hS c c.2),
      aheadOf_iff hstart (hS a a.2) (hS c c.2)]
    exact fun hab hbc => Nat.lt_trans hbc hab
  connected a b := by
    rw [aheadOf_iff hstart (hS a a.2) (hS b b.2), aheadOf_iff hstart (hS b b.2) (hS a a.2)]
    intro hab hba
    have heq := Nat.le_antisymm (Nat.not_lt.1 hab) (Nat.not_lt.1 hba)
    have ha := (hS a a.2).1
    have hb := (hS b b.2).1
    rw [forwardDiff_eq hstart ha, forwardDiff_eq hstart hb] at heq
    refine Subtype.ext ?_
    split at heq <;> split at heq <;> omega

/-- **The comparison** of two numbers picks one of them, and it orders any numbers out of
half a round by their positions in it. -/
theorem comparison_is_tournament (T : SeqNum) :
    (∀ a b, a < T.size → b < T.size → (a = b ∧ T.aheadOf a b = false ∧ T.aheadOf b a = false) ∨
      (a ≠ b ∧ T.aheadOf a b = true ∧ T.aheadOf b a = false) ∨
      (a ≠ b ∧ T.aheadOf a b = false ∧ T.aheadOf b a = true)) ∧
    ∀ (S : Set Nat) (start : Nat), start < T.size → (∀ a ∈ S, T.InWindow start a) →
      StrictTotal (fun a b : S => T.ascendingSeqNumComp a b = true) ∧
      StrictTotal (fun a b : S => T.descendingSeqNumComp a b = true) ∧
      ∀ a ∈ S, ∀ b ∈ S,
        (T.ascendingSeqNumComp a b = true ↔ T.forwardDiff start b < T.forwardDiff start a) ∧
        (T.descendingSeqNumComp a b = true ↔ T.forwardDiff start a < T.forwardDiff start b) := by
  constructor
  · intro a b ha hb
    have hab := aheadOrAt_iff ha hb
    have hba := aheadOrAt_iff hb ha
    rw [forwardDiff_eq hb ha] at hab
    rw [forwardDiff_eq ha hb] at hba
    simp only [← Bool.not_eq_true, aheadOf, Bool.and_eq_true, decide_eq_true_iff, hab, hba]
    split <;> split <;> omega
  · intro S start hstart hS
    have htotal := strictTotal_of_position hstart hS
    refine ⟨htotal, htotal.flip, fun a ha b hb => ⟨?_, ?_⟩⟩
    · exact aheadOf_iff hstart (hS a ha) (hS b hb)
    · exact aheadOf_iff hstart (hS b hb) (hS a ha)

/-- Numbers of 16 bits on either side of the wrap. -/
theorem comparison_over_wrap : StrictTotal (fun a b : ({65535, 2} : Set Nat) =>
    (⟨16, 0, by decide, by decide⟩ : SeqNum).ascendingSeqNumComp a b = true) :=
  ((comparison_is_tournament ⟨16, 0, by decide, by decide⟩).2 {65535, 2} 65535 (by decide) (by
    rintro a (rfl | rfl) <;> exact ⟨by decide, by decide⟩)).1

end SeqNum

/-! ## Unwrapping -/

structure SeqNumUnwrapper where
  lastUnwrapped : Int := 0
  lastValue : Option Nat := none
deriving DecidableEq

/-- `Unwrap`; `ForwardDiff` checks that the numbers are below the modulus. -/
def unwrap (T : SeqNum) (s : SeqNumUnwrapper) (value : Nat) : Option (Int × SeqNumUnwrapper) :=
  match s.lastValue with
  | none => some (value, ⟨value, some value⟩)
  | some last => do
    demand (last < T.size ∧ value < T.size)
    let forward := s.lastUnwrapped + T.forwardDiff last value
    demand (InInt64 forward)
    let unwrapped := if T.aheadOrAt value last then forward else forward - T.size
    demand (InInt64 unwrapped)
    return (unwrapped, ⟨unwrapped, some value⟩)

variable {T : SeqNum}

def wrap (T : SeqNum) (x : Int) : Nat := (x % T.size).toNat

theorem wrap_cast (T : SeqNum) (x : Int) : (wrap T x : Int) = x % T.size := by
  have h := T.size_pos
  exact Int.toNat_of_nonneg (Int.emod_nonneg _ (by omega))

theorem wrap_lt (T : SeqNum) (x : Int) : wrap T x < T.size := by
  have h := Int.emod_lt_of_pos x (Int.natCast_pos.2 T.size_pos)
  rw [← wrap_cast] at h
  exact Int.ofNat_lt.1 h

theorem forwardDiff_cast {a b : Nat} (ha : a < T.size) (hb : b < T.size) :
    (T.forwardDiff a b : Int) = ((b : Int) - a) % T.size := by
  rw [SeqNum.forwardDiff_eq ha hb, ← SeqNum.emod_of_lt ha hb, Int.toNat_of_nonneg]
  exact Int.emod_nonneg _ (by omega)

/-- `y` may follow `x`: less than half of the modulus away, and no sum overflows. -/
def Near (T : SeqNum) (x y : Int) : Prop :=
  Within T.size x y ∧ InInt64 y ∧ InInt64 (if x ≤ y then y else y + T.size)

/-- The number that was unwrapped last. -/
def Follows (T : SeqNum) (x : Int) (s : SeqNumUnwrapper) : Prop := s = ⟨x, some (wrap T x)⟩

theorem Follows.unwrap {x y : Int} {s : SeqNumUnwrapper} (h : Follows T x s) (hnear : Near T x y) :
    ∃ s', unwrap T s (wrap T y) = some (y, s') ∧ Follows T y s' := by
  obtain ⟨⟨hup, hdown⟩, hfits, hforward⟩ := hnear
  have hx := wrap_lt T x
  have hy := wrap_lt T y
  have hsum : x + T.forwardDiff (wrap T x) (wrap T y) = if x ≤ y then y else y + T.size := by
    rw [forwardDiff_cast hx hy, wrap_cast, wrap_cast, Int.emod_sub_emod, Int.sub_emod_emod]
    split
    · rw [Int.emod_eq_of_lt (by omega) (by omega)]
      omega
    · rw [← Int.add_emod_right, Int.emod_eq_of_lt (by omega) (by omega)]
      omega
  have hahead : T.aheadOrAt (wrap T y) (wrap T x) = true ↔ x ≤ y := by
    rw [SeqNum.aheadOrAt_iff hy hx]
    split at hsum <;> omega
  have hunwrapped : (if x ≤ y then if x ≤ y then y else y + T.size
      else (if x ≤ y then y else y + T.size) - T.size) = y := by
    split <;> omega
  refine ⟨⟨y, some (wrap T y)⟩, ?_, rfl⟩
  rw [h]
  simp [SequenceNumbers.unwrap, hsum, hahead, hunwrapped, demand_of (And.intro hx hy),
    demand_of hforward, demand_of hfits]

/-- What was unwrapped last is congruent to what was passed. -/
def Congruent (T : SeqNum) (s : SeqNumUnwrapper) : Prop :=
  ∀ last ∈ s.lastValue, (T.size : Int) ∣ s.lastUnwrapped - last

theorem Congruent.unwrap {s s' : SeqNumUnwrapper} {value : Nat} {o : Int} (h : Congruent T s)
    (hunwrap : unwrap T s value = some (o, s')) :
    s' = ⟨o, some value⟩ ∧ (T.size : Int) ∣ o - value := by
  unfold SequenceNumbers.unwrap at hunwrap
  split at hunwrap
  · cases hunwrap
    exact ⟨rfl, by simp⟩
  · rename_i last hlast
    simp only [bind_eq_bind, bind_eq_some_iff, demand_eq_some_iff] at hunwrap
    obtain ⟨_, ⟨hlt, hlt'⟩, _, _, _, _, rfl, rfl⟩ := hunwrap
    refine ⟨rfl, ?_⟩
    have hbefore := h last hlast
    have hforward : (T.size : Int) ∣ T.forwardDiff last value - (value - last) := by
      rw [forwardDiff_cast hlt hlt']
      exact Int.dvd_sub_self_of_emod_eq rfl
    have hsum : (T.size : Int) ∣ s.lastUnwrapped + T.forwardDiff last value - value := by
      have hadd := Int.dvd_add hbefore hforward
      rwa [show s.lastUnwrapped - last + (T.forwardDiff last value - (value - last)) =
        s.lastUnwrapped + T.forwardDiff last value - value by omega] at hadd
    split
    · exact hsum
    · rw [sub_right_comm]
      exact Int.dvd_sub hsum (Int.dvd_refl _)

/-- **Unwrapping** gives back a sequence whose steps are less than half of the modulus, as
long as the sums fit, and what it returns is congruent to what was passed in any case. -/
theorem unwrap_recovers (T : SeqNum) :
    (∀ (x : Int) (xs : List Int), 0 ≤ x → x < T.size → (x :: xs).IsChain (Near T) →
      ∃ s, runM (unwrap T) {} ((x :: xs).map (wrap T)) = some (x :: xs, s)) ∧
    ∀ values outs s value o s', runM (unwrap T) {} values = some (outs, s) →
      unwrap T s value = some (o, s') → (T.size : Int) ∣ o - value := by
  constructor
  · intro x xs hpos hlt hchain
    have hwrap : (wrap T x : Int) = x := (wrap_cast T x).trans (Int.emod_eq_of_lt hpos hlt)
    have hfirst : unwrap T {} (wrap T x) = some (x, ⟨x, some (wrap T x)⟩) := by rw [unwrap, hwrap]
    obtain ⟨s, hs⟩ := runM_recovers (R := Follows T) (fun x y s h hnear => h.unwrap hnear) xs
      rfl hchain
    refine ⟨s, ?_⟩
    rw [List.map_cons, runM_cons_of_step hfirst, hs]
    rfl
  · intro values outs s value o s' hrun hunwrap
    have hnew : Congruent T {} := fun _ h => nomatch h
    have hs : Congruent T s := by
      refine runM_invariant_of_mem ?_ hnew hrun
      intro t v o t' _ ht hstep
      obtain ⟨rfl, hdvd⟩ := ht.unwrap hstep
      exact fun last hlast => some.inj hlast ▸ hdvd
    exact (hs.unwrap hunwrap).2

/-- Over the end of 16 bits and back. -/
theorem unwrap_recovers_65537 :
    ∃ s, runM (unwrap ⟨16, 0, by decide, by decide⟩) {}
      ([65535, 65537, 65534].map (wrap ⟨16, 0, by decide, by decide⟩)) =
        some ([65535, 65537, 65534], s) :=
  (unwrap_recovers _).1 65535 [65537, 65534] (by decide) (by decide)
    (by simp [Near, Within, InInt64, SeqNum.size])

/-- The sequence numbers of all 32 bits. -/
def uint32 : SeqNum := ⟨32, 0, by decide, by decide⟩

/-- The sum of an `int64_t` overflows in a sequence of `2 ^ 33` steps. -/
theorem unwrap_overflows :
    ¬ ∀ (x : Int) (xs : List Int), 0 ≤ x → x < uint32.size →
      (x :: xs).IsChain (Within uint32.size) →
      ∃ s, runM (unwrap uint32) {} ((x :: xs).map (wrap uint32)) = some (x :: xs, s) := by
  have hsize : (uint32.size : Int) = 2 ^ 32 := rfl
  refine not_recovers (2 ^ 63) (2 ^ 31 - 1) (2 ^ 33) (by decide) (by omega)
    (fun _ _ => ⟨by omega, by omega⟩) ?_ (by decide) _
  intro s y o s' hstep
  have hlt : wrap uint32 y < 2 ^ 32 := wrap_lt uint32 y
  unfold unwrap at hstep
  split at hstep
  · cases hstep
    omega
  · simp only [bind_eq_bind, bind_eq_some_iff, demand_eq_some_iff] at hstep
    obtain ⟨_, _, _, _, _, hfits, rfl, _⟩ := hstep
    exact hfits.2

/-! ## Modular arithmetic -/

namespace SeqNum

/-- `Add<M>`; the type is `unsigned long`. -/
def add (T : SeqNum) (a b : Nat) : Nat :=
  let t := T.convert (T.minus T.M (b % T.M : Nat))
  let res := T.convert (T.minus a t)
  if t > a then T.convert (res + T.M) else res

def subtract (T : SeqNum) (a b : Nat) : Nat :=
  let sub := b % T.M
  if a < sub then T.convert (T.minus T.M (T.minus sub a)) else T.convert (T.minus a sub)

theorem add_eq {a : Nat} (ha : a < T.M) (b : Nat) : T.add a b = (a + b) % T.M := by
  have hlt := T.M_lt
  have hmod := Nat.mod_lt b (Nat.zero_lt_of_lt ha)
  have hpow : ((2 ^ T.width : Nat) : Int) = 2 ^ T.width := by push_cast; rfl
  rw [Nat.add_mod, Nat.mod_eq_of_lt ha, add]
  generalize b % T.M = r at hmod ⊢
  have ht : T.convert (T.minus T.M r) = T.M - r := by
    rw [convert_minus, Int.emod_eq_of_lt (by omega) (by omega)]
    omega
  rw [ht, convert_minus]
  split
  · -- the difference wraps, and the sum with the modulus wraps back
    rw [Nat.mod_eq_of_lt (by omega), convert, Int.toNat_of_nonneg (Int.emod_nonneg _ (by omega)),
      Int.emod_add_emod, Int.emod_eq_of_lt (by omega) (by omega)]
    omega
  · rw [Nat.mod_eq_sub_mod (by omega), Nat.mod_eq_of_lt (by omega),
      Int.emod_eq_of_lt (by omega) (by omega)]
    omega

theorem minDiff_eq {a b : Nat} (ha : a < T.size) (hb : b < T.size) :
    T.minDiff a b = min (a - b + (b - a)) (T.size - (a - b + (b - a))) := by
  rw [minDiff, reverseDiff, forwardDiff_eq ha hb, forwardDiff_eq hb ha]
  split <;> split <;> omega

/-- **The helpers are exact**: sums and differences are those of the residues, also where the
sum does not fit the type, and the shorter way round is a metric. -/
theorem helpers_are_modular (T : SeqNum) {a : Nat} (ha : a < T.M) :
    (∀ b, T.add a b = (a + b) % T.M ∧ (T.subtract a b : Int) = ((a : Int) - b) % T.M) ∧
    ∀ b < T.M, (T.forwardDiff a b : Int) = ((b : Int) - a) % T.M ∧
      (T.reverseDiff a b : Int) = ((a : Int) - b) % T.M ∧
      T.minDiff a b = T.minDiff b a ∧ (T.minDiff a b = 0 ↔ a = b) ∧
      ∀ c < T.M, T.minDiff a c ≤ T.minDiff a b + T.minDiff b c := by
  have hM : T.M ≠ 0 := by omega
  have hsize : T.size = T.M := if_neg hM
  have hsubtract : ∀ b, T.subtract a b = T.forwardDiff (b % T.M) a := by
    intro b
    rw [subtract, forwardDiff, if_neg hM, ← ite_not]
    simp only [Nat.not_lt]
  refine ⟨fun b => ⟨add_eq ha b, ?_⟩, ?_⟩
  · have hmod := Nat.mod_lt b (Nat.zero_lt_of_lt ha)
    rw [hsubtract]
    rw [← hsize] at hmod ha ⊢
    rw [forwardDiff_cast hmod ha, Int.natCast_mod, Int.sub_emod_emod]
  · rw [← hsize] at ha ⊢
    intro b hb
    refine ⟨forwardDiff_cast ha hb, forwardDiff_cast hb ha, Nat.min_comm .., ?_, fun c hc => ?_⟩
    · rw [minDiff_eq ha hb]
      omega
    · rw [minDiff_eq ha hb, minDiff_eq hb hc, minDiff_eq ha hc]
      generalize hx : a - b + (b - a) = x
      generalize hy : b - c + (c - b) = y
      generalize hz : a - c + (c - a) = z
      have hline : z ≤ x + y ∧ x ≤ y + z ∧ y ≤ x + z ∧ x + y + z ≤ 2 * T.size := by omega
      clear hx hy hz
      omega

/-- The largest modulus of 64 bits. -/
theorem helpers_are_modular_largest :
    (SeqNum.mk 64 (2 ^ 64 - 1) (by decide) (by decide)).add (2 ^ 64 - 2) 2 = 1 :=
  ((helpers_are_modular _ (by decide)).1 2).1

end SeqNum

end WebrtcCore.Ports.SequenceNumbers
