import WebrtcCore.Ports.IsacEnvelope
import WebrtcCore.Verified.CMemory
import WebrtcCore.Verified.Grid

/-!
# Energy and autocorrelation in 32 bits (`common_audio/signal_processing`)

Ports of `WebRtcSpl_Energy`, with `WebRtcSpl_GetScalingSquare`, and of
`WebRtcSpl_AutoCorrelation`, with the C version of `WebRtcSpl_MaxAbsValueW16`.  Both shift the
products of samples so that their sum has room, by the bits of the length less the headroom of
the greatest square.  `none` is a sum outside of `int32_t` or a read outside of the vector.
-/

namespace WebrtcCore.Ports.SplCorrelation

open IsacEnvelope Verified CMemory

/-- `WebRtcSpl_NormW32`. -/
def normW32 (a : BitVec 32) : Nat :=
  if a = 0#32 then 0 else countLeadingZeros32 (if a.slt 0#32 then ~~~a else a) - 1

/-- `WebRtcSpl_NormW32(WEBRTC_SPL_MUL(smax, smax))`. -/
def normSquare (smax : Int16) : Nat := normW32 (BitVec.ofInt 32 (smax.toInt * smax.toInt))

/-- The end of `WebRtcSpl_GetScalingSquare`, which `WebRtcSpl_AutoCorrelation` has as well. -/
def scalingOf (smax : Int16) (times : Nat) : Nat :=
  let nbits := getSizeInBits (BitVec.ofNat 32 times)
  let t := normSquare smax
  if smax = 0 then 0 else if t > nbits then 0 else nbits - t

/-- The loop of `WebRtcSpl_GetScalingSquare`.  The negation is converted to `int16_t`. -/
def maxAbs (vector : List Int16) : Int16 :=
  vector.foldl (fun smax s => let sabs := if s > 0 then s else -s
    if sabs > smax then sabs else smax) (-1)

def getScalingSquare (vector : List Int16) (times : Nat) : Nat := scalingOf (maxAbs vector) times

def maxAbsValueW16 (vector : List Int16) : Int16 :=
  let maximum := vector.foldl (fun maximum s =>
    if s.toInt.natAbs > maximum then s.toInt.natAbs else maximum) 0
  .ofNat (if maximum > 32767 then 32767 else maximum)

section

variable (vector : List Int16) (lag scaling : Nat)

/-- `sum += (vector[j] * vector[lag + j]) >> scaling`. -/
def addProduct (sum : Int) (j : Nat) : Option Int := do
  let a ← vector[j]?
  let b ← vector[lag + j]?
  int32 (sum + (a.toInt * b.toInt) >>> scaling)

/-- The additions from `j` up to `limit`. -/
def sumLoop (limit : Nat) : Nat → Int → Nat → Option Int
  | 0, _, _ => none
  | fuel + 1, sum, j =>
    if j < limit then do
      let sum ← addProduct vector lag scaling sum j
      sumLoop limit fuel sum (j + 1)
    else some sum

/-- The unrolled loop, with the `j` it ends at. -/
def unrolledLoop : Nat → Int → Nat → Option (Int × Nat)
  | 0, _, _ => none
  | fuel + 1, sum, j =>
    if lag + j + 3 < vector.length then do
      let sum ← addProduct vector lag scaling sum j
      let sum ← addProduct vector lag scaling sum (j + 1)
      let sum ← addProduct vector lag scaling sum (j + 2)
      let sum ← addProduct vector lag scaling sum (j + 3)
      unrolledLoop fuel sum (j + 4)
    else some (sum, j)

/-- One value of the correlation. -/
def correlation : Option Int := do
  let (sum, j) ← unrolledLoop vector lag scaling (vector.length + 1) 0 0
  sumLoop vector lag scaling (sizeSub vector.length lag) (vector.length + 1) sum j

end

/-- The energy and `*scale_factor`. -/
def energy (vector : List Int16) : Option (Int × Nat) := do
  let scaling := getScalingSquare vector vector.length
  let en ← sumLoop vector 0 scaling vector.length (vector.length + 1) 0 0
  some (en, scaling)

/-- The values stored in `result` and `*scale`. -/
def autoCorrelation (vector : List Int16) (order : Nat) : Option (List Int × Nat) := do
  let scaling := scalingOf (maxAbsValueW16 vector) vector.length
  let result ← (List.range (order + 1)).mapM fun i => correlation vector i scaling
  some (result, scaling)

/-! ## Sums with room -/

/-- The exact sum of the first `m` shifted products. -/
def exactSum (vector : List Int16) (lag scaling : Nat) : Nat → Int
  | 0 => 0
  | m + 1 => exactSum vector lag scaling m +
      ((vector[m]?.getD 0).toInt * (vector[lag + m]?.getD 0).toInt) >>> scaling

/-- The products are so small that their number of bits and that of the length fit together. -/
structure Roomy (vector : List Int16) (scaling bound : Nat) : Prop where
  shifted : ∀ a ∈ vector, ∀ b ∈ vector, ((a.toInt * b.toInt) >>> scaling).natAbs ≤ bound
  room : vector.length * bound < 2 ^ 31

namespace Roomy

variable {vector : List Int16} {scaling bound lag : Nat} (h : Roomy vector scaling bound)
include h

theorem natAbs_exactSum_le (m : Nat) (hm : lag + m ≤ vector.length) :
    (exactSum vector lag scaling m).natAbs ≤ m * bound := by
  induction m with
  | zero => exact Nat.zero_le _
  | succ m ih =>
    have hterm := h.shifted _ (List.getElem_mem (show m < vector.length by omega)) _
      (List.getElem_mem (show lag + m < vector.length by omega))
    have hsum := ih (by omega)
    rw [exactSum, List.getElem?_eq_getElem (by omega), List.getElem?_eq_getElem (by omega),
      Nat.succ_mul]
    exact Nat.le_trans (Int.natAbs_add_le _ _) (Nat.add_le_add hsum hterm)

theorem inInt (m : Nat) (hm : lag + m ≤ vector.length) : InInt (exactSum vector lag scaling m) := by
  have hle := h.natAbs_exactSum_le m hm
  have hroom := Nat.lt_of_le_of_lt
    (Nat.mul_le_mul_right bound (show m ≤ vector.length by omega)) h.room
  constructor <;> omega

theorem addProduct_eq {j : Nat} (hj : lag + j < vector.length) :
    addProduct vector lag scaling (exactSum vector lag scaling j) j =
      some (exactSum vector lag scaling (j + 1)) := by
  have hfits := h.inInt (j + 1) hj
  rw [exactSum, List.getElem?_eq_getElem (show j < vector.length by omega),
    List.getElem?_eq_getElem hj] at *
  rw [addProduct, List.getElem?_eq_getElem (by omega), List.getElem?_eq_getElem hj]
  exact int32_of hfits

theorem sumLoop_eq {fuel j : Nat} (hlag : lag ≤ vector.length) (hj : j ≤ vector.length - lag)
    (hfuel : vector.length - lag < fuel + j) :
    sumLoop vector lag scaling (vector.length - lag) fuel (exactSum vector lag scaling j) j =
      some (exactSum vector lag scaling (vector.length - lag)) := by
  induction fuel generalizing j with
  | zero => omega
  | succ fuel ih =>
    unfold sumLoop
    split
    · rw [h.addProduct_eq (by omega)]
      exact ih (by omega) (by omega)
    · rw [show j = vector.length - lag by omega]

theorem unrolledLoop_eq {fuel j : Nat} (hj : j ≤ vector.length - lag)
    (hfuel : vector.length < fuel + j) :
    ∃ j' ≤ vector.length - lag,
      unrolledLoop vector lag scaling fuel (exactSum vector lag scaling j) j =
        some (exactSum vector lag scaling j', j') := by
  induction fuel generalizing j with
  | zero => omega
  | succ fuel ih =>
    unfold unrolledLoop
    split
    · simp only [Option.bind_eq_bind]
      rw [h.addProduct_eq (by omega), Option.bind_some, h.addProduct_eq (by omega),
        Option.bind_some, h.addProduct_eq (by omega), Option.bind_some,
        h.addProduct_eq (by omega)]
      exact ih (by omega) (by omega)
    · exact ⟨j, hj, rfl⟩

theorem correlation_eq (hlag : lag ≤ vector.length) (hlen : vector.length < 2 ^ 64) :
    correlation vector lag scaling = some (exactSum vector lag scaling (vector.length - lag)) := by
  obtain ⟨j, hj, hloop⟩ := h.unrolledLoop_eq (Nat.zero_le _) (Nat.lt_succ_self vector.length)
  rw [correlation, show (0 : Int) = exactSum vector lag scaling 0 from rfl, hloop,
    sizeSub_of_le hlag hlen]
  exact h.sumLoop_eq hlag hj (by omega)

end Roomy

/-! ## The scaling makes room -/

theorem bits_spec {a : Nat} (hpos : 0 < a) (ha : a < 2 ^ 31) :
    getSizeInBits (BitVec.ofNat 32 a) = a.log2 + 1 ∧ normW32 (BitVec.ofNat 32 a) = 30 - a.log2 ∧
      a.log2 ≤ 30 ∧ a < 2 ^ (a.log2 + 1) := by
  have hlog := (Nat.log2_lt (Nat.ne_of_gt hpos)).2 ha
  have htoNat : (BitVec.ofNat 32 a).toNat = a := Nat.mod_eq_of_lt (by omega)
  have hne : BitVec.ofNat 32 a ≠ 0#32 := fun h => by
    have hzero := congrArg BitVec.toNat h
    rw [htoNat] at hzero
    exact Nat.ne_of_gt hpos hzero
  have hslt : (BitVec.ofNat 32 a).slt 0#32 = false := by
    rw [BitVec.slt_zero_eq_msb, BitVec.msb_eq_decide]
    exact decide_eq_false (by omega)
  rw [normW32, getSizeInBits, hslt, if_neg hne, if_neg Bool.false_ne_true, countLeadingZeros32,
    if_neg hne, htoNat]
  exact ⟨by omega, by omega, by omega, Nat.lt_log2_self⟩

theorem natAbs_shiftRight_le {p : Int} {t nbits : Nat} (ht : t ≤ 31) (hbits : nbits ≤ 31)
    (hp : p.natAbs ≤ 2 ^ (31 - t)) : (p >>> (nbits - t)).natAbs ≤ 2 ^ (31 - nbits) := by
  have hpow : 2 ^ (31 - t) ≤ 2 ^ (31 - nbits) * 2 ^ (nbits - t) := by
    rw [← Nat.pow_add]
    exact Nat.pow_le_pow_right (by decide) (by omega)
  have hpos := Nat.two_pow_pos (nbits - t)
  rw [Int.shiftRight_eq_div_pow]
  generalize 2 ^ (nbits - t) = d at *
  generalize 2 ^ (31 - nbits) = bound at *
  have hle : p / (d : Int) ≤ bound :=
    Int.ediv_le_of_le_mul (by omega) (by rw [← Int.natCast_mul]; omega)
  have hge : -(bound : Int) ≤ p / (d : Int) :=
    Int.le_ediv_of_mul_le (by omega) (by rw [Int.neg_mul]; omega)
  omega

theorem square_lt {smax : Int16} (h : smax ≠ 0) :
    smax.toInt.natAbs * smax.toInt.natAbs < 2 ^ (31 - normSquare smax) ∧ normSquare smax ≤ 31 := by
  have hne : smax.toInt ≠ 0 := fun hzero => h (Int16.toInt_inj.1 hzero)
  have hlow := smax.le_toInt
  have hhigh := smax.toInt_lt
  have hsquare : smax.toInt.natAbs * smax.toInt.natAbs ≤ 2 ^ 15 * 2 ^ 15 :=
    Nat.mul_le_mul (by omega) (by omega)
  obtain ⟨-, hnorm, hlog, hlt⟩ := bits_spec (Nat.mul_pos (Int.natAbs_pos.2 hne)
    (Int.natAbs_pos.2 hne)) (Nat.lt_of_le_of_lt hsquare (by decide))
  have hof : BitVec.ofInt 32 (smax.toInt * smax.toInt) =
      BitVec.ofNat 32 (smax.toInt.natAbs * smax.toInt.natAbs) := by
    rw [← Int.natAbs_mul_self, BitVec.ofInt_natCast]
  rw [normSquare, hof, hnorm]
  refine ⟨?_, by omega⟩
  rwa [show 31 - (30 - (smax.toInt.natAbs * smax.toInt.natAbs).log2) =
    (smax.toInt.natAbs * smax.toInt.natAbs).log2 + 1 by omega]

theorem roomy_scalingOf {vector : List Int16} {smax : Int16} (hlen : vector.length ≤ 2 ^ 15)
    (hle : ∀ a ∈ vector, ∀ b ∈ vector, (smax = 0 → a.toInt * b.toInt = 0) ∧
      (smax ≠ 0 → (a.toInt * b.toInt).natAbs ≤ 2 ^ (31 - normSquare smax))) :
    ∃ bound, Roomy vector (scalingOf smax vector.length) bound := by
  rcases Nat.eq_zero_or_pos vector.length with hzero | hpos
  · rw [List.length_eq_zero_iff] at hzero
    exact ⟨0, by simp [hzero], by simp⟩
  · obtain ⟨hbits, -, hlog, hlt⟩ := bits_spec hpos (by omega)
    have hroom : getSizeInBits (BitVec.ofNat 32 vector.length) ≤ 31 := by omega
    rw [← hbits] at hlt
    refine ⟨2 ^ (31 - getSizeInBits (BitVec.ofNat 32 vector.length)), fun a ha b hb => ?_, ?_⟩
    · have hab := hle a ha b hb
      unfold scalingOf
      dsimp only
      split
      · rename_i hsmax
        simp [hab.1 hsmax]
      · rename_i hsmax
        have hshift := natAbs_shiftRight_le (square_lt hsmax).2 hroom (hab.2 hsmax)
        split
        · rename_i hgt
          rwa [Nat.sub_eq_zero_of_le (Nat.le_of_lt hgt)] at hshift
        · exact hshift
    · refine Nat.lt_of_lt_of_eq ((Nat.mul_lt_mul_right (Nat.two_pow_pos _)).2 hlt) ?_
      rw [← Nat.pow_add, Nat.add_sub_of_le hroom]

theorem le_foldl_max {α β : Type} (R : β → β → Prop) [DecidableRel R] (key : β → Int) (f : α → β)
    (hkey : ∀ a b, R a b ↔ key a < key b) (xs : List α) (init : β) :
    let m := xs.foldl (fun m x => if R m (f x) then f x else m) init
    key init ≤ key m ∧ ∀ x ∈ xs, key (f x) ≤ key m := by
  induction xs generalizing init with
  | nil => simp
  | cons x xs ih =>
    obtain ⟨hinit, hrest⟩ := ih (if R init (f x) then f x else init)
    have hboth : key init ≤ key (if R init (f x) then f x else init) ∧
        key (f x) ≤ key (if R init (f x) then f x else init) := by
      split <;> simp_all <;> omega
    refine ⟨Int.le_trans hboth.1 hinit, fun y hy => ?_⟩
    rcases List.mem_cons.1 hy with rfl | hy
    · exact Int.le_trans hboth.2 hinit
    · exact hrest y hy

theorem natAbs_le_maxAbs {vector : List Int16} {s : Int16} (hs : s ∈ vector) (hmin : s ≠ -32768) :
    (s.toInt.natAbs : Int) ≤ (maxAbs vector).toInt := by
  have hle := (le_foldl_max (fun m x : Int16 => x > m) Int16.toInt
    (fun s : Int16 => if s > 0 then s else -s) (fun _ _ => Int16.lt_iff_toInt_lt)
    vector (-1)).2 s hs
  have hlow := s.le_toInt
  have hne : s.toInt ≠ -32768 := fun h => hmin (Int16.toInt_inj.1 h)
  refine Int.le_trans ?_ hle
  split
  · rename_i hpos
    rw [gt_iff_lt, Int16.lt_iff_toInt_lt, Int16.toInt_zero] at hpos
    omega
  · rename_i hpos
    rw [gt_iff_lt, Int16.lt_iff_toInt_lt, Int16.toInt_zero] at hpos
    rw [Int16.toInt_neg, Int.bmod_def]
    omega

/-- **The energy does not overflow** where no sample is -32768: all partial sums of the shifted
squares fit in `int32_t`, and the last of them is returned, with the scaling. -/
theorem energy_exact {vector : List Int16} (hlen : vector.length ≤ 2 ^ 15)
    (hmin : -32768 ∉ vector) :
    let scaling := getScalingSquare vector vector.length
    energy vector = some (exactSum vector 0 scaling vector.length, scaling) ∧
      ∀ m ≤ vector.length, InInt (exactSum vector 0 scaling m) := by
  intro scaling
  have hroomy : ∃ bound, Roomy vector scaling bound := by
    refine roomy_scalingOf hlen fun a ha b hb => ?_
    have hle {s : Int16} (hs : s ∈ vector) := natAbs_le_maxAbs hs fun h => hmin (h ▸ hs)
    have ha := hle ha
    have hb := hle hb
    constructor
    · intro hzero
      rw [hzero, Int16.toInt_zero] at ha
      rw [show a.toInt = 0 by omega, Int.zero_mul]
    · intro hne
      refine Nat.le_trans ?_ (Nat.le_of_lt (square_lt hne).1)
      rw [Int.natAbs_mul]
      exact Nat.mul_le_mul (by omega) (by omega)
  obtain ⟨bound, h⟩ := hroomy
  refine ⟨?_, fun m hm => h.inInt m (by omega)⟩
  have hloop : sumLoop vector 0 scaling vector.length (vector.length + 1) 0 0 =
      some (exactSum vector 0 scaling vector.length) :=
    h.sumLoop_eq (Nat.zero_le _) (Nat.zero_le _) (by omega)
  rw [energy, hloop]
  rfl

/-- Full-scale samples of either sign, all but the least. -/
theorem energy_exact_fullScale :
    let vector : List Int16 := [32767, -32767, 12]
    energy vector = some (exactSum vector 0 1 3, 1) := by
  exact (energy_exact (by decide) (by decide)).1

/-- The magnitude of -32768 is -32768 in 16 bits, so nothing is shifted, and the sum of two
squares is 2 ^ 31. -/
theorem energy_overflows : getScalingSquare [-32768, -32768] 2 = 0 ∧
    exactSum [-32768, -32768] 0 0 2 = 2 ^ 31 ∧ energy [-32768, -32768] = none := by
  decide

/-! ## Autocorrelation -/

theorem natAbs_mul_le {vector : List Int16} {a b : Int16} (ha : a ∈ vector) (hb : b ∈ vector) :
    (maxAbsValueW16 vector = 0 → a.toInt * b.toInt = 0) ∧ (maxAbsValueW16 vector ≠ 0 →
      (a.toInt * b.toInt).natAbs ≤ 2 ^ (31 - normSquare (maxAbsValueW16 vector))) := by
  have hle {s : Int16} (hs : s ∈ vector) := (le_foldl_max (fun m x : Nat => x > m) Nat.cast
    (fun s : Int16 => s.toInt.natAbs) (fun _ _ => Int.ofNat_lt.symm) vector 0).2 s hs
  have hbound {s : Int16} : s.toInt.natAbs ≤ 2 ^ 15 := by
    have hlow := s.le_toInt
    have hhigh := s.toInt_lt
    omega
  have ha := Int.ofNat_le.1 (hle ha)
  have hb := Int.ofNat_le.1 (hle hb)
  unfold maxAbsValueW16
  generalize vector.foldl _ 0 = maximum at *
  dsimp only
  rw [Int.natAbs_mul]
  by_cases hmax : maximum > 32767
  · rw [if_pos hmax]
    exact ⟨fun h => absurd h (by decide), fun _ =>
      Nat.le_trans (Nat.mul_le_mul hbound hbound) (by decide)⟩
  · have htoInt : (Int16.ofNat maximum).toInt = maximum := Int16.toInt_ofNat_of_lt (by omega)
    rw [if_neg hmax]
    constructor
    · intro hzero
      rw [hzero, Int16.toInt_zero] at htoInt
      rw [show a.toInt = 0 by omega, Int.zero_mul]
    · intro hne
      refine Nat.le_trans ?_ (Nat.le_of_lt (square_lt hne).1)
      rw [htoInt]
      exact Nat.mul_le_mul ha hb

/-- **The autocorrelation does not overflow**, and stores the exact sums of the products shifted
by the value of `*scale`, for lags up to the order. -/
theorem autoCorrelation_exact {vector : List Int16} {order : Nat}
    (hlen : vector.length ≤ 2 ^ 15) (horder : order ≤ vector.length) :
    ∃ scale, autoCorrelation vector order = some ((List.range (order + 1)).map fun i =>
      exactSum vector i scale (vector.length - i), scale) := by
  obtain ⟨bound, h⟩ := roomy_scalingOf hlen fun a ha b hb => natAbs_mul_le ha hb
  refine ⟨scalingOf (maxAbsValueW16 vector) vector.length, ?_⟩
  rw [autoCorrelation, Grid.mapM_eq_some _ fun i hi => h.correlation_eq
    (show i ≤ vector.length by rw [List.mem_range] at hi; omega) (by omega)]
  rfl

/-- The least samples, at every lag. -/
theorem autoCorrelation_exact_min : ∃ scale, autoCorrelation [-32768, -32768, -32768] 3 =
    some ((List.range 4).map fun i => exactSum [-32768, -32768, -32768] i scale (3 - i), scale) :=
  autoCorrelation_exact (by decide) (by decide)

end WebrtcCore.Ports.SplCorrelation
