import WebrtcCore.Ports.Unwrapper
import WebrtcCore.Verified.FloatArithmetic
import WebrtcCore.Verified.Regression

/-!
# Mapping RTP timestamps to NTP time

`system_wrappers/source/rtp_to_ntp_estimator.cc` with `NtpTime` from
`system_wrappers/include/ntp_time.h`.  Sender reports pair an NTP time with an RTP
timestamp; the estimator keeps the last twenty that are plausible, fits a line through them
and answers queries from the line.  Reports and queries share one unwrapper, whose sums of
`int64_t` are checked.

The operations on `double` are a parameter.
-/

namespace WebrtcCore.Ports.RtpToNtpEstimator

open Ports.Unwrapper List
open WebrtcCore.Verified (FloatArithmetic)
open Verified Verified.Simulation

variable {D : Type}

/-! ## NTP time -/

structure NtpTime where
  value : Nat
deriving DecidableEq

namespace NtpTime

def kFractionsPerSecond : Nat := 0x100000000

/-- `NtpTime(seconds, fractions)` -/
def ofParts (seconds fractions : UInt32) : NtpTime :=
  ⟨seconds.toNat * kFractionsPerSecond + fractions.toNat⟩

def seconds (t : NtpTime) : Nat := t.value / kFractionsPerSecond

def fractions (t : NtpTime) : Nat := t.value % kFractionsPerSecond

def toMs (a : FloatArithmetic D) (t : NtpTime) : Int :=
  let kNtpFracPerMs := a.ofRat (4294967296 / 1000)
  let fracMs := a.div (a.ofInt t.fractions) kNtpFracPerMs
  1000 * t.seconds + a.trunc (a.add fracMs (a.ofRat (1 / 2)))

def valid (t : NtpTime) : Bool := t.value ≠ 0

end NtpTime

/-! ## The estimator -/

def kNumRtcpReportsToUse : Nat := 20

def kMaxAllowedRtcpNtpIntervalMs : Int := 60 * 60 * 1000

def kMaxInvalidSamples : Nat := 3

structure RtcpMeasurement where
  ntpTime : NtpTime
  unwrappedRtpTimestamp : Int
deriving DecidableEq

def RtcpMeasurement.isEqual (m other : RtcpMeasurement) : Bool :=
  m.ntpTime = other.ntpTime || m.unwrappedRtpTimestamp = other.unwrappedRtpTimestamp

def contains (measurements : List RtcpMeasurement) (other : RtcpMeasurement) : Bool :=
  measurements.any (·.isEqual other)

/-! ### `LinearRegression` -/

section LinearRegression

variable (a : FloatArithmetic D)

def average (xs : List D) : D := a.div (xs.foldl a.add (a.ofRat 0)) (a.ofInt xs.length)

def varianceX (x : List D) : D :=
  x.foldl (fun sum xi =>
    a.add sum (a.mul (a.sub xi (average a x)) (a.sub xi (average a x)))) (a.ofRat 0)

def covarianceXY (x y : List D) : D :=
  (x.zip y).foldl (fun sum p =>
    a.add sum (a.mul (a.sub p.1 (average a x)) (a.sub p.2 (average a y)))) (a.ofRat 0)

/-- `LinearRegression`: the line `y = k * x + b` through the points. -/
def linearRegression (x y : List D) : Option (D × D) :=
  if x.length < 2 then none
  else if y.length ≠ x.length then none
  else if a.lt (a.abs (varianceX a x)) (a.ofRat (1 / 10 ^ 8)) then none
  else
    let k := a.div (covarianceXY a x y) (varianceX a x)
    some (k, a.sub (average a y) (a.mul k (average a x)))

end LinearRegression

structure Parameters (D : Type) where
  frequencyKhz : D
  offsetMs : D

structure Estimator (D : Type) where
  consecutiveInvalidSamples : Nat := 0
  measurements : List RtcpMeasurement := []
  params : Option (Parameters D) := none
  unwrapper : Unwrapper := {}

def rtpTimestamps (measurements : List RtcpMeasurement) : List Int :=
  measurements.map (·.unwrappedRtpTimestamp)

def ntpTimesMs (a : FloatArithmetic D) (measurements : List RtcpMeasurement) : List Int :=
  measurements.map (·.ntpTime.toMs a)

def updateParameters (a : FloatArithmetic D) (s : Estimator D) : Estimator D :=
  if s.measurements.length < 2 then s
  else
    let x := (rtpTimestamps s.measurements).map a.ofInt
    let y := (ntpTimesMs a s.measurements).map a.ofInt
    match linearRegression a x y with
    | none => s
    | some (slope, offset) => { s with params := some ⟨a.div (a.ofRat 1) slope, offset⟩ }

/-- `invalid_sample` -/
def isInvalidSample (a : FloatArithmetic D) (measurements : List RtcpMeasurement)
    (new : RtcpMeasurement) : Bool :=
  match measurements with
  | [] => false
  | front :: _ =>
    let ntpMsNew := new.ntpTime.toMs a
    let oldNtpMs := front.ntpTime.toMs a
    ntpMsNew ≤ oldNtpMs || ntpMsNew > oldNtpMs + kMaxAllowedRtcpNtpIntervalMs ||
      new.unwrappedRtpTimestamp ≤ front.unwrappedRtpTimestamp ||
      new.unwrappedRtpTimestamp - front.unwrappedRtpTimestamp > 2 ^ 25

/-- The insertion at the end of `UpdateMeasurements`. -/
def insertMeasurement (a : FloatArithmetic D) (s : Estimator D) (new : RtcpMeasurement) :
    Estimator D :=
  let kept :=
    if s.measurements.length = kNumRtcpReportsToUse then s.measurements.dropLast
    else s.measurements
  updateParameters a { s with consecutiveInvalidSamples := 0, measurements := new :: kept }

/-- `UpdateMeasurements` after the timestamp has been unwrapped: the return value,
`new_rtcp_sr` and the new state. -/
def addMeasurement (a : FloatArithmetic D) (s : Estimator D) (new : RtcpMeasurement) :
    (Bool × Bool) × Estimator D :=
  if contains s.measurements new then ((true, false), s)
  else if !new.ntpTime.valid then ((false, false), s)
  else if isInvalidSample a s.measurements new then
    let s := { s with consecutiveInvalidSamples := s.consecutiveInvalidSamples + 1 }
    if s.consecutiveInvalidSamples < kMaxInvalidSamples then ((false, false), s)
    else ((true, true), insertMeasurement a { s with measurements := [], params := none } new)
  else ((true, true), insertMeasurement a s new)

def updateMeasurements (a : FloatArithmetic D) (s : Estimator D)
    (ntpSecs ntpFrac rtpTimestamp : UInt32) : Option ((Bool × Bool) × Estimator D) := do
  let (unwrapped, unwrapper) ← Unwrapper.step .uint32 s.unwrapper (.unwrap rtpTimestamp.toNat)
  return addMeasurement a { s with unwrapper := unwrapper } ⟨.ofParts ntpSecs ntpFrac, unwrapped⟩

/-- `Estimate`; the timestamp has 64 bits, of which the unwrapper takes 32. -/
def estimate (a : FloatArithmetic D) (s : Estimator D) (rtpTimestamp : Int) :
    Option (Option Int × Estimator D) :=
  match s.params with
  | none => some (none, s)
  | some params => do
    let (unwrapped, unwrapper) ←
      Unwrapper.step .uint32 s.unwrapper (.unwrap (rtpTimestamp % 2 ^ 32))
    let rtpMs := a.add
      (a.add (a.div (a.ofInt unwrapped) params.frequencyKhz) params.offsetMs)
      (a.ofRat (1 / 2))
    return (if a.lt rtpMs (a.ofRat 0) then none else some (a.trunc rtpMs),
      { s with unwrapper := unwrapper })

/-! ### Runs -/

inductive Call where
  | update (ntpSecs ntpFrac rtpTimestamp : UInt32)
  | estimate (rtpTimestamp : Int)

def Call.isUpdate : Call → Bool
  | .update .. => true
  | .estimate _ => false

/-- What a call answers. -/
inductive Answer where
  | updated (added newRtcpSr : Bool)
  | estimated (ntpTimestampMs : Option Int)
deriving DecidableEq

def Answer.isUpdated : Answer → Bool
  | .updated .. => true
  | .estimated _ => false

def step (a : FloatArithmetic D) (s : Estimator D) : Call → Option (Answer × Estimator D)
  | .update ntpSecs ntpFrac rtpTimestamp => do
    let r ← updateMeasurements a s ntpSecs ntpFrac rtpTimestamp
    return (.updated r.1.1 r.1.2, r.2)
  | .estimate rtpTimestamp => do
    let r ← estimate a s rtpTimestamp
    return (.estimated r.1, r.2)

/-! ## The measurements -/

variable (a : FloatArithmetic D)

variable (s : Estimator D)

@[simp] theorem updateParameters_measurements :
    (updateParameters a s).measurements = s.measurements := by
  unfold updateParameters
  split
  · rfl
  · dsimp only
    split <;> rfl

@[simp] theorem updateParameters_unwrapper : (updateParameters a s).unwrapper = s.unwrapper := by
  unfold updateParameters
  split
  · rfl
  · dsimp only
    split <;> rfl

@[simp] theorem addMeasurement_unwrapper (new : RtcpMeasurement) :
    (addMeasurement a s new).2.unwrapper = s.unwrapper := by
  unfold addMeasurement
  split
  · rfl
  split
  · rfl
  split
  · dsimp only
    split <;> simp [insertMeasurement]
  · simp [insertMeasurement]

theorem step_update_eq {s s' : Estimator D} {ntpSecs ntpFrac rtp : UInt32} {o : Answer}
    (h : step a s (.update ntpSecs ntpFrac rtp) = some (o, s')) :
    ∃ r, r = addMeasurement a { s with unwrapper := (unwrap .uint32 s.unwrapper rtp.toNat).2 }
        ⟨.ofParts ntpSecs ntpFrac, (unwrap .uint32 s.unwrapper rtp.toNat).1⟩ ∧
      o = .updated r.1.1 r.1.2 ∧ s' = r.2 := by
  simp only [step, updateMeasurements, Unwrapper.step, Option.bind_eq_bind, Option.bind_assoc,
    Option.bind_eq_some_iff, Option.pure_def, Option.some.injEq] at h
  obtain ⟨_, _, _, rfl, _, rfl, rfl, rfl⟩ := h
  exact ⟨_, rfl, rfl, rfl⟩

theorem step_estimate_eq {s s' : Estimator D} {rtp : Int} {o : Answer}
    (h : step a s (.estimate rtp) = some (o, s')) :
    o.isUpdated = false ∧ s' = if s.params.isSome then
      { s with unwrapper := (unwrap .uint32 s.unwrapper (rtp % 2 ^ 32)).2 } else s := by
  simp only [step, Option.bind_eq_bind, Option.bind_eq_some_iff] at h
  obtain ⟨r, hr, rfl, rfl⟩ := h
  refine ⟨rfl, ?_⟩
  unfold estimate at hr
  split at hr
  · next hnone =>
      cases hr
      simp [hnone]
  · next params hsome =>
      simp only [Unwrapper.step, Option.bind_eq_bind, Option.bind_assoc, Option.bind_eq_some_iff,
        Option.pure_def, Option.some.injEq] at hr
      obtain ⟨_, _, _, rfl, rfl⟩ := hr
      simp [hsome]

theorem addMeasurement_measurements (new : RtcpMeasurement) :
    (addMeasurement a s new).2.measurements = s.measurements ∨
      (addMeasurement a s new).2.measurements = [new] ∨
      isInvalidSample a s.measurements new = false ∧
        (addMeasurement a s new).2.measurements =
          new :: (if s.measurements.length = kNumRtcpReportsToUse then s.measurements.dropLast
            else s.measurements) := by
  unfold addMeasurement
  split
  · exact .inl rfl
  split
  · exact .inl rfl
  split
  · dsimp only
    split
    · exact .inl rfl
    · refine .inr (.inl ?_)
      simp [insertMeasurement]
  · next hvalid =>
      refine .inr (.inr ⟨by simpa using hvalid, ?_⟩)
      simp [insertMeasurement]

/-- A measurement and the one before it. -/
structure Follows (a : FloatArithmetic D) (newer older : RtcpMeasurement) : Prop where
  ntp_lt : older.ntpTime.toMs a < newer.ntpTime.toMs a
  ntp_le : newer.ntpTime.toMs a - older.ntpTime.toMs a ≤ kMaxAllowedRtcpNtpIntervalMs
  rtp_lt : older.unwrappedRtpTimestamp < newer.unwrappedRtpTimestamp
  rtp_le : newer.unwrappedRtpTimestamp - older.unwrappedRtpTimestamp ≤ 2 ^ 25

/-- The list, newest first. -/
structure Ordered (a : FloatArithmetic D) (measurements : List RtcpMeasurement) : Prop where
  length_le : measurements.length ≤ kNumRtcpReportsToUse
  chain : measurements.IsChain (Follows a)

theorem Follows.of_valid {a : FloatArithmetic D} {new front : RtcpMeasurement}
    {rest : List RtcpMeasurement} (h : isInvalidSample a (front :: rest) new = false) :
    Follows a new front := by
  simp only [isInvalidSample, Bool.or_eq_false_iff, decide_eq_false_iff_not] at h
  constructor <;> omega

theorem Ordered.insert {a : FloatArithmetic D} {measurements : List RtcpMeasurement}
    {new : RtcpMeasurement} (h : Ordered a measurements)
    (hvalid : isInvalidSample a measurements new = false) :
    Ordered a (new :: (if measurements.length = kNumRtcpReportsToUse then measurements.dropLast
      else measurements)) := by
  have hlength := h.length_le
  have hchain : (new :: measurements).IsChain (Follows a) := by
    cases measurements with
    | nil => exact .singleton new
    | cons front rest => exact isChain_cons_cons.2 ⟨.of_valid hvalid, h.chain⟩
  split
  · next hfull =>
      constructor
      · rw [length_cons, length_dropLast, hfull]
        decide
      · rw [dropLast_eq_take, hfull]
        exact hchain.take kNumRtcpReportsToUse
  · exact ⟨by rw [length_cons]; omega, hchain⟩

theorem step_ordered {s s' : Estimator D} {o : Answer} (h : Ordered a s.measurements) (call : Call)
    (hstep : step a s call = some (o, s')) : Ordered a s'.measurements := by
  cases call with
  | estimate rtp =>
    rw [(step_estimate_eq a hstep).2]
    split <;> exact h
  | update ntpSecs ntpFrac rtp =>
    obtain ⟨_, rfl, _, rfl⟩ := step_update_eq a hstep
    generalize unwrap .uint32 s.unwrapper rtp.toNat = r
    rcases addMeasurement_measurements a { s with unwrapper := r.2 }
      ⟨.ofParts ntpSecs ntpFrac, r.1⟩ with hsame | hnew | ⟨hvalid, hinsert⟩
    · rw [hsame]
      exact h
    · rw [hnew]
      exact ⟨by simp [kNumRtcpReportsToUse], .singleton _⟩
    · rw [hinsert]
      exact h.insert hvalid

/-- Later in both times. -/
def Newer (a : FloatArithmetic D) (newer older : RtcpMeasurement) : Prop :=
  older.unwrappedRtpTimestamp < newer.unwrappedRtpTimestamp ∧
    older.ntpTime.toMs a < newer.ntpTime.toMs a

instance (a : FloatArithmetic D) : Trans (Newer a) (Newer a) (Newer a) :=
  ⟨fun h h' => ⟨Int.lt_trans h'.1 h.1, Int.lt_trans h'.2 h.2⟩⟩

theorem Ordered.decreasing {a : FloatArithmetic D} {measurements : List RtcpMeasurement}
    (h : Ordered a measurements) : measurements.Pairwise (Newer a) :=
  (h.chain.imp fun _ _ hfollows => ⟨hfollows.rtp_lt, hfollows.ntp_lt⟩).pairwise

/-! ### The line through them -/

section Line

open Verified.Regression

theorem foldl_add {α : Type} (f : α → Rat) (xs : List α) :
    ∀ c : Rat, xs.foldl (fun sum x => sum + f x) c = c + (xs.map f).sum := by
  induction xs with
  | nil => simp
  | cons x xs ih =>
    intro c
    rw [foldl_cons, ih, map_cons, sum_cons, add_assoc]

theorem average_rational (xs : List Rat) : average .rational xs = mean xs := by
  have hsum : xs.foldl (fun sum x => sum + id x) 0 = xs.sum := by rw [foldl_add, map_id, zero_add]
  exact congrArg (· / ((xs.length : Int) : Rat)) hsum

theorem varianceX_rational (x : List Rat) : varianceX .rational x = variance x := by
  unfold varianceX
  rw [average_rational]
  exact (foldl_add (fun xi => (xi - mean x) * (xi - mean x)) x 0).trans (zero_add _)

theorem covarianceXY_rational {x y : List Rat} (h : x.length = y.length) :
    covarianceXY .rational x y = covariance (x.zip y) := by
  unfold covarianceXY covariance
  rw [average_rational, average_rational, map_fst_zip (Nat.le_of_eq h),
    map_snd_zip (Nat.le_of_eq h.symm)]
  exact (foldl_add (fun p : Rat × Rat => (p.1 - mean x) * (p.2 - mean y)) (x.zip y) 0).trans
    (zero_add _)

/-- The coordinates of the measurements, without rounding. -/
def exactX (measurements : List RtcpMeasurement) : List Rat :=
  (rtpTimestamps measurements).map FloatArithmetic.rational.ofInt

def exactY (a : FloatArithmetic D) (measurements : List RtcpMeasurement) : List Rat :=
  (ntpTimesMs a measurements).map FloatArithmetic.rational.ofInt

theorem zip_exact (a : FloatArithmetic D) (measurements : List RtcpMeasurement) :
    (exactX measurements).zip (exactY a measurements) =
      measurements.map fun m => ((m.unwrappedRtpTimestamp : Rat), (m.ntpTime.toMs a : Rat)) := by
  rw [exactX, exactY, rtpTimestamps, ntpTimesMs, map_map, map_map, zip_map']
  rfl

section

variable {a : FloatArithmetic D} {measurements : List RtcpMeasurement}

variable (h : Ordered a measurements) (hlength : 2 ≤ measurements.length)
include h hlength

theorem Ordered.half_le_variance : 1 / 2 ≤ varianceX .rational (exactX measurements) := by
  match measurements, hlength with
  | newest :: older :: rest, _ =>
    rw [varianceX_rational]
    apply Regression.half_le_variance
    have hlt := (isChain_cons_cons.1 h.chain).1.rtp_lt
    have hgap : (older.unwrappedRtpTimestamp : Rat) + 1 ≤ newest.unwrappedRtpTimestamp := by
      exact_mod_cast hlt
    exact hgap

theorem Ordered.covariance_pos :
    0 < covarianceXY .rational (exactX measurements) (exactY a measurements) := by
  rw [covarianceXY_rational (by simp [exactX, exactY, rtpTimestamps, ntpTimesMs]), zip_exact]
  apply Regression.covariance_pos (by rwa [length_map])
  rw [pairwise_map]
  exact h.decreasing.imp fun hnewer => ⟨Int.cast_lt.2 hnewer.1, Int.cast_lt.2 hnewer.2⟩

theorem Ordered.slope_pos :
    ∃ k b, linearRegression .rational (exactX measurements) (exactY a measurements) =
      some (k, b) ∧ 0 < k := by
  have hvariance := h.half_le_variance hlength
  have hpos : 0 < varianceX .rational (exactX measurements) := by linarith
  have hlarge : ∀ v : Rat, 1 / 2 ≤ v → ¬ FloatArithmetic.rational.lt
      (FloatArithmetic.rational.abs v) (FloatArithmetic.rational.ofRat (1 / 10 ^ 8)) = true := by
    intro v hv
    have hnonneg : ¬ v < 0 := by linarith
    have hlimit : ¬ v < 1 / 10 ^ 8 := by linarith
    simpa only [FloatArithmetic.rational, if_neg hnonneg, decide_eq_true_iff, id] using hlimit
  have hx : ¬ (exactX measurements).length < 2 := by
    rw [exactX, rtpTimestamps, length_map, length_map]
    omega
  have hy : ¬ (exactY a measurements).length ≠ (exactX measurements).length := by
    simp [exactX, exactY, rtpTimestamps, ntpTimesMs]
  rw [linearRegression, if_neg hx, if_neg hy, if_neg (hlarge _ hvariance)]
  exact ⟨_, _, rfl, div_pos (h.covariance_pos hlength) hpos⟩

omit h hlength

end

/-- A list from which a mapping can be computed. -/
structure Usable (a : FloatArithmetic D) (measurements : List RtcpMeasurement) : Prop where
  length_le : measurements.length ≤ kNumRtcpReportsToUse
  decreasing : measurements.Pairwise (Newer a)
  gaps : measurements.IsChain fun newer older =>
    newer.ntpTime.toMs a - older.ntpTime.toMs a ≤ kMaxAllowedRtcpNtpIntervalMs ∧
      newer.unwrappedRtpTimestamp - older.unwrappedRtpTimestamp ≤ 2 ^ 25
  variance_pos : 2 ≤ measurements.length → 0 < varianceX .rational (exactX measurements)
  slope_pos : 2 ≤ measurements.length →
    ∃ k b, linearRegression .rational (exactX measurements) (exactY a measurements) =
      some (k, b) ∧ 0 < k

theorem Ordered.usable {a : FloatArithmetic D} {measurements : List RtcpMeasurement}
    (hordered : Ordered a measurements) : Usable a measurements := by
  refine ⟨hordered.length_le, hordered.decreasing, ?_, ?_, hordered.slope_pos⟩
  · exact hordered.chain.imp fun _ _ h => ⟨h.ntp_le, h.rtp_le⟩
  · intro hlength
    linarith [hordered.half_le_variance hlength]

end Line

/-! ### Calls that return -/

theorem step_returns {k : Nat} {s : Estimator D} (h : Behind .uint32 k s.unwrapper)
    (hk : k < 2 ^ 31) (call : Call) :
    ∃ o s', step a s call = some (o, s') ∧ Behind .uint32 (k + 1) s'.unwrapper := by
  have hroom : ((k + 1 : Nat) : Int) * Unsigned.uint32.size ≤ 2 ^ 63 := by
    rw [Unsigned.size]
    omega
  cases call with
  | update ntpSecs ntpFrac rtp =>
    have hrtp : 0 ≤ (rtp.toNat : Int) ∧ (rtp.toNat : Int) < Unsigned.uint32.size :=
      ⟨Int.natCast_nonneg _, Int.ofNat_lt.2 rtp.toNat_lt⟩
    obtain ⟨hstep, hbehind⟩ := step_of_behind h hroom hrtp
    refine ⟨_, _, by rw [step, updateMeasurements, hstep]; rfl, ?_⟩
    rw [addMeasurement_unwrapper]
    exact hbehind
  | estimate rtp =>
    cases hparams : s.params with
    | none =>
      refine ⟨_, s, by rw [step, estimate, hparams]; rfl, fun last hlast => ?_⟩
      obtain ⟨hnonneg, hlt⟩ := h last hlast
      rw [Unsigned.size] at hlt ⊢
      exact ⟨hnonneg, by omega⟩
    | some params =>
      have hrtp : 0 ≤ rtp % 2 ^ 32 ∧ rtp % 2 ^ 32 < Unsigned.uint32.size :=
        ⟨Int.emod_nonneg rtp (by decide), Int.emod_lt_of_pos rtp (by decide)⟩
      obtain ⟨hstep, hbehind⟩ := step_of_behind h hroom hrtp
      exact ⟨_, _, by rw [step, estimate, hparams]; dsimp only; rw [hstep]; rfl, hbehind⟩

theorem run_returns (calls : List Call) {k : Nat} {s : Estimator D}
    (h : Behind .uint32 k s.unwrapper) (hk : k + calls.length ≤ 2 ^ 31) :
    ∃ answers s', runM (step a) s calls = some (answers, s') := by
  induction calls generalizing k s with
  | nil => exact ⟨[], s, rfl⟩
  | cons call rest ih =>
    rw [length_cons] at hk
    obtain ⟨o, s₁, hs₁, h₁⟩ := step_returns a h (by omega) call
    obtain ⟨answers, s', hrest⟩ := ih h₁ (by omega)
    exact ⟨o :: answers, s', by rw [runM_cons_of_step hs₁, hrest]; rfl⟩

/-- **The measurements are usable** in every state that reports and queries lead to, and
`2 ^ 31` of them overflow nothing. -/
theorem measurements_are_usable (a : FloatArithmetic D) (calls : List Call) :
    (∀ answers s, runM (step a) {} calls = some (answers, s) → Usable a s.measurements) ∧
      (calls.length ≤ 2 ^ 31 → ∃ answers s, runM (step a) {} calls = some (answers, s)) := by
  constructor
  · intro answers s hrun
    have hordered : Ordered a s.measurements :=
      @runM_invariant_of_mem _ _ _ _ (fun s => Ordered a s.measurements) _
        (fun _ call _ _ _ h hstep => step_ordered a h call hstep) _ _ _ ⟨Nat.zero_le _, .nil⟩ hrun
    exact hordered.usable
  · intro hlength
    exact run_returns a calls (k := 0) (fun _ h => nomatch h) (by omega)

/-! ## Queries between reports -/

/-- The number next to `last` that the timestamp may stand for. -/
def nearest (last : Int) (rtpTimestamp : UInt32) : Int :=
  last + Int.bmod (rtpTimestamp.toNat - last) (2 ^ 32)

/-- The number that the timestamp stands for is less than half of the range away from both
last values, or they are the same. -/
def Near (rtpTimestamp : UInt32) : Option Int → Option Int → Prop
  | some moved, some last =>
    moved = last ∨
      (moved - 2 ^ 31 < nearest last rtpTimestamp ∧
        nearest last rtpTimestamp < moved + 2 ^ 31 ∧
        last - 2 ^ 31 < nearest last rtpTimestamp)
  | _, _ => True

instance (rtpTimestamp : UInt32) : (moved last : Option Int) →
    Decidable (Near rtpTimestamp moved last)
  | some _, some _ => inferInstanceAs (Decidable (_ ∨ _))
  | some _, none | none, _ => inferInstanceAs (Decidable True)

def Harmless (st : Estimator D × Estimator D) : Call → Prop
  | .update _ _ rtpTimestamp =>
    Near rtpTimestamp st.1.unwrapper.lastValue st.2.unwrapper.lastValue
  | .estimate _ => True

instance (st : Estimator D × Estimator D) (call : Call) : Decidable (Harmless st call) := by
  cases call <;> unfold Harmless <;> infer_instance

/-- What the unwrapper holds: nothing before the first report, and no negative number. -/
structure Unwraps (s : Estimator D) : Prop where
  fresh : s.unwrapper.lastValue = none → s.params = none
  nonneg : ∀ last ∈ s.unwrapper.lastValue, 0 ≤ last

/-- The same but for the last value of the unwrapper. -/
structure Agree (s t : Estimator D) : Prop where
  consecutiveInvalidSamples : s.consecutiveInvalidSamples = t.consecutiveInvalidSamples
  measurements : s.measurements = t.measurements
  params : s.params = t.params
  left : Unwraps s
  right : Unwraps t
  none_iff : s.unwrapper.lastValue = none ↔ t.unwrapper.lastValue = none

theorem Agree.refl {s : Estimator D} (h : Unwraps s) : Agree s s := ⟨rfl, rfl, rfl, h, h, Iff.rfl⟩

theorem unwrapWithoutUpdate_eq_of_harmless {moved last : Int} (hmoved : 0 ≤ moved)
    (hlast : 0 ≤ last) {rtp : UInt32} (h : moved - 2 ^ 31 < nearest last rtp)
    (h' : nearest last rtp < moved + 2 ^ 31) (h'' : last - 2 ^ 31 < nearest last rtp) :
    unwrapWithoutUpdate .uint32 ⟨some moved⟩ rtp.toNat =
      unwrapWithoutUpdate .uint32 ⟨some last⟩ rtp.toNat := by
  have hrtp : (rtp.toNat : Int) = nearest last rtp % 2 ^ 32 := by
    have hlt := rtp.toNat_lt
    rw [nearest, Int.bmod_def]
    omega
  have hle : nearest last rtp < last + 2 ^ 31 := by
    rw [nearest, Int.bmod_def]
    omega
  rw [hrtp]
  exact (unwrapWithoutUpdate_of_near (u := .uint32) hmoved h h').trans
    (unwrapWithoutUpdate_of_near (u := .uint32) hlast h'' hle).symm

section TwoRuns

variable {s t : Estimator D}

theorem Unwraps.of_unwrap (h : Unwraps s) {value : Int} (hvalue : 0 ≤ value) {t : Estimator D}
    (ht : t.unwrapper = (unwrap .uint32 s.unwrapper value).2) : Unwraps t := by
  constructor
  · rw [ht]
    exact fun hnone => absurd hnone (Option.some_ne_none _)
  · rw [ht]
    intro last hlast
    rw [← Option.some.inj hlast]
    exact unwrapWithoutUpdate_nonneg _ hvalue h.nonneg

theorem Agree.unwrap_eq (h : Agree s t) {rtp : UInt32}
    (hnear : Near rtp s.unwrapper.lastValue t.unwrapper.lastValue) :
    unwrap .uint32 s.unwrapper rtp.toNat = unwrap .uint32 t.unwrapper rtp.toNat := by
  have hvalue : unwrapWithoutUpdate .uint32 s.unwrapper rtp.toNat =
      unwrapWithoutUpdate .uint32 t.unwrapper rtp.toNat := by
    have hleft := h.left.nonneg
    have hright := h.right.nonneg
    have hnone := h.none_iff
    generalize s.unwrapper = moved at *
    generalize t.unwrapper = last at *
    obtain ⟨_ | moved⟩ := moved
    · rw [show last = ⟨none⟩ from congrArg Unwrapper.mk (hnone.1 rfl)]
    · obtain ⟨_ | last⟩ := last
      · exact absurd (hnone.2 rfl) (Option.some_ne_none _)
      · rcases hnear with rfl | ⟨h₁, h₂, h₃⟩
        · rfl
        · exact unwrapWithoutUpdate_eq_of_harmless (hleft moved rfl) (hright last rfl) h₁ h₂ h₃
  rw [unwrap, hvalue]
  rfl

variable (a : FloatArithmetic D)

theorem Agree.estimate (h : Agree s t) (rtp : Int) :
    Agree (if s.params.isSome then
      { s with unwrapper := (unwrap .uint32 s.unwrapper (rtp % 2 ^ 32)).2 } else s) t := by
  split
  · next hsome =>
      have hseen : t.unwrapper.lastValue ≠ none := by
        intro hnone
        rw [h.params, h.right.fresh hnone] at hsome
        cases hsome
      refine { h with left := ?_, none_iff := ?_ }
      · exact h.left.of_unwrap (Int.emod_nonneg rtp (by decide)) rfl
      · exact ⟨fun hnone => absurd hnone (Option.some_ne_none _), fun hnone => absurd hnone hseen⟩
  · exact h

theorem Agree.step_update (s t : Estimator D) (call : Call) (o : Answer) (s' : Estimator D)
    (o' : Answer) (t' : Estimator D) (h : Agree s t) (hharmless : Harmless (s, t) call)
    (hcall : call.isUpdate = true) (hs : step a s call = some (o, s'))
    (ht : step a t call = some (o', t')) : o = o' ∧ o.isUpdated = true ∧ Agree s' t' := by
  cases call with
  | update ntpSecs ntpFrac rtp =>
    obtain ⟨_, hr, rfl, rfl⟩ := step_update_eq a hs
    obtain ⟨_, rfl, rfl, rfl⟩ := step_update_eq a ht
    rw [h.unwrap_eq hharmless, h.consecutiveInvalidSamples, h.measurements, h.params] at hr
    subst hr
    exact ⟨rfl, rfl, .refl (h.right.of_unwrap (Int.natCast_nonneg rtp.toNat)
      (addMeasurement_unwrapper a _ _))⟩
  | estimate rtp => cases hcall

theorem Agree.step_estimate (s t : Estimator D) (call : Call) (o : Answer) (s' : Estimator D)
    (h : Agree s t) (hcall : call.isUpdate = false) (hs : step a s call = some (o, s')) :
    o.isUpdated = false ∧ Agree s' t := by
  cases call with
  | update ntpSecs ntpFrac rtp => cases hcall
  | estimate rtp =>
    obtain ⟨ho, rfl⟩ := step_estimate_eq a hs
    exact ⟨ho, h.estimate rtp⟩

end TwoRuns

/-- **Queries leave reports alone** as long as they do not move the unwrapper too far: the
answers to the reports and the measurements are those of the run without the queries. -/
theorem queries_leave_reports (a : FloatArithmetic D) (calls : List Call)
    (h : ExecAlong (skipStep (step a) Call.isUpdate) Harmless ({}, {}) calls)
    {answers answers' : List Answer} {s s' : Estimator D}
    (hrun : runM (step a) {} calls = some (answers, s))
    (hrun' : runM (step a) {} (calls.filter Call.isUpdate) = some (answers', s')) :
    answers.filter Answer.isUpdated = answers' ∧ s.measurements = s'.measurements := by
  have hinitial : Agree ({} : Estimator D) {} := .refl ⟨fun _ => rfl, by simp⟩
  have hsame := runM_skips (Agree.step_update a) (Agree.step_estimate a) calls hinitial h hrun hrun'
  exact ⟨hsame.1, hsame.2.measurements⟩

/-- Two reports, queries that look back and ahead, and a third report. -/
def sampleCalls : List Call :=
  [.update 1 0 1000, .estimate 7, .update 2 0 2000, .estimate 500, .estimate 2147485000,
    .update 3 0 3000]

theorem queries_leave_reports_sample :
    ∃ answers s, runM (step .rational) {} sampleCalls = some (answers, s) ∧
      answers.filter Answer.isUpdated =
        [.updated true true, .updated true true, .updated true true] ∧
      s.measurements.length = 3 := by
  have hrun : ∃ answers s, runM (step .rational) {} sampleCalls = some (answers, s) :=
    run_returns .rational sampleCalls (k := 0) (fun _ h => nomatch h) (by decide)
  have hrun' : (runM (step .rational) {} (sampleCalls.filter Call.isUpdate)).map
      (fun r => (r.1, r.2.measurements.length)) =
        some ([.updated true true, .updated true true, .updated true true], 3) := by
    decide +kernel
  obtain ⟨answers, s, hrun⟩ := hrun
  obtain ⟨⟨answers', s'⟩, hs', hshown⟩ := Option.map_eq_some_iff.1 hrun'
  obtain ⟨hanswers, hlength⟩ := Prod.mk.inj hshown
  have hsame := queries_leave_reports .rational sampleCalls (by decide +kernel) hrun hs'
  refine ⟨answers, s, hrun, ?_, ?_⟩
  · rw [hsame.1]
    exact hanswers
  · rw [hsame.2]
    exact hlength

/-- One query for the timestamp just before zero moves the unwrapper one round ahead, and the
next report is taken for a jump. -/
theorem query_disturbs_report :
    (runM (step .rational) {} [.update 1 0 1000, .update 2 0 2000, .estimate 4294967295,
      .update 3 0 3000]).map (·.1.filter Answer.isUpdated) =
        some [.updated true true, .updated true true, .updated false false] ∧
      (runM (step .rational) {} [.update 1 0 1000, .update 2 0 2000, .update 3 0 3000]).map (·.1) =
        some [.updated true true, .updated true true, .updated true true] := by
  decide +kernel

end WebrtcCore.Ports.RtpToNtpEstimator
