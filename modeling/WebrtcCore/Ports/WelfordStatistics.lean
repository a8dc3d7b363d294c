import WebrtcCore.Verified.CMemory
import WebrtcCore.Verified.FloatArithmetic
import WebrtcCore.Verified.Moments
import WebrtcCore.Verified.Simulation

/-!
# Running statistics

Port of `RunningStatistics` (`rtc_base/numerics/running_statistics.h`), for any type of
samples and any arithmetic on `double`.  A division by a size of zero is undefined.  With
the exact arithmetic on rationals the statistics are those of the samples: their number,
their mean and the sum of their squared deviations.
-/

namespace WebrtcCore.Ports.WelfordStatistics

open Verified CMemory Moments Regression Simulation List

/-- The type of the samples. -/
structure Scalar (T D : Type) where
  /-- `minus_infinity_or_min` -/
  lowest : T
  /-- `infinity_or_max` -/
  highest : T
  toDouble : T → D

structure RunningStatistics (T D : Type) where
  size : Nat
  min : T
  max : T
  mean : D
  cumul : D
deriving DecidableEq, Repr

namespace RunningStatistics

variable {T D : Type} [LinearOrder T] (fa : FloatArithmetic D) (scalar : Scalar T D)

def new {T D : Type} (fa : FloatArithmetic D) (scalar : Scalar T D) : RunningStatistics T D :=
  ⟨0, scalar.highest, scalar.lowest, fa.ofInt 0, fa.ofInt 0⟩

/-- A division by a size. -/
def divide {D : Type} (fa : FloatArithmetic D) (x : D) (size : Nat) : Option D :=
  (demand (size ≠ 0)).map fun _ => fa.div x (fa.ofInt size)

def addSample (s : RunningStatistics T D) (sample : T) : Option (RunningStatistics T D) := do
  let size := s.size + 1
  -- Welford's incremental update.
  let delta := fa.sub (scalar.toDouble sample) s.mean
  let mean := fa.add s.mean (← divide fa delta size)
  let delta2 := fa.sub (scalar.toDouble sample) mean
  return {
    size := size
    min := Min.min s.min sample
    max := Max.max s.max sample
    mean := mean
    cumul := fa.add s.cumul (fa.mul delta delta2) }

/-- `RemoveSample`, without the debug check that there is a sample. -/
def removeSample {T D : Type} (fa : FloatArithmetic D) (scalar : Scalar T D)
    (s : RunningStatistics T D) (sample : T) : Option (RunningStatistics T D) :=
  -- In production, just saturate at 0.
  if s.size = 0 then
    some s
  else do
    -- Since samples order doesn't matter, this is the exact reciprocal of Welford's
    -- incremental update.
    let size := s.size - 1
    let delta := fa.sub (scalar.toDouble sample) s.mean
    let mean := fa.sub s.mean (← divide fa delta size)
    let delta2 := fa.sub (scalar.toDouble sample) mean
    return { s with size := size, mean := mean, cumul := fa.sub s.cumul (fa.mul delta delta2) }

/-- The correction of a cumulant, from its own mean to the new one. -/
def correction {T D : Type} (fa : FloatArithmetic D) (newMean : D)
    (stats : RunningStatistics T D) : D :=
  fa.mul (fa.ofInt stats.size)
    (fa.add (fa.mul newMean (fa.sub newMean (fa.mul (fa.ofInt 2) stats.mean)))
      (fa.mul stats.mean stats.mean))

def mergeStatistics (s other : RunningStatistics T D) : Option (RunningStatistics T D) :=
  if other.size = 0 then
    some s
  else do
    let newSize := s.size + other.size
    let newMean ← divide fa (fa.add (fa.mul s.mean (fa.ofInt s.size))
      (fa.mul other.mean (fa.ofInt other.size))) newSize
    return {
      size := newSize
      min := Min.min s.min other.min
      max := Max.max s.max other.max
      mean := newMean
      cumul := fa.add (fa.add (fa.add s.cumul (correction fa newMean s)) other.cumul)
        (correction fa newMean other) }

def getMean {T D : Type} (s : RunningStatistics T D) : Option D :=
  if s.size = 0 then none else some s.mean

def getVariance {T D : Type} (fa : FloatArithmetic D) (s : RunningStatistics T D) : Option D :=
  if s.size = 0 then none else some (fa.div s.cumul (fa.ofInt s.size))

end RunningStatistics

open RunningStatistics

/-! ## Sizes, in any arithmetic -/

section Sizes

variable {T D : Type} [LinearOrder T] {fa : FloatArithmetic D} {scalar : Scalar T D}
  {s : RunningStatistics T D}

theorem divide_of_pos {size : Nat} (h : 0 < size) (x : D) :
    divide fa x size = some (fa.div x (fa.ofInt size)) := by
  rw [divide, demand_of (by omega), Option.map_some]

theorem addSample_eq (s : RunningStatistics T D) (sample : T) :
    s.addSample fa scalar sample =
      let delta := fa.sub (scalar.toDouble sample) s.mean
      let mean := fa.add s.mean (fa.div delta (fa.ofInt (s.size + 1 : Nat)))
      some ⟨s.size + 1, min s.min sample, max s.max sample, mean,
        fa.add s.cumul (fa.mul delta (fa.sub (scalar.toDouble sample) mean))⟩ := by
  rfl

omit [LinearOrder T] in
theorem removeSample_eq (h : 1 < s.size) (sample : T) :
    s.removeSample fa scalar sample =
      let delta := fa.sub (scalar.toDouble sample) s.mean
      let mean := fa.sub s.mean (fa.div delta (fa.ofInt (s.size - 1 : Nat)))
      some ⟨s.size - 1, s.min, s.max, mean,
        fa.sub s.cumul (fa.mul delta (fa.sub (scalar.toDouble sample) mean))⟩ := by
  have hsize : 0 < s.size - 1 := by omega
  simp only [removeSample, divide_of_pos hsize]
  rw [if_neg (by omega)]
  rfl

theorem mergeStatistics_eq {other : RunningStatistics T D} (h : 0 < other.size) :
    s.mergeStatistics fa other =
      let newMean := fa.div (fa.add (fa.mul s.mean (fa.ofInt s.size))
        (fa.mul other.mean (fa.ofInt other.size))) (fa.ofInt (s.size + other.size : Nat))
      some ⟨s.size + other.size, min s.min other.min, max s.max other.max, newMean,
        fa.add (fa.add (fa.add s.cumul (correction fa newMean s)) other.cumul)
          (correction fa newMean other)⟩ := by
  have hsize : 0 < s.size + other.size := by omega
  simp only [mergeStatistics, divide_of_pos hsize]
  rw [if_neg (by omega)]
  rfl

end Sizes

/-! ## Exact arithmetic -/

section Exact

variable {T : Type} [LinearOrder T] {scalar : Scalar T ℚ} {s other : RunningStatistics T ℚ}
  {samples samples' : List T}

/-- The statistics of some samples, in any order. -/
structure Describes (scalar : Scalar T ℚ) (s : RunningStatistics T ℚ) (samples : List T) :
    Prop where
  size : s.size = samples.length
  mean : s.mean = mean (samples.map scalar.toDouble)
  cumul : s.cumul = variance (samples.map scalar.toDouble)

omit [LinearOrder T] in
theorem Describes.perm (h : Describes scalar s samples) (hperm : samples.Perm samples') :
    Describes scalar s samples' where
  size := h.size.trans hperm.length_eq
  mean := h.mean.trans (mean_perm (hperm.map _))
  cumul := h.cumul.trans (variance_perm (hperm.map _))

omit [LinearOrder T] in
theorem Describes.new : Describes scalar (new .rational scalar) [] := ⟨rfl, mean_nil.symm, rfl⟩

theorem Describes.addSample (h : Describes scalar s samples) (sample : T) :
    ∃ s', s.addSample .rational scalar sample = some s' ∧
      Describes scalar s' (sample :: samples) := by
  have hmean : s.mean + (scalar.toDouble sample - s.mean) / ((s.size + 1 : Nat) : Int) =
      Regression.mean ((sample :: samples).map scalar.toDouble) := by
    rw [map_cons, mean_cons, length_map, ← h.mean, h.size]
    push_cast
    rfl
  refine ⟨_, addSample_eq s sample, congrArg (· + 1) h.size, hmean, ?_⟩
  show s.cumul + (scalar.toDouble sample - s.mean) * (scalar.toDouble sample -
    (s.mean + (scalar.toDouble sample - s.mean) / ((s.size + 1 : Nat) : Int))) = _
  rw [hmean, map_cons, variance_cons, h.cumul, h.mean]

omit [LinearOrder T] in
theorem Describes.removeSample {sample : T} (h : Describes scalar s (sample :: samples))
    (hsamples : samples ≠ []) :
    ∃ s', s.removeSample .rational scalar sample = some s' ∧ Describes scalar s' samples := by
  have hsize : s.size = samples.length + 1 := h.size
  have hlength := length_pos_iff.2 hsamples
  have hmean : s.mean - (scalar.toDouble sample - s.mean) / ((s.size - 1 : Nat) : Int) =
      Regression.mean (samples.map scalar.toDouble) := by
    rw [mean_of_cons (scalar.toDouble sample) (by simpa using hsamples), length_map, ← map_cons,
      ← h.mean, hsize]
    rfl
  refine ⟨_, removeSample_eq (by omega) sample, ?_, hmean, ?_⟩
  · show s.size - 1 = samples.length
    omega
  · show s.cumul - (scalar.toDouble sample - s.mean) * (scalar.toDouble sample -
      (s.mean - (scalar.toDouble sample - s.mean) / ((s.size - 1 : Nat) : Int))) = _
    rw [hmean, h.cumul, h.mean, map_cons, variance_cons]
    ring

omit [LinearOrder T] in
theorem Describes.correction (h : Describes scalar s samples) (m : ℚ) :
    correction .rational m s = samples.length *
      (m * (m - 2 * Regression.mean (samples.map scalar.toDouble)) +
        Regression.mean (samples.map scalar.toDouble) *
          Regression.mean (samples.map scalar.toDouble)) := by
  rw [← h.mean, ← h.size]
  rfl

theorem Describes.mergeStatistics (h : Describes scalar s samples)
    (h' : Describes scalar other samples') (hother : 0 < other.size) :
    ∃ s', s.mergeStatistics .rational other = some s' ∧
      Describes scalar s' (samples ++ samples') := by
  have hmean : (s.mean * (s.size : Int) + other.mean * (other.size : Int)) /
      ((s.size + other.size : Nat) : Int) =
        Regression.mean ((samples ++ samples').map scalar.toDouble) := by
    rw [map_append, mean_append, length_map, length_map, ← h.mean, ← h'.mean, h.size, h'.size]
    push_cast
    rfl
  have hcumul : ∀ m, m = Regression.mean ((samples ++ samples').map scalar.toDouble) →
      s.cumul + RunningStatistics.correction .rational m s + other.cumul +
          RunningStatistics.correction .rational m other =
        variance ((samples ++ samples').map scalar.toDouble) := by
    rintro m rfl
    rw [h.correction, h'.correction, h.cumul, h'.cumul, map_append, variance_append,
      length_map, length_map]
  refine ⟨_, mergeStatistics_eq hother, ?_, hmean, hcumul _ hmean⟩
  rw [length_append, h.size, h'.size]

omit [LinearOrder T] in
theorem Describes.getMean (h : Describes scalar s samples) :
    s.getMean.getD 0 = Regression.mean (samples.map scalar.toDouble) := by
  unfold RunningStatistics.getMean
  split
  · rename_i hsize
    rw [eq_nil_of_length_eq_zero (h.size.symm.trans hsize), map_nil, mean_nil]
    rfl
  · exact h.mean

omit [LinearOrder T] in
theorem Describes.getVariance (h : Describes scalar s samples) :
    (s.getVariance .rational).getD 0 = variance (samples.map scalar.toDouble) / samples.length := by
  unfold RunningStatistics.getVariance
  split
  · rename_i hsize
    rw [eq_nil_of_length_eq_zero (h.size.symm.trans hsize), map_nil, variance_nil, zero_div]
    rfl
  · rw [← h.cumul, ← h.size]
    rfl

/-! ### Merging -/

/-- A loop of `AddSample`. -/
def addSamples (scalar : Scalar T ℚ) : RunningStatistics T ℚ → List T →
    Option (RunningStatistics T ℚ) :=
  exec fun s sample => s.addSample .rational scalar sample

/-- The statistics of all samples that were added. -/
structure Summarizes (scalar : Scalar T ℚ) (samples : List T) (s : RunningStatistics T ℚ) :
    Prop extends Describes scalar s samples where
  min : s.min = samples.foldl Min.min scalar.highest
  max : s.max = samples.foldl Max.max scalar.lowest

theorem Summarizes.eq (h : Summarizes scalar samples s) (h' : Summarizes scalar samples other) :
    s = other := by
  obtain ⟨⟨hsize, hmean, hcumul⟩, hmin, hmax⟩ := h
  obtain ⟨⟨hsize', hmean', hcumul'⟩, hmin', hmax'⟩ := h'
  cases s
  cases other
  simp_all

theorem Summarizes.addSample (h : Summarizes scalar samples s) (sample : T) :
    ∃ s', s.addSample .rational scalar sample = some s' ∧
      Summarizes scalar (samples ++ [sample]) s' := by
  obtain ⟨s', hadd, hs'⟩ := h.toDescribes.addSample sample
  have heq := hadd
  rw [addSample_eq, Option.some.injEq] at heq
  refine ⟨s', hadd, hs'.perm (perm_append_singleton _ _).symm, ?_, ?_⟩
  · rw [← heq, foldl_concat, ← h.min]
  · rw [← heq, foldl_concat, ← h.max]

theorem addSamples_summarizes (scalar : Scalar T ℚ) (samples : List T) :
    ∃ s, addSamples scalar (new .rational scalar) samples = some s ∧ Summarizes scalar samples s :=
  exec_done (fun _ sample _ _ _ h => h.addSample sample) ⟨Describes.new, rfl, rfl⟩

omit [LinearOrder T] in
theorem foldl_append_eq (op : T → T → T) [Std.Associative op] [Std.Commutative op]
    [Std.IdempotentOp op] (x : T) (l l' : List T) :
    (l ++ l').foldl op x = op (l.foldl op x) (l'.foldl op x) := by
  have habsorb : op (l.foldl op x) x = l.foldl op x := calc
    op (l.foldl op x) x = op x (l.foldl op x) := Std.Commutative.comm _ _
    _ = l.foldl op (op x x) := foldl_assoc.symm
    _ = l.foldl op x := by rw [show op x x = x from Std.IdempotentOp.idempotent x]
  calc (l ++ l').foldl op x = l'.foldl op (op (l.foldl op x) x) := by rw [foldl_append, habsorb]
    _ = op (l.foldl op x) (l'.foldl op x) := foldl_assoc

theorem Summarizes.mergeStatistics (h : Summarizes scalar samples s)
    (h' : Summarizes scalar samples' other) :
    ∃ s', s.mergeStatistics .rational other = some s' ∧
      Summarizes scalar (samples ++ samples') s' := by
  by_cases hother : other.size = 0
  · have hnil : samples' = [] := eq_nil_of_length_eq_zero (h'.size ▸ hother)
    rw [hnil, append_nil]
    exact ⟨s, if_pos hother, h⟩
  · have hpos : 0 < other.size := by omega
    obtain ⟨s', hmerge, hs'⟩ := h.toDescribes.mergeStatistics h'.toDescribes hpos
    have heq := hmerge
    rw [mergeStatistics_eq hpos, Option.some.injEq] at heq
    refine ⟨s', hmerge, hs', ?_, ?_⟩
    · rw [← heq, foldl_append_eq, ← h.min, ← h'.min]
    · rw [← heq, foldl_append_eq, ← h.max, ← h'.max]

/-- **Merging two statistics** gives the state that adding all samples to one gives. -/
theorem merging_is_adding_all (scalar : Scalar T ℚ) (a b : List T) :
    ∃ sa sb s, addSamples scalar (new .rational scalar) a = some sa ∧
      addSamples scalar (new .rational scalar) b = some sb ∧
      sa.mergeStatistics .rational sb = some s ∧
      addSamples scalar (new .rational scalar) (a ++ b) = some s := by
  obtain ⟨sa, hadda, ha⟩ := addSamples_summarizes scalar a
  obtain ⟨sb, haddb, hb⟩ := addSamples_summarizes scalar b
  obtain ⟨s, hmerge, hs⟩ := ha.mergeStatistics hb
  obtain ⟨s', hadd, hs'⟩ := addSamples_summarizes scalar (a ++ b)
  exact ⟨sa, sb, s, hadda, haddb, hmerge, hs.eq hs' ▸ hadd⟩

/-! ### Removing -/

inductive Call (T : Type) where
  | addSample (sample : T)
  | removeSample (sample : T)
deriving DecidableEq, Repr

def step (scalar : Scalar T ℚ) (s : RunningStatistics T ℚ) :
    Call T → Option (RunningStatistics T ℚ)
  | .addSample sample => s.addSample .rational scalar sample
  | .removeSample sample => s.removeSample .rational scalar sample

/-- The samples that remain. -/
def remaining (samples : List T) : Call T → List T
  | .addSample sample => sample :: samples
  | .removeSample sample => samples.erase sample

/-- Only samples that are there are removed. -/
def Present (samples : List T) : Call T → Prop
  | .addSample _ => True
  | .removeSample sample => sample ∈ samples

/-- And never the last one. -/
def OneRemains (samples : List T) : Call T → Prop
  | .addSample _ => True
  | .removeSample sample => sample ∈ samples ∧ 1 < samples.length

instance (samples : List T) (call : Call T) : Decidable (Present samples call) := by
  cases call <;> unfold Present <;> infer_instance

instance (samples : List T) (call : Call T) : Decidable (OneRemains samples call) := by
  cases call <;> unfold OneRemains <;> infer_instance

theorem Describes.step (h : Describes scalar s samples) (call : Call T)
    (hcall : OneRemains samples call) :
    ∃ s', step scalar s call = some s' ∧ Describes scalar s' (remaining samples call) := by
  cases call with
  | addSample sample => exact h.addSample sample
  | removeSample sample =>
    obtain ⟨hmem, hlength⟩ := hcall
    have hperm := perm_cons_erase hmem
    have hne : samples.erase sample ≠ [] := by
      apply ne_nil_of_length_pos
      rw [length_erase_of_mem hmem]
      omega
    exact (h.perm hperm).removeSample hne

/-- **Removing samples undoes adding them**, as long as one remains. -/
theorem removing_undoes_adding (scalar : Scalar T ℚ) {calls : List (Call T)}
    (h : FoldAlong remaining OneRemains [] calls) :
    ∃ s, exec (step scalar) (new .rational scalar) calls = some s ∧
      Describes scalar s (calls.foldl remaining []) :=
  exec_follows_along (R := fun samples s => Describes scalar s samples)
    (fun _ _ call hs hcall => hs.step call hcall) calls Describes.new h

end Exact

/-- Samples of type `int`. -/
def intScalar : Scalar Int ℚ := ⟨-2 ^ 31, 2 ^ 31 - 1, fun x => x⟩

theorem removing_one_of_two :
    ∃ s, exec (step intScalar) (new .rational intScalar)
        [.addSample 3, .addSample 5, .removeSample 3] = some s ∧
      Describes intScalar s [5] := by
  have h : FoldAlong remaining OneRemains []
      [.addSample (3 : Int), .addSample 5, .removeSample 3] := by decide
  exact removing_undoes_adding intScalar h

/-- The only sample is removed: its deviation is divided by zero. -/
theorem removing_the_last_sample :
    FoldAlong remaining Present [] [.addSample 5, .removeSample 5] ∧
      exec (step intScalar) (new .rational intScalar) [.addSample 5, .removeSample 5] = none := by
  exact ⟨by decide, by rfl⟩

end WebrtcCore.Ports.WelfordStatistics
