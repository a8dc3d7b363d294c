import WebrtcCore.Ports.WelfordStatistics
import WebrtcCore.Verified.SlidingWindow

/-!
# Rolling accumulator

Port of `RollingAccumulator` (`rtc_base/rolling_accumulator.h`), for any type of samples and
any arithmetic on `double`.  A ring keeps the latest samples.  The maximum and the minimum
are kept up to date while samples come and go, until the sample that leaves may have been
the extreme one: then it is stale, and the next call that asks for it goes through the ring.
The statistics of the samples are a `RunningStatistics`.
-/

namespace WebrtcCore.Ports.RollingExtrema

open Verified CMemory Ring Simulation SlidingWindow List
  Ports.WelfordStatistics

/-! ## Extremes -/

/-- A maximum or a minimum, and whether it may be out of date. -/
structure Extreme (T : Type) where
  value : T
  stale : Bool
deriving DecidableEq, Repr

section Extreme

variable {T : Type} (le : T → T → Prop)

namespace Extreme

variable [DecidableRel le]

/-- A sample leaves. -/
def remove (e : Extreme T) (sample : T) : Extreme T :=
  if le e.value sample then { e with stale := true } else e

/-- A sample joins `count` others. -/
def add (e : Extreme T) (count : Nat) (sample : T) : Extreme T :=
  if count = 0 ∨ le e.value sample then ⟨sample, false⟩ else e

end Extreme

/-- The extreme one of some samples, zero without any. -/
def IsExtreme (zero : T) (window : List T) (value : T) : Prop :=
  if window = [] then value = zero else value ∈ window ∧ ∀ x ∈ window, le x value

/-- No sample is beyond the value, which is one of them unless it is stale. -/
structure Bounds (e : Extreme T) (window : List T) : Prop where
  le : ∀ x ∈ window, le x e.value
  mem : e.stale = false → window ≠ [] → e.value ∈ window

end Extreme

section ExtremeSteps

variable {T : Type} {le : T → T → Prop} [DecidableRel le] [Std.Total le] [IsTrans T le]
  {e : Extreme T} {window : List T} {sample : T}

omit [IsTrans T le] in
theorem Bounds.remove (h : Bounds le e (sample :: window)) :
    Bounds le (e.remove le sample) window := by
  unfold Extreme.remove
  split
  · refine ⟨fun x hx => h.le x (mem_cons_of_mem _ hx), ?_⟩
    intro hstale
    cases hstale
  · rename_i hless
    refine ⟨fun x hx => h.le x (mem_cons_of_mem _ hx), ?_⟩
    intro hstale _
    cases mem_cons.1 (h.mem hstale (cons_ne_nil _ _)) with
    | inl heq => exact absurd (heq ▸ refl_of le e.value) hless
    | inr hmem => exact hmem

theorem Bounds.add (h : Bounds le e window) (sample : T) :
    Bounds le (e.add le window.length sample) (window ++ [sample]) := by
  unfold Extreme.add
  by_cases hbeaten : window.length = 0 ∨ le e.value sample
  · rw [if_pos hbeaten]
    refine ⟨?_, fun _ _ => mem_append_right _ mem_cons_self⟩
    intro x hx
    rcases mem_append.1 hx with hx | hx
    · cases hbeaten with
      | inl hempty => exact absurd hempty (Nat.ne_of_gt (length_pos_of_mem hx))
      | inr hle => exact trans_of le (h.le x hx) hle
    · rw [mem_singleton.1 hx]
      exact refl_of le sample
  · rw [if_neg hbeaten]
    rw [not_or] at hbeaten
    constructor
    · intro x hx
      rcases mem_append.1 hx with hx | hx
      · exact h.le x hx
      · rw [mem_singleton.1 hx]
        exact (Std.Total.total (r := le) e.value sample).resolve_left hbeaten.2
    · intro hstale _
      apply mem_append_left
      exact h.mem hstale (ne_nil_of_length_pos (Nat.pos_of_ne_zero hbeaten.1))

omit [Std.Total le] [IsTrans T le] in
theorem stale_of_add {count : Nat} (h : (e.add le count sample).stale = true) : e.stale = true := by
  unfold Extreme.add at h
  split at h
  · cases h
  · exact h

end ExtremeSteps

/-! ## The accumulator -/

structure RollingAccumulator (T D : Type) where
  stats : RunningStatistics T D
  nextIndex : Nat
  /-- `max_` and `max_stale_` -/
  max : Extreme T
  /-- `min_` and `min_stale_` -/
  min : Extreme T
  samples : List T
deriving DecidableEq, Repr

namespace RollingAccumulator

variable {T D : Type} [LinearOrder T] (fa : FloatArithmetic D) (scalar : Scalar T D) (zero : T)

def maxCount {T D : Type} (s : RollingAccumulator T D) : Nat := s.samples.length

def count {T D : Type} (s : RollingAccumulator T D) : Nat := s.stats.size

def reset {T D : Type} (fa : FloatArithmetic D) (scalar : Scalar T D) (zero : T)
    (s : RollingAccumulator T D) : RollingAccumulator T D :=
  { s with
    stats := .new fa scalar
    nextIndex := 0
    max := ⟨zero, false⟩
    min := ⟨zero, false⟩ }

/-- The constructor; the vector holds zeros. -/
def new {T D : Type} (fa : FloatArithmetic D) (scalar : Scalar T D) (zero : T)
    (maxCount : Nat) : RollingAccumulator T D :=
  ⟨.new fa scalar, 0, ⟨zero, false⟩, ⟨zero, false⟩, List.replicate maxCount zero⟩

/-- The first part of `AddSample`. -/
def removeOldest (s : RollingAccumulator T D) : Option (RollingAccumulator T D) :=
  if s.count = s.maxCount then do
    let sampleToRemove ← s.samples[s.nextIndex]?
    let stats ← s.stats.removeSample fa scalar sampleToRemove
    return { s with
      stats := stats
      max := s.max.remove (· ≤ ·) sampleToRemove
      min := s.min.remove (· ≥ ·) sampleToRemove }
  else
    some s

def addSample (s : RollingAccumulator T D) (sample : T) : Option (RollingAccumulator T D) := do
  let s ← s.removeOldest fa scalar
  demand (s.nextIndex < s.maxCount)
  let stats ← s.stats.addSample fa scalar sample
  return {
    stats := stats
    nextIndex := (s.nextIndex + 1) % s.maxCount
    max := s.max.add (· ≤ ·) s.count sample
    min := s.min.add (· ≥ ·) s.count sample
    samples := s.samples.set s.nextIndex sample }

/-- The value of an extreme, from the ring if it is stale. -/
def computeExtreme {T D : Type} (s : RollingAccumulator T D) (pick : T → T → T)
    (e : Extreme T) : Option T :=
  if e.stale then do
    demand (0 < s.count)
    let first ← s.samples[s.nextIndex]?
    exec (fun best i => (s.samples[(s.nextIndex + i) % s.maxCount]?).map (pick best)) first
      (List.range' 1 (s.count - 1))
  else
    some e.value

def computeMax (s : RollingAccumulator T D) : Option (T × RollingAccumulator T D) := do
  let max ← s.computeExtreme Max.max s.max
  return (max, { s with max := ⟨max, false⟩ })

def computeMin (s : RollingAccumulator T D) : Option (T × RollingAccumulator T D) := do
  let min ← s.computeExtreme Min.min s.min
  return (min, { s with min := ⟨min, false⟩ })

def computeMean {T D : Type} (fa : FloatArithmetic D) (s : RollingAccumulator T D) : D :=
  s.stats.getMean.getD (fa.ofInt 0)

def computeVariance {T D : Type} (fa : FloatArithmetic D) (s : RollingAccumulator T D) : D :=
  (s.stats.getVariance fa).getD (fa.ofInt 0)

end RollingAccumulator

inductive Call (T : Type) where
  | addSample (sample : T)
  | reset
  | computeMax
  | computeMin
deriving DecidableEq, Repr

section Runs

variable {T D : Type} [LinearOrder T]

def step (fa : FloatArithmetic D) (scalar : Scalar T D) (zero : T) (s : RollingAccumulator T D) :
    Call T → Option (RollingAccumulator T D)
  | .addSample sample => s.addSample fa scalar sample
  | .reset => some (s.reset fa scalar zero)
  | .computeMax => s.computeMax.map Prod.snd
  | .computeMin => s.computeMin.map Prod.snd

/-- The samples since the last reset. -/
def sinceReset {T : Type} (history : List T) : Call T → List T
  | .addSample sample => history ++ [sample]
  | .reset => []
  | .computeMax => history
  | .computeMin => history

/-! ## What the accumulator holds -/

/-- A property of the statistics that every operation keeps, as the samples of the window
come and go. -/
structure Accounts (fa : FloatArithmetic D) (scalar : Scalar T D)
    (R : RunningStatistics T D → List T → Prop) : Prop where
  size : ∀ {s window}, R s window → s.size = window.length
  new : R (.new fa scalar) []
  addSample : ∀ {s window}, R s window → ∀ sample,
    ∃ s', s.addSample fa scalar sample = some s' ∧ R s' (window ++ [sample])
  removeSample : ∀ {s sample window}, R s (sample :: window) → window ≠ [] →
    ∃ s', s.removeSample fa scalar sample = some s' ∧ R s' window

theorem sizes_account (fa : FloatArithmetic D) (scalar : Scalar T D) :
    Accounts fa scalar fun s window => s.size = window.length where
  size h := h
  new := rfl
  addSample h sample := by
    refine ⟨_, addSample_eq _ sample, ?_⟩
    rw [length_append, length_singleton, h]
  removeSample {s sample window} h hwindow := by
    have hlength := length_pos_iff.2 hwindow
    rw [length_cons] at h
    refine ⟨_, removeSample_eq (by omega) sample, ?_⟩
    show s.size - 1 = window.length
    omega

theorem describes_accounts (scalar : Scalar T ℚ) :
    Accounts .rational scalar (Describes scalar) where
  size h := h.size
  new := Describes.new
  addSample h sample := by
    obtain ⟨s', hadd, hs'⟩ := h.addSample sample
    exact ⟨s', hadd, hs'.perm (perm_append_singleton _ _).symm⟩
  removeSample h hwindow := h.removeSample hwindow

/-- An extreme over the window of the latest samples. -/
structure Tracks (le : T → T → Prop) (zero : T) (maxCount : Nat) (history : List T)
    (e : Extreme T) : Prop extends Bounds le e (latest maxCount history) where
  value_of_nil : history = [] → e.value = zero
  /-- Only a sample that left makes it stale. -/
  full_of_stale : e.stale = true → maxCount ≤ history.length

structure Follows (R : RunningStatistics T D → List T → Prop) (zero : T) (maxCount : Nat)
    (history : List T) (s : RollingAccumulator T D) : Prop where
  capacity : s.samples.length = maxCount
  ring : Recent s.samples 0 history
  nextIndex : s.nextIndex = history.length % maxCount
  stats : R s.stats (latest maxCount history)
  max : Tracks (· ≤ ·) zero maxCount history s.max
  min : Tracks (· ≥ ·) zero maxCount history s.min

variable {fa : FloatArithmetic D} {scalar : Scalar T D} {zero : T}
  {R : RunningStatistics T D → List T → Prop} {maxCount : Nat} {history : List T}
  {s : RollingAccumulator T D} {le : T → T → Prop} {e : Extreme T}

omit [LinearOrder T] in
theorem Tracks.nil : Tracks le zero maxCount [] ⟨zero, false⟩ where
  le x hx := by
    rw [latest_nil] at hx
    cases hx
  mem _ h := absurd (latest_nil _) h
  value_of_nil _ := rfl
  full_of_stale h := by cases h

section

variable [DecidableRel le] [Std.Total le] [IsTrans T le]

omit [LinearOrder T] in
theorem Tracks.add (h : Tracks le zero maxCount history e) (hroom : history.length < maxCount)
    (sample : T) :
    Tracks le zero maxCount (history ++ [sample]) (e.add le history.length sample) where
  toBounds := by
    have hadd := h.toBounds.add sample
    rw [length_latest, Nat.min_eq_left hroom.le] at hadd
    rwa [latest_append_of_lt hroom]
  value_of_nil hnil := absurd hnil (by simp)
  full_of_stale hstale := by
    have hfull := h.full_of_stale (stale_of_add hstale)
    omega

omit [LinearOrder T] in
theorem Tracks.replace {oldest sample : T} {rest : List T}
    (h : Tracks le zero maxCount history e) (hpos : 0 < maxCount)
    (hfull : maxCount ≤ history.length) (hwindow : latest maxCount history = oldest :: rest) :
    Tracks le zero maxCount (history ++ [sample])
      ((e.remove le oldest).add le rest.length sample) where
  toBounds := by
    have hbounds := h.toBounds
    rw [hwindow] at hbounds
    rw [latest_append_of_le hpos hfull, hwindow]
    exact hbounds.remove.add sample
  value_of_nil hnil := absurd hnil (by simp)
  full_of_stale _ := by
    rw [length_append]
    omega

end

/-! ### Adding a sample -/

theorem Follows.count (hR : Accounts fa scalar R) (h : Follows R zero maxCount history s) :
    s.count = Min.min history.length maxCount := by
  rw [RollingAccumulator.count, hR.size h.stats, length_latest]

theorem Follows.oldest (h : Follows R zero maxCount history s) (hcount : 0 < maxCount)
    (hfull : maxCount ≤ history.length) :
    s.samples[s.nextIndex]? = (latest maxCount history).head? := by
  have hhead := h.ring.oldest (h.capacity ▸ hcount) (h.capacity ▸ hfull)
  rwa [Nat.zero_add, h.capacity, ← h.nextIndex] at hhead

theorem addSample_eq_some {s₁ : RollingAccumulator T D} {stats : RunningStatistics T D} {sample : T}
    (hremove : s.removeOldest fa scalar = some s₁) (hindex : s₁.nextIndex < s₁.maxCount)
    (hadd : s₁.stats.addSample fa scalar sample = some stats) :
    s.addSample fa scalar sample = some ⟨stats, (s₁.nextIndex + 1) % s₁.maxCount,
      s₁.max.add (· ≤ ·) s₁.count sample, s₁.min.add (· ≥ ·) s₁.count sample,
      s₁.samples.set s₁.nextIndex sample⟩ := by
  simp only [RollingAccumulator.addSample, hremove, Option.bind_eq_bind, Option.bind_some,
    demand_of hindex, hadd]
  rfl

theorem Follows.addSample (hR : Accounts fa scalar R) (hcount : 2 ≤ maxCount)
    (h : Follows R zero maxCount history s) (sample : T) :
    ∃ s', s.addSample fa scalar sample = some s' ∧
      Follows R zero maxCount (history ++ [sample]) s' := by
  have hcap : s.maxCount = maxCount := h.capacity
  have hpos : 0 < s.samples.length := h.capacity ▸ Nat.lt_of_lt_of_le Nat.two_pos hcount
  have hindex : s.nextIndex < s.maxCount := by
    rw [h.nextIndex, hcap]
    exact Nat.mod_lt _ (by omega)
  have hring : Recent (s.samples.set s.nextIndex sample) 0 (history ++ [sample]) := by
    have hpush := h.ring.push hpos sample
    rwa [Nat.zero_add, h.capacity, ← h.nextIndex] at hpush
  have hlength : (s.samples.set s.nextIndex sample).length = maxCount := by
    rw [length_set, h.capacity]
  have hnext : (s.nextIndex + 1) % s.maxCount = (history ++ [sample]).length % maxCount := by
    rw [h.nextIndex, hcap, length_append, length_singleton, Nat.mod_add_mod]
  have hsize : s.count = Min.min history.length maxCount := h.count hR
  rcases Nat.lt_or_ge history.length maxCount with hroom | hfull
  · rw [Nat.min_eq_left hroom.le] at hsize
    have hremove : s.removeOldest fa scalar = some s := if_neg (by omega)
    obtain ⟨stats, hadd, hstats⟩ := hR.addSample h.stats sample
    refine ⟨_, addSample_eq_some hremove hindex hadd, hlength, hring, hnext, ?_, ?_, ?_⟩
    · rwa [latest_append_of_lt hroom]
    · rw [hsize]
      exact h.max.add hroom sample
    · rw [hsize]
      exact h.min.add hroom sample
  · have hwidth := length_latest maxCount history
    rw [Nat.min_eq_right hfull] at hwidth
    obtain ⟨oldest, rest, hwindow⟩ := exists_cons_of_length_pos
      (Nat.lt_of_lt_of_le Nat.two_pos (hwidth ▸ hcount))
    rw [hwindow, length_cons] at hwidth
    have holdest : s.samples[s.nextIndex]? = some oldest := by
      rw [h.oldest (by omega) hfull, hwindow, head?_cons]
    obtain ⟨removed, hremoved, hrest⟩ := hR.removeSample (hwindow ▸ h.stats)
      (ne_nil_of_length_pos (by omega))
    have hcount' : removed.size = rest.length := hR.size hrest
    have hremove : s.removeOldest fa scalar = some { s with
        stats := removed
        max := s.max.remove (· ≤ ·) oldest
        min := s.min.remove (· ≥ ·) oldest } := by
      rw [RollingAccumulator.removeOldest, if_pos (by omega), holdest, Option.bind_eq_bind,
        Option.bind_some, hremoved]
      rfl
    obtain ⟨stats, hadd, hstats⟩ := hR.addSample hrest sample
    refine ⟨_, addSample_eq_some hremove hindex hadd, hlength, hring, hnext, ?_, ?_, ?_⟩
    · rwa [latest_append_of_le (by omega) hfull, hwindow]
    · rw [RollingAccumulator.count, hcount']
      exact h.max.replace (by omega) hfull hwindow
    · rw [RollingAccumulator.count, hcount']
      exact h.min.replace (by omega) hfull hwindow

/-! ### Going through the ring -/

theorem Follows.holds (h : Follows R zero maxCount history s) (hfull : maxCount ≤ history.length) :
    Holds s.samples s.nextIndex (latest maxCount history) := by
  have hring := h.ring
  have hcell : (0 + history.length) % s.samples.length =
      (0 + (history.length - s.samples.length)) % s.samples.length :=
    Recent.cell_of_full 0 (h.capacity ▸ hfull)
  rw [h.capacity, Nat.zero_add] at hcell
  rw [Recent, h.capacity] at hring
  apply hring.congr_start
  rw [h.nextIndex, h.capacity, Nat.mod_mod]
  exact hcell.symm

theorem Follows.computeExtreme {pick : T → T → T}
    (hpick : ∀ (first : T) (rest : List T), rest.foldl pick first ∈ first :: rest ∧ ∀ x ∈ first ::
      rest, le x (rest.foldl pick first)) (hR : Accounts fa scalar R) (hcount : 0 < maxCount)
    (h : Follows R zero maxCount history s) (he : Tracks le zero maxCount history e) :
    ∃ value, s.computeExtreme pick e = some value ∧
      IsExtreme le zero (latest maxCount history) value ∧
      Tracks le zero maxCount history ⟨value, false⟩ := by
  obtain ⟨value, stale⟩ := e
  cases stale with
  | false =>
    refine ⟨value, rfl, ?_, he⟩
    unfold IsExtreme
    split
    · rename_i hnil
      have hlength := congrArg length hnil
      rw [length_latest, length_nil] at hlength
      exact he.value_of_nil (eq_nil_of_length_eq_zero (by omega))
    · rename_i hwindow
      exact ⟨he.mem rfl hwindow, he.le⟩
  | true =>
    have hfull := he.full_of_stale rfl
    have hsize := h.count hR
    have hwidth := length_latest maxCount history
    rw [Nat.min_eq_right hfull] at hsize hwidth
    obtain ⟨first, rest, hwindow⟩ := exists_cons_of_length_pos (hwidth ▸ hcount)
    have hfirst : s.samples[s.nextIndex]? = some first := by
      rw [h.oldest hcount hfull, hwindow, head?_cons]
    rw [hwindow, length_cons] at hwidth
    have hscan := exec_ring (h.holds hfull) pick rest.length (k := 1) first
      (by rw [hwindow, length_cons]; omega)
    rw [hwindow] at hscan
    obtain ⟨hmem, hle⟩ := hpick first rest
    refine ⟨rest.foldl pick first, ?_, ?_, ⟨?_, ?_⟩, ?_, ?_⟩
    · rw [RollingAccumulator.computeExtreme, demand_of (by omega), hfirst, hsize,
        show maxCount - 1 = rest.length by omega]
      exact hscan
    · rw [hwindow]
      exact ⟨hmem, hle⟩
    · rw [hwindow]
      exact hle
    · intro _ _
      rw [hwindow]
      exact hmem
    · intro hnil
      rw [hnil, length_nil] at hfull
      omega
    · intro hstale
      cases hstale

variable (hR : Accounts fa scalar R)
include hR

theorem Follows.computeMax (hcount : 0 < maxCount) (h : Follows R zero maxCount history s) :
    ∃ max s', s.computeMax = some (max, s') ∧ IsExtreme (· ≤ ·) zero (latest maxCount history) max ∧
      Follows R zero maxCount history s' := by
  obtain ⟨max, hcompute, hmax, htracks⟩ := h.computeExtreme
    (fun _ _ => max?_eq_some_iff.1 max?_cons') hR hcount h.max
  refine ⟨max, { s with max := ⟨max, false⟩ }, ?_, hmax, { h with max := htracks }⟩
  rw [RollingAccumulator.computeMax, hcompute]
  rfl

theorem Follows.computeMin (hcount : 0 < maxCount) (h : Follows R zero maxCount history s) :
    ∃ min s', s.computeMin = some (min, s') ∧ IsExtreme (· ≥ ·) zero (latest maxCount history) min ∧
      Follows R zero maxCount history s' := by
  obtain ⟨min, hcompute, hmin, htracks⟩ := h.computeExtreme
    (fun _ _ => min?_eq_some_iff.1 min?_cons') hR hcount h.min
  refine ⟨min, { s with min := ⟨min, false⟩ }, ?_, hmin, { h with min := htracks }⟩
  rw [RollingAccumulator.computeMin, hcompute]
  rfl

/-! ### Runs -/

theorem Follows.reset (hcap : s.samples.length = maxCount) :
    Follows R zero maxCount [] (s.reset fa scalar zero) where
  capacity := hcap
  ring := Recent.nil _ _
  nextIndex := (Nat.zero_mod _).symm
  stats := by
    rw [latest_nil]
    exact hR.new
  max := Tracks.nil
  min := Tracks.nil

theorem Follows.step (hcount : 2 ≤ maxCount) (h : Follows R zero maxCount history s)
    (call : Call T) :
    ∃ s', step fa scalar zero s call = some s' ∧
      Follows R zero maxCount (sinceReset history call) s' := by
  have hpos : 0 < maxCount := by omega
  cases call with
  | addSample sample => exact h.addSample hR hcount sample
  | reset => exact ⟨_, rfl, Follows.reset hR h.capacity⟩
  | computeMax =>
    obtain ⟨max, s', hcompute, _, hs'⟩ := h.computeMax hR hpos
    refine ⟨s', ?_, hs'⟩
    rw [RollingExtrema.step, hcompute, Option.map_some]
  | computeMin =>
    obtain ⟨min, s', hcompute, _, hs'⟩ := h.computeMin hR hpos
    refine ⟨s', ?_, hs'⟩
    rw [RollingExtrema.step, hcompute, Option.map_some]

theorem run_follows (zero : T) (hcount : 2 ≤ maxCount) (calls : List (Call T)) :
    ∃ s, exec (step fa scalar zero) (.new fa scalar zero maxCount) calls = some s ∧
      Follows R zero maxCount (calls.foldl sinceReset []) s := by
  have hnew : Follows R zero maxCount [] (.new fa scalar zero maxCount) :=
    Follows.reset (s := .new fa scalar zero maxCount) hR (length_replicate ..)
  exact exec_follows (R := Follows R zero maxCount)
    (fun _ _ call h => h.step hR hcount call) calls hnew

omit hR

/-- **The maximum and the minimum** of the latest samples, after any calls. -/
theorem extrema_are_exact (fa : FloatArithmetic D) (scalar : Scalar T D) (zero : T)
    (hcount : 2 ≤ maxCount) (calls : List (Call T)) :
    ∃ s, exec (step fa scalar zero) (.new fa scalar zero maxCount) calls = some s ∧
      (∃ max s', s.computeMax = some (max, s') ∧
        IsExtreme (· ≤ ·) zero (latest maxCount (calls.foldl sinceReset [])) max) ∧
      ∃ min s', s.computeMin = some (min, s') ∧
        IsExtreme (· ≥ ·) zero (latest maxCount (calls.foldl sinceReset [])) min := by
  have hR := sizes_account fa scalar
  obtain ⟨s, hexec, h⟩ := run_follows hR zero hcount calls
  obtain ⟨max, s₁, hmax, hismax, _⟩ := h.computeMax hR (by omega)
  obtain ⟨min, s₂, hmin, hismin, _⟩ := h.computeMin hR (by omega)
  exact ⟨s, hexec, ⟨max, s₁, hmax, hismax⟩, min, s₂, hmin, hismin⟩

end Runs

theorem extrema_of_three :
    ∃ s, exec (step .rational intScalar 0) (.new .rational intScalar 0 2)
        [.addSample 5, .addSample 3, .computeMax, .addSample 4] = some s ∧
      (∃ max s', s.computeMax = some (max, s') ∧ IsExtreme (· ≤ ·) 0 [3, 4] max) ∧
      ∃ min s', s.computeMin = some (min, s') ∧ IsExtreme (· ≥ ·) 0 [3, 4] min :=
  extrema_are_exact .rational intScalar 0 (by decide)
    [.addSample 5, .addSample 3, .computeMax, .addSample 4]

theorem moments_are_exact {T : Type} [LinearOrder T] (scalar : Scalar T ℚ) (zero : T)
    {maxCount : Nat} (hcount : 2 ≤ maxCount) (calls : List (Call T)) :
    ∃ s, exec (step .rational scalar zero) (.new .rational scalar zero maxCount) calls = some s ∧
      s.computeMean .rational =
        Regression.mean ((latest maxCount (calls.foldl sinceReset [])).map scalar.toDouble) ∧
      s.computeVariance .rational =
        Regression.variance ((latest maxCount (calls.foldl sinceReset [])).map scalar.toDouble) /
          (latest maxCount (calls.foldl sinceReset [])).length := by
  obtain ⟨s, hexec, h⟩ := run_follows (describes_accounts scalar) zero hcount calls
  exact ⟨s, hexec, h.stats.getMean, h.stats.getVariance⟩

end WebrtcCore.Ports.RollingExtrema
