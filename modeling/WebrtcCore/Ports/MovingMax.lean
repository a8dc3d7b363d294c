import Mathlib.Data.Int.Order.Basic
import Mathlib.Order.Bounds.Defs
import Mathlib.Order.Lattice
import WebrtcCore.Verified.SlidingWindow

/-!
# Moving maximum

Port of `MovingMaxCounter` (`rtc_base/numerics/moving_max_counter.h`), with the check of the
times that debug builds make.  A deque holds the samples that may still become the maximum
of a window: pairs of a time and a sample, in the order of their times.  The window that
ends at a time is closed at both ends and as long as the constructor was told.  Its begin is
computed in `int64_t`, and an overflow there is undefined.
-/

namespace WebrtcCore.Ports.MovingMax

open Verified CMemory Simulation SlidingWindow List

variable {T : Type} [LinearOrder T]

structure MovingMaxCounter (T : Type) where
  windowLengthMs : Int
  samples : List (Int × T)
  lastCallTimeMs : Int
deriving DecidableEq, Repr

namespace MovingMaxCounter

def new {T : Type} (windowLengthMs : Int) : MovingMaxCounter T := ⟨windowLengthMs, [], -2 ^ 63⟩

def rollWindow {T : Type} (s : MovingMaxCounter T) (newTimeMs : Int) :
    Option (MovingMaxCounter T) := do
  -- `RTC_DCHECK_GE(new_time_ms, last_call_time_ms_)`
  demand (s.lastCallTimeMs ≤ newTimeMs)
  let windowBeginMs := newTimeMs - s.windowLengthMs
  demand (InInt64 windowBeginMs)
  return { s with
    samples := s.samples.dropWhile fun it => it.1 < windowBeginMs
    lastCallTimeMs := newTimeMs }

def add (s : MovingMaxCounter T) (sample : T) (currentTimeMs : Int) :
    Option (MovingMaxCounter T) := do
  let s ← s.rollWindow currentTimeMs
  let samples := s.samples.rdropWhile fun it => it.2 ≤ sample
  -- Add the new sample but only if there's no existing sample at the same time.
  if ∀ back ∈ samples.getLast?, back.1 < currentTimeMs then
    return { s with samples := samples ++ [(currentTimeMs, sample)] }
  else
    return { s with samples := samples }

def max {T : Type} (s : MovingMaxCounter T) (currentTimeMs : Int) :
    Option (Option T × MovingMaxCounter T) := do
  let s ← s.rollWindow currentTimeMs
  return (s.samples.head?.map Prod.snd, s)

def reset {T : Type} (s : MovingMaxCounter T) : MovingMaxCounter T := { s with samples := [] }

end MovingMaxCounter

inductive Call (T : Type) where
  | add (sample : T) (currentTimeMs : Int)
  | max (currentTimeMs : Int)
  | reset
deriving DecidableEq, Repr

def step (s : MovingMaxCounter T) : Call T → Option (MovingMaxCounter T)
  | .add sample currentTimeMs => s.add sample currentTimeMs
  | .max currentTimeMs => (s.max currentTimeMs).map Prod.snd
  | .reset => some s.reset

/-! ### What has happened -/

/-- The samples that were added since the last reset, with their times, and the time of the
last call. -/
structure Past (T : Type) where
  added : List (Int × T)
  time : Int

namespace Past

def empty {T : Type} : Past T := ⟨[], -2 ^ 63⟩

def next {T : Type} (past : Past T) : Call T → Past T
  | .add sample currentTimeMs => ⟨past.added ++ [(currentTimeMs, sample)], currentTimeMs⟩
  | .max currentTimeMs => { past with time := currentTimeMs }
  | .reset => { past with added := [] }

/-- A sample of the window that ends at a time. -/
def InWindow {T : Type} (windowLengthMs : Int) (past : Past T) (time : Int) (sample : T) : Prop :=
  ∃ it ∈ past.added, time - windowLengthMs ≤ it.1 ∧ it.2 = sample

/-- The time does not decrease, and the begin of its window is an `int64_t`. -/
def Admits {T : Type} (windowLengthMs : Int) (past : Past T) (time : Int) : Prop :=
  past.time ≤ time ∧ InInt64 (time - windowLengthMs)
  deriving Decidable

/-- The same for the time of a call. -/
def AdmitsCall {T : Type} (windowLengthMs : Int) (past : Past T) : Call T → Prop
  | .add _ currentTimeMs => past.Admits windowLengthMs currentTimeMs
  | .max currentTimeMs => past.Admits windowLengthMs currentTimeMs
  | .reset => True

instance {T : Type} (windowLengthMs : Int) (past : Past T) (call : Call T) :
    Decidable (past.AdmitsCall windowLengthMs call) := by
  cases call <;> unfold Past.AdmitsCall <;> infer_instance

end Past

/-- What `Max` is to return: the greatest sample of the window, if there is one. -/
def Past.MaxIs (windowLengthMs : Int) (past : Past T) (time : Int) : Option T → Prop
  | none => ∀ sample, ¬ past.InWindow windowLengthMs time sample
  | some m => IsGreatest {sample | past.InWindow windowLengthMs time sample} m

/-! ### The deque -/

/-- Strictly increasing in time and strictly decreasing in value. -/
def Monotone (samples : List (Int × T)) : Prop := samples.Pairwise fun a b => a.1 < b.1 ∧ b.2 < a.2

/-- The deque holds samples that were added, in order, and one for each sample of the last
window that is neither older nor smaller. -/
structure Valid (window : Int) (past : Past T) (s : MovingMaxCounter T) : Prop where
  windowLengthMs : s.windowLengthMs = window
  lastCallTimeMs : s.lastCallTimeMs = past.time
  monotone : Monotone s.samples
  added : ∀ it ∈ s.samples, it ∈ past.added
  earlier : ∀ it ∈ past.added, it.1 ≤ past.time
  dominated : ∀ it ∈ past.added, past.time - window ≤ it.1 →
    ∃ d ∈ s.samples, it.1 ≤ d.1 ∧ it.2 ≤ d.2

namespace Valid

variable {window : Int} {past : Past T} {s : MovingMaxCounter T}

theorem new (window : Int) : Valid window (Past.empty : Past T) (.new window) where
  windowLengthMs := rfl
  lastCallTimeMs := rfl
  monotone := List.Pairwise.nil
  added _ h := absurd h not_mem_nil
  earlier _ h := absurd h not_mem_nil
  dominated _ h := absurd h not_mem_nil

theorem rollWindow (h : Valid window past s) {time : Int} (htime : past.Admits window time) :
    ∃ s', s.rollWindow time = some s' ∧ Valid window { past with time := time } s' ∧
      ∀ it ∈ s'.samples, time - window ≤ it.1 := by
  have hfilter : (s.samples.dropWhile fun it => decide (it.1 < time - window)) =
      s.samples.filter fun it => !decide (it.1 < time - window) := by
    apply dropWhile_eq_filter
    apply h.monotone.imp
    intro a b hab hb
    rw [decide_eq_true_eq] at hb ⊢
    omega
  have hmem (it : Int × T) :
      (it ∈ s.samples.dropWhile fun it => decide (it.1 < time - window)) ↔
        it ∈ s.samples ∧ time - window ≤ it.1 := by
    rw [hfilter, mem_filter, Bool.not_eq_true', decide_eq_false_iff_not, Int.not_lt]
  have horder := htime.1
  have hlast : s.lastCallTimeMs ≤ time := by
    rw [h.lastCallTimeMs]
    exact horder
  have hbegin : InInt64 (time - s.windowLengthMs) := by
    rw [h.windowLengthMs]
    exact htime.2
  refine ⟨⟨s.windowLengthMs, s.samples.dropWhile fun it => decide (it.1 < time - window), time⟩,
    ?_, ⟨h.windowLengthMs, rfl, ?_, ?_, ?_, ?_⟩, ?_⟩
  · rw [MovingMaxCounter.rollWindow, demand_of hlast]
    dsimp only
    rw [demand_of hbegin, h.windowLengthMs]
    rfl
  · exact h.monotone.sublist (dropWhile_sublist _)
  · exact fun it hit => h.added it ((hmem it).mp hit).1
  · intro it hit
    exact Int.le_trans (h.earlier it hit) horder
  · intro it hit hin
    dsimp only at hin
    obtain ⟨d, hd, htimes, hvalues⟩ := h.dominated it hit (by omega)
    exact ⟨d, (hmem d).mpr ⟨hd, by omega⟩, htimes, hvalues⟩
  · exact fun it hit => ((hmem it).mp hit).2

theorem lt_of_getLast {samples : List (Int × T)} (hmonotone : Monotone samples) {time : Int}
    (hlast : ∀ back ∈ samples.getLast?, back.1 < time) : ∀ it ∈ samples, it.1 < time := by
  intro it hit
  rcases eq_nil_or_concat samples with hnil | ⟨init, back, hconcat⟩
  · rw [hnil] at hit
    exact absurd hit not_mem_nil
  · rw [hconcat, concat_eq_append] at hmonotone hlast hit
    have hback : back.1 < time := hlast back (by simp)
    rw [Monotone, pairwise_append] at hmonotone
    rcases mem_append.mp hit with hinit | hsingle
    · have hlt := (hmonotone.2.2 it hinit back mem_cons_self).1
      omega
    · rw [mem_singleton.mp hsingle]
      exact hback

variable (h : Valid window past s)
include h

theorem add {time : Int} (htime : past.Admits window time) (sample : T) :
    ∃ s', s.add sample time = some s' ∧ Valid window (past.next (.add sample time)) s' := by
  obtain ⟨s₁, hs₁, h₁, _⟩ := h.rollWindow htime
  have hfilter : (s₁.samples.rdropWhile fun it => decide (it.2 ≤ sample)) =
      s₁.samples.filter fun it => !decide (it.2 ≤ sample) := by
    apply rdropWhile_eq_filter
    apply h₁.monotone.imp
    intro a b hab ha
    rw [decide_eq_true_eq] at ha ⊢
    exact le_trans (le_of_lt hab.2) ha
  generalize hkept : (s₁.samples.rdropWhile fun it => decide (it.2 ≤ sample)) = kept at hfilter
  have hmem (it : Int × T) : it ∈ kept ↔ it ∈ s₁.samples ∧ sample < it.2 := by
    rw [hfilter, mem_filter, Bool.not_eq_true', decide_eq_false_iff_not, not_le]
  have hmonotone : Monotone kept := by
    rw [hfilter]
    exact h₁.monotone.sublist filter_sublist
  have hearlier (it : Int × T) (hit : it ∈ past.added) : it.1 ≤ time := h₁.earlier it hit
  rw [MovingMaxCounter.add, hs₁, Option.bind_eq_bind, Option.bind_some]
  dsimp only
  rw [hkept]
  -- a sample that is popped is dominated by whatever dominates the new one
  have hdominated {samples : List (Int × T)} (hkeep : ∀ it ∈ kept, it ∈ samples)
      (hnew : ∃ d ∈ samples, time ≤ d.1 ∧ sample ≤ d.2) :
      ∀ it ∈ past.added ++ [(time, sample)], time - window ≤ it.1 →
        ∃ d ∈ samples, it.1 ≤ d.1 ∧ it.2 ≤ d.2 := by
    intro it hit hin
    rcases mem_append.mp hit with hold | hsingle
    · obtain ⟨d, hd, htimes, hvalues⟩ := h₁.dominated it hold hin
      by_cases hpopped : sample < d.2
      · exact ⟨d, hkeep d ((hmem d).mpr ⟨hd, hpopped⟩), htimes, hvalues⟩
      · obtain ⟨d', hd', htimes', hvalues'⟩ := hnew
        exact ⟨d', hd', Int.le_trans (hearlier it hold) htimes',
          le_trans hvalues (le_trans (not_lt.mp hpopped) hvalues')⟩
    · rw [mem_singleton.mp hsingle]
      exact hnew
  have htimes : ∀ it ∈ past.added ++ [(time, sample)], it.1 ≤ time :=
    forall_mem_append.mpr ⟨hearlier, forall_mem_singleton.mpr (Int.le_refl _)⟩
  split
  case isTrue hlast =>
    have hlt := lt_of_getLast hmonotone hlast
    refine ⟨_, rfl, h₁.windowLengthMs, h₁.lastCallTimeMs, ?_, ?_, htimes, ?_⟩
    · refine pairwise_append.mpr ⟨hmonotone, pairwise_singleton _ _, ?_⟩
      intro a ha b hb
      rw [mem_singleton.mp hb]
      exact ⟨hlt a ha, ((hmem a).mp ha).2⟩
    · intro it hit
      rcases mem_append.mp hit with hold | hsingle
      · exact mem_append_left _ (h₁.added it ((hmem it).mp hold).1)
      · exact mem_append_right _ hsingle
    · exact hdominated (fun it => mem_append_left _)
        ⟨(time, sample), mem_append_right _ mem_cons_self, Int.le_refl _, le_refl _⟩
  case isFalse hlast =>
    obtain ⟨back, hback⟩ := Classical.not_forall.mp hlast
    obtain ⟨hmemLast, hge⟩ := Classical.not_imp.mp hback
    have hin : back ∈ kept := mem_of_getLast? hmemLast
    refine ⟨_, rfl, h₁.windowLengthMs, h₁.lastCallTimeMs, hmonotone, ?_, htimes, ?_⟩
    · exact fun it hit => mem_append_left _ (h₁.added it ((hmem it).mp hit).1)
    · exact hdominated (fun it => id)
        ⟨back, hin, Int.not_lt.mp hge, le_of_lt ((hmem back).mp hin).2⟩

theorem reset : Valid window (past.next .reset) s.reset where
  __ := h
  monotone := List.Pairwise.nil
  added _ h := absurd h not_mem_nil
  earlier _ h := absurd h not_mem_nil
  dominated _ h := absurd h not_mem_nil

theorem max {time : Int} (htime : past.Admits window time) :
    ∃ r s', s.max time = some (r, s') ∧ Valid window (past.next (.max time)) s' ∧
      past.MaxIs window time r := by
  obtain ⟨s₁, hs₁, h₁, hwindow⟩ := h.rollWindow htime
  refine ⟨s₁.samples.head?.map Prod.snd, s₁, ?_, h₁, ?_⟩
  · rw [MovingMaxCounter.max, hs₁]
    rfl
  · cases hsamples : s₁.samples with
    | nil =>
      intro sample hin
      obtain ⟨it, hit, hbegin, _⟩ := hin
      obtain ⟨d, hd, _⟩ := h₁.dominated it hit hbegin
      rw [hsamples] at hd
      exact not_mem_nil hd
    | cons front rest =>
      have hfront : front ∈ s₁.samples := hsamples ▸ mem_cons_self
      refine ⟨⟨front, h₁.added front hfront, hwindow front hfront, rfl⟩, ?_⟩
      intro sample hin
      obtain ⟨it, hit, hbegin, rfl⟩ := hin
      obtain ⟨d, hd, _, hvalue⟩ := h₁.dominated it hit hbegin
      have hmonotone := h₁.monotone
      rw [hsamples] at hd hmonotone
      cases mem_cons.mp hd with
      | inl heq => exact heq ▸ hvalue
      | inr hrest =>
        exact le_trans hvalue (le_of_lt ((pairwise_cons.mp hmonotone).1 d hrest).2)

theorem step (call : Call T) (hcall : past.AdmitsCall window call) :
    ∃ s', MovingMax.step s call = some s' ∧ Valid window (past.next call) s' := by
  cases call with
  | add sample time => exact h.add hcall sample
  | max time =>
    obtain ⟨r, s', hs', hvalid, _⟩ := h.max hcall
    exact ⟨s', by rw [MovingMax.step, hs', Option.map_some], hvalid⟩
  | reset => exact ⟨_, rfl, h.reset⟩

omit h

end Valid

/-- **The moving maximum.**  After every run of calls at times that do not decrease and
whose windows begin at an `int64_t`, the deque is in order, and `Max` returns the greatest
sample of the window, or none if there is none. -/
theorem max_is_exact (window : Int) (calls : List (Call T))
    (hcalls : FoldAlong Past.next (Past.AdmitsCall window) .empty calls) :
    ∃ s, exec step (.new window) calls = some s ∧ Monotone s.samples ∧
      ∀ time, (calls.foldl Past.next .empty).Admits window time →
        ∃ r s', s.max time = some (r, s') ∧ Monotone s'.samples ∧
          (calls.foldl Past.next .empty).MaxIs window time r := by
  obtain ⟨s, hs, hvalid⟩ := exec_follows_along (P := Past.AdmitsCall window)
    (R := Valid window) (fun _ _ call h hcall => h.step call hcall) calls (.new window) hcalls
  refine ⟨s, hs, hvalid.monotone, ?_⟩
  intro time htime
  obtain ⟨r, s', hmax, hvalid', hr⟩ := hvalid.max htime
  exact ⟨r, s', hmax, hvalid'.monotone, hr⟩

/-- Three samples, one of which is before the window. -/
theorem max_of_three :
    ∃ s, exec step (.new 10) [.add 5 0, .add 3 4, .max 4, .add 4 12] = some s ∧ Monotone s.samples ∧
      ∃ r s', s.max 12 = some (r, s') ∧ Monotone s'.samples ∧
        Past.MaxIs 10 ⟨[(0, 5), (4, 3), (12, (4 : Nat))], 12⟩ 12 r := by
  obtain ⟨s, hs, hmonotone, hmax⟩ :=
    max_is_exact (T := Nat) 10 [.add 5 0, .add 3 4, .max 4, .add 4 12] (by decide)
  exact ⟨s, hs, hmonotone, hmax 12 (by decide)⟩

/-- `Add(5, INT64_MIN)` on a counter with a window of 1 ms: the begin of the window overflows. -/
theorem add_at_lowest_time : exec step (.new 1) [.add (5 : Nat) (-2 ^ 63)] = none := by decide

end WebrtcCore.Ports.MovingMax
