import Mathlib.Algebra.Ring.Nat
import Mathlib.Order.Nat
import WebrtcCore.Verified.OrderStatistic
import WebrtcCore.Verified.SlidingWindow

/-!
# Percentile and moving median filters

Port of `PercentileFilter` and `MovingMedianFilter` (`rtc_base/numerics`).  The percentile
filter keeps an iterator into a `std::multiset` and the index at which it stands, and moves
the iterator after each change to the index that the rule asks for.  An iterator is the
position of its element, which changes with the elements before it; the position behind the
last element is `end()`.  Reading `end()` and advancing beyond either end is undefined.
-/

namespace WebrtcCore.Ports.MovingMedian

open Verified CMemory OrderStatistic Simulation SlidingWindow List Option

variable {T : Type} [LinearOrder T]

/-- The members of `PercentileFilter` other than the percentile, of which only the index
that it gives for each size is used. -/
structure PercentileFilter (T : Type) [LinearOrder T] where
  set : OrderedMultiset T
  percentileIt : Nat
  percentileIndex : Int

namespace PercentileFilter

def new : PercentileFilter T := ⟨.empty, 0, 0⟩

/-- `UpdatePercentileIterator`; `index` is the rule, applied to the size. -/
def updatePercentileIterator (index : Nat → Int) (s : PercentileFilter T) :
    Option (PercentileFilter T) :=
  if s.set.elements = [] then some s
  else do
    let i := index s.set.elements.length
    let it := s.percentileIt + (i - s.percentileIndex)
    demand (0 ≤ it ∧ it ≤ s.set.elements.length)
    return { s with percentileIt := it.toNat, percentileIndex := i }

def insert (index : Nat → Int) (s : PercentileFilter T) (value : T) :
    Option (PercentileFilter T) := do
  let set := s.set.insert value
  let it :=
    if upperBound s.set.elements value ≤ s.percentileIt then s.percentileIt + 1
    else s.percentileIt
  if set.elements.length = 1 then
    -- First element inserted - initialize percentile iterator and index.
    updatePercentileIterator index ⟨set, 0, 0⟩
  else
    let current ← set.elements[it]?
    updatePercentileIterator index
      ⟨set, it, if value < current then s.percentileIndex + 1 else s.percentileIndex⟩

def erase (index : Nat → Int) (s : PercentileFilter T) (value : T) :
    Option (Bool × PercentileFilter T) := do
  let it := lowerBound s.set.elements value
  if s.set.elements[it]? ≠ some value then return (false, s)
  let set := s.set.eraseAt it
  if it = s.percentileIt then
    -- If same iterator, update to the following element. Index is not affected.
    let s ← updatePercentileIterator index ⟨set, it, s.percentileIndex⟩
    return (true, s)
  else
    let percentileIt := if it < s.percentileIt then s.percentileIt - 1 else s.percentileIt
    let current ← set.elements[percentileIt]?
    let s ← updatePercentileIterator index
      ⟨set, percentileIt,
        if value ≤ current then s.percentileIndex - 1 else s.percentileIndex⟩
    return (true, s)

def getPercentileValue [Zero T] (s : PercentileFilter T) : Option T :=
  if s.set.elements = [] then some 0 else s.set.elements[s.percentileIt]?

def reset (_ : PercentileFilter T) : PercentileFilter T := new

end PercentileFilter

inductive Call (T : Type) where
  | insert (value : T)
  | erase (value : T)
  | reset
deriving DecidableEq, Repr

/-- A call; what `Erase` returns is in `Tracks.erase`. -/
def step (index : Nat → Int) (s : PercentileFilter T) : Call T → Option (PercentileFilter T)
  | .insert value => s.insert index value
  | .erase value => (s.erase index value).map Prod.snd
  | .reset => some s.reset

/-- The values that are present. -/
def presentStep (present : List T) : Call T → List T
  | .insert value => value :: present
  | .erase value => present.erase value
  | .reset => []

/-- What is present after some calls. -/
def present (calls : List (Call T)) : List T := calls.foldl presentStep []

/-! ### The median filter -/

/-- A `size_t` as a `float`: 24 significant bits, to nearest, ties to even. -/
def floatOfSize (n : Nat) : Nat :=
  let ulp := 2 ^ (n.log2 - 23)
  if 2 * (n % ulp) < ulp ∨ 2 * (n % ulp) = ulp ∧ n / ulp % 2 = 0 then n / ulp * ulp
  else (n / ulp + 1) * ulp

/-- `static_cast<int64_t>(0.5f * (set_.size() - 1))`.  The product is exact. -/
def medianIndex (n : Nat) : Int := (floatOfSize (n - 1) / 2 : Nat)

structure MovingMedianFilter (T : Type) [LinearOrder T] where
  percentileFilter : PercentileFilter T
  samples : List T
  samplesStored : Nat
  windowSize : Nat

namespace MovingMedianFilter

/-- The constructor; `RTC_CHECK_GT(window_size, 0)`. -/
def new (windowSize : Nat) : Option (MovingMedianFilter T) :=
  (demand (0 < windowSize)).map fun _ => ⟨.new, [], 0, windowSize⟩

def insert (s : MovingMedianFilter T) (value : T) : Option (MovingMedianFilter T) := do
  let filter ← s.percentileFilter.insert medianIndex value
  let samples := s.samples ++ [value]
  let samplesStored := s.samplesStored + 1
  if samplesStored > s.windowSize then
    let front ← samples.head?
    let (_, filter) ← filter.erase medianIndex front
    return ⟨filter, samples.tail, samplesStored - 1, s.windowSize⟩
  else
    return ⟨filter, samples, samplesStored, s.windowSize⟩

def getFilteredValue [Zero T] (s : MovingMedianFilter T) : Option T :=
  s.percentileFilter.getPercentileValue

def reset (s : MovingMedianFilter T) : MovingMedianFilter T :=
  ⟨s.percentileFilter.reset, [], 0, s.windowSize⟩

end MovingMedianFilter

inductive MedianCall (T : Type) where
  | insert (value : T)
  | reset
deriving DecidableEq, Repr

def medianStep (s : MovingMedianFilter T) : MedianCall T → Option (MovingMedianFilter T)
  | .insert value => s.insert value
  | .reset => some s.reset

/-- The values since the last reset. -/
def historyStep {T : Type} (history : List T) : MedianCall T → List T
  | .insert value => history ++ [value]
  | .reset => []

def history {T : Type} (calls : List (MedianCall T)) : List T := calls.foldl historyStep []

/-! ### The iterator stands at the index -/

/-- The index that a rule gives for a size is one of the elements. -/
def IsIndexRule (index : Nat → Int) : Prop := ∀ n : Nat, 1 ≤ n → 0 ≤ index n ∧ index n ≤ n - 1

/-- The filter holds the values that are present, and its iterator is at the index that the
rule gives. -/
structure Tracks (index : Nat → Int) (present : List T) (s : PercentileFilter T) : Prop where
  perm : s.set.elements.Perm present
  percentileIndex : present ≠ [] → s.percentileIndex = index present.length
  percentileIt : present ≠ [] → (s.percentileIt : Int) = index present.length

namespace Tracks

variable {index : Nat → Int} {present : List T} {s : PercentileFilter T}

theorem new (index : Nat → Int) : Tracks index ([] : List T) .new where
  perm := List.Perm.refl _
  percentileIndex h := absurd rfl h
  percentileIt h := absurd rfl h

theorem congr (h : Tracks index present s) {present' : List T}
    (hperm : present.Perm present') : Tracks index present' s where
  perm := h.perm.trans hperm
  percentileIndex hne := by
    rw [← hperm.length_eq]
    exact h.percentileIndex fun hnil => hne (nil_perm.mp (hnil ▸ hperm))
  percentileIt hne := by
    rw [← hperm.length_eq]
    exact h.percentileIt fun hnil => hne (nil_perm.mp (hnil ▸ hperm))

variable (hindex : IsIndexRule index)
include hindex

theorem it_lt_length (h : Tracks index present s) (hne : present ≠ []) :
    s.percentileIt < s.set.elements.length := by
  have hlength := h.perm.length_eq
  have hpos := length_pos_of_ne_nil hne
  have hrule := hindex present.length hpos
  have hit := h.percentileIt hne
  omega

theorem of_update {set : OrderedMultiset T} {it : Nat} {i : Int} (hperm : set.elements.Perm present)
    (hit : present ≠ [] → (it : Int) = i) :
    ∃ s', PercentileFilter.updatePercentileIterator index ⟨set, it, i⟩ = some s' ∧
      Tracks index present s' := by
  have hlength := hperm.length_eq
  by_cases hempty : set.elements = []
  · have hnil : present = [] := nil_perm.mp (hempty ▸ hperm)
    rw [PercentileFilter.updatePercentileIterator, if_pos hempty]
    exact ⟨_, rfl, hperm, fun hne => absurd hnil hne, fun hne => absurd hnil hne⟩
  · have hne : present ≠ [] := fun hnil => hempty (perm_nil.mp (hnil ▸ hperm))
    have hpos := length_pos_of_ne_nil hne
    have hrule := hindex present.length hpos
    have hat := hit hne
    have hin : 0 ≤ it + (index set.elements.length - i) ∧
        it + (index set.elements.length - i) ≤ set.elements.length := by
      rw [hlength]
      omega
    rw [PercentileFilter.updatePercentileIterator, if_neg hempty]
    dsimp only
    rw [demand_of hin]
    refine ⟨_, rfl, hperm, fun _ => congrArg index hlength, fun _ => ?_⟩
    dsimp only
    rw [hlength]
    omega

theorem insert (h : Tracks index present s) (value : T) :
    ∃ s', s.insert index value = some s' ∧ Tracks index (value :: present) s' := by
  have hperm : (s.set.insert value).elements.Perm (value :: present) :=
    (s.set.insert_perm value).trans (h.perm.cons value)
  have hlength := hperm.length_eq
  unfold PercentileFilter.insert
  dsimp only
  split
  case isTrue => exact of_update hindex hperm fun _ => rfl
  case isFalse hone =>
    have hne : present ≠ [] := by
      intro hnil
      rw [hnil] at hlength
      exact hone hlength
    have hit := h.it_lt_length hindex hne
    have hcurrent := s.set.getElem?_insert value s.percentileIt
    rw [getElem?_eq_getElem hit] at hcurrent
    have hbefore := upperBound_le_iff (x := value) s.set.sorted (getElem?_eq_getElem hit)
    rw [bind_eq_bind, hcurrent, bind_some]
    refine of_update hindex hperm fun _ => ?_
    -- the new element is before the iterator exactly if it is smaller
    have hat := h.percentileIt hne
    have hidx := h.percentileIndex hne
    by_cases hless : upperBound s.set.elements value ≤ s.percentileIt
    · rw [if_pos hless, if_pos (hbefore.mp hless)]
      omega
    · rw [if_neg hless, if_neg fun hlt => hless (hbefore.mpr hlt)]
      omega

theorem erase (h : Tracks index present s) (value : T) :
    ∃ s', s.erase index value = some (decide (value ∈ present), s') ∧
      Tracks index (present.erase value) s' := by
  have hmem : value ∈ present ↔ s.set.elements[lowerBound s.set.elements value]? = some value := by
    rw [← h.perm.mem_iff]
    exact mem_iff_getElem?_lowerBound s.set.sorted
  unfold PercentileFilter.erase
  dsimp only
  split
  case isTrue habsent =>
    have hnot : value ∉ present := fun hin => habsent (hmem.mp hin)
    rw [erase_of_not_mem hnot, decide_eq_false hnot]
    exact ⟨s, rfl, h⟩
  case isFalse hpresent =>
    have hfound := Decidable.not_not.mp hpresent
    have hin : value ∈ present := hmem.mpr hfound
    have hne : present ≠ [] := ne_nil_of_mem hin
    have hperm : (s.set.eraseAt (lowerBound s.set.elements value)).elements.Perm
        (present.erase value) := by
      have hcons := (OrderedMultiset.eraseAt_perm hfound).trans (h.perm.trans (perm_cons_erase hin))
      exact hcons.cons_inv
    have hat := h.percentileIt hne
    have hidx := h.percentileIndex hne
    rw [decide_eq_true hin]
    split
    case isTrue hsame =>
      have hit : (lowerBound s.set.elements value : Int) = s.percentileIndex := by
        rw [hsame, hat, hidx]
      obtain ⟨s', hs', htracks⟩ := of_update hindex hperm fun _ => hit
      exact ⟨s', by rw [hs']; rfl, htracks⟩
    case isFalse hother =>
      have hit := h.it_lt_length hindex hne
      have hcurrent := s.set.getElem?_eraseAt hother
      rw [getElem?_eq_getElem hit] at hcurrent
      have hbefore := lowerBound_le_iff (x := value) s.set.sorted (getElem?_eq_getElem hit)
      rw [bind_eq_bind, hcurrent, bind_some]
      -- the first of the equal elements is before the iterator exactly if it is not greater
      have hagree : ((if lowerBound s.set.elements value < s.percentileIt then
            s.percentileIt - 1 else s.percentileIt : Nat) : Int) =
          if value ≤ s.set.elements[s.percentileIt] then s.percentileIndex - 1
          else s.percentileIndex := by
        by_cases hle : lowerBound s.set.elements value ≤ s.percentileIt
        · rw [if_pos (by omega), if_pos (hbefore.mp hle)]
          omega
        · rw [if_neg (by omega), if_neg fun hge => hle (hbefore.mpr hge)]
          omega
      obtain ⟨s', hs', htracks⟩ := of_update hindex hperm fun _ => hagree
      exact ⟨s', by rw [hs']; rfl, htracks⟩

omit hindex

theorem value [Zero T] (hindex : IsIndexRule index) (h : Tracks index present s)
    (hne : present ≠ []) :
    s.getPercentileValue = orderStatistic present (index present.length).toNat := by
  have hlt := h.it_lt_length hindex hne
  have hit : s.percentileIt = (index present.length).toNat := by
    have hat := h.percentileIt hne
    omega
  have hset : s.set.elements ≠ [] := ne_nil_of_length_pos (Nat.zero_lt_of_lt hlt)
  rw [PercentileFilter.getPercentileValue, if_neg hset,
    orderStatistic_of_sorted h.perm s.set.sorted, hit]

theorem step (hindex : IsIndexRule index) (h : Tracks index present s) (call : Call T) :
    ∃ s', MovingMedian.step index s call = some s' ∧
      Tracks index (presentStep present call) s' := by
  cases call with
  | insert value => exact h.insert hindex value
  | erase value =>
    obtain ⟨s', hs', htracks⟩ := h.erase hindex value
    exact ⟨s', by rw [MovingMedian.step, hs', map_some], htracks⟩
  | reset => exact ⟨.new, rfl, .new index⟩

end Tracks

/-! ### The median of the window -/

theorem floatOfSize_le (n : Nat) : floatOfSize n ≤ 2 * n := by
  have hulp : n ≠ 0 → 2 ^ (n.log2 - 23) ≤ n := by
    intro hn
    exact Nat.le_trans (Nat.pow_le_pow_right (by decide) (Nat.sub_le _ _)) (Nat.log2_self_le hn)
  have hle : n / 2 ^ (n.log2 - 23) * 2 ^ (n.log2 - 23) ≤ n := Nat.div_mul_le_self _ _
  by_cases hn : n = 0
  · rw [hn]
    decide
  · unfold floatOfSize
    dsimp only
    rw [Nat.add_mul]
    split <;> omega

theorem isIndexRule_medianIndex : IsIndexRule medianIndex := by
  intro n hn
  have hle := floatOfSize_le (n - 1)
  unfold medianIndex
  omega

/-- The filter holds the window over the values since the last reset. -/
structure Follows (window : Nat) (history : List T) (s : MovingMedianFilter T) : Prop where
  windowSize : s.windowSize = window
  samples : s.samples = latest window history
  samplesStored : s.samplesStored = s.samples.length
  tracks : Tracks medianIndex s.samples s.percentileFilter

namespace Follows

variable {windowSize : Nat} {history : List T} {s : MovingMedianFilter T}

theorem insert (hwindow : 0 < windowSize) (h : Follows windowSize history s) (value : T) :
    ∃ s', s.insert value = some s' ∧ Follows windowSize (history ++ [value]) s' := by
  obtain ⟨filter, hfilter, htracks⟩ := h.tracks.insert isIndexRule_medianIndex value
  have hlength : s.samplesStored = min history.length windowSize := by
    rw [h.samplesStored, h.samples, length_latest]
  have htracks' : Tracks medianIndex (s.samples ++ [value]) filter :=
    htracks.congr (perm_append_singleton value s.samples).symm
  rw [MovingMedianFilter.insert, bind_eq_bind, hfilter, bind_some]
  dsimp only
  rw [h.windowSize]
  split
  case isTrue hfull =>
    -- the oldest sample leaves the window and the filter
    have hle : windowSize ≤ history.length := by omega
    have hne : s.samples ≠ [] := by
      apply ne_nil_of_length_pos
      rw [← h.samplesStored]
      omega
    obtain ⟨front, rest, hsamples⟩ := exists_cons_of_ne_nil hne
    rw [hsamples] at htracks' ⊢
    obtain ⟨filter', hfilter', herased⟩ := htracks'.erase isIndexRule_medianIndex front
    rw [cons_append, erase_cons_head] at herased
    rw [cons_append, head?_cons, bind_eq_bind, bind_some, hfilter']
    refine ⟨_, rfl, rfl, ?_, ?_, herased⟩
    · rw [latest_append_of_le hwindow hle, ← h.samples, hsamples]
      rfl
    · have hstored := h.samplesStored
      rw [hsamples] at hstored
      simpa using hstored
  case isFalse hroom =>
    refine ⟨_, rfl, rfl, ?_, ?_, htracks'⟩
    · rw [latest_append_of_lt (by omega), ← h.samples]
    · dsimp only
      rw [h.samplesStored, length_append, length_singleton]

theorem step (hwindow : 0 < windowSize) (h : Follows windowSize history s) (call : MedianCall T) :
    ∃ s', medianStep s call = some s' ∧ Follows windowSize (historyStep history call) s' := by
  cases call with
  | insert value => exact h.insert hwindow value
  | reset => exact ⟨_, rfl, h.windowSize, (latest_nil _).symm, rfl, .new _⟩

end Follows

/-- The value of a filter that is not empty is the order statistic with the index that the
rule gives, and that of the median filter the one of the window. -/
theorem order_statistic_of_run [Zero T] :
    (∀ index, IsIndexRule index → ∀ calls : List (Call T),
      ∃ s, exec (step index) .new calls = some s ∧
        (present calls ≠ [] → s.getPercentileValue =
          orderStatistic (present calls) (index (present calls).length).toNat)) ∧
    (∀ windowSize, 0 < windowSize → ∀ calls : List (MedianCall T),
      ∃ s, (MovingMedianFilter.new windowSize).bind (exec medianStep · calls) = some s ∧
        (history calls ≠ [] → s.getFilteredValue =
          orderStatistic (latest windowSize (history calls))
            (medianIndex (min (history calls).length windowSize)).toNat)) := by
  constructor
  · intro index hindex calls
    obtain ⟨s, hs, htracks⟩ :=
      exec_follows (R := Tracks index) (fun _ _ call h => h.step hindex call) calls (.new index)
    exact ⟨s, hs, htracks.value hindex⟩
  · intro windowSize hwindow calls
    have hnew : Follows windowSize ([] : List T) ⟨.new, [], 0, windowSize⟩ :=
      ⟨rfl, (latest_nil _).symm, rfl, .new _⟩
    obtain ⟨s, hs, hfollows⟩ :=
      exec_follows (R := Follows windowSize) (fun _ _ call h => h.step hwindow call) calls hnew
    refine ⟨s, ?_, ?_⟩
    · rw [MovingMedianFilter.new, demand_of hwindow, map_some, bind_some, hs]
    · intro hne
      have hsamples : s.samples = latest windowSize (history calls) := hfollows.samples
      have hnonempty : s.samples ≠ [] := by
        apply ne_nil_of_length_pos
        have hpos := length_pos_of_ne_nil hne
        rw [hsamples, length_latest]
        omega
      have hvalue := hfollows.tracks.value isIndexRule_medianIndex hnonempty
      rw [hsamples, length_latest] at hvalue
      exact hvalue

/-- The middle one of three values, one of which is erased and inserted again. -/
theorem order_statistic_of_three :
    ∃ s, exec (step medianIndex) .new
        [.insert 5, .insert 3, .erase 5, .erase 9, .insert 4, .insert 5] = some s ∧
      s.getPercentileValue = some 4 := by
  obtain ⟨s, hs, hvalue⟩ := (order_statistic_of_run (T := Nat)).1 medianIndex
    isIndexRule_medianIndex [.insert 5, .insert 3, .erase 5, .erase 9, .insert 4, .insert 5]
  refine ⟨s, hs, (hvalue (by decide)).trans ?_⟩
  have hperm : [3, 4, 5].Perm
      (present [.insert 5, .insert 3, .erase 5, .erase 9, .insert 4, .insert 5]) := by decide
  rw [orderStatistic_of_sorted hperm (by decide)]
  decide

end WebrtcCore.Ports.MovingMedian
