import Mathlib.Order.Nat
import WebrtcCore.Ports.PercentileHistogram
import WebrtcCore.Verified.FloatArithmetic
import WebrtcCore.Verified.OrderStatistic

/-!
# The percentiles of the histogram

Port of `HistogramPercentileCounter::GetPercentile`.  The number of elements to skip is
computed from the fraction in `float`, with the arithmetic as a parameter, and limited to
the elements that there are; then one of two loops skips the counts.

The loops index into the sorted list of the values, as long as `size_t` can count these.
The `RTC_NOTREACHED` behind them is not reached in any case, because the totals are the sums
of the counts modulo `2 ^ 64` and so not greater than the sums (`valueAt_found`).
-/

namespace WebrtcCore.Ports.PercentileHistogram

open Verified OrderedMap OrderStatistic StrictOrder
open scoped UInt64.CommRing

/-- What keeps `GetPercentile` from returning. -/
inductive Failure where
  /-- An `RTC_CHECK` of the fraction. -/
  | check
  /-- A conversion to `size_t` out of its range, which is undefined. -/
  | conversion
  /-- `RTC_NOTREACHED`. -/
  | notReached
deriving DecidableEq, Repr

/-- A loop over counts: the value at which fewer elements than its count are left to skip. -/
def walk : List (UInt32 × UInt64) → UInt64 → Option UInt32
  | [], _ => none
  | it :: rest, elementsToSkip =>
    if elementsToSkip < it.2 then some it.1 else walk rest (elementsToSkip - it.2)

namespace HistogramPercentileCounter

/-- The value after `elementsToSkip` others; none if a loop comes to its end. -/
def valueAt (c : HistogramPercentileCounter) (elementsToSkip : UInt64) : Option UInt32 :=
  if elementsToSkip < c.totalElementsLow then walk c.lowPairs elementsToSkip
  else walk c.histogramHigh (elementsToSkip - c.totalElementsLow)

section

variable {F : Type} (arith : FloatArithmetic F) (ceil : F → F)

/-- The elements to skip, before the conversion to `size_t`. -/
def skip (c : HistogramPercentileCounter) (fraction : F) : Int :=
  let product := arith.mul (arith.ofInt c.totalElements.toNat) fraction
  let last := arith.sub (ceil product) (arith.ofInt 1)
  arith.trunc (if arith.lt (arith.ofRat 0) last then last else arith.ofRat 0)

/-- The elements to skip, limited to those that there are. -/
def rank (c : HistogramPercentileCounter) (fraction : F) : Except Failure UInt64 :=
  if 0 ≤ c.skip arith ceil fraction ∧ c.skip arith ceil fraction < 2 ^ 64 then
    let elementsToSkip := UInt64.ofNat (c.skip arith ceil fraction).toNat
    .ok (if c.totalElements ≤ elementsToSkip then c.totalElements - 1 else elementsToSkip)
  else .error .conversion

def getPercentile (c : HistogramPercentileCounter) (fraction : F) :
    Except Failure (Option UInt32) := do
  if ¬ (arith.le fraction (arith.ofRat 1) = true ∧ arith.le (arith.ofRat 0) fraction = true) then
    .error .check
  else if c.totalElements = 0 then .ok none
  else
    let elementsToSkip ← c.rank arith ceil fraction
    (c.valueAt elementsToSkip).elim (.error .notReached) fun value => .ok (some value)

end

end HistogramPercentileCounter

/-! ### The values behind the counts -/

/-- The values, each as often as its count says. -/
def values (m : List (UInt32 × UInt64)) : List UInt32 := expand (m.map fun it => (it.1, it.2.toNat))

theorem values_append (m m' : List (UInt32 × UInt64)) :
    values (m ++ m') = values m ++ values m' := by
  rw [values, List.map_append, expand, List.flatMap_append]
  rfl

theorem values_cons (it : UInt32 × UInt64) (m : List (UInt32 × UInt64)) :
    values (it :: m) = List.replicate it.2.toNat it.1 ++ values m := rfl

variable (m : List (UInt32 × UInt64))

theorem toNat_sum : (OrderedMap.sum m).toNat = (values m).length % 2 ^ 64 := by
  induction m with
  | nil => rfl
  | cons it m ih =>
    rw [sum_cons, UInt64.toNat_add, values_cons, List.length_append, List.length_replicate]
    omega

theorem walk_eq (k : UInt64) : walk m k = (values m)[k.toNat]? := by
  rw [values, ← select_eq_getElem?]
  induction m generalizing k with
  | nil => rfl
  | cons it m ih =>
    rw [walk, List.map_cons, select]
    by_cases h : k < it.2
    · rw [if_pos h, if_pos (UInt64.lt_iff_toNat_lt.mp h)]
    · have hle : it.2 ≤ k := UInt64.not_lt.mp h
      rw [if_neg h, if_neg fun hlt => h (UInt64.lt_iff_toNat_lt.mpr hlt), ih,
        UInt64.toNat_sub_of_le _ _ hle]

theorem count_values (v : UInt32) :
    (values m).count v = (values (m.filter fun it => it.1 = v)).length := by
  rw [values, count_expand, List.filter_map]
  rfl

theorem count_values_of_sorted {m : List (UInt32 × UInt64)}
    (hm : Sorted (fun a b => a < b) m) (v : UInt32) :
    (values m).count v = ((m.lookup v).getD 0).toNat := by
  induction m with
  | nil => rfl
  | cons it m ih =>
    have hit := List.pairwise_cons.mp hm
    rw [values_cons, List.count_append, List.count_replicate, ih hit.2, lookup_cons_eq]
    by_cases hv : v = it.1
    · have hnone : m.lookup v = none := by
        apply lookup_eq_none_of_ne
        intro p hp
        rw [hv]
        exact (strictTotal_uint32.ne_of_lt (hit.1 p hp)).symm
      simp [hv, hv ▸ hnone]
    · have hne : (it.1 == v) = false := by simpa using fun h => hv h.symm
      simp [hv, hne]

namespace HistogramPercentileCounter

variable {c : HistogramPercentileCounter}

/-- All counts, in the order of the values. -/
def pairs (c : HistogramPercentileCounter) : List (UInt32 × UInt64) := c.lowPairs ++ c.histogramHigh

theorem Consistent.count_values_pairs (h : c.Consistent) (v : UInt32) :
    (values c.pairs).count v = (c.count v).toNat := by
  rw [pairs, values_append, List.count_append, lowPairs_eq,
    count_values_of_sorted (table_sorted _ _), count_values_of_sorted h.sorted, lookup_table,
    h.lookup]
  split <;> simp

theorem Consistent.sorted_pairs (h : c.Consistent) :
    c.pairs.Pairwise fun a b => a.1.toNat < b.1.toNat := by
  rw [pairs, lowPairs_eq, List.pairwise_append]
  refine ⟨(table_sorted _ _).imp UInt32.lt_iff_toNat_lt.mp,
    h.sorted.imp UInt32.lt_iff_toNat_lt.mp, ?_⟩
  intro a ha b hb
  have hlow := UInt32.lt_iff_toNat_lt.mp ((mem_table _ _ a).mp ha).1
  have hhigh := h.tail b hb
  rw [UInt32.lt_iff_toNat_lt] at hhigh
  omega

theorem Consistent.sorted_values (h : c.Consistent) :
    ((values c.pairs).map UInt32.toNat).Pairwise (· ≤ ·) := by
  rw [values, map_expand, List.map_map]
  apply sorted_expand
  rw [List.pairwise_map]
  exact h.sorted_pairs

theorem count_addEach_filter (c : HistogramPercentileCounter)
    (adds : List (UInt32 × UInt64)) (v : UInt32) :
    (c.addEach adds).count v = c.count v + OrderedMap.sum (adds.filter fun it => it.1 = v) := by
  unfold addEach
  induction adds generalizing c with
  | nil => exact (add_zero _).symm
  | cons it adds ih =>
    rw [List.foldl_cons, ih, count_add]
    by_cases hv : it.1 = v
    · simp [hv, add_assoc]
    · simp [hv, Ne.symm hv]

theorem values_addEach_perm (boundary : UInt32) {adds : List (UInt32 × UInt64)}
    (hadds : (values adds).length < 2 ^ 64) :
    (values ((new boundary).addEach adds).pairs).Perm (values adds) := by
  have hconsistent := (consistent_new boundary).addEach adds
  rw [List.perm_iff_count]
  intro v
  have hle : (values adds).count v ≤ (values adds).length := List.count_le_length
  have hzero : (new boundary).count v = 0 := by simp [count, new]
  rw [hconsistent.count_values_pairs, count_addEach_filter, hzero, zero_add, toNat_sum,
    ← count_values, Nat.mod_eq_of_lt (by omega)]

/-! ### The loops -/

theorem Consistent.toNat_totalElementsLow (h : c.Consistent) :
    c.totalElementsLow.toNat = (values c.lowPairs).length % 2 ^ 64 := by
  rw [h.low, ← lowPairs_eq, toNat_sum]

theorem Consistent.toNat_totalElements (h : c.Consistent) :
    c.totalElements.toNat =
      (c.totalElementsLow.toNat + (values c.histogramHigh).length) % 2 ^ 64 := by
  rw [h.total, UInt64.toNat_add, toNat_sum]
  omega

theorem Consistent.valueAt_found (h : c.Consistent) {k : UInt64} (hk : k < c.totalElements) :
    ∃ v, c.valueAt k = some v := by
  have hlow := h.toNat_totalElementsLow
  have htotal := h.toNat_totalElements
  have hlt := UInt64.lt_iff_toNat_lt.mp hk
  unfold valueAt
  split
  case isTrue hfront =>
    have hlt' := UInt64.lt_iff_toNat_lt.mp hfront
    rw [walk_eq]
    exact ⟨_, List.getElem?_eq_getElem (by omega)⟩
  case isFalse htail =>
    have hle : c.totalElementsLow ≤ k := UInt64.not_lt.mp htail
    have hle' := UInt64.le_iff_toNat_le.mp hle
    rw [walk_eq, UInt64.toNat_sub_of_le _ _ hle]
    exact ⟨_, List.getElem?_eq_getElem (by omega)⟩

theorem Consistent.valueAt_eq (h : c.Consistent) (hsize : (values c.pairs).length < 2 ^ 64)
    (k : UInt64) : c.valueAt k = (values c.pairs)[k.toNat]? := by
  have hlow := h.toNat_totalElementsLow
  rw [pairs, values_append, List.length_append] at hsize
  rw [Nat.mod_eq_of_lt (by omega)] at hlow
  rw [pairs, values_append]
  unfold valueAt
  split
  case isTrue hfront =>
    have hlt := UInt64.lt_iff_toNat_lt.mp hfront
    rw [walk_eq, List.getElem?_append_left (by omega)]
  case isFalse htail =>
    have hle : c.totalElementsLow ≤ k := UInt64.not_lt.mp htail
    have hle' := UInt64.le_iff_toNat_le.mp hle
    rw [walk_eq, UInt64.toNat_sub_of_le _ _ hle, List.getElem?_append_right (by omega), hlow]

/-! ### The percentile -/

variable {F : Type} {arith : FloatArithmetic F} {ceil : F → F} {fraction : F}

theorem rank_lt (htotal : c.totalElements ≠ 0) {k : UInt64}
    (hk : c.rank arith ceil fraction = .ok k) : k < c.totalElements := by
  have hpos : c.totalElements.toNat ≠ 0 := fun h => htotal (UInt64.toNat_inj.mp h)
  unfold rank at hk
  split at hk
  case isFalse => cases hk
  case isTrue =>
    rw [← Except.ok.inj hk, UInt64.lt_iff_toNat_lt]
    split
    case isTrue hle =>
      have hone : (1 : UInt64) ≤ c.totalElements := by
        rw [UInt64.le_iff_toNat_le, UInt64.toNat_one]
        omega
      rw [UInt64.toNat_sub_of_le _ _ hone, UInt64.toNat_one]
      omega
    case isFalse hlt => exact UInt64.lt_iff_toNat_lt.mp (UInt64.not_le.mp hlt)

theorem rank_ne_notReached : c.rank arith ceil fraction ≠ .error .notReached := by
  unfold rank
  split
  · simp
  · simp

theorem getPercentile_of_rank (hle : arith.le fraction (arith.ofRat 1) = true)
    (hge : arith.le (arith.ofRat 0) fraction = true) (htotal : c.totalElements ≠ 0) {k : UInt64}
    (hk : c.rank arith ceil fraction = .ok k) {v : UInt32} (hv : c.valueAt k = some v) :
    c.getPercentile arith ceil fraction = .ok (some v) := by
  rw [getPercentile, if_neg (not_not.mpr ⟨hle, hge⟩), if_neg htotal, hk]
  show (c.valueAt k).elim _ _ = _
  rw [hv]
  rfl

theorem Consistent.getPercentile_ne_notReached (h : c.Consistent) :
    c.getPercentile arith ceil fraction ≠ .error .notReached := by
  by_cases hcheck : arith.le fraction (arith.ofRat 1) = true ∧
      arith.le (arith.ofRat 0) fraction = true
  · by_cases htotal : c.totalElements = 0
    · rw [getPercentile, if_neg (not_not.mpr hcheck), if_pos htotal]
      simp
    · cases hrank : c.rank arith ceil fraction with
      | error e =>
        rw [getPercentile, if_neg (not_not.mpr hcheck), if_neg htotal, hrank]
        intro heq
        rw [Except.error.inj heq] at hrank
        exact rank_ne_notReached hrank
      | ok k =>
        obtain ⟨v, hv⟩ := h.valueAt_found (rank_lt htotal hrank)
        rw [getPercentile_of_rank hcheck.1 hcheck.2 htotal hrank hv]
        simp
  · rw [getPercentile, if_pos hcheck]
    simp

end HistogramPercentileCounter

open HistogramPercentileCounter

/-- **The percentile.**  `RTC_NOTREACHED` is not reached, and if fewer than `2 ^ 64` values
were added, the result is the order statistic with the rank that is computed. -/
theorem getPercentile_is_order_statistic (boundary : UInt32) (adds : List (UInt32 × UInt64))
    {F : Type} (arith : FloatArithmetic F) (ceil : F → F) (fraction : F) :
    ((new boundary).addEach adds).getPercentile arith ceil fraction ≠ .error .notReached ∧
      ((values adds).length < 2 ^ 64 → 0 < (values adds).length →
        arith.le fraction (arith.ofRat 1) = true → arith.le (arith.ofRat 0) fraction = true →
        ∀ k, ((new boundary).addEach adds).rank arith ceil fraction = .ok k →
          k.toNat < (values adds).length ∧
          ∃ v, ((new boundary).addEach adds).getPercentile arith ceil fraction = .ok (some v) ∧
            orderStatistic ((values adds).map UInt32.toNat) k.toNat = some v.toNat) := by
  have hconsistent := (consistent_new boundary).addEach adds
  refine ⟨hconsistent.getPercentile_ne_notReached, ?_⟩
  intro hadds hpos hle hge k hk
  have hperm := values_addEach_perm boundary hadds
  have hlength := hperm.length_eq
  have htotal : ((new boundary).addEach adds).totalElements.toNat = (values adds).length := by
    have hzero : (new boundary).totalElements = 0 := rfl
    rw [totalElements_addEach, hzero, zero_add, toNat_sum, Nat.mod_eq_of_lt hadds]
  have hne : ((new boundary).addEach adds).totalElements ≠ 0 := by
    intro heq
    rw [heq, UInt64.toNat_zero] at htotal
    omega
  have hlt := rank_lt hne hk
  obtain ⟨v, hv⟩ := hconsistent.valueAt_found hlt
  rw [UInt64.lt_iff_toNat_lt, htotal] at hlt
  refine ⟨hlt, v, getPercentile_of_rank hle hge hne hk hv, ?_⟩
  rw [hconsistent.valueAt_eq (by omega)] at hv
  rw [orderStatistic_of_sorted (hperm.map _) hconsistent.sorted_values, List.getElem?_map, hv,
    Option.map_some]

/-- The median of three values. -/
theorem getPercentile_of_three :
    ((new 10).addEach [(3, 2), (20, 1)]).rank .rational (fun x => x.ceil) (1 / 2) = .ok 1 ∧
      ∃ v, ((new 10).addEach [(3, 2), (20, 1)]).getPercentile .rational (fun x => x.ceil)
          (1 / 2) = .ok (some v) ∧
        orderStatistic ((values [(3, 2), (20, 1)]).map UInt32.toNat) 1 = some v.toNat := by
  have hrank : ((new 10).addEach [(3, 2), (20, 1)]).rank .rational (fun x => x.ceil) (1 / 2) =
      .ok 1 := by decide +kernel
  have h := (getPercentile_is_order_statistic 10 [(3, 2), (20, 1)] .rational
    (fun x => x.ceil) (1 / 2)).2 (by decide +kernel) (by decide +kernel) (by decide +kernel)
    (by decide +kernel) 1 hrank
  exact ⟨hrank, h.2⟩

/-- The count of the value 1 wraps around to zero, and the least of the values that were
added is not found. -/
theorem getPercentile_of_wrapped_counts :
    ((new 3).addEach [(1, 2 ^ 63), (1, 2 ^ 63), (2, 1)]).rank .rational (fun x => x.ceil) 1 =
        .ok 0 ∧
      ((new 3).addEach [(1, 2 ^ 63), (1, 2 ^ 63), (2, 1)]).getPercentile .rational
        (fun x => x.ceil) 1 = .ok (some 2) ∧
      orderStatistic ((values [(1, 2 ^ 63), (1, 2 ^ 63), (2, 1)]).map UInt32.toNat) 0 ≠ some 2 := by
  refine ⟨by decide +kernel, by decide +kernel, ?_⟩
  intro h
  have hmem : 1 ∈ (values [(1, 2 ^ 63), (1, 2 ^ 63), (2, 1)]).map UInt32.toNat := by
    rw [List.mem_map]
    refine ⟨1, ?_, rfl⟩
    rw [values_cons, List.mem_append]
    exact .inl (List.mem_replicate.mpr ⟨by decide +kernel, rfl⟩)
  exact absurd (orderStatistic_zero_le h hmem) (by decide)

end WebrtcCore.Ports.PercentileHistogram
