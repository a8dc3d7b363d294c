import Mathlib.Data.UInt
import WebrtcCore.Verified.OrderedMap
import WebrtcCore.Verified.Simulation

/-!
# The histogram of the percentile counter

Port of `HistogramPercentileCounter`.  Values below the long-tail boundary are counted in
a vector, the others in an ordered map; `size_t` has 64 bits and wraps around.

`Add(other)` walks the vector of the other counter and then a map, but the map is its own
one: its own long tail is counted twice and that of the other counter is dropped.  So the
counts are those of the union of the two multisets only when both long tails happen to
have the counts that make up for it.
-/

namespace WebrtcCore.Ports.PercentileHistogram

open Verified OrderedMap Simulation StrictOrder
open scoped UInt64.CommRing

structure HistogramPercentileCounter where
  longTailBoundary : UInt32
  histogramLow : Vector UInt64 longTailBoundary.toNat
  histogramHigh : List (UInt32 × UInt64)
  totalElements : UInt64
  totalElementsLow : UInt64
deriving DecidableEq, Repr

namespace HistogramPercentileCounter

def new (longTailBoundary : UInt32) : HistogramPercentileCounter where
  longTailBoundary := longTailBoundary
  histogramLow := Vector.replicate _ 0
  histogramHigh := []
  totalElements := 0
  totalElementsLow := 0

def add (c : HistogramPercentileCounter) (value : UInt32) (count : UInt64) :
    HistogramPercentileCounter :=
  if h : value < c.longTailBoundary then
    have hlow : value.toNat < c.longTailBoundary.toNat := UInt32.lt_iff_toNat_lt.mp h
    { c with
      histogramLow := c.histogramLow.set value.toNat (c.histogramLow[value.toNat] + count)
      totalElementsLow := c.totalElementsLow + count
      totalElements := c.totalElements + count }
  else
    { c with
      histogramHigh :=
        assign (fun a b => a < b) value ((c.histogramHigh.lookup value).getD 0 + count)
          c.histogramHigh
      totalElements := c.totalElements + count }

/-- A loop of `Add(value, count)` over pairs. -/
def addEach (c : HistogramPercentileCounter) (pairs : List (UInt32 × UInt64)) :
    HistogramPercentileCounter :=
  pairs.foldl (fun c it => c.add it.1 it.2) c

/-- The values below the boundary with the counts in `histogram_low_`. -/
def lowPairs (c : HistogramPercentileCounter) : List (UInt32 × UInt64) :=
  (List.finRange c.longTailBoundary.toNat).map fun value : Fin _ =>
    (UInt32.ofNat value, c.histogramLow[value])

def addOther (c other : HistogramPercentileCounter) : HistogramPercentileCounter :=
  let c := c.addEach other.lowPairs
  c.addEach c.histogramHigh

/-- The count that is stored for a value. -/
def count (c : HistogramPercentileCounter) (value : UInt32) : UInt64 :=
  if h : value < c.longTailBoundary then
    have hlow : value.toNat < c.longTailBoundary.toNat := UInt32.lt_iff_toNat_lt.mp h
    c.histogramLow[value.toNat]
  else (c.histogramHigh.lookup value).getD 0

end HistogramPercentileCounter

/-! ### Counters that are used together -/

inductive Call (ι : Type) where
  | add (i : ι) (value : UInt32)
  | addCount (i : ι) (value : UInt32) (count : UInt64)
  | addOther (i j : ι)
deriving DecidableEq, Repr

section Run

variable {ι : Type} [DecidableEq ι]

/-- A call changes the counter it is made on. -/
def step (cs : ι → HistogramPercentileCounter) : Call ι → ι → HistogramPercentileCounter
  | .add i value => Function.update cs i ((cs i).add value 1)
  | .addCount i value count => Function.update cs i ((cs i).add value count)
  | .addOther i j => Function.update cs i ((cs i).addOther (cs j))

def run (boundary : ι → UInt32) (calls : List (Call ι)) : ι → HistogramPercentileCounter :=
  calls.foldl step fun i => .new (boundary i)

end Run

/-! ### One value is added -/

namespace HistogramPercentileCounter

variable (c : HistogramPercentileCounter) (value : UInt32) (n : UInt64)

@[simp] theorem longTailBoundary_add : (c.add value n).longTailBoundary = c.longTailBoundary := by
  unfold add
  split
  · rfl
  · rfl

theorem totalElements_add : (c.add value n).totalElements = c.totalElements + n := by
  unfold add
  split
  · rfl
  · rfl

theorem totalElementsLow_add :
    (c.add value n).totalElementsLow =
      c.totalElementsLow + if value < c.longTailBoundary then n else 0 := by
  unfold add
  split
  · rfl
  · exact (add_zero _).symm

theorem histogramHigh_add :
    (c.add value n).histogramHigh = if value < c.longTailBoundary then c.histogramHigh
      else assign (fun a b => a < b) value ((c.histogramHigh.lookup value).getD 0 + n)
        c.histogramHigh := by
  unfold add
  split
  case isTrue h => rfl
  case isFalse h => rfl

theorem count_add (v : UInt32) :
    (c.add value n).count v = c.count v + if v = value then n else 0 := by
  by_cases hvalue : value < c.longTailBoundary
  · rw [add, dif_pos hvalue]
    unfold count
    by_cases hv : v < c.longTailBoundary
    · rw [dif_pos hv, dif_pos hv]
      by_cases heq : v = value
      · simp [heq]
      · have hne : value.toNat ≠ v.toNat := fun h => heq (UInt32.toNat_inj.mp h.symm)
        simp [heq, hne]
    · have hne : v ≠ value := fun heq => hv (heq ▸ hvalue)
      rw [dif_neg hv, dif_neg hv, if_neg hne, add_zero]
  · rw [add, dif_neg hvalue]
    unfold count
    by_cases hv : v < c.longTailBoundary
    · have hne : v ≠ value := fun heq => hvalue (heq ▸ hv)
      rw [dif_pos hv, dif_pos hv, if_neg hne, add_zero]
    · rw [dif_neg hv, dif_neg hv, lookup_assign strictTotal_uint32]
      by_cases heq : v = value
      · simp [heq]
      · simp [heq]

end HistogramPercentileCounter

/-! ### Tables of counts -/

/-- The values below `n` with their counts. -/
def table (n : UInt32) (f : UInt32 → UInt64) : List (UInt32 × UInt64) :=
  (List.range n.toNat).map fun value => (UInt32.ofNat value, f (UInt32.ofNat value))

theorem toNat_ofNat_of_mem {n : UInt32} {value : Nat} (h : value ∈ List.range n.toNat) :
    (UInt32.ofNat value).toNat = value :=
  UInt32.toNat_ofNat_of_lt' (Nat.lt_trans (List.mem_range.mp h) n.toNat_lt)

variable (n : UInt32)

variable (f : UInt32 → UInt64)

theorem table_sorted : Sorted (fun a b => a < b) (table n f) := by
  unfold Sorted table
  rw [List.pairwise_map]
  apply List.Pairwise.imp_of_mem _ List.pairwise_lt_range
  intro a b ha hb hlt
  dsimp only
  rw [UInt32.lt_iff_toNat_lt, toNat_ofNat_of_mem ha, toNat_ofNat_of_mem hb]
  exact hlt

theorem mem_table (it : UInt32 × UInt64) : it ∈ table n f ↔ it.1 < n ∧ it.2 = f it.1 := by
  rw [table, List.mem_map, UInt32.lt_iff_toNat_lt]
  constructor
  · intro h
    obtain ⟨value, hvalue, rfl⟩ := h
    rw [toNat_ofNat_of_mem hvalue]
    exact ⟨List.mem_range.mp hvalue, rfl⟩
  · intro h
    refine ⟨it.1.toNat, List.mem_range.mpr h.1, ?_⟩
    rw [UInt32.ofNat_toNat, ← h.2]

theorem lookup_table (v : UInt32) : ((table n f).lookup v).getD 0 = if v < n then f v else 0 := by
  split
  case isTrue hv =>
    have hmem : (v, f v) ∈ table n f := (mem_table n f _).mpr ⟨hv, rfl⟩
    rw [(table_sorted n f).lookup_of_mem strictTotal_uint32 hmem, Option.getD_some]
  case isFalse hv =>
    cases hfound : (table n f).lookup v with
    | none => rfl
    | some w => exact absurd ((mem_table n f _).mp (mem_of_lookup hfound)).1 hv

theorem sum_table_add (f g : UInt32 → UInt64) :
    sum (table n fun v => f v + g v) = sum (table n f) + sum (table n g) := by
  simp only [sum, table, List.map_map]
  exact List.sum_map_add

theorem sum_table_single (n value : UInt32) (x : UInt64) :
    sum (table n fun v => if v = value then x else 0) = if value < n then x else 0 := by
  have hsingle (m : List (UInt32 × UInt64)) (hm : Sorted (fun a b => a < b) m)
      (hlookup : ∀ v, (m.lookup v).getD 0 = if v < n then if v = value then x else 0 else 0) :
      sum (table n fun v => if v = value then x else 0) = sum m := by
    apply (table_sorted n _).sum_eq strictTotal_uint32 hm
    intro v
    rw [lookup_table, hlookup]
  split
  case isTrue hvalue =>
    rw [hsingle [(value, x)] (List.pairwise_singleton _ _)]
    · simp
    · intro v
      rw [lookup_cons_eq]
      by_cases hv : v = value
      · simp [hv, hvalue]
      · simp [hv]
  case isFalse hvalue =>
    rw [hsingle [] List.Pairwise.nil]
    · simp
    · intro v
      by_cases hv : v = value
      · simp [hv, hvalue]
      · simp [hv]

namespace HistogramPercentileCounter

theorem lowPairs_eq (c : HistogramPercentileCounter) :
    c.lowPairs = table c.longTailBoundary c.count := by
  apply List.ext_getElem
  · simp [lowPairs, table]
  · intro i h₁ h₂
    have hi : i < c.longTailBoundary.toNat := by simpa [table] using h₂
    have htoNat := toNat_ofNat_of_mem (List.mem_range.mpr hi)
    have hlt : UInt32.ofNat i < c.longTailBoundary := by
      rw [UInt32.lt_iff_toNat_lt, htoNat]
      exact hi
    simp only [lowPairs, table, List.getElem_map, List.getElem_finRange, List.getElem_range,
      count, dif_pos hlt, htoNat]
    rfl

/-! ### A loop of additions -/

variable (c : HistogramPercentileCounter)

variable (pairs : List (UInt32 × UInt64))

@[simp] theorem longTailBoundary_addEach :
    (c.addEach pairs).longTailBoundary = c.longTailBoundary := by
  unfold addEach
  induction pairs generalizing c with
  | nil => rfl
  | cons it pairs ih => rw [List.foldl_cons, ih, longTailBoundary_add]

theorem totalElements_addEach : (c.addEach pairs).totalElements = c.totalElements + sum pairs := by
  unfold addEach
  induction pairs generalizing c with
  | nil => exact (add_zero _).symm
  | cons it pairs ih => rw [List.foldl_cons, ih, totalElements_add, sum_cons, add_assoc]

theorem totalElementsLow_addEach :
    (c.addEach pairs).totalElementsLow =
      c.totalElementsLow + sum (pairs.filter fun it => it.1 < c.longTailBoundary) := by
  unfold addEach
  induction pairs generalizing c with
  | nil => exact (add_zero _).symm
  | cons it pairs ih =>
    rw [List.foldl_cons, ih, totalElementsLow_add]
    by_cases hit : it.1 < c.longTailBoundary
    · simp [hit, add_assoc]
    · simp [hit]

theorem count_addEach {pairs : List (UInt32 × UInt64)}
    (hpairs : Sorted (fun a b => a < b) pairs) (v : UInt32) :
    (c.addEach pairs).count v = c.count v + (pairs.lookup v).getD 0 := by
  unfold addEach
  induction pairs generalizing c with
  | nil => exact (add_zero _).symm
  | cons it pairs ih =>
    have hit := List.pairwise_cons.mp hpairs
    rw [List.foldl_cons, ih _ hit.2, count_add, lookup_cons_eq]
    by_cases hv : v = it.1
    · -- the value does not come again
      have hnone : pairs.lookup v = none := by
        apply lookup_eq_none_of_ne
        intro p hp
        rw [hv]
        exact (strictTotal_uint32.ne_of_lt (hit.1 p hp)).symm
      simp [hv ▸ hnone, hv]
    · simp [hv]

/-! ### What holds of every counter -/

/-- The map holds the long tail, and the totals are the sums of the counts. -/
structure Consistent (c : HistogramPercentileCounter) : Prop where
  sorted : Sorted (fun a b => a < b) c.histogramHigh
  tail : ∀ it ∈ c.histogramHigh, ¬ it.1 < c.longTailBoundary
  low : c.totalElementsLow = sum (table c.longTailBoundary c.count)
  total : c.totalElements = c.totalElementsLow + sum c.histogramHigh

theorem consistent_new (longTailBoundary : UInt32) : (new longTailBoundary).Consistent where
  sorted := List.Pairwise.nil
  tail := by simp [new]
  low := by
    have hzero : (new longTailBoundary).count = fun _ => 0 := by
      funext v
      simp [count, new]
    rw [hzero]
    simp [new, sum, table, Function.comp_def]
  total := rfl

variable {c}

theorem Consistent.add (h : c.Consistent) (value : UInt32) (n : UInt64) :
    (c.add value n).Consistent where
  sorted := by
    rw [histogramHigh_add]
    split
    · exact h.sorted
    · exact h.sorted.assign (strictTotal_uint32.strictWeak fun _ _ => Iff.rfl) value _
  tail := by
    rw [histogramHigh_add, longTailBoundary_add]
    split
    case isTrue => exact h.tail
    case isFalse hvalue =>
      intro it hit
      cases mem_assign hit with
      | inl hnew =>
        rw [hnew]
        exact hvalue
      | inr hold => exact h.tail it hold
  low := by
    have hcount : (c.add value n).count = fun v => c.count v + if v = value then n else 0 :=
      funext (c.count_add value n)
    rw [totalElementsLow_add, longTailBoundary_add, hcount, sum_table_add,
      sum_table_single, ← h.low]
  total := by
    rw [totalElements_add, totalElementsLow_add, histogramHigh_add, h.total]
    split
    · exact add_right_comm _ _ _
    · rw [sum_assign strictTotal_uint32 h.sorted, add_zero, add_assoc]

theorem Consistent.addEach (h : c.Consistent) (pairs : List (UInt32 × UInt64)) :
    (c.addEach pairs).Consistent :=
  List.foldlRecOn pairs _ h fun _ hc it _ => hc.add it.1 it.2

theorem Consistent.lookup (h : c.Consistent) (v : UInt32) :
    (c.histogramHigh.lookup v).getD 0 = if v < c.longTailBoundary then 0 else c.count v := by
  split
  case isTrue hv =>
    cases hfound : c.histogramHigh.lookup v with
    | none => rfl
    | some w => exact absurd hv (h.tail _ (mem_of_lookup hfound))
  case isFalse hv => rw [count, dif_neg hv]

/-! ### When merging is the union -/

/-- The counts that make up for the map that is walked instead of the other one. -/
def TailsAgree (c other : HistogramPercentileCounter) : Prop :=
  ∀ v,
    if v < c.longTailBoundary then v < other.longTailBoundary ∨ other.count v = 0
    else if v < other.longTailBoundary then c.count v + other.count v = 0
    else c.count v = other.count v

variable {other : HistogramPercentileCounter}

theorem count_addEach_lowPairs (c other : HistogramPercentileCounter) (v : UInt32) :
    (c.addEach other.lowPairs).count v =
      c.count v + if v < other.longTailBoundary then other.count v else 0 := by
  rw [lowPairs_eq, count_addEach _ (table_sorted _ _), lookup_table]

theorem Consistent.count_addOther (h : c.Consistent) (v : UInt32) :
    (c.addOther other).count v =
      (c.count v + if v < other.longTailBoundary then other.count v else 0) +
        if v < c.longTailBoundary then 0
        else c.count v + if v < other.longTailBoundary then other.count v else 0 := by
  have h₁ := h.addEach other.lowPairs
  rw [addOther, count_addEach _ h₁.sorted, h₁.lookup, count_addEach_lowPairs,
    longTailBoundary_addEach]

theorem Consistent.count_addOther_iff (h : c.Consistent) :
    (∀ v, (c.addOther other).count v = c.count v + other.count v) ↔ c.TailsAgree other := by
  apply forall_congr'
  intro v
  rw [h.count_addOther]
  by_cases hown : v < c.longTailBoundary
  · by_cases hother : v < other.longTailBoundary
    · simp [hother]
    · simp [hown, hother]
  · by_cases hother : v < other.longTailBoundary
    · simp [hother]
    · simp [hown, hother]

theorem Consistent.totalElements_addOther (h : c.Consistent) (hother : other.Consistent)
    (hagree : c.TailsAgree other) :
    (c.addOther other).totalElements = c.totalElements + other.totalElements := by
  have h₁ := h.addEach other.lowPairs
  have htails : sum (c.addEach other.lowPairs).histogramHigh = sum other.histogramHigh := by
    apply h₁.sorted.sum_eq strictTotal_uint32 hother.sorted
    intro v
    have hv := hagree v
    rw [h₁.lookup, hother.lookup, count_addEach_lowPairs]
    by_cases hown : v < c.longTailBoundary
    · by_cases hvo : v < other.longTailBoundary
      · simp [hown, hvo]
      · simp only [hown, hvo, if_true, false_or] at hv
        simp [hown, hv]
    · by_cases hvo : v < other.longTailBoundary
      · simp only [hown, hvo, if_true, if_false] at hv
        simp [hvo, hv]
      · simp only [hown, hvo, if_false] at hv
        simp [hown, hvo, hv]
  rw [addOther, totalElements_addEach, totalElements_addEach, htails, lowPairs_eq, ← hother.low,
    add_assoc, ← hother.total]

theorem Consistent.totalElementsLow_addOther (h : c.Consistent) (hagree : c.TailsAgree other) :
    (c.addOther other).totalElementsLow =
      c.totalElementsLow + sum (table c.longTailBoundary other.count) := by
  have h₁ := h.addEach other.lowPairs
  have htail : (c.addEach other.lowPairs).histogramHigh.filter
      (fun it => it.1 < (c.addEach other.lowPairs).longTailBoundary) = [] := by
    rw [List.filter_eq_nil_iff]
    intro it hit
    rw [decide_eq_true_eq]
    exact h₁.tail it hit
  rw [addOther, totalElementsLow_addEach, htail, totalElementsLow_addEach, sum_nil, add_zero,
    lowPairs_eq]
  apply congrArg
  apply Sorted.sum_eq strictTotal_uint32 (List.Pairwise.filter _ (table_sorted _ _))
    (table_sorted _ _)
  intro v
  have hv := hagree v
  rw [lookup_filter_key (fun value => decide (value < c.longTailBoundary)), lookup_table]
  by_cases hlow : v < c.longTailBoundary
  · simp only [hlow] at hv
    simp only [hlow, decide_true, if_true, lookup_table]
    cases hv with
    | inl hvo => rw [if_pos hvo]
    | inr hzero => rw [hzero, ite_self]
  · simp [hlow]

end HistogramPercentileCounter

section Run

variable {ι : Type}

def AllConsistent (cs : ι → HistogramPercentileCounter) : Prop := ∀ i, (cs i).Consistent

variable [DecidableEq ι]

theorem allConsistent_step {cs : ι → HistogramPercentileCounter} (h : AllConsistent cs)
    (call : Call ι) : AllConsistent (step cs call) := by
  intro i
  have hupdate (j : ι) {c : HistogramPercentileCounter} (hc : c.Consistent) :
      (Function.update cs j c i).Consistent := by
    by_cases hij : i = j
    · rw [hij, Function.update_self]
      exact hc
    · rw [Function.update_of_ne hij]
      exact h i
  cases call with
  | add j value => exact hupdate j ((h j).add value 1)
  | addCount j value count => exact hupdate j ((h j).add value count)
  | addOther j k => exact hupdate j (((h j).addEach _).addEach _)

theorem allConsistent_run (boundary : ι → UInt32) (calls : List (Call ι)) :
    AllConsistent (run boundary calls) := by
  have hnew : AllConsistent fun i => HistogramPercentileCounter.new (boundary i) :=
    fun i => HistogramPercentileCounter.consistent_new (boundary i)
  apply foldl_keeps _ calls hnew
  exact fun cs call h => allConsistent_step h call

/-- **Merging two counters.**  After `a.Add(b)`, for two counters that were reached by any
calls, the counts and totals are those of the union exactly when the long tails have the
counts that make up for the map that the second loop walks. -/
theorem addOther_is_union_iff (boundary : ι → UInt32) (calls : List (Call ι)) (i j : ι)
    (hij : i ≠ j) :
    let a := run boundary calls i
    let b := run boundary calls j
    let after := step (run boundary calls) (.addOther i j)
    ((∀ v, (after i).count v = a.count v + b.count v) ∧
        (after i).totalElements = a.totalElements + b.totalElements ∧
        (after i).totalElementsLow = a.totalElementsLow +
          ((List.range a.longTailBoundary.toNat).map fun v => b.count (UInt32.ofNat v)).sum ∧
        after j = b) ↔
      ∀ v, if v < a.longTailBoundary then v < b.longTailBoundary ∨ b.count v = 0
        else if v < b.longTailBoundary then a.count v + b.count v = 0
        else a.count v = b.count v := by
  intro a b after
  have ha : a.Consistent := allConsistent_run boundary calls i
  have hb : b.Consistent := allConsistent_run boundary calls j
  have hi : after i = a.addOther b := Function.update_self ..
  have hj : after j = b := Function.update_of_ne hij.symm ..
  have hlow : ((List.range a.longTailBoundary.toNat).map fun v =>
      b.count (UInt32.ofNat v)).sum = sum (table a.longTailBoundary b.count) := by
    simp [sum, table, Function.comp_def]
  rw [hi, hj, hlow]
  constructor
  · intro h
    exact ha.count_addOther_iff.mp h.1
  · intro hagree
    exact ⟨ha.count_addOther_iff.mpr hagree, ha.totalElements_addOther hb hagree,
      ha.totalElementsLow_addOther hagree, rfl⟩

/-- Two counters without a long tail. -/
theorem addOther_is_union_low :
    let before := run (fun _ : Bool => 3) [.add true 1, .addCount false 1 2, .add false 2]
    ∀ v, (step before (.addOther true false) true).count v =
      (before true).count v + (before false).count v := by
  refine ((addOther_is_union_iff (fun _ : Bool => 3)
    [.add true 1, .addCount false 1 2, .add false 2] true false (by decide)).mpr ?_).1
  intro v
  have htrue : (run (fun _ : Bool => 3) [.add true 1, .addCount false 1 2, .add false 2]
      true).histogramHigh = [] := by decide +kernel
  have hfalse : (run (fun _ : Bool => 3) [.add true 1, .addCount false 1 2, .add false 2]
      false).histogramHigh = [] := by decide +kernel
  split
  case isTrue hv => exact .inl hv
  case isFalse hv =>
    have hsame : ¬ v < (run (fun _ : Bool => 3) [.add true 1, .addCount false 1 2, .add false 2]
      false).longTailBoundary := hv
    rw [if_neg hsame, HistogramPercentileCounter.count, HistogramPercentileCounter.count,
      dif_neg hv, dif_neg hsame, htrue, hfalse]

/-- The value `10` of the second counter is lost and that of the first one doubled. -/
theorem addOther_drops_tail :
    let before := run (fun _ : Bool => 3) [.addCount true 10 5, .addCount false 10 7]
    (step before (.addOther true false) true).count 10 = 10 ∧
      (before true).count 10 + (before false).count 10 = 12 := by
  decide +kernel

end Run

end WebrtcCore.Ports.PercentileHistogram
