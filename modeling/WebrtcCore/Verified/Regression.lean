import Mathlib.Algebra.BigOperators.Ring.List
import Mathlib.Algebra.Order.BigOperators.Group.List
import Mathlib.Algebra.Order.Field.Basic
import Mathlib.Tactic.Linarith
import Mathlib.Tactic.Ring

/-!
# Linear regression over a list of samples

The slope of the least squares line is the covariance over the variance.  For samples that
decrease in both coordinates it is positive: the deviations of the first coordinate change
their sign where the second coordinate crosses some value, and the covariance may be
computed with deviations from that value.
-/

namespace WebrtcCore.Verified.Regression

open List

variable {K : Type} [Field K] [LinearOrder K] [IsStrictOrderedRing K]

def mean (xs : List K) : K := xs.sum / xs.length

/-- The sum of the squared deviations. -/
def variance (xs : List K) : K := (xs.map fun x => (x - mean xs) * (x - mean xs)).sum

/-- The sum of the products of the deviations. -/
def covariance (samples : List (K × K)) : K :=
  (samples.map fun p =>
    (p.1 - mean (samples.map Prod.fst)) * (p.2 - mean (samples.map Prod.snd))).sum

/-! ## Deviations -/

omit [LinearOrder K] [IsStrictOrderedRing K] in
theorem sum_map_sub_const (c : K) (xs : List K) :
    (xs.map fun x => x - c).sum = xs.sum - xs.length * c := by
  induction xs with
  | nil => simp
  | cons x xs ih =>
    rw [map_cons, sum_cons, sum_cons, ih, length_cons, Nat.cast_succ]
    ring

theorem sum_deviations {xs : List K} (h : xs ≠ []) : (xs.map fun x => x - mean xs).sum = 0 := by
  have hlength : (xs.length : K) ≠ 0 := Nat.cast_ne_zero.2 (Nat.ne_of_gt (length_pos_iff.2 h))
  rw [sum_map_sub_const, mean, mul_div_cancel₀ _ hlength, sub_self]

theorem exists_lt_mean {xs : List K} {x y : K} (hx : x ∈ xs) (hy : y ∈ xs) (hxy : x ≠ y) :
    ∃ z ∈ xs, z < mean xs := by
  by_contra hnone
  have hge : ∀ z ∈ xs, 0 ≤ z - mean xs := by
    intro z hz
    by_contra hlt
    exact hnone ⟨z, hz, by linarith⟩
  have hzero : ∀ z ∈ xs, z = mean xs := by
    intro z hz
    have hle : z - mean xs ≤ (xs.map fun x => x - mean xs).sum :=
      single_le_sum (by simpa using hge) _ (mem_map_of_mem hz)
    rw [sum_deviations (ne_nil_of_mem hz)] at hle
    linarith [hge z hz]
  exact hxy ((hzero x hx).trans (hzero y hy).symm)

/-! ## Variance -/

theorem half_le_variance {x y : K} {rest : List K} (h : y + 1 ≤ x) :
    1 / 2 ≤ variance (x :: y :: rest) := by
  generalize hmean : mean (x :: y :: rest) = m
  have hrest : 0 ≤ (rest.map fun x => (x - m) * (x - m)).sum := by
    apply sum_nonneg
    intro z hz
    obtain ⟨w, _, rfl⟩ := mem_map.1 hz
    exact mul_self_nonneg _
  have hsum : variance (x :: y :: rest) =
      (x - m) * (x - m) + ((y - m) * (y - m) + (rest.map fun x => (x - m) * (x - m)).sum) := by
    rw [variance, hmean]
    simp
  have hgap : 1 ≤ (x - y) * (x - y) := by nlinarith
  have hsquare := mul_self_nonneg (x + y - 2 * m)
  linarith

/-! ## Covariance -/

omit [LinearOrder K] [IsStrictOrderedRing K] in
theorem sum_mul_sub_const {m : K} (c d : K) {samples : List (K × K)}
    (h : (samples.map fun p => p.1 - m).sum = 0) :
    (samples.map fun p => (p.1 - m) * (p.2 - c)).sum =
      (samples.map fun p => (p.1 - m) * (p.2 - d)).sum := by
  have hshift : ∀ ps : List (K × K), (ps.map fun p => (p.1 - m) * (p.2 - c)).sum =
      (ps.map fun p => (p.1 - m) * (p.2 - d)).sum + (d - c) * (ps.map fun p => p.1 - m).sum := by
    intro ps
    induction ps with
    | nil => simp
    | cons p ps ih =>
      simp only [map_cons, sum_cons, ih]
      ring
  rw [hshift, h, mul_zero, add_zero]

theorem exists_crossing (m : K) {samples : List (K × K)}
    (h : samples.Pairwise fun p q => q.1 < p.1 ∧ q.2 < p.2) :
    ∃ c, ∀ p ∈ samples, (m ≤ p.1 → c ≤ p.2) ∧ (p.1 < m → p.2 < c) := by
  induction samples with
  | nil => exact ⟨0, by simp⟩
  | cons p rest ih =>
    obtain ⟨hp, hrest⟩ := pairwise_cons.1 h
    obtain ⟨c, hc⟩ := ih hrest
    rcases lt_or_ge p.1 m with hlow | hhigh
    · refine ⟨p.2 + 1, ?_⟩
      intro q hq
      rcases mem_cons.1 hq with rfl | hq
      · exact ⟨fun hge => absurd hge (not_le.2 hlow), fun _ => lt_add_one _⟩
      · have hbelow := hp q hq
        exact ⟨fun hge => absurd hge (not_le.2 (hbelow.1.trans hlow)),
          fun _ => hbelow.2.trans (lt_add_one _)⟩
    · refine ⟨min c p.2, ?_⟩
      intro q hq
      rcases mem_cons.1 hq with rfl | hq
      · exact ⟨fun _ => min_le_right _ _, fun hlt => absurd hlt (not_lt.2 hhigh)⟩
      · exact ⟨fun hge => (min_le_left _ _).trans ((hc q hq).1 hge),
          fun hlt => lt_min ((hc q hq).2 hlt) (hp q hq).2⟩

theorem covariance_pos {samples : List (K × K)} (hlength : 2 ≤ samples.length)
    (h : samples.Pairwise fun p q => q.1 < p.1 ∧ q.2 < p.2) : 0 < covariance samples := by
  obtain ⟨p, hp, q, hq, hlt⟩ : ∃ p ∈ samples, ∃ q ∈ samples, q.1 < p.1 := by
    match samples, hlength with
    | p :: q :: rest, _ =>
      have hlt := (pairwise_cons.1 h).1 q mem_cons_self
      exact ⟨p, mem_cons_self, q, mem_cons_of_mem _ mem_cons_self, hlt.1⟩
  generalize hm : mean (samples.map Prod.fst) = m
  obtain ⟨c, hc⟩ := exists_crossing m h
  have hdeviations : (samples.map fun p => p.1 - m).sum = 0 := by
    have hsum := sum_deviations (ne_nil_of_mem (mem_map_of_mem (f := Prod.fst) hp))
    rwa [hm, map_map] at hsum
  have hterm : ∀ r ∈ samples, 0 ≤ (r.1 - m) * (r.2 - c) := by
    intro r hr
    rcases lt_or_ge r.1 m with hlow | hhigh
    · have hbelow := (hc r hr).2 hlow
      exact mul_nonneg_of_nonpos_of_nonpos (by linarith) (by linarith)
    · have habove := (hc r hr).1 hhigh
      exact mul_nonneg (by linarith) (by linarith)
  obtain ⟨z, hz, hzm⟩ := exists_lt_mean (mem_map_of_mem (f := Prod.fst) hp)
    (mem_map_of_mem (f := Prod.fst) hq) hlt.ne'
  obtain ⟨r, hr, rfl⟩ := mem_map.1 hz
  rw [hm] at hzm
  have hpos : 0 < (r.1 - m) * (r.2 - c) :=
    mul_pos_of_neg_of_neg (by linarith) (by linarith [(hc r hr).2 hzm])
  rw [covariance, hm, sum_mul_sub_const _ c hdeviations]
  apply hpos.trans_le
  apply single_le_sum _ _ (mem_map.2 ⟨r, hr, rfl⟩)
  intro z hz
  obtain ⟨t, ht, rfl⟩ := mem_map.1 hz
  exact hterm t ht

end WebrtcCore.Verified.Regression
