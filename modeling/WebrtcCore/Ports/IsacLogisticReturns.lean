import WebrtcCore.Ports.IsacLogisticLossless

/-!
# When the iSAC logistic decoder returns

The search of `WebRtcIsac_DecLogisticMulti2` has two ways out: a bound that passes `streamval`,
and two neighbouring candidates with the same bound.  With an envelope of at least five the cdf is
flat at the last candidates before the 16-bit wrap, so that the second one is always there.  With
an envelope from one to four the cdf rises from every candidate to the next; a `streamval` that is
not between the lowest and the highest bound then keeps the search on its way around the 16-bit
circle.

## Main results

* `candidates_stuck`, `piecewise_lt` — where the cdf is flat, and that it rises elsewhere.
* `logisticSearch_returns`, `logisticSearch_eq_none` — one search.
* `decLogisticMulti2_returns_iff` — a whole call.
-/

namespace WebrtcCore.Ports.Isac

open Verified.Walk Option BitVec

/-! ## Where the cdf is flat -/

theorem candidates_flat : ∀ e < 6, ∀ k : Nat, k < 128 →
    piecewise ((k + 32384) * ((e + 5 : Nat) : Int)) =
        piecewise ((k + 32384 + 128) * ((e + 5 : Nat) : Int)) ∨
      piecewise ((k + 32384 + 128) * ((e + 5 : Nat) : Int)) =
        piecewise ((k + 32384 + 256) * ((e + 5 : Nat) : Int)) := by
  decide +kernel

theorem candidates_stuck {c : Int} {e : Nat} (he : 5 ≤ e) (hlo : 32384 ≤ c) (hhi : c ≤ 32511) :
    piecewise (c * e) = piecewise ((c + 128) * e) ∨
      piecewise ((c + 128) * e) = piecewise ((c + 256) * e) := by
  by_cases hwide : 11 ≤ e
  · have hfirst : 32384 * 11 ≤ c * e := Int.mul_le_mul hlo (by omega) (by omega) (by omega)
    have hsecond : 32384 * 11 ≤ (c + 128) * e :=
      Int.mul_le_mul (by omega) (by omega) (by omega) (by omega)
    refine .inl (piecewise_congr ?_)
    rw [clampQ15_eq, clampQ15_eq]
    omega
  · obtain ⟨n, rfl⟩ : ∃ n, e = n + 5 := ⟨e - 5, by omega⟩
    obtain ⟨k, rfl⟩ : ∃ k : Nat, c = k + 32384 := ⟨(c - 32384).toNat, by omega⟩
    exact candidates_flat n (by omega) k (by omega)

/-! ## Where the cdf rises -/

theorem edges_eq : ∀ i ≤ 50, kHistEdgesQ15.getD i 0 = (i : Int) * 65536 / 5 - 327680 := by decide

theorem segments_rise : ∀ e : Nat, e < 5 → 1 ≤ e → ∀ i : Nat, i < 50 →
    (327680 - 32768 * (e : Int)) * 5 < (i + 1) * 65536 →
      (i : Int) * 65536 ≤ (327680 + 32767 * e) * 5 → 32768 ≤ kCdfSlopeQ0.getD i 0 * (128 * e) := by
  decide

theorem edges_rise : ∀ e : Nat, e < 5 → 1 ≤ e → ∀ i : Nat, i < 50 →
    (327680 - 32768 * (e : Int)) * 5 < (i + 1) * 65536 →
      (i + 1 : Int) * 65536 ≤ (327680 + 32767 * e) * 5 →
        ∀ slope ∈ [kCdfSlopeQ0.getD i 0, kCdfSlopeQ0.getD (i + 1) 0],
          kCdfQ16.getD i 0 * 32768 + 32768 + kCdfSlopeQ0.getD i 0 *
              (kHistEdgesQ15.getD (i + 1) 0 - kHistEdgesQ15.getD i 0) ≤
            kCdfQ16.getD (i + 1) 0 * 32768 + slope * (128 * e) := by
  decide

theorem rise_over_edge {slope slope' x edge y : Int} (hx : x ≤ edge) (hy : edge ≤ y) :
    ∃ flatter ∈ [slope, slope'], flatter * (y - x) ≤ slope * (edge - x) + slope' * (y - edge) := by
  have hsplit : ∀ s : Int, s * (y - x) = s * (edge - x) + s * (y - edge) := by
    intro s
    rw [← Int.mul_add]
    congr 1
    omega
  rcases Int.le_total slope slope' with h | h
  · refine ⟨slope, by simp, ?_⟩
    rw [hsplit]
    exact Int.add_le_add_left (Int.mul_le_mul_of_nonneg_right h (by omega)) _
  · refine ⟨slope', by simp, ?_⟩
    rw [hsplit]
    exact Int.add_le_add_right (Int.mul_le_mul_of_nonneg_right h (by omega)) _

theorem piecewise_lt {x : Int} {e : Nat} (he : 1 ≤ e) (hnarrow : e ≤ 4) (hlo : -32768 * e ≤ x)
    (hhi : x + 128 * e ≤ 32767 * e) : piecewise x < piecewise (x + 128 * e) := by
  obtain ⟨hfrom, hto⟩ := (segment_eq_iff (by omega)).1 (Eq.refl (segment x))
  have hwithin := segments_rise e (by omega) he (segment x) (by omega) (by omega)
  have hover := edges_rise e (by omega) he (segment x) (by omega) (by omega)
  have hedge := edges_eq (segment x + 1) (by omega)
  rw [piecewise_of_segment (by omega) (by omega) (Eq.refl (segment x))]
  by_cases hsame : (x + 128 * e + 327680) * 5 < (segment x + 1) * 65536
  · rw [piecewise_of_segment (by omega) (by omega)
      ((segment_eq_iff (by omega)).2 ⟨by omega, hsame⟩)]
    rw [show x + 128 * e - kHistEdgesQ15.getD (segment x) 0 =
      x - kHistEdgesQ15.getD (segment x) 0 + 128 * e by omega, Int.mul_add]
    omega
  · rw [piecewise_of_segment (i := segment x + 1) (by omega) (by omega)
      ((segment_eq_iff (by omega)).2 ⟨by omega, by omega⟩)]
    generalize kHistEdgesQ15.getD (segment x + 1) 0 = edge at hedge hover ⊢
    obtain ⟨flatter, hmem, hrise⟩ := @rise_over_edge (kCdfSlopeQ0.getD (segment x) 0)
      (kCdfSlopeQ0.getD (segment x + 1) 0) x edge (x + 128 * e) (by omega) (by omega)
    have hgap := hover (by omega) flatter hmem
    rw [show x + 128 * e - x = 128 * (e : Int) by omega] at hrise
    have hsplit : kCdfSlopeQ0.getD (segment x) 0 * (edge - kHistEdgesQ15.getD (segment x) 0) =
        kCdfSlopeQ0.getD (segment x) 0 * (x - kHistEdgesQ15.getD (segment x) 0) +
          kCdfSlopeQ0.getD (segment x) 0 * (edge - x) := by
      rw [← Int.mul_add]
      congr 1
      omega
    omega

/-! ## One search -/

section Search

variable {wUpper streamval : BitVec 32} {envQ8 : BitVec 16} {ditherQ7 c c' step : Int}
  {goOn : BitVec 32 → Bool} {fuel : Nat} {last : BitVec 32}

/-- A candidate of a coefficient: one of 512 values of the 16-bit variable. -/
def IsCandidate (ditherQ7 candQ7 : Int) : Prop :=
  -32768 ≤ candQ7 ∧ candQ7 < 32768 ∧ (candQ7 + ditherQ7 - 64) % 128 = 0

def lowestCandidate (ditherQ7 : Int) : Int := (64 - ditherQ7) % 128 - 32768

def highestCandidate (ditherQ7 : Int) : Int := (64 - ditherQ7) % 128 + 32640

/-- The search ends: the cdf is flat somewhere, or `streamval` is in the range of the bounds. -/
def SearchEnds (wUpper streamval : BitVec 32) (envQ8 : BitVec 16) (ditherQ7 : Int) : Prop :=
  5 ≤ envQ8.toNat ∨
    logisticBound wUpper envQ8 (lowestCandidate ditherQ7) < streamval ∧
      streamval ≤ logisticBound wUpper envQ8 (highestCandidate ditherQ7)
  deriving Decidable

theorem logisticBound_ne (hw : 256 ^ 3 ≤ wUpper.toNat) (he : 1 ≤ envQ8.toNat)
    (hnarrow : envQ8.toNat ≤ 4) (hc : -32768 ≤ c) (hc' : c' < 32768) (h : c + 128 ≤ c') :
    logisticBound wUpper envQ8 c ≠ logisticBound wUpper envQ8 c' := by
  have hlo := Int.mul_le_mul_of_nonneg_right hc (Int.natCast_nonneg envQ8.toNat)
  have hhi := Int.mul_le_mul_of_nonneg_right (show c + 128 ≤ 32767 by omega)
    (Int.natCast_nonneg envQ8.toNat)
  have hmono := piecewise_mono (Int.mul_le_mul_of_nonneg_right h (Int.natCast_nonneg envQ8.toNat))
  rw [Int.add_mul] at hhi hmono
  have hlt := piecewise_lt he hnarrow hlo hhi
  rw [Ne, logisticBound_eq_iff hw]
  omega

theorem walk_circle_eq_none (hw : 256 ^ 3 ≤ wUpper.toNat) (he : 1 ≤ envQ8.toNat)
    (hnarrow : envQ8.toNat ≤ 4) (hstep : step = 128 ∨ step = -128)
    (hgo : ∀ c, IsCandidate ditherQ7 c → goOn (logisticBound wUpper envQ8 c) = true)
    (hc : IsCandidate ditherQ7 c) :
    walk (logisticBound wUpper envQ8) (fun c => toInt16 (c + step)) goOn fuel last c = none := by
  refine walk_eq_none (P := IsCandidate ditherQ7) (fun c hc => ⟨hgo c hc, ?_⟩) fuel last hc
  obtain ⟨hlo, hhi, haligned⟩ := hc
  have hnext : toInt16 (c + step) = (c + step) % 65536 ∧ (c + step) % 65536 < 32768 ∨
      toInt16 (c + step) = (c + step) % 65536 - 65536 ∧ 32768 ≤ (c + step) % 65536 := by
    rw [toInt16, Int.bmod_def]
    omega
  generalize toInt16 (c + step) = next at hnext
  refine ⟨?_, by omega, by omega, by omega⟩
  rcases Int.le_total c next with hle | hle
  · exact logisticBound_ne hw he hnarrow hlo (by omega) (by omega)
  · exact (logisticBound_ne hw he hnarrow (by omega) hhi (by omega)).symm

theorem isCandidate_outermost (ditherQ7 : Int) :
    IsCandidate ditherQ7 (lowestCandidate ditherQ7) ∧
      IsCandidate ditherQ7 (highestCandidate ditherQ7) := by
  unfold IsCandidate lowestCandidate highestCandidate
  omega

theorem exists_flat (wUpper : BitVec 32) (ditherQ7 : Int) (henv : 5 ≤ envQ8.toNat)
    (hstep : step = 128 ∨ step = -128) :
    ∃ c, IsCandidate ditherQ7 c ∧
      logisticBound wUpper envQ8 c = logisticBound wUpper envQ8 (toInt16 (c + step)) := by
  obtain ⟨c, ⟨hlo, -, haligned⟩, hroom, hflat⟩ : ∃ c, IsCandidate ditherQ7 c ∧ c + 128 < 32768 ∧
      logisticBound wUpper envQ8 c = logisticBound wUpper envQ8 (c + 128) := by
    obtain ⟨-, hlast, haligned⟩ := (isCandidate_outermost ditherQ7).2
    have hhighest : 32640 ≤ highestCandidate ditherQ7 := by
      unfold highestCandidate
      omega
    rcases candidates_stuck henv (c := highestCandidate ditherQ7 - 256) (by omega) (by omega) with
      h | h
    · exact ⟨_, ⟨by omega, by omega, by omega⟩, by omega, logisticBound_congr h⟩
    · refine ⟨highestCandidate ditherQ7 - 256 + 128, ⟨by omega, by omega, by omega⟩, by omega, ?_⟩
      exact logisticBound_congr (by rwa [Int.add_assoc])
  rcases hstep with rfl | rfl
  · refine ⟨c, ⟨hlo, by omega, haligned⟩, ?_⟩
    rwa [toInt16_of_range (by omega) hroom]
  · refine ⟨c + 128, ⟨by omega, hroom, by omega⟩, ?_⟩
    rw [Int.add_neg_cancel_right, toInt16_of_range hlo (by omega), hflat]

theorem walk_circle_returns (hstep : step = 128 ∨ step = -128) (hc : IsCandidate ditherQ7 c)
    (hend : 5 ≤ envQ8.toNat ∨ goOn (logisticBound wUpper envQ8 c) = false) (hfuel : 512 ≤ fuel) :
    ∃ r, walk (logisticBound wUpper envQ8) (fun c => toInt16 (c + step)) goOn fuel last
      (toInt16 (-ditherQ7 + 64 + step)) = some r := by
  obtain ⟨c, ⟨hlo, hhi, haligned⟩, hstop⟩ : ∃ c, IsCandidate ditherQ7 c ∧
      (goOn (logisticBound wUpper envQ8 c) = false ∨
        logisticBound wUpper envQ8 c = logisticBound wUpper envQ8 (toInt16 (c + step))) := by
    rcases hend with henv | hgo
    · obtain ⟨c, hc, hflat⟩ := exists_flat wUpper ditherQ7 henv hstep
      exact ⟨c, hc, .inr hflat⟩
    · exact ⟨c, hc, .inl hgo⟩
  obtain ⟨n, hn, rfl⟩ : ∃ n < 512, toInt16 (-ditherQ7 + 64 + step + step * (n : Nat)) = c := by
    simp only [toInt16, Int.bmod_def]
    rcases hstep with rfl | rfl
    · exact ⟨(((c + ditherQ7 - 64) / 128 - 1) % 512).toNat, by omega, by omega⟩
    · exact ⟨((-(c + ditherQ7 - 64) / 128 - 1) % 512).toNat, by omega, by omega⟩
  have hwalk := @walk_returns Int _ _ (logisticBound wUpper envQ8) (fun c => toInt16 (c + step))
    goOn (fun i => toInt16 (-ditherQ7 + 64 + step + step * (i : Nat))) n ?_ hstop fuel
    (by omega) last
  · simpa using hwalk
  · intro i _
    simp only [toInt16, Int.bmod_add_bmod, Int.natCast_add, Int.mul_add, Int.natCast_one,
      Int.mul_one, Int.add_assoc]

theorem logisticSearch_returns (hdither : -64 ≤ ditherQ7 ∧ ditherQ7 ≤ 64)
    (h : SearchEnds wUpper streamval envQ8 ditherQ7) (hfuel : 512 ≤ fuel) :
    ∃ r, logisticSearch fuel wUpper streamval envQ8 ditherQ7 = some r := by
  simp only [logisticSearch, toInt16_of_range (show -32768 ≤ -ditherQ7 + 64 by omega) (by omega)]
  obtain ⟨hlowest, hhighest⟩ := isCandidate_outermost ditherQ7
  split
  all_goals rw [← isSome_iff_exists, isSome_map, isSome_iff_exists]
  · exact walk_circle_returns (.inl rfl) hhighest
      (h.imp_right fun h => decide_eq_false (BitVec.not_lt.2 h.2)) hfuel
  · exact walk_circle_returns (.inr rfl) hlowest
      (h.imp_right fun h => decide_eq_false (not_not.2 h.1)) hfuel

theorem logisticSearch_eq_none (hw : 256 ^ 3 ≤ wUpper.toNat) (he : 1 ≤ envQ8.toNat)
    (hdither : -64 ≤ ditherQ7 ∧ ditherQ7 ≤ 64) (h : ¬SearchEnds wUpper streamval envQ8 ditherQ7)
    (fuel : Nat) : logisticSearch fuel wUpper streamval envQ8 ditherQ7 = none := by
  obtain ⟨hnarrow, houtside⟩ := not_or.1 h
  have hbounds : ∀ c, IsCandidate ditherQ7 c →
      (logisticBound wUpper envQ8 (lowestCandidate ditherQ7)).toNat ≤
          (logisticBound wUpper envQ8 c).toNat ∧
        (logisticBound wUpper envQ8 c).toNat ≤
          (logisticBound wUpper envQ8 (highestCandidate ditherQ7)).toNat :=
    fun c ⟨_, _, _⟩ => ⟨logisticBound_mono (by unfold lowestCandidate; omega),
      logisticBound_mono (by unfold highestCandidate; omega)⟩
  have hfirst := hbounds (-ditherQ7 + 64) ⟨by omega, by omega, by omega⟩
  have hnext : ∀ step, step = 128 ∨ step = -128 →
      IsCandidate ditherQ7 (toInt16 (-ditherQ7 + 64 + step)) := by
    intro step hstep
    rw [toInt16_of_range (by omega) (by omega)]
    exact ⟨by omega, by omega, by omega⟩
  simp only [logisticSearch, Int.sub_eq_add_neg,
    toInt16_of_range (show -32768 ≤ -ditherQ7 + 64 by omega) (by omega)]
  rw [lt_def, le_def] at houtside
  simp only [lt_def]
  split
  · rw [walk_circle_eq_none hw he (by omega) (.inl rfl) _ (hnext 128 (.inl rfl)), map_none]
    intro c hc
    have hle := hbounds c hc
    exact decide_eq_true (by omega)
  · rw [walk_circle_eq_none hw he (by omega) (.inr rfl) _ (hnext (-128) (.inr rfl)), map_none]
    intro c hc
    have hle := hbounds c hc
    exact decide_eq_true (by omega)

theorem logisticSearch_unique {fuel' : Nat} {r r' : Except Int Found}
    (h : logisticSearch fuel wUpper streamval envQ8 ditherQ7 = some r)
    (h' : logisticSearch fuel' wUpper streamval envQ8 ditherQ7 = some r') : r = r' := by
  unfold logisticSearch at h h'
  simp only at h h'
  split at h
  all_goals
    rename_i hup
    first | rw [if_pos hup] at h' | rw [if_neg hup] at h'
    obtain ⟨o, ho, rfl⟩ := map_eq_some_iff.1 h
    obtain ⟨o', ho', rfl⟩ := map_eq_some_iff.1 h'
    rw [walk_unique ho ho']

theorem logisticSearch_error {code : Int}
    (h : logisticSearch fuel wUpper streamval envQ8 ditherQ7 = some (.error code)) : code = -1 := by
  unfold logisticSearch at h
  simp only at h
  split at h
  all_goals
    obtain ⟨o, -, ho⟩ := map_eq_some_iff.1 h
    cases o with
    | stuck => exact (Except.error.inj ho).symm
    | stopped => contradiction

end Search

/-! ## One round -/

/-- A result of the decoder: an error is minus one, and a width has its top byte. -/
def Proper {α : Type} (wUpper : α → BitVec 32) : Except Int α → Prop
  | .error code => code = -1
  | .ok a => 256 ^ 3 ≤ (wUpper a).toNat

section Round

variable {stream : Vector (BitVec 8) streamSizeMax} {d : DecState} {input : BitVec 16 × Int}
  {fuel : Nat}

theorem renormalizeLogistic_returns (stream : Vector (BitVec 8) streamSizeMax) (fuel : Nat)
    (d : DecState) (hfuel : 0 < fuel) (hptr : streamSizeMax60 ≤ d.streamPtr + fuel) :
    ∃ r, renormalizeLogistic stream fuel d = some r ∧ Proper DecState.wUpper r := by
  induction fuel generalizing d with
  | zero => omega
  | succ fuel ih =>
    rw [renormalizeLogistic]
    split
    · split
      · exact ⟨_, rfl, rfl⟩
      · rename_i hin
        have hbyte : d.streamPtr + 1 < streamSizeMax := by
          unfold streamSizeMax60 at hin
          unfold streamSizeMax
          omega
        rw [Vector.getElem?_eq_getElem hbyte]
        exact ih _ (by omega) (by simp only; omega)
    · rename_i hwide
      exact ⟨_, rfl, Nat.le_of_not_lt (mt (belowTopByte_iff rfl).2 hwide)⟩

theorem decLogistic_returns (stream : Vector (BitVec 8) streamSizeMax) {found : Except Int Found}
    (h : logisticSearch fuel d.wUpper d.streamval input.1 input.2 = some found) :
    ∃ r, decLogistic fuel stream d input = some r ∧ Proper (fun out => out.2.wUpper) r := by
  unfold decLogistic
  rw [h]
  cases found with
  | error code => exact ⟨.error code, rfl, logisticSearch_error h⟩
  | ok found =>
    obtain ⟨d', hd', hproper⟩ := renormalizeLogistic_returns stream streamSizeMax60
      { d with
        wLower := found.wLower + 1#32
        wUpper := found.wUpper - (found.wLower + 1#32)
        streamval := d.streamval - (found.wLower + 1#32) } (by decide) (Nat.le_add_left ..)
    simp only [bind_eq_bind, bind_some, hd']
    cases d' with
    | error code => exact ⟨.error code, rfl, hproper⟩
    | ok d' => exact ⟨_, rfl, hproper⟩

/-! ## The loop -/

/-- Every search that is made ends. -/
def SearchesEnd (stream : Vector (BitVec 8) streamSizeMax) :
    DecState → List (BitVec 16 × Int) → Prop
  | _, [] => True
  | d, input :: rest => SearchEnds d.wUpper d.streamval input.1 input.2 ∧
      ∀ data d', decLogistic 512 stream d input = some (.ok (data, d')) → SearchesEnd stream d' rest

theorem searchesEnd_singleton :
    SearchesEnd stream d [input] ↔ SearchEnds d.wUpper d.streamval input.1 input.2 :=
  ⟨And.left, fun h => ⟨h, fun _ _ _ => trivial⟩⟩

variable {inputs : List (BitVec 16 × Int)}
  (hdither : ∀ input ∈ inputs, -64 ≤ input.2 ∧ input.2 ≤ 64)
include hdither

theorem decodeLoop_returns (h : SearchesEnd stream d inputs) (hw : 256 ^ 3 ≤ d.wUpper.toNat) :
    ∃ r, decodeLoop (decLogistic 512 stream) d inputs = some r ∧ Proper DecState.wUpper r.2 := by
  induction inputs generalizing d with
  | nil => exact ⟨_, rfl, hw⟩
  | cons input rest ih =>
    rw [List.forall_mem_cons] at hdither
    obtain ⟨found, hfound⟩ := logisticSearch_returns hdither.1 h.1 (Nat.le_refl 512)
    obtain ⟨r, hr, hproper⟩ := decLogistic_returns stream hfound
    rw [decodeLoop, hr]
    cases r with
    | error code => exact ⟨_, rfl, hproper⟩
    | ok out =>
      obtain ⟨result, hresult, hproper'⟩ := ih hdither.2 (h.2 out.1 out.2 hr) hproper
      simp only [bind_eq_bind, bind_some, hresult]
      exact ⟨_, rfl, hproper'⟩

theorem decodeLoop_eq_none (henv : ∀ input ∈ inputs, 1 ≤ input.1.toNat)
    (h : ¬SearchesEnd stream d inputs) (hw : 256 ^ 3 ≤ d.wUpper.toNat) (fuel : Nat) :
    decodeLoop (decLogistic fuel stream) d inputs = none := by
  induction inputs generalizing d with
  | nil => exact absurd trivial h
  | cons input rest ih =>
    rw [List.forall_mem_cons] at hdither henv
    rw [decodeLoop]
    cases hsearch : logisticSearch fuel d.wUpper d.streamval input.1 input.2 with
    | none =>
      rw [decLogistic, hsearch]
      rfl
    | some found =>
      have hends : SearchEnds d.wUpper d.streamval input.1 input.2 := by
        refine Decidable.byContradiction fun hnot => ?_
        rw [logisticSearch_eq_none hw henv.1 hdither.1 hnot] at hsearch
        contradiction
      -- the round gives what it gives with 512 rounds, and the loop goes on from there
      obtain ⟨found', hfound⟩ := logisticSearch_returns hdither.1 hends (Nat.le_refl 512)
      obtain rfl := logisticSearch_unique hsearch hfound
      have hsame : decLogistic fuel stream d input = decLogistic 512 stream d input := by
        rw [decLogistic, decLogistic, hsearch, hfound]
      obtain ⟨r, hr, hproper⟩ := decLogistic_returns stream hfound
      obtain ⟨data, d', hok, hrest⟩ : ∃ data d', decLogistic 512 stream d input =
          some (.ok (data, d')) ∧ ¬SearchesEnd stream d' rest := by
        refine Classical.byContradiction fun hnone => h ⟨hends, fun data d' hok => ?_⟩
        exact Classical.byContradiction fun hnot => hnone ⟨data, d', hok, hnot⟩
      obtain rfl := some.inj (hr.symm.trans hok)
      rw [hsame, hok]
      simp only [bind_eq_bind, bind_some, ih hdither.2 henv.2 hrest hproper, bind_none]

omit hdither

end Round

/-! ## A call -/

theorem startDec_of_bytes {s : Bitstr} (hindex : s.streamIndex = 0) {byte : Fin 4 → BitVec 8}
    (hbyte : ∀ i : Fin 4, s.stream[(i : Nat)]? = some (byte i)) :
    startDec s = some ⟨3, 0#32, s.wUpper, (byte 0).setWidth 32 <<< 24 |||
      (byte 1).setWidth 32 <<< 16 ||| (byte 2).setWidth 32 <<< 8 ||| (byte 3).setWidth 32⟩ := by
  have h0 : s.stream[0]? = some (byte 0) := hbyte 0
  have h1 : s.stream[1]? = some (byte 1) := hbyte 1
  have h2 : s.stream[2]? = some (byte 2) := hbyte 2
  have h3 : s.stream[3]? = some (byte 3) := hbyte 3
  simp [startDec, if_pos hindex, readWord, h0, h1, h2, h3]

theorem startDec_returns (s : Bitstr) : ∃ d, startDec s = some d ∧ d.wUpper = s.wUpper := by
  by_cases hindex : s.streamIndex = 0
  · refine ⟨_, @startDec_of_bytes s hindex (fun i => s.stream[(i : Nat)]?.getD 0#8) fun i => ?_,
      rfl⟩
    rw [Vector.getElem?_eq_getElem (Nat.lt_of_lt_of_le i.isLt (by decide)), getD_some]
  · exact ⟨_, if_neg hindex, rfl⟩

/-- What the rounds of a call are given. -/
def roundInputs (envQ8 : Nat → BitVec 16) (ditherQ7 : Nat → Int) (n : Nat) (isSWB12kHz : Bool) :
    List (BitVec 16 × Int) :=
  (List.range n).map fun k => (envQ8 (envelopeIndex isSWB12kHz k), ditherQ7 k)

theorem decLogisticMulti2_eq {s : Bitstr} {d : DecState} (hd : startDec s = some d) (fuel : Nat)
    (envQ8 : Nat → BitVec 16) (ditherQ7 : Nat → Int) (n : Nat) (isSWB12kHz : Bool) :
    decLogisticMulti2 fuel s envQ8 ditherQ7 n isSWB12kHz =
      (decodeLoop (decLogistic fuel s.stream) d (roundInputs envQ8 ditherQ7 n isSWB12kHz)).bind
        fun result => some (endDec s result) := by
  have hguard : ¬(s.streamIndex = 0 ∧ streamSizeMax60 ≤ s.streamIndex + 3) := by
    unfold streamSizeMax60
    omega
  rw [decLogisticMulti2, if_neg hguard, hd]
  rfl

/-- Every search of a call ends. -/
def CallEnds (s : Bitstr) (inputs : List (BitVec 16 × Int)) : Prop :=
  ∃ d, startDec s = some d ∧ SearchesEnd s.stream d inputs

/-- **The logistic decoder returns**, with a length or minus one, exactly when each search that it
makes has an envelope of at least five or a `streamval` between the outermost bounds.  512 rounds
are enough for a search then. -/
theorem decLogisticMulti2_returns_iff (s : Bitstr) (envQ8 : Nat → BitVec 16)
    (ditherQ7 : Nat → Int) (n : Nat) (isSWB12kHz : Bool) (hw : 256 ^ 3 ≤ s.wUpper.toNat)
    (henv : ∀ k < n, 1 ≤ (envQ8 (envelopeIndex isSWB12kHz k)).toNat)
    (hdither : ∀ k < n, -64 ≤ ditherQ7 k ∧ ditherQ7 k ≤ 64) :
    ((∃ fuel r, decLogisticMulti2 fuel s envQ8 ditherQ7 n isSWB12kHz = some r) ↔
        CallEnds s (roundInputs envQ8 ditherQ7 n isSWB12kHz)) ∧
      (CallEnds s (roundInputs envQ8 ditherQ7 n isSWB12kHz) →
        ∃ r, decLogisticMulti2 512 s envQ8 ditherQ7 n isSWB12kHz = some r ∧
          (r.returned = -1 ∨ r.returned = (r.streamdata.streamIndex : Int) - 1 ∨
            r.returned = (r.streamdata.streamIndex : Int) - 2)) := by
  obtain ⟨d, hd, hwidth⟩ := startDec_returns s
  have hwide : 256 ^ 3 ≤ d.wUpper.toNat := hwidth ▸ hw
  have hinput : ∀ input ∈ roundInputs envQ8 ditherQ7 n isSWB12kHz,
      1 ≤ input.1.toNat ∧ -64 ≤ input.2 ∧ input.2 ≤ 64 := by
    intro input hmem
    obtain ⟨k, hk, rfl⟩ := List.mem_map.1 hmem
    rw [List.mem_range] at hk
    exact ⟨henv k hk, hdither k hk⟩
  have hreturns : CallEnds s (roundInputs envQ8 ditherQ7 n isSWB12kHz) →
      ∃ r, decLogisticMulti2 512 s envQ8 ditherQ7 n isSWB12kHz = some r ∧
        (r.returned = -1 ∨ r.returned = (r.streamdata.streamIndex : Int) - 1 ∨
          r.returned = (r.streamdata.streamIndex : Int) - 2) := by
    rintro ⟨d', hd', hends⟩
    obtain rfl := some.inj (hd.symm.trans hd')
    obtain ⟨⟨data, result⟩, hloop, hproper⟩ :=
      decodeLoop_returns (fun input hmem => (hinput input hmem).2) hends hwide
    rw [decLogisticMulti2_eq hd, hloop]
    refine ⟨_, rfl, ?_⟩
    cases result with
    | error code => exact .inl hproper
    | ok d' =>
      refine .inr ?_
      simp only [endDec]
      split
      · exact .inr rfl
      · exact .inl rfl
  refine ⟨⟨?_, fun hends => ⟨512, (hreturns hends).imp fun r hr => hr.1⟩⟩, hreturns⟩
  rintro ⟨fuel, r, hr⟩
  refine ⟨d, hd, Classical.byContradiction fun hnot => ?_⟩
  rw [decLogisticMulti2_eq hd, decodeLoop_eq_none (fun input hmem => (hinput input hmem).2)
    (fun input hmem => (hinput input hmem).1) hnot hwide] at hr
  contradiction

/-- A stream of one byte over and over. -/
def constantStream (byte : BitVec 8) : Bitstr := Bitstr.start (Vector.replicate streamSizeMax byte)

theorem startDec_constantStream (byte : BitVec 8) :
    startDec (constantStream byte) = some ⟨3, 0#32, 0xFFFFFFFF#32, byte.setWidth 32 <<< 24 |||
      byte.setWidth 32 <<< 16 ||| byte.setWidth 32 <<< 8 ||| byte.setWidth 32⟩ := by
  have hbyte : ∀ i : Fin 4, (constantStream byte).stream[(i : Nat)]? = some byte := by
    intro i
    rw [Vector.getElem?_eq_getElem (Nat.lt_of_lt_of_le i.isLt (by decide))]
    exact congrArg some (Vector.getElem_replicate _)
  exact @startDec_of_bytes (constantStream byte) rfl (fun _ => byte) hbyte

/-- With an envelope of four the value `0x80808080` is found. -/
theorem decLogisticMulti2_enclosed :
    ∃ r, decLogisticMulti2 512 (constantStream 0x80#8) (fun _ => 4#16) (fun _ => 0) 1 false =
      some r := by
  obtain ⟨r, hr, -⟩ := (decLogisticMulti2_returns_iff (constantStream 0x80#8) (fun _ => 4#16)
    (fun _ => 0) 1 false (by decide) (by decide) (by decide)).2
      ⟨_, startDec_constantStream _, searchesEnd_singleton.2 (by decide +kernel)⟩
  exact ⟨r, hr⟩

/-- One coefficient with an envelope of four, from a stream of ones: no number of rounds is
enough. -/
theorem decLogisticMulti2_narrow : ¬∃ fuel r,
    decLogisticMulti2 fuel (constantStream 0xFF#8) (fun _ => 4#16) (fun _ => 0) 1 false =
      some r := by
  rintro ⟨fuel, r, hreturns⟩
  have hinputs : roundInputs (fun _ => 4#16) (fun _ => 0) 1 false = [(4#16, 0)] := rfl
  rw [decLogisticMulti2_eq (startDec_constantStream _), hinputs, decodeLoop_eq_none (by decide)
    (by decide) (mt searchesEnd_singleton.1 (by decide +kernel)) (by decide)] at hreturns
  contradiction

end WebrtcCore.Ports.Isac
