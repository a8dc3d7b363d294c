import Mathlib.Data.Nat.Find
import WebrtcCore.Ports.IsacLossless

/-!
# The two histogram decoders (`isac/main/source/arith_routines_hist.c`)

`WebRtcIsac_DecHistOneStepMulti` walks through a cdf table from an initial index
and reports a value that no symbol of the table encloses.
`WebRtcIsac_DecHistBisectMulti` bisects the table and reports nothing: for such a
value one of its registers keeps what it held before.  A corrupted stream can
bring both decoders to every value.
-/

namespace WebrtcCore.Ports.Isac

open Option BitVec

/-! ## Searching for any value -/

section Search

variable {table : CdfTable} {wUpper streamval : BitVec 32}

theorem exists_cut {p : Nat → Prop} {n : Nat} (hdown : ∀ i j, i ≤ j → j < n → p j → p i) :
    ∃ cut ≤ n, ∀ i < n, (p i ↔ i < cut) := by
  classical
  have hout : ∃ i, ¬(i < n ∧ p i) := ⟨n, fun h => Nat.lt_irrefl n h.1⟩
  refine ⟨Nat.find hout, Nat.find_min' hout fun h => Nat.lt_irrefl n h.1, fun i hi => ?_⟩
  constructor
  · intro hp
    apply Nat.lt_of_not_le
    intro hle
    exact Nat.find_spec hout ⟨Nat.lt_of_le_of_lt hle hi, hdown _ i hle hi hp⟩
  · intro hlt
    exact (Classical.not_not.1 (Nat.find_min hout hlt)).2

theorem exists_isCut (table : CdfTable) (hw : 256 ^ 3 ≤ wUpper.toNat)
    (streamval : BitVec 32) : ∃ cut, IsCut table wUpper streamval cut := by
  obtain ⟨cut, hle, hcut⟩ := exists_cut (p := fun i => table.bound wUpper i < streamval)
    (n := table.entries.length) fun i j hij hj hlt =>
      Nat.lt_of_le_of_lt (table.bound_le hw hij hj) hlt
  exact ⟨cut, hle, fun hi => hcut _ hi⟩

theorem oneStepSearch_cases (hw : 256 ^ 3 ≤ wUpper.toNat) {initIndex : BitVec 16}
    (hinit : initIndex.toNat < table.entries.length) {result : Except Int Found}
    (h : oneStepSearch table.entries initIndex wUpper streamval = some result) :
    result = .error (-3) ∨ ∃ data, Encloses table wUpper streamval data ∧
      result = .ok (foundAt table wUpper data) := by
  obtain ⟨cut, hcut⟩ := exists_isCut table hw streamval
  rw [oneStepSearch_cut hcut hinit] at h
  obtain rfl := some.inj h
  cases cut with
  | zero => exact .inl rfl
  | succ data =>
    rw [steppedTo]
    split
    case isTrue hinside =>
      have habove := (hcut.bound_lt_iff (Nat.lt_of_succ_lt hinside)).2 (Nat.lt_succ_self data)
      have hupto := BitVec.not_lt.1 (mt (hcut.bound_lt_iff hinside).1 (Nat.lt_irrefl _))
      exact .inr ⟨data, ⟨hw, hinside, habove, hupto⟩, rfl⟩
    case isFalse => exact .inl rfl

end Search

/-! ## The renormalisation loop -/

/-- The registers with which a decoder comes to the loop. -/
def atLoop (d : DecState) (found : Found) : DecState :=
  let wLower := found.wLower + 1#32
  { d with
    wLower := wLower
    wUpper := found.wUpper - wLower
    streamval := d.streamval - wLower }

theorem narrowDec_eq (stream : Vector (BitVec 8) streamSizeMax) (d : DecState) (found : Found) :
    narrowDec stream d found = renormalizeDec stream renormalizeFuel (atLoop d found) := rfl

/-- The width is not zero, the condition of the loop fails after at most three
rounds, and the loop returns unless it reads behind the stream. -/
structure EndsLoop (stream : Vector (BitVec 8) streamSizeMax) (d : DecState) : Prop where
  nonzero : d.wUpper ≠ 0#32
  rounds : ∃ n ≤ 3, ¬belowTopByte (d.wUpper <<< (8 * n))
  returns : renormalizeDec stream renormalizeFuel d = none →
    streamSizeMax ≤ d.streamPtr + 3

section Loop

variable {stream : Vector (BitVec 8) streamSizeMax}

variable (fuel : Nat)

theorem renormalizeDec_succ (d : DecState) :
    renormalizeDec stream (fuel + 1) d =
      if belowTopByte d.wUpper then
        stream[d.streamPtr + 1]?.bind fun byte => renormalizeDec stream fuel (d.shiftIn byte)
      else some d := rfl

theorem renormalizeDec_cases {fuel : Nat} {d d' : DecState}
    (h : renormalizeDec stream (fuel + 1) d = some d') :
    (256 ^ 3 ≤ d.wUpper.toNat ∧ d' = d) ∨
      (d.wUpper.toNat < 256 ^ 3 ∧
        ∃ byte, renormalizeDec stream fuel (d.shiftIn byte) = some d') := by
  rw [renormalizeDec_succ] at h
  by_cases hbelow : belowTopByte d.wUpper
  · rw [if_pos hbelow] at h
    obtain ⟨byte, -, hrest⟩ := bind_eq_some_iff.1 h
    exact .inr ⟨(belowTopByte_iff rfl).1 hbelow, byte, hrest⟩
  · rw [if_neg hbelow] at h
    rw [belowTopByte_iff rfl] at hbelow
    exact .inl ⟨Nat.le_of_not_lt hbelow, (some.inj h).symm⟩

theorem renormalizeDec_spec {d d' : DecState} (h : renormalizeDec stream fuel d = some d') :
    256 ^ 3 ≤ d'.wUpper.toNat ∧ d'.wLower = d.wLower := by
  induction fuel generalizing d with
  | zero => cases h
  | succ fuel ih =>
    rcases renormalizeDec_cases h with ⟨hwide, rfl⟩ | ⟨-, byte, hrest⟩
    · exact ⟨hwide, rfl⟩
    · exact ih (d := d.shiftIn byte) hrest

theorem renormalizeDec_above {d d' : DecState} {j : Nat} (hj : j + fuel ≤ 4)
    (hdvd : 256 ^ j ∣ d.wUpper.toNat) (hle : d.wUpper.toNat ≤ d.streamval.toNat)
    (hlt : d.streamval.toNat < d.wUpper.toNat + 256 ^ j)
    (h : renormalizeDec stream fuel d = some d') : d'.wUpper.toNat ≤ d'.streamval.toNat := by
  induction fuel generalizing d j with
  | zero => cases h
  | succ fuel ih =>
    rcases renormalizeDec_cases h with ⟨-, rfl⟩ | ⟨hbelow, byte, hrest⟩
    · exact hle
    · -- The width is a multiple of `256 ^ j` below `256 ^ 3`, so the value is below it too.
      have hsmall : d.wUpper.toNat + 256 ^ j ≤ 256 ^ 3 := by
        obtain ⟨q, hq⟩ := hdvd
        obtain ⟨n, hn⟩ : ∃ n, 3 = j + n := ⟨3 - j, by omega⟩
        rw [hq, hn, Nat.pow_add] at hbelow ⊢
        exact Nat.mul_le_mul_left (256 ^ j) (Nat.lt_of_mul_lt_mul_left hbelow)
      have hwidth : (d.shiftIn byte).wUpper.toNat = d.wUpper.toNat * 256 := shiftByte_toNat hbelow
      have hvalue : (d.shiftIn byte).streamval.toNat = d.streamval.toNat * 256 + byte.toNat :=
        shiftIn_toNat (by omega) byte
      refine ih (j := j + 1) (by omega) ?_ ?_ ?_ hrest
      · rw [hwidth]
        exact Nat.mul_dvd_mul_right hdvd 256
      · omega
      · omega

theorem renormalizeDec_eq_none (rounds : Nat) {d : DecState}
    (hwide : 256 ^ 3 ≤ d.wUpper.toNat * 256 ^ rounds)
    (h : renormalizeDec stream (rounds + 1) d = none) : streamSizeMax ≤ d.streamPtr + rounds := by
  induction rounds generalizing d with
  | zero =>
    rw [renormalizeDec, if_neg (by rw [belowTopByte_iff rfl]; omega)] at h
    cases h
  | succ rounds ih =>
    rw [renormalizeDec_succ] at h
    by_cases hbelow : belowTopByte d.wUpper
    · rw [if_pos hbelow] at h
      cases hbyte : stream[d.streamPtr + 1]? with
      | none =>
        have hend := Vector.getElem?_eq_none_iff.1 hbyte
        omega
      | some byte =>
        rw [hbyte] at h
        have hshift : (d.shiftIn byte).wUpper.toNat = d.wUpper.toNat * 256 :=
          shiftByte_toNat ((belowTopByte_iff rfl).1 hbelow)
        have hrest := ih (by rw [hshift, Nat.mul_assoc, ← Nat.pow_succ']; exact hwide) h
        have hptr : (d.shiftIn byte).streamPtr = d.streamPtr + 1 := rfl
        omega
    · rw [if_neg hbelow] at h
      cases h

theorem not_belowTopByte_shift {wUpper : BitVec 32} {n : Nat}
    (hlo : 256 ^ 3 ≤ wUpper.toNat * 256 ^ n) (hhi : wUpper.toNat * 256 ^ n < 256 ^ 4) :
    ¬belowTopByte (wUpper <<< (8 * n)) := by
  rw [belowTopByte_iff rfl, toNat_shiftLeft, Nat.shiftLeft_eq, Nat.pow_mul]
  show ¬wUpper.toNat * 256 ^ n % 256 ^ 4 < 256 ^ 3
  omega

theorem endsLoop_of_pos {d : DecState} (h : 1 ≤ d.wUpper.toNat) : EndsLoop stream d where
  nonzero := by
    intro hzero
    rw [hzero] at h
    exact absurd h (by decide)
  rounds := by
    obtain h3 | h2 | h1 | h0 : 256 ^ 3 ≤ d.wUpper.toNat ∨
        (256 ^ 2 ≤ d.wUpper.toNat ∧ d.wUpper.toNat < 256 ^ 3) ∨
        (256 ≤ d.wUpper.toNat ∧ d.wUpper.toNat < 256 ^ 2) ∨ d.wUpper.toNat < 256 := by omega
    · exact ⟨0, by decide, not_belowTopByte_shift (by omega) (by omega)⟩
    · exact ⟨1, by decide, not_belowTopByte_shift (by omega) (by omega)⟩
    · exact ⟨2, by decide, not_belowTopByte_shift (by omega) (by omega)⟩
    · exact ⟨3, by decide, not_belowTopByte_shift (by omega) (by omega)⟩
  returns := by
    apply renormalizeDec_eq_none 3
    exact Nat.le_mul_of_pos_left _ h

end Loop

/-! ## One symbol -/

/-- A table with `2 ^ k - 1` entries, as the two decoders are given it. -/
structure TableInput where
  table : CdfTable
  k : Nat
  two_le : 2 ≤ k
  length_eq : table.entries.length + 1 = 2 ^ k
  cdfSize : BitVec 16
  size_eq : cdfSize.toNat = 2 ^ k
  initIndex : BitVec 16
  init_lt : initIndex.toNat < table.entries.length

namespace TableInput

def oneStep (i : TableInput) : List (BitVec 16) × BitVec 16 := (i.table.entries, i.initIndex)

def bisect (i : TableInput) : List (BitVec 16) × BitVec 16 := (i.table.entries, i.cdfSize)

/-- The bisection for a decoder's registers. -/
def bisectSearch (i : TableInput) (d : DecState) : Option Found :=
  bisectLoop i.table.entries d.wUpper d.streamval 16 (i.cdfSize.toNat >>> 1)
    (((i.cdfSize.toNat >>> 1 : Nat) : Int) - 1) d.wLower d.wUpper

end TableInput

/-- The registers with which the bisection comes to a symbol.  A value of zero is
in front of all symbols, and the width will be taken from `wLower`. -/
structure Sound (d : DecState) : Prop where
  wide : 256 ^ 3 ≤ d.wUpper.toNat
  lower : d.streamval = 0#32 → d.wLower ≠ BitVec.allOnes 32

section Symbol

variable {stream : Vector (BitVec 8) streamSizeMax} {d d' : DecState}

theorem bound_add_le (table : CdfTable) {wUpper : BitVec 32} (hw : 256 ^ 3 ≤ wUpper.toNat)
    (i : Nat) : (table.bound wUpper i).toNat + 256 ≤ wUpper.toNat := by
  have hgap := bound_gap hw (table.entry i).isLt
  rw [cdfBound_toNat]
  omega

theorem atLoop_of_gap (d : DecState) {found : Found}
    (h : found.wLower.toNat + 256 ≤ found.wUpper.toNat) :
    1 ≤ (atLoop d found).wUpper.toNat ∧ (atLoop d found).wLower ≠ BitVec.allOnes 32 := by
  have hlower : (found.wLower + 1#32).toNat = found.wLower.toNat + 1 := by
    exact Nat.mod_eq_of_lt (by rw [toNat_ofNat]; omega)
  refine ⟨?_, ?_⟩
  · show 1 ≤ (found.wUpper - (found.wLower + 1#32)).toNat
    rw [toNat_sub_of_le (by rw [le_def]; omega)]
    omega
  · intro hones
    have hmax : (found.wLower + 1#32).toNat = (allOnes 32).toNat := congrArg BitVec.toNat hones
    rw [toNat_allOnes] at hmax
    omega

theorem Encloses.gap {table : CdfTable} {wUpper streamval : BitVec 32} {data : Nat}
    (h : Encloses table wUpper streamval data) :
    (foundAt table wUpper data).wLower.toNat + 256 ≤ (foundAt table wUpper data).wUpper.toNat :=
  table.bound_gap h.wide (Nat.lt_add_one data) h.inside

theorem atLoop_foundCut {table : CdfTable} {cut : Nat} (h : Sound d)
    (hcut : IsCut table d.wUpper d.streamval cut) :
    let e := atLoop d (foundCut table d.wUpper d.wLower d.wUpper cut)
    1 ≤ e.wUpper.toNat ∧ (e.wLower ≠ allOnes 32 ∨ e.streamval = e.wUpper) := by
  intro e
  have hle := hcut.le
  obtain ⟨hnonempty, -⟩ := List.getElem?_eq_some_iff.1 table.first
  by_cases hzero : cut = 0
  · -- No bound is below the value, not even the first one, which is zero.
    subst hzero
    have hentry : table.entry 0 = 0#16 :=
      some.inj ((table.getElem?_entries hnonempty).symm.trans table.first)
    have hbound : table.bound d.wUpper 0 = 0#32 := by
      rw [CdfTable.bound, hentry]
      simp [cdfBound, widthBelow]
    have hvalue : d.streamval = 0#32 := by
      have hnot := mt (hcut.bound_lt_iff hnonempty).1 (Nat.lt_irrefl 0)
      rw [hbound] at hnot
      apply eq_of_toNat_eq
      exact Nat.eq_zero_of_not_pos hnot
    have hlower := h.lower hvalue
    have hwidth : e.wUpper = 0#32 - (d.wLower + 1#32) := by
      show (foundCut table d.wUpper d.wLower d.wUpper 0).wUpper -
        ((foundCut table d.wUpper d.wLower d.wUpper 0).wLower + 1#32) = _
      rw [foundCut, if_pos rfl, if_neg (by omega), hbound]
    refine ⟨?_, .inr ?_⟩
    · have hne : d.wLower.toNat ≠ 2 ^ 32 - 1 := by
        intro hmax
        exact hlower (eq_of_toNat_eq (by rw [hmax, toNat_allOnes]))
      rw [hwidth, toNat_sub, toNat_add, toNat_ofNat, toNat_ofNat]
      omega
    · rw [hwidth, ← hvalue]
      rfl
  · have hgap : (foundCut table d.wUpper d.wLower d.wUpper cut).wLower.toNat + 256 ≤
        (foundCut table d.wUpper d.wLower d.wUpper cut).wUpper.toNat := by
      rw [foundCut, if_neg hzero]
      by_cases hlast : cut = table.entries.length
      · rw [if_pos hlast]
        exact bound_add_le table h.wide _
      · rw [if_neg hlast]
        exact table.bound_gap h.wide (by omega) (by omega)
    obtain ⟨hpos, hlower⟩ := atLoop_of_gap d hgap
    exact ⟨hpos, .inl hlower⟩

theorem sound_of_atLoop {found : Found}
    (h : (atLoop d found).wLower ≠ BitVec.allOnes 32 ∨ (atLoop d found).streamval = (atLoop d
      found).wUpper) (hnarrow : narrowDec stream d found = some d') : Sound d' := by
  obtain ⟨hwide, hlower⟩ := renormalizeDec_spec renormalizeFuel hnarrow
  refine ⟨hwide, ?_⟩
  intro hzero
  rw [hlower]
  cases h with
  | inl h => exact h
  | inr h =>
    have habove := renormalizeDec_above renormalizeFuel (j := 0) (by decide)
      (Nat.one_dvd _) (Nat.le_of_eq (congrArg BitVec.toNat h.symm))
      (by rw [h]; exact Nat.lt_succ_self _) hnarrow
    rw [hzero] at habove
    exact absurd (Nat.le_trans hwide habove) (by decide)

theorem bisectSearch_sound (h : Sound d) (i : TableInput) :
    ∃ found, i.bisectSearch d = some found ∧ EndsLoop stream (atLoop d found) ∧
      ∀ d', narrowDec stream d found = some d' → Sound d' := by
  obtain ⟨cut, hcut⟩ := exists_isCut i.table h.wide d.streamval
  obtain ⟨hpos, hlower⟩ := atLoop_foundCut h hcut
  exact ⟨_, bisect_cut hcut i.two_le i.length_eq i.size_eq d.wLower d.wUpper,
    endsLoop_of_pos hpos, fun d' hnarrow => sound_of_atLoop hlower hnarrow⟩

theorem decHistBisect_eq (i : TableInput) :
    decHistBisect stream d i.bisect = (i.bisectSearch d).bind fun found =>
      (narrowDec stream d found).bind fun d' =>
        if d'.wUpper = 0#32 then some (.error (-2)) else some (.ok (found.data, d')) := rfl

theorem decHistBisect_sound (h : Sound d) (i : TableInput) {data : Int}
    (hstep : decHistBisect stream d i.bisect = some (.ok (data, d'))) : Sound d' := by
  obtain ⟨found, hfound, -, hsound⟩ := @bisectSearch_sound stream _ h i
  rw [decHistBisect_eq, hfound, bind_some] at hstep
  obtain ⟨d₁, hnarrow, hresult⟩ := bind_eq_some_iff.1 hstep
  have hd := hsound d₁ hnarrow
  split at hresult
  case isTrue => cases hresult
  case isFalse =>
    cases hresult
    exact hd

theorem decHistOneStep_cases (hw : 256 ^ 3 ≤ d.wUpper.toNat) (i : TableInput)
    {result : Except Int (Int × DecState)} (h : decHistOneStep stream d i.oneStep = some result) :
    result = .error (-3) ∨ ∃ data d', result = .ok (data, d') ∧ 256 ^ 3 ≤ d'.wUpper.toNat ∧
      decHistBisect stream d i.bisect = some (.ok (data, d')) := by
  obtain ⟨r, hsearch, hrest⟩ := bind_eq_some_iff.1 h
  rcases oneStepSearch_cases hw i.init_lt hsearch with rfl | ⟨data, hencloses, rfl⟩
  · cases hrest
    exact .inl rfl
  · obtain ⟨d₁, hnarrow, hresult⟩ := bind_eq_some_iff.1 hrest
    cases hresult
    rw [narrowDec_eq] at hnarrow
    have hwide := (renormalizeDec_spec renormalizeFuel hnarrow).1
    have hbisect := bisect_cut hencloses.isCut i.two_le i.length_eq i.size_eq d.wLower d.wUpper
    rw [foundCut_succ hencloses.inside] at hbisect
    refine .inr ⟨_, d₁, rfl, hwide, ?_⟩
    rw [decHistBisect_eq, TableInput.bisectSearch, hbisect, bind_some, narrowDec_eq, hnarrow,
      bind_some, if_neg (ne_zero_of_wide hwide)]

end Symbol

/-! ## Runs -/

section Runs

variable {ι : Type} {step : DecState → ι → Option (Except Int (Int × DecState))}

theorem decodeLoop_cons {d : DecState} {i : ι} {rest : List ι}
    {result : List Int × Except Int DecState} (h : decodeLoop step d (i :: rest) = some result) :
    (∃ code, step d i = some (.error code) ∧ result = ([], .error code)) ∨
      ∃ data d' datas last, step d i = some (.ok (data, d')) ∧
        decodeLoop step d' rest = some (datas, last) ∧ result = (data :: datas, last) := by
  obtain ⟨r, hstep, hrest⟩ := bind_eq_some_iff.1 h
  cases r with
  | error code =>
    cases hrest
    exact .inl ⟨code, hstep, rfl⟩
  | ok next =>
    obtain ⟨data, d'⟩ := next
    obtain ⟨⟨datas, last⟩, hloop, hresult⟩ := bind_eq_some_iff.1 hrest
    cases hresult
    exact .inr ⟨data, d', datas, last, hstep, hloop, rfl⟩

theorem decodeLoop_invariant {P : DecState → Prop} (input : List ι)
    (hstep : ∀ d, P d → ∀ i ∈ input, ∀ data d', step d i = some (.ok (data, d')) → P d')
    {d d' : DecState} {datas : List Int} (h : P d)
    (hrun : decodeLoop step d input = some (datas, .ok d')) : P d' := by
  induction input generalizing d datas with
  | nil =>
    cases hrun
    exact h
  | cons i rest ih =>
    rcases decodeLoop_cons hrun with
      ⟨code, -, hresult⟩ | ⟨data, d₁, datas', last, hi, hloop, hresult⟩
    · cases hresult
    · cases hresult
      exact ih (fun d hd j hj => hstep d hd j (List.mem_cons_of_mem _ hj))
        (hstep d h i List.mem_cons_self data d₁ hi) hloop

end Runs

section Decoders

variable {stream : Vector (BitVec 8) streamSizeMax}

theorem decodeLoop_agree (inputs : List TableInput) {d : DecState}
    {result : List Int × Except Int DecState} (hw : 256 ^ 3 ≤ d.wUpper.toNat)
    (h : decodeLoop (decHistOneStep stream) d (inputs.map TableInput.oneStep) = some result) :
    result.2 = .error (-3) ∨
      decodeLoop (decHistBisect stream) d (inputs.map TableInput.bisect) = some result := by
  induction inputs generalizing d result with
  | nil => exact .inr h
  | cons i inputs ih =>
    rcases decodeLoop_cons h with ⟨code, hi, rfl⟩ | ⟨data, d', datas, last, hi, hloop, rfl⟩
    · rcases decHistOneStep_cases hw i hi with herror | ⟨data, d', hok, -⟩
      · cases herror
        exact .inl rfl
      · cases hok
    · rcases decHistOneStep_cases hw i hi with herror | ⟨data', d'', hok, hwide, hbisect⟩
      · cases herror
      · cases hok
        rcases ih hwide hloop with herror | hrest
        · exact .inl herror
        · right
          rw [List.map_cons, decodeLoop, hbisect]
          simp only [bind_eq_bind, bind_some, hrest]
          rfl

theorem startDec_sound {s : Bitstr} {start : DecState} (hwide : 256 ^ 3 ≤ s.wUpper.toNat)
    (h : startDec s = some start) : Sound start := by
  have hlower : (0#32 : BitVec 32) ≠ allOnes 32 := by decide
  unfold startDec at h
  split at h
  case isTrue =>
    obtain ⟨word, -, rfl⟩ := map_eq_some_iff.1 h
    exact ⟨hwide, fun _ => hlower⟩
  case isFalse =>
    cases h
    exact ⟨hwide, fun _ => hlower⟩

theorem decodeHist_agree {s : Bitstr} (hwide : 256 ^ 3 ≤ s.wUpper.toNat) (inputs : List TableInput)
    {result : Decoded} (h : decHistOneStepMulti s (inputs.map TableInput.oneStep) = some result)
    (hcode : result.returned ≠ -3) :
    decHistBisectMulti s (inputs.map TableInput.bisect) = some result := by
  have hne := ne_zero_of_wide hwide
  unfold decHistOneStepMulti decodeHist at h
  rw [if_neg hne] at h
  obtain ⟨start, hstart, hrest⟩ := bind_eq_some_iff.1 h
  obtain ⟨⟨datas, last⟩, hloop, hresult⟩ := bind_eq_some_iff.1 hrest
  have hresult : endDec s (datas, last) = result := some.inj hresult
  rcases decodeLoop_agree inputs (startDec_sound hwide hstart).wide hloop with herror | hbisect
  · rw [show last = .error (-3) from herror] at hresult
    rw [← hresult] at hcode
    exact absurd rfl hcode
  · unfold decHistBisectMulti decodeHist
    rw [if_neg hne, hstart]
    simp only [bind_eq_bind, bind_some, hbisect]
    rw [← hresult]
    rfl

end Decoders

/-- For every stream, every state with a width of at least `2 ^ 24` and all tables
and indices: if `WebRtcIsac_DecHistOneStepMulti` does not return the error code of its search,
`WebRtcIsac_DecHistBisectMulti` returns the same value, symbols and state.
In both decoders, whatever symbols came before, the width is not zero at the
renormalisation loop, which makes at most three rounds. -/
theorem decoders_agree (s : Bitstr) (hwide : 2 ^ 24 ≤ s.wUpper.toNat) (inputs : List TableInput) :
    (∀ result, decHistOneStepMulti s (inputs.map TableInput.oneStep) = some result →
      result.returned ≠ -3 → decHistBisectMulti s (inputs.map TableInput.bisect) = some result) ∧
    ∀ (before : List TableInput) (input : TableInput) start datas d, startDec s = some start →
      (decodeLoop (decHistOneStep s.stream) start (before.map TableInput.oneStep) =
          some (datas, .ok d) →
        ∀ found, oneStepSearch input.table.entries input.initIndex d.wUpper d.streamval =
          some (.ok found) → EndsLoop s.stream (atLoop d found)) ∧
      (decodeLoop (decHistBisect s.stream) start (before.map TableInput.bisect) =
          some (datas, .ok d) →
        ∃ found, input.bisectSearch d = some found ∧ EndsLoop s.stream (atLoop d found)) := by
  refine ⟨fun result h hcode => decodeHist_agree hwide inputs h hcode, ?_⟩
  intro before input start datas d hstart
  have hsound := startDec_sound hwide hstart
  refine ⟨?_, ?_⟩
  · intro hrun found hsearch
    have hw : 256 ^ 3 ≤ d.wUpper.toNat := by
      refine decodeLoop_invariant (P := fun d => 256 ^ 3 ≤ d.wUpper.toNat)
        (before.map TableInput.oneStep) ?_ hsound.wide hrun
      intro d₁ hd₁ i hi data d₂ hstep
      obtain ⟨j, -, rfl⟩ := List.mem_map.1 hi
      rcases decHistOneStep_cases hd₁ j hstep with herror | ⟨data', d', hok, hnext, -⟩
      · cases herror
      · cases hok
        exact hnext
    rcases oneStepSearch_cases hw input.init_lt hsearch with herror | ⟨data, hencloses, hfound⟩
    · cases herror
    · cases hfound
      exact endsLoop_of_pos (atLoop_of_gap d hencloses.gap).1
  · intro hrun
    have hd : Sound d := by
      refine decodeLoop_invariant (before.map TableInput.bisect) ?_ hsound hrun
      intro d₁ hd₁ i hi data d₂ hstep
      obtain ⟨j, -, rfl⟩ := List.mem_map.1 hi
      exact decHistBisect_sound hd₁ j hstep
    obtain ⟨found, hfound, hends, -⟩ := @bisectSearch_sound s.stream _ hd input
    exact ⟨found, hfound, hends⟩

/-- A table of three entries. -/
def skewedInput : TableInput where
  table := skewedTable
  k := 2
  two_le := Nat.le_refl 2
  length_eq := rfl
  cdfSize := 4#16
  size_eq := rfl
  initIndex := 1#16
  init_lt := by decide

/-- A stream whose value lies in the second symbol of the table. -/
theorem decoders_agree_skewed :
    ∃ result, decHistOneStepMulti (.start (Vector.replicate 600 0x40#8)) [skewedInput.oneStep] =
        some result ∧ result.returned = 1 ∧ result.data = [1] ∧
      decHistBisectMulti (.start (Vector.replicate 600 0x40#8)) [skewedInput.bisect] =
        some result := by
  refine ⟨_, rfl, rfl, rfl, ?_⟩
  exact (decoders_agree (.start (Vector.replicate 600 0x40#8)) (by decide) [skewedInput]).1
    _ rfl (by decide)

end WebrtcCore.Ports.Isac
