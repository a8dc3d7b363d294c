import WebrtcCore.Ports.IsacEncoder

/-!
# Searching a cdf table

Both iSAC decoders look for the symbol whose bounds enclose `streamval`.  The
bounds of a table increase with the index, so there is at most one; the search
by single steps finds it from any initial index, the bisection from the middle
of a table with `2 ^ k - 1` entries.
-/

namespace WebrtcCore.Ports.Isac

open Option

/-! ## Bounds -/

/-- The bound of a table entry in a range. -/
abbrev CdfTable.bound (table : CdfTable) (wUpper : BitVec 32) (i : Nat) : BitVec 32 :=
  cdfBound wUpper (table.entry i)

section Search

variable (table : CdfTable) {wUpper streamval : BitVec 32}

theorem CdfTable.bound_gap (hw : 256 ^ 3 ≤ wUpper.toNat) {i j : Nat} (hij : i < j)
    (hj : j < table.entries.length) :
    (table.bound wUpper i).toNat + 256 ≤ (table.bound wUpper j).toNat := by
  rw [cdfBound_toNat, cdfBound_toNat]
  exact Isac.bound_gap hw (table.entry_lt hij hj)

theorem CdfTable.bound_lt (hw : 256 ^ 3 ≤ wUpper.toNat) {i j : Nat} (hij : i < j)
    (hj : j < table.entries.length) : table.bound wUpper i < table.bound wUpper j := by
  have hgap := table.bound_gap hw hij hj
  rw [BitVec.lt_def]
  omega

theorem CdfTable.bound_le (hw : 256 ^ 3 ≤ wUpper.toNat) {i j : Nat} (hij : i ≤ j)
    (hj : j < table.entries.length) :
    table.bound wUpper i ≤ table.bound wUpper j := by
  rcases Nat.lt_or_eq_of_le hij with hlt | rfl
  · exact BitVec.le_of_lt (table.bound_lt hw hlt hj)
  · exact BitVec.le_refl _

theorem CdfTable.entry_ne_last {i : Nat} (h : i + 1 < table.entries.length) :
    table.entry i ≠ 65535#16 := by
  intro heq
  have hlt := table.entry_lt (Nat.lt_add_one i) h
  rw [heq, BitVec.toNat_ofNat] at hlt
  omega

theorem CdfTable.getElem?_last {i : Nat} (h : i + 1 = table.entries.length) :
    table.entries[i]? = some 65535#16 := by
  have hlast := table.last
  rw [List.getLast?_eq_getElem?, ← h] at hlast
  exact hlast

/-- The value lies between the bounds of a symbol. -/
structure Encloses (wUpper streamval : BitVec 32) (data : Nat) : Prop where
  wide : 256 ^ 3 ≤ wUpper.toNat
  inside : data + 1 < table.entries.length
  above : table.bound wUpper data < streamval
  upto : streamval ≤ table.bound wUpper (data + 1)

variable {table} {data : Nat}

/-- What the searches return for it. -/
def foundAt (table : CdfTable) (wUpper : BitVec 32) (data : Nat) : Found :=
  ⟨data, table.bound wUpper data, table.bound wUpper (data + 1)⟩

variable (h : Encloses table wUpper streamval data)
include h

theorem Encloses.bound_lt_iff {i : Nat} (hi : i < table.entries.length) :
    table.bound wUpper i < streamval ↔ i ≤ data := by
  constructor
  · intro hlt
    apply Nat.le_of_not_lt
    intro hdata
    have hle := table.bound_le h.wide (Nat.succ_le_of_lt hdata) hi
    exact BitVec.not_lt.2 (BitVec.le_trans h.upto hle) hlt
  · intro hle
    have hdata := h.inside
    exact Nat.lt_of_le_of_lt (table.bound_le h.wide hle (by omega)) h.above

omit h

/-- The bounds of the first `cut` entries are below the value, and those of the
others are not. -/
structure IsCut (table : CdfTable) (wUpper streamval : BitVec 32) (cut : Nat) : Prop where
  le : cut ≤ table.entries.length
  bound_lt_iff : ∀ {i : Nat}, i < table.entries.length →
    (table.bound wUpper i < streamval ↔ i < cut)

theorem Encloses.isCut (h : Encloses table wUpper streamval data) :
    IsCut table wUpper streamval (data + 1) where
  le := Nat.le_of_lt h.inside
  bound_lt_iff := fun hi => (h.bound_lt_iff hi).trans Nat.lt_succ_iff.symm

variable {cut : Nat}

/-! ## Single steps -/

/-- What the search by single steps returns for a cut. -/
def steppedTo (table : CdfTable) (wUpper : BitVec 32) : Nat → Except Int Found
  | 0 => .error (-3)
  | data + 1 =>
    if data + 1 < table.entries.length then .ok (foundAt table wUpper data) else .error (-3)

theorem oneStepUp_eq (h : IsCut table wUpper streamval (data + 1)) {fuel i : Nat} (hi : i ≤ data)
    (hfuel : table.entries.length - i ≤ fuel) :
    oneStepUp table.entries wUpper streamval fuel i (table.bound wUpper i) =
      some (steppedTo table wUpper (data + 1)) := by
  have hle := h.le
  induction fuel generalizing i with
  | zero => omega
  | succ fuel ih =>
    rw [oneStepUp]
    by_cases hlast : i + 1 < table.entries.length
    · rw [table.getElem?_entries (by omega), table.getElem?_entries hlast]
      simp only [bind_eq_bind, bind_some, if_neg (table.entry_ne_last hlast)]
      have hnext := h.bound_lt_iff hlast
      by_cases hfound : i = data
      · subst hfound
        rw [if_pos (BitVec.not_lt.1 (mt hnext.1 (Nat.lt_irrefl _))), steppedTo, if_pos hlast]
        rfl
      · rw [if_neg (BitVec.not_le.2 (hnext.2 (by omega)))]
        exact ih (by omega) (by omega)
    · rw [table.getElem?_last (by omega), steppedTo, if_neg (by omega)]
      rfl

theorem oneStepDown_eq (h : IsCut table wUpper streamval cut) {i : Nat} (hi : cut ≤ i)
    (hinside : i < table.entries.length) :
    oneStepDown table.entries wUpper streamval i (table.bound wUpper i) =
      some (steppedTo table wUpper cut) := by
  induction i with
  | zero =>
    obtain rfl : cut = 0 := by omega
    rfl
  | succ i ih =>
    rw [oneStepDown, table.getElem?_entries (by omega)]
    simp only [bind_eq_bind, bind_some]
    have hbelow := h.bound_lt_iff (show i < table.entries.length by omega)
    by_cases hfound : cut = i + 1
    · subst hfound
      rw [if_pos (hbelow.2 (Nat.lt_succ_self i)), steppedTo, if_pos hinside]
      rfl
    · rw [if_neg (mt hbelow.1 (by omega))]
      exact ih (by omega) (by omega)

theorem oneStepSearch_cut (h : IsCut table wUpper streamval cut) {initIndex : BitVec 16}
    (hinit : initIndex.toNat < table.entries.length) :
    oneStepSearch table.entries initIndex wUpper streamval = some (steppedTo table wUpper cut) := by
  have hiff := h.bound_lt_iff hinit
  rw [oneStepSearch, table.getElem?_entries hinit]
  simp only [bind_eq_bind, bind_some]
  by_cases hlt : initIndex.toNat < cut
  · obtain ⟨data, rfl⟩ : ∃ data, cut = data + 1 := ⟨cut - 1, by omega⟩
    rw [if_pos (hiff.2 hlt)]
    exact oneStepUp_eq h (by omega) (Nat.sub_le ..)
  · rw [if_neg (mt hiff.1 hlt)]
    exact oneStepDown_eq h (by omega) hinit

theorem oneStepSearch_eq (h : Encloses table wUpper streamval data) {initIndex : BitVec 16}
    (hinit : initIndex.toNat < table.entries.length) :
    oneStepSearch table.entries initIndex wUpper streamval =
      some (.ok (foundAt table wUpper data)) := by
  rw [oneStepSearch_cut h.isCut hinit, steppedTo, if_pos h.inside]

/-! ## Bisection -/

theorem cdfAt_entries {i : Nat} (hi : i < table.entries.length) :
    cdfAt table.entries (i : Int) = some (table.entry i) := by
  rw [cdfAt, if_pos (Int.natCast_nonneg i), Int.toNat_natCast, table.getElem?_entries hi]

/-- What the bisection returns for a cut.  Where there is no entry in front of it
or behind it, the register keeps what it held before. -/
def foundCut (table : CdfTable) (wUpper wLower wUpper' : BitVec 32) (cut : Nat) : Found :=
  ⟨(cut : Int) - 1, if cut = 0 then wLower else table.bound wUpper (cut - 1),
    if cut = table.entries.length then wUpper' else table.bound wUpper cut⟩

theorem bisectLoop_eq (h : IsCut table wUpper streamval cut) {wLower₀ wUpper₀ : BitVec 32}
    {j fuel low : Nat} {wLower wUpper' : BitVec 32} (hfuel : j < fuel) (hlow : low ≤ cut)
    (hhigh : cut + 1 ≤ low + 2 ^ (j + 1)) (hlength : low + 2 ^ (j + 1) ≤ table.entries.length + 1)
    (hlower : wLower = if low = 0 then wLower₀ else table.bound wUpper (low - 1))
    (hupper : wUpper' = if low + 2 ^ (j + 1) = table.entries.length + 1 then wUpper₀ else
      table.bound wUpper (low + 2 ^ (j + 1) - 1)) :
    bisectLoop table.entries wUpper streamval fuel (2 ^ j)
        ((low + 2 ^ j : Nat) - 1 : Int) wLower wUpper' =
      some (foundCut table wUpper wLower₀ wUpper₀ cut) := by
  induction j generalizing fuel low wLower wUpper' with
  | zero =>
    obtain ⟨fuel, rfl⟩ : ∃ n, fuel = n + 1 := ⟨fuel - 1, by omega⟩
    have hiff := h.bound_lt_iff (show low < table.entries.length by omega)
    rw [bisectLoop, show ((low + 2 ^ 0 : Nat) - 1 : Int) = (low : Int) by omega,
      cdfAt_entries (by omega)]
    simp only [bind_eq_bind, bind_some, Nat.pow_zero, Nat.reduceShiftRight, ↓reduceIte]
    by_cases hlt : low < cut
    · obtain rfl : cut = low + 1 := by omega
      have hdata : ((low + 1 : Nat) : Int) - 1 = low := by omega
      rw [if_pos (hiff.2 hlt), foundCut, hdata, hupper]
      by_cases hlast : low + 1 = table.entries.length
      · rw [if_pos (by omega), if_pos hlast]
        rfl
      · rw [if_neg (by omega), if_neg hlast]
        rfl
    · obtain rfl : cut = low := by omega
      rw [if_neg (fun hbelow => hlt (hiff.1 hbelow)), foundCut, hlower,
        if_neg (show cut ≠ table.entries.length by omega)]
      rfl
  | succ j ih =>
    obtain ⟨fuel, rfl⟩ : ∃ n, fuel = n + 1 := ⟨fuel - 1, by omega⟩
    have hhalf : 2 ^ (j + 1) >>> 1 = 2 ^ j := by omega
    obtain ⟨mid, hmid⟩ : ∃ mid, low + 2 ^ (j + 1) = mid + 1 := ⟨low + 2 ^ (j + 1) - 1, by omega⟩
    have hiff := h.bound_lt_iff (show mid < table.entries.length by omega)
    rw [bisectLoop, show ((low + 2 ^ (j + 1) : Nat) - 1 : Int) = (mid : Int) by omega,
      cdfAt_entries (by omega)]
    simp only [bind_eq_bind, bind_some]
    rw [hhalf, if_neg (by omega)]
    by_cases hlt : mid < cut
    · rw [if_pos (hiff.2 hlt), show (mid : Int) + ((2 ^ j : Nat) : Int) =
        ((mid + 1 + 2 ^ j : Nat) : Int) - 1 by omega]
      refine ih (by omega) (by omega) (by omega) (by omega) ?_ ?_
      · rw [if_neg (by omega), Nat.add_sub_cancel]
      · rw [hupper, show mid + 1 + 2 ^ (j + 1) = low + 2 ^ (j + 1 + 1) by omega]
    · rw [if_neg (fun hbelow => hlt (hiff.1 hbelow)),
        show (mid : Int) - ((2 ^ j : Nat) : Int) = ((low + 2 ^ j : Nat) : Int) - 1 by omega]
      refine ih (by omega) hlow (by omega) (by omega) hlower ?_
      rw [if_neg (by omega), hmid, Nat.add_sub_cancel]

theorem bisect_cut (h : IsCut table wUpper streamval cut) {k : Nat}
    (hk : 2 ≤ k) (hlength : table.entries.length + 1 = 2 ^ k) {cdfSize : BitVec 16}
    (hsize : cdfSize.toNat = 2 ^ k) (wLower wUpper' : BitVec 32) :
    bisectLoop table.entries wUpper streamval 16 (cdfSize.toNat >>> 1)
        (((cdfSize.toNat >>> 1 : Nat) : Int) - 1) wLower wUpper' =
      some (foundCut table wUpper wLower wUpper' cut) := by
  obtain ⟨j, rfl⟩ : ∃ j, k = j + 1 := ⟨k - 1, by omega⟩
  have hle := h.le
  have hlt : j + 1 < 16 := by
    apply (Nat.pow_lt_pow_iff_right (show 1 < 2 by decide)).1
    rw [← hsize]
    exact cdfSize.isLt
  have hhalf : cdfSize.toNat >>> 1 = 2 ^ j := by omega
  rw [hhalf, show ((2 ^ j : Nat) : Int) = ((0 + 2 ^ j : Nat) : Int) by omega]
  refine bisectLoop_eq h (by omega) (Nat.zero_le _) (by omega) (by omega) ?_ ?_
  · rw [if_pos rfl]
  · rw [if_pos (by omega)]

theorem foundCut_succ (h : data + 1 < table.entries.length) (wLower wUpper' : BitVec 32) :
    foundCut table wUpper wLower wUpper' (data + 1) = foundAt table wUpper data := by
  have hdata : ((data + 1 : Nat) : Int) - 1 = data := by omega
  rw [foundCut, if_neg (by omega), if_neg (by omega), hdata]
  rfl

end Search

end WebrtcCore.Ports.Isac
