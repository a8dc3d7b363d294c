import WebrtcCore.Verified.Digits

/-!
# Range coding

A range coder names a list of symbols by a number in a shrinking range.  Each symbol takes a part
of the range; whenever the range has become narrow, all numbers are multiplied by the base, so
that one more digit is known to the encoder and one more is wanted by the decoder.

A register holds `k + 1` digits in base `b`.  A range of `shifts` digits past those is a lower end
and a width, both exact here; a sequence of digits is in it when its first `shifts + (k + 1)`
digits are.
-/

namespace WebrtcCore.Verified.RangeCoder

open Verified.Digits

/-- The numbers from `low` to `low + width`, after `shifts` digits. -/
structure Range where
  low : Nat
  width : Nat
  shifts : Nat
  deriving DecidableEq, Repr

/-- A symbol's part of a range: of a width `w`, the codes above `lo w` up to
`hi w`. -/
structure Slot where
  lo : Nat → Nat
  hi : Nat → Nat

/-- The part is inside every range that is wide enough, and not too small. -/
def Slot.Fits (b k : Nat) (slot : Slot) : Prop :=
  ∀ w, b ^ k ≤ w → slot.lo w + 1 < slot.hi w ∧ slot.hi w ≤ w

namespace Range

def narrow (r : Range) (lo hi : Nat) : Range := ⟨r.low + (lo + 1), hi - (lo + 1), r.shifts⟩

def shift (b : Nat) (r : Range) : Range := ⟨r.low * b, r.width * b, r.shifts + 1⟩

/-- Shift while the width is below `bottom`, at most `rounds` times. -/
def renormalize (b bottom : Nat) : Nat → Range → Range
  | 0, r => r
  | rounds + 1, r =>
    if r.width < bottom then renormalize b bottom rounds (r.shift b) else r

def encode (b k : Nat) (r : Range) (slot : Slot) : Range :=
  (r.narrow (slot.lo r.width) (slot.hi r.width)).renormalize b (b ^ k) k

/-- The part of the range that a symbol takes. -/
abbrev part (r : Range) (slot : Slot) : Range := r.narrow (slot.lo r.width) (slot.hi r.width)

def encodeAll (b k : Nat) (r : Range) (slots : List Slot) : Range := slots.foldl (encode b k) r

/-- The width has a digit in the top place of the register, and the range ends
below the next digit. -/
structure Ready (b k : Nat) (r : Range) : Prop where
  wide : b ^ k ≤ r.width
  bounded : r.low + r.width < b ^ (r.shifts + (k + 1))

/-- A sequence of digits is in the range. -/
def Contains (b k : Nat) (r : Range) (σ : Nat → Nat) : Prop :=
  r.low ≤ leading b σ (r.shifts + (k + 1)) ∧
    leading b σ (r.shifts + (k + 1)) ≤ r.low + r.width

variable {b k : Nat} {r : Range} {σ : Nat → Nat}

/-! ## Encoding -/

theorem shift_wide {bottom rounds : Nat} (h : bottom ≤ r.width * b ^ (rounds + 1)) :
    bottom ≤ (r.shift b).width * b ^ rounds := by
  rw [shift, Nat.mul_assoc, Nat.mul_comm b]
  exact h

theorem renormalize_wide {bottom rounds : Nat} (h : bottom ≤ r.width * b ^ rounds) :
    bottom ≤ (r.renormalize b bottom rounds).width := by
  induction rounds generalizing r with
  | zero => simpa [renormalize] using h
  | succ rounds ih =>
    rw [renormalize]
    split
    · exact ih (shift_wide h)
    · omega

theorem renormalize_bounded {bottom rounds : Nat} (hb : 0 < b)
    (h : r.low + r.width < b ^ (r.shifts + (k + 1))) :
    (r.renormalize b bottom rounds).low + (r.renormalize b bottom rounds).width <
      b ^ ((r.renormalize b bottom rounds).shifts + (k + 1)) := by
  induction rounds generalizing r with
  | zero => exact h
  | succ rounds ih =>
    rw [renormalize]
    split
    · apply ih
      rw [shift, ← Nat.add_mul, Nat.add_right_comm]
      exact Nat.mul_lt_mul_of_pos_right h hb
    · exact h

theorem shifts_le_renormalize (bottom rounds : Nat) :
    r.shifts ≤ (r.renormalize b bottom rounds).shifts := by
  induction rounds generalizing r with
  | zero => exact Nat.le_refl _
  | succ rounds ih =>
    rw [renormalize]
    split
    · exact Nat.le_trans (Nat.le_succ _) (ih (r := r.shift b))
    · exact Nat.le_refl _

theorem renormalize_rule {α β : Type} {f : Nat → α → β} {R : α → Range → Prop}
    {Q : β → Range → Prop} {bottom : Nat}
    (hdone : ∀ {fuel s r}, R s r → ¬r.width < bottom → Q (f (fuel + 1) s) r)
    (hstep : ∀ {fuel s r} rounds, R s r → r.width < bottom → r.shifts < ((r.shift b).renormalize b
      bottom rounds).shifts → (∀ s', R s' (r.shift b) → Q (f fuel s') ((r.shift b).renormalize b
      bottom rounds)) → Q (f (fuel + 1) s) ((r.shift b).renormalize b bottom rounds))
    {rounds fuel : Nat} {s : α} (hs : R s r) (hwide : bottom ≤ r.width * b ^ rounds)
    (hfuel : rounds < fuel) : Q (f fuel s) (r.renormalize b bottom rounds) := by
  induction rounds generalizing s r fuel with
  | zero =>
    obtain ⟨fuel, rfl⟩ : ∃ n, fuel = n + 1 := ⟨fuel - 1, by omega⟩
    rw [renormalize]
    exact hdone hs (by simpa using hwide)
  | succ rounds ih =>
    obtain ⟨fuel, rfl⟩ : ∃ n, fuel = n + 1 := ⟨fuel - 1, by omega⟩
    rw [renormalize]
    split
    case isTrue hnarrow =>
      exact hstep rounds hs hnarrow (shifts_le_renormalize bottom rounds (r := r.shift b))
        fun s' hs' => ih hs' (shift_wide hwide) (by omega)
    case isFalse hnarrow => exact hdone hs hnarrow

theorem shifts_le_encodeAll (slots : List Slot) : r.shifts ≤ (r.encodeAll b k slots).shifts := by
  induction slots generalizing r with
  | nil => exact Nat.le_refl _
  | cons slot slots ih =>
    have hstep : r.shifts ≤ (r.encode b k slot).shifts :=
      shifts_le_renormalize (b ^ k) k (r := r.narrow (slot.lo r.width) (slot.hi r.width))
    exact Nat.le_trans hstep ih

theorem Ready.part_wide (hr : r.Ready b k) {slot : Slot} (hslot : slot.Fits b k) :
    b ^ k ≤ (r.part slot).width * b ^ k := by
  obtain ⟨hlo, hhi⟩ := hslot r.width hr.wide
  apply Nat.le_mul_of_pos_left
  show 0 < slot.hi r.width - (slot.lo r.width + 1)
  omega

theorem Ready.encode (hr : r.Ready b k) (hb : 0 < b) {slot : Slot}
    (hslot : slot.Fits b k) : (r.encode b k slot).Ready b k := by
  obtain ⟨hlo, hhi⟩ := hslot r.width hr.wide
  have hbounded := hr.bounded
  constructor
  · exact renormalize_wide (hr.part_wide hslot)
  · apply renormalize_bounded hb
    show r.low + (slot.lo r.width + 1) +
      (slot.hi r.width - (slot.lo r.width + 1)) < b ^ (r.shifts + (k + 1))
    omega

theorem Ready.encodeAll (hr : r.Ready b k) (hb : 0 < b) {slots : List Slot}
    (hslots : ∀ slot ∈ slots, slot.Fits b k) :
    (r.encodeAll b k slots).Ready b k := by
  induction slots generalizing r with
  | nil => exact hr
  | cons slot slots ih =>
    exact ih (hr.encode hb (hslots slot List.mem_cons_self))
      fun s hs => hslots s (List.mem_cons_of_mem _ hs)

/-! ## Decoding -/

theorem Contains.of_shift (hσ : ∀ i, σ i < b) (h : (r.shift b).Contains b k σ) :
    r.Contains b k σ := by
  have hdigit := hσ (r.shifts + (k + 1))
  obtain ⟨hlow, hhigh⟩ := h
  rw [shift, Nat.add_right_comm, leading] at hlow hhigh
  dsimp only at hlow hhigh
  rw [← Nat.add_mul] at hhigh
  constructor
  · apply Nat.le_of_lt_succ
    apply Nat.lt_of_mul_lt_mul_right (a := b)
    rw [Nat.succ_mul]
    omega
  · apply Nat.le_of_mul_le_mul_right (c := b) _ (by omega)
    omega

theorem Contains.of_renormalize {bottom rounds : Nat} (hσ : ∀ i, σ i < b)
    (h : (r.renormalize b bottom rounds).Contains b k σ) : r.Contains b k σ := by
  induction rounds generalizing r with
  | zero => exact h
  | succ rounds ih =>
    rw [renormalize] at h
    split at h
    · exact (ih h).of_shift hσ
    · exact h

theorem Contains.of_encode (hr : r.Ready b k) (hσ : ∀ i, σ i < b) {slot : Slot}
    (hslot : slot.Fits b k) (h : (r.encode b k slot).Contains b k σ) :
    r.low + slot.lo r.width < leading b σ (r.shifts + (k + 1)) ∧
      leading b σ (r.shifts + (k + 1)) ≤ r.low + slot.hi r.width := by
  obtain ⟨hlo, hhi⟩ := hslot r.width hr.wide
  obtain ⟨hlow, hhigh⟩ := Contains.of_renormalize hσ h
  rw [narrow] at hlow hhigh
  dsimp only at hlow hhigh
  omega

theorem Contains.of_encodeAll (hr : r.Ready b k) (hb : 0 < b) (hσ : ∀ i, σ i < b)
    {slots : List Slot} (hslots : ∀ slot ∈ slots, slot.Fits b k)
    (h : (r.encodeAll b k slots).Contains b k σ) : r.Contains b k σ := by
  induction slots generalizing r with
  | nil => exact h
  | cons slot slots ih =>
    have hslot := hslots slot List.mem_cons_self
    have hnext := ih (hr.encode hb hslot) (fun s hs => hslots s (List.mem_cons_of_mem _ hs)) h
    have hfound := hnext.of_encode hr hσ hslot
    have hfits := hslot r.width hr.wide
    constructor <;> omega

/-! ## Ending -/

theorem contains_of_leading {j m : Nat} (hjm : j + m = k + 1) (hσ : ∀ i, σ i < b)
    (hwidth : 2 * b ^ m ≤ r.width) (hlead : leading b σ (r.shifts + j) = r.low / b ^ m + 1) :
    r.Contains b k σ := by
  have hpos : 0 < b ^ m := Nat.pow_pos (Nat.lt_of_le_of_lt (Nat.zero_le _) (hσ 0))
  have hdiv := leading_div (n := r.shifts + j) m fun i _ => hσ i
  rw [Nat.add_assoc, hjm, hlead] at hdiv
  have hlow := Nat.div_add_mod r.low (b ^ m)
  have hlowMod := Nat.mod_lt r.low hpos
  have hcode := Nat.div_add_mod (leading b σ (r.shifts + (k + 1))) (b ^ m)
  have hcodeMod := Nat.mod_lt (leading b σ (r.shifts + (k + 1))) hpos
  rw [hdiv, Nat.mul_add] at hcode
  generalize r.low % b ^ m = lowRest at hlow hlowMod
  generalize leading b σ (r.shifts + (k + 1)) % b ^ m = codeRest at hcode hcodeMod
  constructor <;> omega

end Range

end WebrtcCore.Verified.RangeCoder
