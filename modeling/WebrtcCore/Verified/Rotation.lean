/-!
# A beginning that is kept and a window that rotates

A stream is cut into segments: the first `half` elements are one segment, and what
follows is cut into segments of `size`.  The first segment and the newest `n` of the
others are held, newest first; the newest one is still being filled.

`Layout` relates what was written to the segments after a number of rotations.
`Layout.write` and `Layout.rotate` are its steps, `Layout.reads` says what the
segments hold together and `Layout.length_le` how much that is.
-/

namespace WebrtcCore.Verified.Rotation

open List

variable {β : Type} {half size n : Nat} {written : List β}

/-- The segments held after some rotations, newest first. -/
inductive Layout (half size n : Nat) (written : List β) : Nat → List (List β) → Prop
  | beginning (fits : written.length ≤ half) : Layout half size n written 0 [written]
  | rotating {rotations : Nat} {newest : List β} {full : List (List β)} {lost : List β}
      (hfull : ∀ segment ∈ full, segment.length = size) (hnewest : newest.length ≤ size)
      (hcount : full.length + 1 = min rotations n)
      (hkept : rotations ≤ n → lost = []) (hlost : n < rotations → size ≤ lost.length)
      (hhalf : half ≤ written.length)
      (hrest : written.drop half = lost ++ full.reverse.flatten ++ newest) :
      Layout half size n written rotations (newest :: (full ++ [written.take half]))

/-- The room of the segment that is being filled. -/
def room (half size rotations : Nat) : Nat := if rotations = 0 then half else size

/-- The index of the segment that a rotation gives up. -/
def victim (n rotations : Nat) : Nat := if rotations < n then n else n - 1

variable {segments : List (List β)}

theorem length_flatten_of_forall (h : ∀ segment ∈ segments, segment.length = size) :
    segments.flatten.length = segments.length * size := by
  induction segments with
  | nil => simp
  | cons segment segments ih =>
    rw [forall_mem_cons] at h
    rw [flatten_cons, length_append, h.1, ih h.2, length_cons, Nat.succ_mul, Nat.add_comm]

variable {rotations : Nat} {newest : List β} {others : List (List β)}

theorem Layout.write (h : Layout half size n written rotations (newest :: others))
    {data : List β} (hroom : newest.length + data.length ≤ room half size rotations) :
    Layout half size n (written ++ data) rotations ((newest ++ data) :: others) := by
  cases h with
  | beginning fits =>
    apply Layout.beginning
    rw [length_append]
    exact hroom
  | @rotating _ _ full lost hfull hnewest hcount hkept hlost hhalf hrest =>
    have hrot : rotations ≠ 0 := by omega
    rw [room, if_neg hrot] at hroom
    have htake : (written ++ data).take half = written.take half := take_append_of_le_length hhalf
    rw [← htake]
    refine .rotating hfull ?_ hcount hkept hlost ?_ ?_
    · rw [length_append]
      exact hroom
    · rw [length_append]
      omega
    · rw [drop_append_of_le_length hhalf, hrest, append_assoc]

theorem Layout.rotate (h : Layout half size n written rotations (newest :: others))
    (hn : 2 ≤ n) (hfilled : newest.length = room half size rotations) :
    Layout half size n written (rotations + 1)
      ([] :: (newest :: others).eraseIdx (victim n rotations)) := by
  cases h with
  | beginning fits =>
    have hlen : written.length = half := hfilled
    rw [victim, if_pos (by omega), eraseIdx_of_length_le (by simp; omega)]
    have hcount : ([] : List (List β)).length + 1 = min 1 n := by
      rw [length_nil]
      omega
    have hrest : written.drop half = [] ++ ([] : List (List β)).reverse.flatten ++ [] := by
      rw [drop_of_length_le (Nat.le_of_eq hlen)]
      rfl
    have hlayout : Layout half size n written 1 ([] :: ([] ++ [written.take half])) :=
      .rotating (by simp) (Nat.zero_le _) hcount (fun _ => rfl) (fun hlost => by omega)
        (Nat.le_of_eq hlen.symm) hrest
    rw [take_of_length_le fits] at hlayout
    exact hlayout
  | @rotating _ _ full lost hfull hnewest hcount hkept hlost hhalf hrest =>
    have hrot : rotations ≠ 0 := by omega
    rw [room, if_neg hrot] at hfilled
    by_cases hlt : rotations < n
    · -- nothing is given up: the first segment moves on
      rw [victim, if_pos hlt, eraseIdx_of_length_le (by simp; omega)]
      have hfull' : ∀ segment ∈ newest :: full, segment.length = size := by
        rw [forall_mem_cons]
        exact ⟨hfilled, hfull⟩
      have hcount' : (newest :: full).length + 1 = min (rotations + 1) n := by
        rw [length_cons]
        omega
      have hrest' : written.drop half = [] ++ (newest :: full).reverse.flatten ++ [] := by
        rw [hrest, hkept (Nat.le_of_lt hlt)]
        simp
      exact .rotating hfull' (Nat.zero_le _) hcount' (fun _ => rfl) (fun hlost => by omega)
        hhalf hrest'
    · -- the oldest of the full segments is given up
      have hlen : full.length = n - 1 := by omega
      have hne : full ≠ [] := by
        intro hnil
        rw [hnil, length_nil] at hlen
        omega
      have hsplit : ∃ front oldest, full = front ++ [oldest] :=
        ⟨_, _, (dropLast_concat_getLast hne).symm⟩
      obtain ⟨front, oldest, rfl⟩ := hsplit
      rw [length_append, length_singleton] at hlen
      rw [forall_mem_append, forall_mem_singleton] at hfull
      have hfull' : ∀ segment ∈ newest :: front, segment.length = size := by
        rw [forall_mem_cons]
        exact ⟨hfilled, hfull.1⟩
      have hcount' : (newest :: front).length + 1 = min (rotations + 1) n := by
        rw [length_cons]
        omega
      have hlost' : size ≤ (lost ++ oldest).length := by
        rw [length_append]
        omega
      have hrest' : written.drop half =
          (lost ++ oldest) ++ (newest :: front).reverse.flatten ++ [] := by
        rw [hrest]
        simp
      have herase : (newest :: (front ++ [oldest] ++ [written.take half])).eraseIdx
          (victim n rotations) = (newest :: front) ++ [written.take half] := by
        rw [victim, if_neg hlt, ← hlen, eraseIdx_cons_succ, append_assoc,
          eraseIdx_append_of_length_le (Nat.le_refl _), Nat.sub_self]
        rfl
      rw [herase]
      exact .rotating hfull' (Nat.zero_le _) hcount' (fun hle => by omega) (fun _ => hlost')
        hhalf hrest'

variable (h : Layout half size n written rotations segments)
include h

theorem Layout.reads :
    ∃ tail, segments.reverse.flatten = written.take half ++ tail ∧ tail <:+ written.drop half ∧
      ((written.drop half).length < n * size → tail = written.drop half) ∧
      (n * size ≤ (written.drop half).length → (n - 1) * size ≤ tail.length) := by
  cases h with
  | beginning fits =>
    refine ⟨[], ?_, nil_suffix, ?_, ?_⟩
    · simp [take_of_length_le fits]
    · intro _
      rw [drop_of_length_le fits]
    · rw [drop_of_length_le fits]
      intro hle
      exact Nat.le_trans (Nat.mul_le_mul_right size (Nat.sub_le n 1)) hle
  | @rotating _ newest full lost hfull hnewest hcount hkept hlost hhalf hrest =>
    refine ⟨full.reverse.flatten ++ newest, ?_, ?_, ?_, ?_⟩
    · simp
    · rw [hrest, append_assoc]
      exact suffix_append _ _
    · intro hshort
      by_cases hle : rotations ≤ n
      · rw [hrest, hkept hle, nil_append]
      · -- after that many rotations more than the window has been written
        have hlen := length_flatten_of_forall hfull
        have hcells : full.length + 1 = n := by omega
        rw [hrest, ← hcells, Nat.succ_mul] at hshort
        simp only [length_append, length_flatten, map_reverse, sum_reverse] at hshort hlen
        omega
    · intro hlong
      have hlen := length_flatten_of_forall hfull
      by_cases hle : rotations ≤ n
      · rw [hrest, hkept hle] at hlong
        exact Nat.le_trans (Nat.mul_le_mul_right size (Nat.sub_le n 1)) hlong
      · have hcells : n - 1 = full.length := by omega
        rw [hcells]
        simp only [length_append, length_flatten, map_reverse, sum_reverse] at hlen ⊢
        omega

theorem Layout.length_le : segments.flatten.length ≤ half + n * size := by
  cases h with
  | beginning fits =>
    simp
    omega
  | @rotating _ newest full lost hfull hnewest hcount hkept hlost hhalf hrest =>
    have hlen := length_flatten_of_forall hfull
    have hcells : full.length * size + size ≤ n * size := by
      rw [← Nat.succ_mul]
      exact Nat.mul_le_mul_right size (by omega)
    simp only [flatten_cons, flatten_append, length_append, flatten_nil, length_nil, length_take]
    omega

theorem Layout.length_segments_le : segments.length ≤ n + 1 := by
  cases h with
  | beginning fits => simp
  | rotating hfull hnewest hcount hkept hlost hhalf hrest =>
    simp
    omega

omit h

end WebrtcCore.Verified.Rotation
