import WebrtcCore.Verified.CMemory

/-!
# An unbounded tape with two cursors, and rings that hold its end

A byte queue, a delay line and a ring buffer all present a tape on which elements are only ever
appended, with a write cursor at its end and a read cursor that may move in both directions within
a fixed distance of it.  The cells before the start of the tape are blank.

A ring of `n` cells holds the last `n` cells of the tape (`window`): rotating it to its write
position yields the window (`rotated`), and writing a block there advances the window by the
block (`rotated_overwrite`).  A write that wraps is two such writes, because the positions `n` and
`0` denote the same rotation.
-/

namespace WebrtcCore.Verified

open CMemory List

/-- A tape: everything appended so far and the read cursor.  The write
cursor is the end of `cells`. -/
structure Tape (α : Type) where
  cells : List α
  read : Int

namespace Tape

variable {α : Type}

/-! ## Cells and slices -/

/-- Cell `i` of the tape that carries `cells` from position `0` on and is
blank everywhere else. -/
def cell (blank : α) (cells : List α) (i : Int) : α :=
  if 0 ≤ i then cells.getD i.toNat blank else blank

/-- The `k` cells from position `r` on. -/
def slice (blank : α) (cells : List α) (r : Int) (k : Nat) : List α :=
  (List.range k).map fun (i : Nat) => cell blank cells (r + i)

@[simp] theorem slice_length (blank : α) (cells : List α) (r : Int) (k : Nat) :
    (slice blank cells r k).length = k := by
  simp [slice]

theorem slice_take (blank : α) (cells : List α) (r : Int) {k m : Nat} (h : k ≤ m) :
    (slice blank cells r m).take k = slice blank cells r k := by
  simp [slice, ← map_take, Nat.min_eq_left h]

/-! ## The tape and its operations -/

/-- The write cursor. -/
def write (t : Tape α) : Int := t.cells.length

/-- The number of cells between the cursors. -/
def unread (t : Tape α) : Nat := (t.write - t.read).toNat

/-- The cells between the cursors, oldest first. -/
def contents (blank : α) (t : Tape α) : List α := slice blank t.cells t.read t.unread

theorem contents_length (t : Tape α) (blank : α) : (t.contents blank).length = t.unread :=
  slice_length ..

/-- The cursors of a tape that is kept within distance `n`. -/
structure WF (n : Nat) (t : Tape α) : Prop where
  read_le : t.read ≤ t.write
  dist_le : t.write - t.read ≤ n

/-- The empty tape. -/
def empty : Tape α := ⟨[], 0⟩

/-- Append the part of `xs` that fits, and report its length. -/
def append (n : Nat) (t : Tape α) (xs : List α) : Nat × Tape α :=
  let k := min xs.length (n - t.unread)
  (k, { t with cells := t.cells ++ xs.take k })

/-- Take up to `k` cells at the read cursor. -/
def consume (blank : α) (t : Tape α) (k : Nat) : List α × Tape α :=
  let m := min k t.unread
  (slice blank t.cells t.read m, { t with read := t.read + m })

def seek (n : Nat) (t : Tape α) (k : Int) : Int × Tape α :=
  let target := max (t.write - n) (min t.write (t.read + k))
  (target - t.read, { t with read := target })

theorem WF.empty (n : Nat) : WF n (Tape.empty : Tape α) := by
  constructor <;> simp [Tape.empty, write]

variable {n : Nat} {t : Tape α}

theorem WF.append (h : WF n t) (xs : List α) : WF n (t.append n xs).2 := by
  obtain ⟨hle, hdist⟩ := h
  have hlen : (t.cells.length : Int) = t.write := rfl
  constructor
  · simp only [Tape.append, write, length_append]
    omega
  · simp only [Tape.append, write, length_append, length_take, unread]
    omega

theorem WF.consume (h : WF n t) (blank : α) (k : Nat) : WF n (t.consume blank k).2 := by
  obtain ⟨hle, hdist⟩ := h
  constructor <;> simp only [Tape.consume, write, unread] at * <;> omega

theorem wf_seek (n : Nat) (t : Tape α) (k : Int) : WF n (t.seek n k).2 := by
  constructor <;> simp only [Tape.seek, write] at * <;> omega

theorem WF.unread_eq (h : WF n t) : (t.unread : Int) = t.write - t.read := by
  have hle := h.read_le
  exact Int.toNat_of_nonneg (by omega)

theorem seek_snd (n : Nat) (t : Tape α) (k : Int) :
    (t.seek n k).2 = { t with read := t.read + (t.seek n k).1 } := by
  simp only [seek]
  congr 1
  omega

theorem WF.seek_fst (h : WF n t) (k : Int) :
    (t.seek n k).1 = max (t.unread - n : Int) (min t.unread k) := by
  rw [h.unread_eq]
  simp only [Tape.seek]
  omega

theorem WF.unread_seek (h : WF n t) (k : Int) :
    ((t.seek n k).2.unread : Int) = t.unread - (t.seek n k).1 := by
  rw [(wf_seek n t k).unread_eq, h.unread_eq, seek_snd]
  simp only [write]
  omega

/-! ## The last `n` cells -/

/-- The last `n` cells of the tape, blanks included. -/
def window (n : Nat) (blank : α) (cells : List α) : List α :=
  (List.replicate n blank ++ cells).drop cells.length

@[simp] theorem window_length (n : Nat) (blank : α) (cells : List α) :
    (window n blank cells).length = n := by
  simp [window]

@[simp] theorem window_nil (n : Nat) (blank : α) : window n blank [] = List.replicate n blank := by
  simp [window]

theorem window_append (n : Nat) (blank : α) (cells xs : List α) :
    window n blank (cells ++ xs) = (window n blank cells ++ xs).drop xs.length := by
  have hle : cells.length ≤ (replicate n blank ++ cells).length := by simp
  simp only [window, length_append, ← append_assoc]
  rw [← drop_append_of_le_length hle, drop_drop]

variable {a n p : Nat} {t : Tape α} {ring : List α}

theorem slice_eq_window_drop (n : Nat) (blank : α) (cells : List α) (ha : a ≤ n) :
    slice blank cells ((cells.length : Int) - a) a = (window n blank cells).drop (n - a) := by
  apply ext_getElem
  · simp; omega
  · intro i hi _
    rw [slice_length] at hi
    simp only [slice, getElem_map, getElem_range, window, getElem_drop, cell]
    by_cases hneg : cells.length + i < a
    · rw [if_neg (by omega), getElem_append_left (by simp; omega), getElem_replicate]
    · rw [if_pos (by omega), getElem_append_right (by simp; omega), getD_eq_getElem?_getD]
      simp only [length_replicate]
      have hidx : ((cells.length : Int) - a + i).toNat = cells.length + (n - a + i) - n := by omega
      rw [hidx, getElem?_eq_getElem (by omega), Option.getD_some]

theorem contents_eq_window_drop (h : Tape.WF n t) (blank : α) :
    t.contents blank = (window n blank t.cells).drop (n - t.unread) := by
  obtain ⟨hle, hdist⟩ := h
  have hread : t.read = (t.cells.length : Int) - t.unread := by
    simp only [unread, write] at *
    omega
  rw [contents, hread]
  exact slice_eq_window_drop n blank t.cells (by simp only [unread]; omega)

theorem contents_append (h : Tape.WF n t) (blank : α) {xs : List α}
    (hfit : t.unread + xs.length ≤ n) :
    (t.append n xs).1 = xs.length ∧ (t.append n xs).2.contents blank = t.contents blank ++ xs := by
  have hk : (t.append n xs).1 = xs.length := by
    simp only [append]
    omega
  have hcells : (t.append n xs).2.cells = t.cells ++ xs := by
    simp [append, Nat.min_eq_left (show xs.length ≤ n - t.unread by omega)]
  have hunread : (t.append n xs).2.unread = t.unread + xs.length := by
    have hle := h.read_le
    have hread : (t.append n xs).2.read = t.read := rfl
    simp only [unread, write, hcells, length_append] at hle ⊢
    omega
  refine ⟨hk, ?_⟩
  rw [contents_eq_window_drop (h.append xs), hcells, hunread, window_append,
    drop_drop, contents_eq_window_drop h,
    show xs.length + (n - (t.unread + xs.length)) = n - t.unread by omega,
    drop_append_of_le_length (by simp)]

theorem contents_consume (h : Tape.WF n t) (blank : α) (k : Nat) :
    (t.consume blank k).1 = (t.contents blank).take k ∧
      (t.consume blank k).2.contents blank = (t.contents blank).drop k := by
  have hlen := t.contents_length blank
  have hfst : (t.consume blank k).1 = (t.contents blank).take k := by
    rw [consume, ← slice_take blank t.cells t.read (Nat.min_le_right k t.unread), ← contents,
      ← hlen, ← take_eq_take_min]
  have hwf := h.consume blank k
  have hunread : (t.consume blank k).2.unread = t.unread - k := by
    have hle := h.read_le
    simp only [consume, unread, write] at hle ⊢
    omega
  have hdist := h.dist_le
  refine ⟨hfst, ?_⟩
  rw [contents_eq_window_drop hwf, contents_eq_window_drop h, drop_drop]
  by_cases hk : k ≤ t.unread
  · congr 1
    simp only [unread] at *
    omega
  · rw [drop_of_length_le (by simp; omega), drop_of_length_le (by simp; omega)]

/-! ## Rings -/

/-- The ring read in time order when the next element is written at `p`. -/
def rotated (ring : List α) (p : Nat) : List α := ring.drop p ++ ring.take p

theorem rotated_length (ring : List α) : rotated ring ring.length = rotated ring 0 := by
  simp [rotated]

theorem rotated_replicate (n : Nat) (x : α) :
    rotated (List.replicate n x) 0 = List.replicate n x := by
  simp [rotated]

theorem rotated_overwrite {block : List α} (h : p + block.length ≤ ring.length) :
    rotated (overwrite ring p block) (p + block.length) =
      (rotated ring p ++ block).drop block.length := by
  have hpre : (ring.take p ++ block).length = p + block.length := by simp; omega
  unfold rotated overwrite
  rw [drop_left' hpre, take_left' hpre, append_assoc, drop_append_of_le_length (by simp; omega),
    drop_drop]

theorem rotated_drop_of_le (hp : p ≤ ring.length) (ha : a ≤ p) :
    (rotated ring p).drop (ring.length - a) = (ring.drop (p - a)).take a := by
  have hlen : (ring.drop p).length = ring.length - p := by simp
  have hsplit : ring.length - a = (ring.drop p).length + (p - a) := by omega
  rw [rotated, hsplit, drop_length_add_append, drop_take]
  congr 1
  omega

theorem rotated_drop_of_lt {q : Nat} (hq : q + a = p + ring.length) (hpq : p ≤ q)
    (hql : q ≤ ring.length) :
    (rotated ring p).drop (ring.length - a) = ring.drop q ++ ring.take p := by
  have hle : ring.length - a ≤ (ring.drop p).length := by simp; omega
  rw [rotated, drop_append_of_le_length hle, drop_drop]
  congr 2
  omega

end Tape

end WebrtcCore.Verified
