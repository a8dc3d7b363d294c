/-!
# Streams of frames

A stream protocol cuts a sequence of cells into frames: each frame starts with
a header of a fixed length that tells how long its body is.  `Format.Cuts` is
the cut of some received cells into the frames that are complete and the tail
of the one that is not.  It exists at most once (`Cuts.unique`), and a receiver
that keeps the tail may go on with it alone (`Cuts.append`), so that what it
finds does not depend on how the stream arrives.
-/

namespace WebrtcCore.Verified.Framing

open List

/-- A frame format: the length of a header, and the length of the body that a
header announces. -/
structure Format (α : Type) where
  header : Nat
  body : List α → Nat
  header_pos : 0 < header

namespace Format

variable {α : Type} (format : Format α)

/-- The length of the frame that some cells start with. -/
def size (cells : List α) : Nat := format.header + format.body (cells.take format.header)

/-- The cells start with a whole frame. -/
def Complete (cells : List α) : Prop :=
  format.header ≤ cells.length ∧ format.size cells ≤ cells.length

/-- The cells are one frame. -/
def IsFrame (cells : List α) : Prop :=
  format.header ≤ cells.length ∧ format.size cells = cells.length

/-- The cut of some cells into frames and an incomplete tail. -/
structure Cuts (cells : List α) (frames : List (List α)) (tail : List α) : Prop where
  eq : cells = frames.flatten ++ tail
  frames : ∀ frame ∈ frames, format.IsFrame frame
  tail : ¬format.Complete tail

variable {format}

theorem size_append {cells : List α} (h : format.header ≤ cells.length)
    (rest : List α) : format.size (cells ++ rest) = format.size cells := by
  unfold size
  rw [take_append_of_le_length h]

theorem IsFrame.complete {frame : List α} (h : format.IsFrame frame)
    (rest : List α) : format.Complete (frame ++ rest) := by
  obtain ⟨hheader, hsize⟩ := h
  refine ⟨?_, ?_⟩
  · rw [length_append]
    omega
  · rw [size_append hheader, length_append]
    omega

theorem IsFrame.take_size {frame : List α} (h : format.IsFrame frame)
    (rest : List α) : (frame ++ rest).take (format.size (frame ++ rest)) = frame := by
  rw [size_append h.1, h.2, take_left]

theorem isFrame_take_size {cells : List α} (h : format.Complete cells) :
    format.IsFrame (cells.take (format.size cells)) := by
  have hle : format.header ≤ format.size cells := Nat.le_add_right _ _
  refine ⟨?_, ?_⟩
  · rw [length_take_of_le h.2]
    exact hle
  · rw [length_take_of_le h.2, size, take_take, Nat.min_eq_left hle, size]

namespace Cuts

variable {cells more tail tail' : List α} {frames frames' : List (List α)}

theorem of_incomplete (h : ¬format.Complete cells) : format.Cuts cells [] cells where
  eq := rfl
  frames := fun _ hmem => absurd hmem not_mem_nil
  tail := h

theorem cons (hcomplete : format.Complete cells)
    (h : format.Cuts (cells.drop (format.size cells)) frames tail) :
    format.Cuts cells (cells.take (format.size cells) :: frames) tail where
  eq := by rw [flatten_cons, append_assoc, ← h.eq, take_append_drop]
  frames := by
    intro frame hmem
    cases hmem with
    | head => exact isFrame_take_size hcomplete
    | tail _ hmem => exact h.frames frame hmem
  tail := h.tail

theorem unique (h : format.Cuts cells frames tail) (h' : format.Cuts cells frames' tail') :
    frames = frames' ∧ tail = tail' := by
  induction frames generalizing cells frames' with
  | nil =>
    cases frames' with
    | nil => exact ⟨rfl, h.eq.symm.trans h'.eq⟩
    | cons frame' rest' =>
      have hframe' := h'.frames frame' mem_cons_self
      have heq : tail = frame' ++ (rest'.flatten ++ tail') := by
        rw [← append_assoc]
        exact h.eq.symm.trans h'.eq
      exact absurd (hframe'.complete _) (heq ▸ h.tail)
  | cons frame rest ih =>
    have hframe := h.frames frame mem_cons_self
    have heq := h.eq
    rw [flatten_cons, append_assoc] at heq
    cases frames' with
    | nil =>
      have heq' : tail' = frame ++ (rest.flatten ++ tail) := h'.eq.symm.trans heq
      exact absurd (hframe.complete _) (heq' ▸ h'.tail)
    | cons frame' rest' =>
      have hframe' := h'.frames frame' mem_cons_self
      have heq' := h'.eq
      rw [flatten_cons, append_assoc] at heq'
      -- Both first frames are what the header of the same cells announces.
      have hfirst : frame = frame' := by
        rw [← hframe.take_size (rest.flatten ++ tail), ← heq, heq', hframe'.take_size]
      subst hfirst
      have hrest := append_cancel_left (heq.symm.trans heq')
      obtain ⟨hframes, htail⟩ :=
        ih ⟨rfl, fun x hx => h.frames x (mem_cons_of_mem _ hx), h.tail⟩
          ⟨hrest, fun x hx => h'.frames x (mem_cons_of_mem _ hx), h'.tail⟩
      exact ⟨by rw [hframes], htail⟩

theorem append (h : format.Cuts cells frames tail) (h' : format.Cuts (tail ++ more) frames' tail') :
    format.Cuts (cells ++ more) (frames ++ frames') tail' where
  eq := by rw [h.eq, append_assoc, h'.eq, flatten_append, append_assoc]
  frames := forall_mem_append.2 ⟨h.frames, h'.frames⟩
  tail := h'.tail

end Cuts

end Format

end WebrtcCore.Verified.Framing
