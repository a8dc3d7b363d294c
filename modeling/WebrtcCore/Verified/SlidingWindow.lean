import Mathlib.Data.List.DropRight
import WebrtcCore.Verified.Ring
import WebrtcCore.Verified.Simulation

/-!
# The latest values of a stream

`latest n l` is the window over the last `n` values of a stream, or over all of them while there
are fewer.  A ring with as many cells as the window is long can hold it: the next value goes to
the cell of the oldest one once the ring is full (`Recent`).

A queue of values in the order of their times loses the old ones at its front: loops that drop
from an end while a test holds leave out exactly the values with the test.
-/

namespace WebrtcCore.Verified.SlidingWindow

open Verified.Ring Verified.Simulation List

variable {α : Type} {n : Nat} {l : List α}

/-- The last `n` values, or all of them. -/
def latest (n : Nat) (l : List α) : List α := l.drop (l.length - n)

@[simp] theorem latest_nil (n : Nat) : latest n ([] : List α) = [] := drop_nil

@[simp] theorem length_latest (n : Nat) (l : List α) : (latest n l).length = min l.length n := by
  rw [latest, length_drop]
  omega

theorem latest_of_le (h : l.length ≤ n) : latest n l = l := by
  rw [latest, Nat.sub_eq_zero_of_le h, drop_zero]

theorem latest_append_of_lt (h : l.length < n) (x : α) :
    latest n (l ++ [x]) = latest n l ++ [x] := by
  rw [latest_of_le (by rw [length_append, length_singleton]; omega), latest_of_le (Nat.le_of_lt h)]

theorem latest_append_of_le (hn : 0 < n) (h : n ≤ l.length) (x : α) :
    latest n (l ++ [x]) = (latest n l).tail ++ [x] := by
  have hdrop : (l ++ [x]).length - n = l.length - n + 1 := by
    rw [length_append, length_singleton]
    omega
  rw [latest, hdrop, drop_append_of_le_length (by omega), latest, tail_drop]

theorem dropWhile_eq_filter {p : α → Bool} (h : l.Pairwise fun a b => p b = true → p a = true) :
    l.dropWhile p = l.filter fun a => !p a := by
  induction l with
  | nil => rfl
  | cons a l ih =>
    rw [pairwise_cons] at h
    cases ha : p a with
    | true =>
      rw [dropWhile_cons_of_pos ha, filter_cons_of_neg (by simp [ha])]
      exact ih h.2
    | false =>
      have hrest : l.filter (fun b => !p b) = l := by
        rw [filter_eq_self]
        intro b hb
        cases hpb : p b with
        | true => exact absurd (h.1 b hb hpb) (by simp [ha])
        | false => rfl
      rw [dropWhile_cons_of_neg (by simp [ha]), filter_cons_of_pos (by simp [ha]), hrest]

theorem rdropWhile_eq_filter {p : α → Bool} (h : l.Pairwise fun a b => p a = true → p b = true) :
    l.rdropWhile p = l.filter fun a => !p a := by
  rw [rdropWhile, dropWhile_eq_filter (pairwise_reverse.mpr h), filter_reverse, reverse_reverse]

/-- Value number `i` of the stream is at `offset + i` in the ring, for the latest values. -/
def Recent (ring : List α) (offset : Nat) (l : List α) : Prop :=
  Holds ring (offset + (l.length - ring.length)) (latest ring.length l)

namespace Recent

variable {ring : List α} {offset : Nat}

theorem nil (ring : List α) (offset : Nat) : Recent ring offset [] := by
  rw [Recent, latest_nil]
  exact Holds.nil _ _

theorem cell_of_full (offset : Nat) (hfull : ring.length ≤ l.length) :
    (offset + l.length) % ring.length = (offset + (l.length - ring.length)) % ring.length := by
  rw [show offset + l.length = offset + (l.length - ring.length) + ring.length by omega,
    Nat.add_mod_right]

theorem oldest (h : Recent ring offset l) (hring : 0 < ring.length)
    (hfull : ring.length ≤ l.length) :
    ring[(offset + l.length) % ring.length]? = (latest ring.length l).head? := by
  have hfirst := h 0 (by rw [length_latest]; omega)
  rw [cell_of_full offset hfull, head?_eq_getElem?]
  exact hfirst

theorem push (h : Recent ring offset l) (hring : 0 < ring.length) (x : α) :
    Recent (ring.set ((offset + l.length) % ring.length) x) offset (l ++ [x]) := by
  unfold Recent at h ⊢
  rw [length_set]
  by_cases hfull : ring.length ≤ l.length
  · have hlength := length_latest ring.length l
    obtain ⟨y, rest, hlatest⟩ := exists_cons_of_length_pos (l := latest ring.length l) (by omega)
    rw [hlatest] at h hlength
    rw [length_cons] at hlength
    rw [latest_append_of_le hring hfull, hlatest, cell_of_full offset hfull, length_append,
      Nat.sub_add_comm hfull]
    exact h.exchange (by omega) x
  · have hzero : l.length - ring.length = 0 := by omega
    have hzero' : (l ++ [x]).length - ring.length = 0 := by
      rw [length_append, length_singleton]
      omega
    rw [hzero] at h
    rw [hzero']
    rw [latest_of_le (by omega)] at h ⊢
    apply (h.set_outside x (Nat.le_refl _) (by omega)).push
    rw [length_set, getElem?_set_self (Nat.mod_lt _ hring)]

end Recent

theorem exec_ring {β : Type} {ring contents : List α} {start : Nat}
    (h : Holds ring start contents) (f : β → α → β) (m : Nat) :
    ∀ {k : Nat} (acc : β), k + m = contents.length →
      exec (fun acc i => (ring[(start + i) % ring.length]?).map (f acc)) acc
        (List.range' k m) = some ((contents.drop k).foldl f acc) := by
  induction m with
  | zero =>
    intro k acc hk
    rw [drop_of_length_le (by omega)]
    rfl
  | succ m ih =>
    intro k acc hk
    have hlt : k < contents.length := by omega
    rw [range'_succ, exec, h k hlt, getElem?_eq_getElem hlt, Option.map_some,
      Option.bind_some, ih _ (by omega), drop_eq_getElem_cons hlt, foldl_cons]

end WebrtcCore.Verified.SlidingWindow
