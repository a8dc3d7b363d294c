/-!
# Cursors and reads that may fail

A decoder walks a cursor over a fixed buffer, and each read either succeeds with a value or
reports failure.  Where a failed read leaves the cursor is part of what the sources promise, so an
`Attempt σ α` maps a state to an optional value *and* a state.

`Reads p w a` says that `p` decodes the word `w` to `a` wherever it stands, consuming exactly `w`;
it composes (`Reads.bind`).  In the other direction `bind_eq_some_iff` peels a successful read
into its steps, and `Width` tells how many cells it takes.
-/

namespace WebrtcCore.Verified

/-- A position in a fixed list of cells. -/
structure Cursor (τ : Type) where
  cells : List τ
  pos : Nat
  pos_le : pos ≤ cells.length

namespace Cursor

/-! ## Attempts -/

/-- A computation on a state `σ` that may fail, keeping the state reached. -/
def Attempt (σ α : Type) : Type := σ → Option α × σ

namespace Attempt

variable {σ ρ α β : Type}

instance : Monad (Attempt σ) where
  pure a := fun s => (some a, s)
  bind x f := fun s =>
    match x s with
    | (some a, s') => f a s'
    | (none, s') => (none, s')

/-- Stop and report failure. -/
def fail : Attempt σ α := fun s => (none, s)

/-- Go on only if `p` holds. -/
def guard (p : Prop) [Decidable p] : Attempt σ Unit := fun s =>
  if p then (some (), s) else (none, s)

/-- The present state. -/
def get : Attempt σ σ := fun s => (some s, s)

/-- Change the state. -/
def modify (f : σ → σ) : Attempt σ Unit := fun s => (some (), f s)

/-- Run `x` for its effect on the state and ignore whether it failed. -/
def ignore (x : Attempt σ α) : Attempt σ Unit := fun s => (some (), (x s).2)

/-- Run an attempt on the second component of a larger state. -/
def onSnd (x : Attempt σ α) : Attempt (ρ × σ) α := fun s =>
  ((x s.2).1, (s.1, (x s.2).2))

@[simp] theorem pure_apply (a : α) (s : σ) : (pure a : Attempt σ α) s = (some a, s) := rfl

@[simp] theorem get_apply (s : σ) : (get : Attempt σ σ) s = (some s, s) := rfl

@[simp] theorem modify_apply (f : σ → σ) (s : σ) : modify f s = (some (), f s) := rfl

@[simp] theorem ignore_apply (x : Attempt σ α) (s : σ) : ignore x s = (some (), (x s).2) := rfl

@[simp] theorem guard_apply (p : Prop) [Decidable p] (s : σ) :
    guard p s = if p then (some (), s) else (none, s) := rfl

theorem bind_apply (x : Attempt σ α) (f : α → Attempt σ β) (s : σ) :
    (x >>= f) s = match x s with
      | (some a, s') => f a s'
      | (none, s') => (none, s') := rfl

variable {x : Attempt σ α} {s s' : σ} {a : α}

theorem bind_of_some (h : x s = (some a, s')) (f : α → Attempt σ β) : (x >>= f) s = f a s' := by
  rw [bind_apply, h]

theorem bind_eq_some_iff {f : α → Attempt σ β} {s'' : σ} {b : β} :
    (x >>= f) s = (some b, s'') ↔ ∃ a s', x s = (some a, s') ∧ f a s' = (some b, s'') := by
  constructor
  · intro h
    rw [bind_apply] at h
    rcases hx : x s with ⟨_ | a, s'⟩
    · rw [hx] at h
      cases h
    · rw [hx] at h
      exact ⟨a, s', rfl, h⟩
  · rintro ⟨a, s', hx, hf⟩
    rw [bind_of_some hx, hf]

theorem guard_eq_some_iff {p : Prop} [Decidable p] : guard p s = (some (), s') ↔ p ∧ s' = s := by
  by_cases h : p <;> simp [h, eq_comm]

theorem guard_bind_eq_some_iff {p : Prop} [Decidable p] {f : Unit → Attempt σ α} :
    (guard p >>= f) s = (some a, s') ↔ p ∧ f () s = (some a, s') := by
  constructor
  · intro h
    obtain ⟨u, s₁, hguard, hf⟩ := bind_eq_some_iff.1 h
    obtain ⟨hp, rfl⟩ := guard_eq_some_iff.1 hguard
    exact ⟨hp, hf⟩
  · rintro ⟨hp, hf⟩
    rw [bind_of_some (guard_eq_some_iff.2 ⟨hp, rfl⟩), hf]

theorem onSnd_eq_some_iff {r r' : ρ} :
    onSnd x (r, s) = (some a, (r', s')) ↔ x s = (some a, s') ∧ r' = r := by
  unfold onSnd
  constructor
  · intro h
    simp only [Prod.mk.injEq] at h
    exact ⟨Prod.ext h.1 h.2.2, h.2.1.symm⟩
  · rintro ⟨hx, rfl⟩
    rw [hx]

/-! ### What an attempt leaves alone -/

/-- The attempt does not change `g` of the state, whether or not it fails. -/
def Keeps {γ : Type} (g : σ → γ) (x : Attempt σ α) : Prop := ∀ s, g (x s).2 = g s

namespace Keeps

variable {γ : Type} {g : σ → γ}

theorem pure (a : α) : Keeps g (Pure.pure a : Attempt σ α) := fun _ => rfl

theorem fail : Keeps g (Attempt.fail : Attempt σ α) := fun _ => rfl

theorem get : Keeps g (Attempt.get : Attempt σ σ) := fun _ => rfl

theorem modify {f : σ → σ} (h : ∀ s, g (f s) = g s) : Keeps g (Attempt.modify f) := h

theorem guard (p : Prop) [Decidable p] : Keeps g (Attempt.guard p : Attempt σ Unit) := by
  intro s
  rw [guard_apply]
  by_cases h : p <;> simp [h]

theorem onSnd {h : ρ → γ} (x : Attempt σ α) :
    Keeps (fun s : ρ × σ => h s.1) (Attempt.onSnd x) := fun _ => rfl

theorem bind {x : Attempt σ α} {f : α → Attempt σ β} (hx : Keeps g x)
    (hf : ∀ a, Keeps g (f a)) : Keeps g (x >>= f) := by
  intro s
  have hs := hx s
  rw [bind_apply]
  rcases hcase : x s with ⟨_ | a, s'⟩ <;> rw [hcase] at hs
  · exact hs
  · exact (hf a s').trans hs

end Keeps

/-- Unless the attempt succeeds it leaves the state as it was. -/
def RestoresAt (x : Attempt σ α) (s : σ) : Prop := (x s).1 = none → (x s).2 = s

theorem RestoresAt.map (h : RestoresAt x s) (g : α → β) :
    RestoresAt (x >>= fun a => Pure.pure (g a)) s := by
  intro hnone
  rw [bind_apply] at hnone ⊢
  rcases hcase : x s with ⟨_ | a, s'⟩ <;> rw [hcase] at hnone
  · have hs := h (by rw [hcase])
    rw [hcase] at hs
    exact hs
  · cases hnone

end Attempt

/-! ## Moving the cursor -/

section Moves

variable {τ : Type}

/-- The cursor at the front of a list. -/
def start (cells : List τ) : Cursor τ := ⟨cells, 0, Nat.zero_le _⟩

/-- The cells not passed yet. -/
def rest (c : Cursor τ) : List τ := c.cells.drop c.pos

def remaining (c : Cursor τ) : Nat := c.cells.length - c.pos

/-- Move forward by `n` cells, stopping at the end. -/
def advance (c : Cursor τ) (n : Nat) : Cursor τ :=
  ⟨c.cells, min (c.pos + n) c.cells.length, Nat.min_le_right _ _⟩

@[simp] theorem rest_start (cells : List τ) : (start cells).rest = cells := rfl

variable (c : Cursor τ)

@[simp] theorem rest_length : c.rest.length = c.remaining := List.length_drop

@[simp] theorem advance_cells (n : Nat) : (c.advance n).cells = c.cells := rfl

theorem advance_pos {c : Cursor τ} {n : Nat} (h : n ≤ c.remaining) :
    (c.advance n).pos = c.pos + n := by
  have hle := c.pos_le
  unfold remaining at h
  exact Nat.min_eq_left (by omega)

@[simp] theorem advance_zero : c.advance 0 = c := by
  have hle := c.pos_le
  unfold advance
  congr 1
  exact Nat.min_eq_left (by omega)

@[simp] theorem advance_advance (a b : Nat) : (c.advance a).advance b = c.advance (a + b) := by
  unfold advance
  congr 1
  simp only
  omega

@[simp] theorem advance_remaining (n : Nat) : (c.advance n).remaining = c.remaining - n := by
  unfold remaining advance
  simp only
  omega

theorem advance_eq_self_iff {c : Cursor τ} {n : Nat} :
    c.advance n = c ↔ n = 0 ∨ c.remaining = 0 := by
  have hle := c.pos_le
  unfold remaining
  constructor
  · intro h
    have hpos : min (c.pos + n) c.cells.length = c.pos := congrArg Cursor.pos h
    omega
  · intro h
    unfold advance
    congr 1
    omega

theorem rest_advance (n : Nat) : (c.advance n).rest = c.rest.drop n := by
  have hpos : (c.advance n).pos = min (c.pos + n) c.cells.length := rfl
  rw [rest, rest, List.drop_drop, advance_cells, hpos]
  by_cases h : c.pos + n ≤ c.cells.length
  · rw [Nat.min_eq_left h]
  · rw [Nat.min_eq_right (by omega), List.drop_length, List.drop_eq_nil_of_le (by omega)]

end Moves

/-! ## Reads of a cursor -/

section Reads

variable {τ α β : Type}

/-- Take `n` cells, or fail without moving. -/
def takeCells (n : Nat) : Attempt (Cursor τ) (List τ) := fun c =>
  if n ≤ c.remaining then (some (c.rest.take n), c.advance n) else (none, c)

/-- Pass over `n` cells, or fail without moving. -/
def skipCells (n : Nat) : Attempt (Cursor τ) Unit := fun c =>
  if n ≤ c.remaining then (some (), c.advance n) else (none, c)

theorem takeCells_eq_some_iff {n : Nat} {c c' : Cursor τ} {w : List τ} :
    takeCells n c = (some w, c') ↔ n ≤ c.remaining ∧ w = c.rest.take n ∧ c' = c.advance n := by
  unfold takeCells
  by_cases h : n ≤ c.remaining <;> simp [h, eq_comm]

theorem skipCells_eq_some_iff {n : Nat} {c c' : Cursor τ} :
    skipCells n c = (some (), c') ↔ n ≤ c.remaining ∧ c' = c.advance n := by
  unfold skipCells
  by_cases h : n ≤ c.remaining <;> simp [h, eq_comm]

theorem restoresAt_takeCells (n : Nat) (c : Cursor τ) : Attempt.RestoresAt (takeCells n) c := by
  unfold Attempt.RestoresAt takeCells
  by_cases h : n ≤ c.remaining <;> simp [h]

theorem restoresAt_skipCells (n : Nat) (c : Cursor τ) : Attempt.RestoresAt (skipCells n) c := by
  unfold Attempt.RestoresAt skipCells
  by_cases h : n ≤ c.remaining <;> simp [h]

/-- `p` decodes the word `w` to `a`, whatever follows `w`. -/
def Reads (p : Attempt (Cursor τ) α) (w : List τ) (a : α) : Prop :=
  ∀ (c : Cursor τ) (rest : List τ), c.rest = w ++ rest →
    p c = (some a, c.advance w.length)

namespace Reads

theorem pure (a : α) : Reads (Pure.pure a : Attempt (Cursor τ) α) [] a := by
  intro c rest _
  simp

variable {p : Attempt (Cursor τ) α} {a : α} {w : List τ}

theorem bind {f : α → Attempt (Cursor τ) β} {u v : List τ} {b : β} (hp : Reads p u a)
    (hf : Reads (f a) v b) :
    Reads (p >>= f) (u ++ v) b := by
  intro c rest hrest
  rw [List.append_assoc] at hrest
  have hnext : (c.advance u.length).rest = v ++ rest := by
    rw [Cursor.rest_advance, hrest, List.drop_left]
  rw [Attempt.bind_of_some (hp c _ hrest), hf _ _ hnext, Cursor.advance_advance, List.length_append]

theorem map (hp : Reads p w a) (g : α → β) : Reads (p >>= fun x => Pure.pure (g x)) w (g a) := by
  intro c rest hrest
  rw [Attempt.bind_of_some (hp c rest hrest), Attempt.pure_apply]

theorem guard {q : Prop} [Decidable q] (h : q) {f : Unit → Attempt (Cursor τ) β} {b : β}
    (hf : Reads (f ()) w b) : Reads (Attempt.guard q >>= f) w b := by
  have hguard : Reads (Attempt.guard q : Attempt (Cursor τ) Unit) [] () := by
    intro c rest _
    simp [h]
  exact hguard.bind hf

theorem takeCells (w : List τ) : Reads (takeCells w.length) w w := by
  intro c rest hrest
  rw [takeCells_eq_some_iff, ← Cursor.rest_length, hrest]
  simp

theorem skipCells (w : List τ) : Reads (skipCells w.length) w () := by
  intro c rest hrest
  rw [skipCells_eq_some_iff, ← Cursor.rest_length, hrest]
  simp

theorem ignore (hp : Reads p w a) : Reads (Attempt.ignore p) w () := by
  intro c rest hrest
  rw [Attempt.ignore_apply, hp c rest hrest]

end Reads

/-- A read that takes `n` cells whenever it succeeds. -/
def Width (p : Attempt (Cursor τ) α) (n : Nat) : Prop :=
  ∀ c a c', p c = (some a, c') → n ≤ c.remaining ∧ c'.remaining = c.remaining - n

namespace Width

theorem pure (a : α) : Width (Pure.pure a : Attempt (Cursor τ) α) 0 := by
  intro c b c' h
  rw [Prod.mk.injEq] at h
  rw [← h.2]
  exact ⟨Nat.zero_le _, rfl⟩

theorem bind {p : Attempt (Cursor τ) α} {f : α → Attempt (Cursor τ) β} {m n : Nat}
    (hp : Width p m) (hf : ∀ a, Width (f a) n) : Width (p >>= f) (m + n) := by
  intro c b c'' h
  obtain ⟨a, c', hfirst, hsecond⟩ := Attempt.bind_eq_some_iff.mp h
  have h₁ := hp c a c' hfirst
  have h₂ := hf a c' b c'' hsecond
  omega

theorem takeCells (n : Nat) : Width (takeCells n : Attempt (Cursor τ) (List τ)) n := by
  intro c w c' h
  rw [takeCells_eq_some_iff] at h
  rw [h.2.2, Cursor.advance_remaining]
  exact ⟨h.1, rfl⟩

theorem eq_none {p : Attempt (Cursor τ) α} {n : Nat} (h : Width p n) {c : Cursor τ}
    (hshort : c.remaining < n) : ∃ c', p c = (none, c') := by
  cases hp : p c with
  | mk result c' =>
    cases result with
    | none => exact ⟨c', rfl⟩
    | some a =>
      have hle := (h c a c' hp).1
      omega

end Width

theorem Reads.start {p : Attempt (Cursor τ) α} {w : List τ} {a : α} (h : Reads p w a)
    (rest : List τ) : ∃ c', p (Cursor.start (w ++ rest)) = (some a, c') ∧ c'.rest = rest := by
  refine ⟨_, h (Cursor.start (w ++ rest)) rest rfl, ?_⟩
  rw [Cursor.rest_advance, Cursor.rest_start, List.drop_left]

end Reads

end Cursor

end WebrtcCore.Verified
