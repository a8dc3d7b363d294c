import WebrtcCore.Verified.CMemory
import WebrtcCore.Verified.Unwrapping

/-!
# Timestamps that wrap around

Port of `TimestampWrapAroundHandler` (`rtc_base/time_utils.cc`).  A timestamp from before a
wrap around is told from one after it by the distance to the last one that was remembered,
and is itself not remembered.
-/

namespace WebrtcCore.Ports.TimestampWrapAround

open Verified CMemory Simulation Unwrapping Option

structure TimestampWrapAroundHandler where
  lastTs : Nat := 0
  numWrap : Int := -1
deriving DecidableEq, Repr

/-- The end of `Unwrap`. -/
def remember (ts : Nat) (numWrap : Int) : Option (Int × TimestampWrapAroundHandler) := do
  demand (InInt64 (numWrap * 2 ^ 32))
  demand (InInt64 (ts + numWrap * 2 ^ 32))
  return (ts + numWrap * 2 ^ 32, ⟨ts, numWrap⟩)

def unwrap (s : TimestampWrapAroundHandler) (ts : Nat) :
    Option (Int × TimestampWrapAroundHandler) :=
  if s.numWrap = -1 then
    some (ts, ⟨ts, 0⟩)
  else if ts < s.lastTs then
    if 0xf0000000 ≤ s.lastTs ∧ ts < 0x0fffffff then remember ts (s.numWrap + 1)
    else remember ts s.numWrap
  else if 0xf0000000 < ts - s.lastTs then do
    -- Backwards wrap. Unwrap with last wrap count and don't update last_ts_.
    demand (InInt64 ((s.numWrap - 1) * 2 ^ 32))
    demand (InInt64 (ts + (s.numWrap - 1) * 2 ^ 32))
    return (ts + (s.numWrap - 1) * 2 ^ 32, s)
  else
    remember ts s.numWrap

def wrap (x : Int) : Nat := (x % 2 ^ 32).toNat

/-- The wrap count that belongs to a timestamp. -/
def lap (x : Int) : Int := x / 2 ^ 32

/-- The timestamp that is remembered when `y` follows. -/
def remembered (last y : Int) : Int := if lap last ≤ lap y then y else last

/-- `y` can be told from a timestamp of the next lap, and fits. -/
def Admits (last y : Int) : Prop := y < 2 ^ 63 ∧ (lap y < lap last → last - y < 2 ^ 28)
  deriving Decidable

def stateOf (last : Int) : TimestampWrapAroundHandler := ⟨wrap last, lap last⟩

/-- The timestamp `x` was seen last, and `last` is remembered. -/
def Behind (last x : Int) : Prop := 0 ≤ last ∧ (x = last ∨ lap x < lap last ∧ last - x < 2 ^ 28)

section Steps

variable {last x y : Int} {s' : TimestampWrapAroundHandler}

theorem lap_add_wrap (x : Int) : (wrap x : Int) + lap x * 2 ^ 32 = x := by
  unfold wrap lap
  omega

theorem wrap_lt (x : Int) : wrap x < 2 ^ 32 := by
  unfold wrap
  omega

theorem remember_eq_some_iff {ts : Nat} {numWrap o : Int} (hnumWrap : 0 ≤ numWrap) :
    remember ts numWrap = some (o, s') ↔
      o = ts + numWrap * 2 ^ 32 ∧ o < 2 ^ 63 ∧ s' = ⟨ts, numWrap⟩ := by
  simp only [remember, bind_eq_bind, bind_eq_some_iff, demand_eq_some_iff,
    pure_def, some.injEq, Prod.mk.injEq]
  constructor
  · rintro ⟨_, _, _, hfits, rfl, rfl⟩
    exact ⟨rfl, hfits.2, rfl⟩
  · rintro ⟨rfl, hfits, rfl⟩
    exact ⟨(), ⟨by omega, by omega⟩, (), ⟨by omega, hfits⟩, rfl, rfl⟩

theorem unwrap_of_behind (h : Behind last x) (hnear : Within (2 ^ 28) x y) :
    unwrap (stateOf last) (wrap y) = if lap last ≤ lap y then remember (wrap y) (lap y)
      else if last - y < 2 ^ 28 then do
        demand (InInt64 (lap y * 2 ^ 32))
        demand (InInt64 (wrap y + lap y * 2 ^ 32))
        return (wrap y + lap y * 2 ^ 32, stateOf last)
      else remember (wrap y) (lap last) := by
  obtain ⟨hlast, hx⟩ := h
  obtain ⟨hup, hdown⟩ := hnear
  have hl := lap_add_wrap last
  have hl' := wrap_lt last
  have hy := lap_add_wrap y
  have hy' := wrap_lt y
  have hx' : lap x = x / 2 ^ 32 := rfl
  unfold unwrap stateOf
  dsimp only
  rw [if_neg (by omega)]
  by_cases hlap : lap last ≤ lap y
  · rw [if_pos hlap]
    by_cases hsame : lap y = lap last
    · -- on one lap, no threshold is reached
      rw [hsame]
      split
      · rw [if_neg (by omega)]
      · rw [if_neg (by omega)]
    · have hnext : lap y = lap last + 1 := by omega
      rw [if_pos (by omega), if_pos (by omega), hnext]
  · have hprevious : lap y = lap last - 1 := by omega
    rw [if_neg hlap, if_neg (by omega), hprevious]
    by_cases hclose : last - y < 2 ^ 28
    · rw [if_pos hclose, if_pos (by omega)]
    · rw [if_neg hclose, if_neg (by omega)]

theorem unwrap_eq_some_iff (h : Behind last x) (hnear : Within (2 ^ 28) x y) :
    unwrap (stateOf last) (wrap y) = some (y, s') ↔
      Admits last y ∧ s' = stateOf (remembered last y) := by
  have hy := lap_add_wrap y
  have hlast : 0 ≤ lap last := Int.ediv_nonneg h.1 (by decide)
  rw [unwrap_of_behind h hnear]
  unfold Admits remembered
  by_cases hlap : lap last ≤ lap y
  · rw [if_pos hlap, if_pos hlap, remember_eq_some_iff (by omega), hy]
    constructor
    · rintro ⟨_, hfits, rfl⟩
      exact ⟨⟨hfits, fun hlt => absurd hlap (not_le.2 hlt)⟩, rfl⟩
    · rintro ⟨hadmits, rfl⟩
      exact ⟨rfl, hadmits.1, rfl⟩
  · rw [if_neg hlap, if_neg hlap, hy]
    by_cases hclose : last - y < 2 ^ 28
    · rw [if_pos hclose]
      simp only [bind_eq_bind, bind_eq_some_iff, demand_eq_some_iff, pure_def,
        some.injEq, Prod.mk.injEq, true_and]
      constructor
      · rintro ⟨_, _, _, hfits, rfl⟩
        exact ⟨⟨hfits.2, fun _ => hclose⟩, rfl⟩
      · rintro ⟨hadmits, rfl⟩
        have hnonneg := h.1
        have hlt := wrap_lt y
        exact ⟨(), ⟨by omega, by omega⟩, (), ⟨by omega, hadmits.1⟩, rfl⟩
    · -- the result is one lap too far
      rw [if_neg hclose, remember_eq_some_iff hlast]
      constructor
      · rintro ⟨heq, _, _⟩
        omega
      · rintro ⟨hadmits, _⟩
        exact absurd (hadmits.2 (by omega)) hclose

theorem Behind.next (h : Behind last x) (hadmits : Admits last y) :
    Behind (remembered last y) y := by
  have hlast := h.1
  unfold remembered
  split
  · rename_i hlap
    unfold lap at hlap
    exact ⟨by omega, .inl rfl⟩
  · exact ⟨hlast, .inr ⟨by omega, hadmits.2 (by omega)⟩⟩

theorem recovers_iff (ys : List Int) : ∀ {last x : Int}, Behind last x →
    (x :: ys).IsChain (Within (2 ^ 28)) →
    ((∃ s, runM unwrap (stateOf last) (ys.map wrap) = some (ys, s)) ↔
      FoldAlong remembered Admits last ys) := by
  induction ys with
  | nil => exact fun _ _ => ⟨fun _ => trivial, fun _ => ⟨_, rfl⟩⟩
  | cons y ys ih =>
    intro last x h hchain
    rw [List.isChain_cons_cons] at hchain
    constructor
    · rintro ⟨s, hrun⟩
      obtain ⟨o, s₁, os, hs₁, hs₂, heq⟩ := runM_cons_eq_some_iff.1 hrun
      cases heq
      obtain ⟨hadmits, rfl⟩ := (unwrap_eq_some_iff h hchain.1).1 hs₁
      exact ⟨hadmits, (ih (h.next hadmits) hchain.2).1 ⟨_, hs₂⟩⟩
    · rintro ⟨hadmits, halong⟩
      obtain ⟨s, hs⟩ := (ih (h.next hadmits) hchain.2).2 halong
      have hstep := (unwrap_eq_some_iff h hchain.1).2 ⟨hadmits, rfl⟩
      exact ⟨s, runM_cons_eq_some_iff.2 ⟨y, _, ys, hstep, hs, rfl⟩⟩

end Steps

/-- **Timestamps that change slowly are recovered** if and only if those from before a wrap
around are less than `2 ^ 28` behind the last one from after it. -/
theorem unwrap_recovers_iff (x : Int) (xs : List Int) (hx : 0 ≤ x ∧ x < 2 ^ 32)
    (hchain : (x :: xs).IsChain (Within (2 ^ 28))) :
    (∃ s, runM unwrap {} ((x :: xs).map wrap) = some (x :: xs, s)) ↔
      FoldAlong remembered Admits x xs := by
  have hlap : lap x = 0 := Int.ediv_eq_zero_of_lt hx.1 hx.2
  have hwrap := lap_add_wrap x
  have hfirst : unwrap {} (wrap x) = some (x, stateOf x) := by
    rw [unwrap, if_pos rfl, stateOf, hlap]
    rw [hlap, Int.zero_mul, Int.add_zero] at hwrap
    rw [hwrap]
  rw [← recovers_iff xs ⟨hx.1, .inl rfl⟩ hchain]
  constructor
  · rintro ⟨s, hrun⟩
    obtain ⟨o, s₁, os, hs₁, hs₂, heq⟩ := runM_cons_eq_some_iff.1 hrun
    cases heq
    cases hfirst.symm.trans hs₁
    exact ⟨s, hs₂⟩
  · rintro ⟨s, hrun⟩
    exact ⟨s, runM_cons_eq_some_iff.2 ⟨x, stateOf x, xs, hfirst, hrun, rfl⟩⟩

/-- Over the wrap, back before it and over it again. -/
theorem unwrap_over_the_wrap :
    ∃ s, runM unwrap {} ([2 ^ 32 - 1, 2 ^ 32 + 9, 2 ^ 32 - 50, 2 ^ 32 + 70].map wrap) =
      some ([2 ^ 32 - 1, 2 ^ 32 + 9, 2 ^ 32 - 50, 2 ^ 32 + 70], s) :=
  (unwrap_recovers_iff (2 ^ 32 - 1) [2 ^ 32 + 9, 2 ^ 32 - 50, 2 ^ 32 + 70] (by decide)
    (by decide)).2 (by decide)

/-- The last timestamp comes out one round too high. -/
theorem unwrap_far_back :
    [0, -134217727, -268435454, -402653181].IsChain (Within (2 ^ 28)) ∧
      (runM unwrap {} ([0, -134217727, -268435454, -402653181].map wrap)).map Prod.fst =
        some [0, -134217727, -268435454, -402653181 + 2 ^ 32] := by
  decide

end WebrtcCore.Ports.TimestampWrapAround
