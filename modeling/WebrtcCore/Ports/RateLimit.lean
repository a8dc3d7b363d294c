import WebrtcCore.Ports.RateWindow

/-!
# The rate limiter

Port of `RateLimiter` (`rtc_base/rate_limiter.{h,cc}`) over the rate statistics; a call
carries the time that the clock shows.  The limiter keeps a window size of its own beside
the one of its statistics, and `SetWindowSize` stores it before the statistics validate it.
-/

namespace WebrtcCore.Ports.RateLimit

open Verified CMemory Simulation RateWindow Option

structure RateLimiter (F : Type) where
  currentRate : RateStatistics F
  windowSizeMs : Int
  maxRateBps : Nat
deriving DecidableEq, Repr

variable {F : Type}

namespace RateLimiter

def new (fa : FloatArithmetic F) (maxWindowMs : Int) : RateLimiter F :=
  ⟨.new maxWindowMs (fa.ofInt 8000), maxWindowMs, 2 ^ 32 - 1⟩

/-- The check of `TryUseRate`: would adding bytes exceed the maximum bitrate target? -/
def withinRate (s : RateLimiter F) (packetSizeBytes : Nat) : Option Int → Option Bool
  -- If there is NOT a valid current rate, allow allocating rate even if target is exceeded.
  | none => some true
  | some currentRate => do
    demand (s.windowSizeMs ≠ 0)
    let bitrateAdditionBps :=
      sizeMul (sizeMul packetSizeBytes 8) 1000 / (s.windowSizeMs % 2 ^ 64).toNat
    -- the optional of the rate is converted to one of `uint32_t`
    return sizeAdd (currentRate % 2 ^ 32).toNat bitrateAdditionBps ≤ s.maxRateBps

def tryUseRate (fa : FloatArithmetic F) (s : RateLimiter F) (packetSizeBytes : Nat)
    (nowMs : Int) : Option (Bool × RateLimiter F) := do
  let (currentRate, statistics) ← s.currentRate.rate fa nowMs
  if ← s.withinRate packetSizeBytes currentRate then
    let statistics ← statistics.update ((packetSizeBytes : Int).bmod (2 ^ 64)) nowMs
    return (true, { s with currentRate := statistics })
  else
    return (false, { s with currentRate := statistics })

def setMaxRate (s : RateLimiter F) (maxRateBps : Nat) : RateLimiter F :=
  { s with maxRateBps := maxRateBps }

def setWindowSize (s : RateLimiter F) (windowSizeMs nowMs : Int) :
    Option (Bool × RateLimiter F) := do
  let (accepted, statistics) ← s.currentRate.setWindowSize windowSizeMs nowMs
  return (accepted, { s with windowSizeMs := windowSizeMs, currentRate := statistics })

end RateLimiter

open RateLimiter

inductive Call where
  | tryUseRate (packetSizeBytes : Nat) (nowMs : Int)
  | setMaxRate (maxRateBps : Nat)
  | setWindowSize (windowSizeMs nowMs : Int)
deriving DecidableEq, Repr

/-- What a call returns, `true` where it returns nothing. -/
def step (fa : FloatArithmetic F) (s : RateLimiter F) : Call → Option (Bool × RateLimiter F)
  | .tryUseRate packetSizeBytes nowMs => s.tryUseRate fa packetSizeBytes nowMs
  | .setMaxRate maxRateBps => some (true, s.setMaxRate maxRateBps)
  | .setWindowSize windowSizeMs nowMs => s.setWindowSize windowSizeMs nowMs

/-- The state after some calls. -/
def after (fa : FloatArithmetic F) (s : RateLimiter F) (calls : List Call) :
    Option (RateLimiter F) :=
  exec (fun s call => (step fa s call).map Prod.snd) s calls

/-- The window is the same, and so is what all later calls return. -/
def Unaffected (fa : FloatArithmetic F) (s s' : RateLimiter F) : Prop :=
  s'.windowSizeMs = s.windowSizeMs ∧
    ∀ later, (runM (step fa) s' later).map Prod.fst = (runM (step fa) s later).map Prod.fst

/-- The windows that `RateStatistics` accepts. -/
def InRange (maxWindowMs windowSizeMs : Int) : Prop := 1 ≤ windowSizeMs ∧ windowSizeMs ≤ maxWindowMs

/-- Both windows agree and are in range. -/
structure Agrees (maxWindowMs : Int) (s : RateLimiter F) : Prop where
  inRange : InRange maxWindowMs s.windowSizeMs
  window : s.currentRate.currentWindowSizeMs = s.windowSizeMs
  maxWindow : s.currentRate.maxWindowSizeMs = maxWindowMs

section Steps

variable {fa : FloatArithmetic F} {maxWindowMs : Int}

/-- Neither window of the statistics changes. -/
def SameWindows (r r' : RateStatistics F) : Prop :=
  r'.currentWindowSizeMs = r.currentWindowSizeMs ∧ r'.maxWindowSizeMs = r.maxWindowSizeMs

theorem SameWindows.eraseOld {r r' : RateStatistics F} {nowMs : Int}
    (h : r.eraseOld nowMs = some r') : SameWindows r r' := by
  simp only [RateStatistics.eraseOld, bind_eq_bind, bind_eq_some_iff, pure_def, some.injEq] at h
  obtain ⟨_, _, _, _, rest, _, rfl⟩ := h
  exact ⟨rfl, rfl⟩

theorem SameWindows.update {r r' : RateStatistics F} {count nowMs : Int}
    (h : r.update count nowMs = some r') : SameWindows r r' := by
  simp only [RateStatistics.update, RateStatistics.insert, bind_eq_bind,
    bind_eq_some_iff, pure_def, some.injEq] at h
  obtain ⟨_, _, r₁, herase, _, _, _, _, _, _, _, _, _, _, rfl⟩ := h
  have hsame := SameWindows.eraseOld herase
  exact hsame

theorem SameWindows.rate {r r' : RateStatistics F} {nowMs : Int} {value : Option Int}
    (h : r.rate fa nowMs = some (value, r')) : SameWindows r r' := by
  rw [RateStatistics.rate, bind_eq_bind, bind_eq_some_iff] at h
  obtain ⟨r₁, herase, h⟩ := h
  have hsame := SameWindows.eraseOld herase
  rw [bind_eq_bind, bind_eq_some_iff] at h
  obtain ⟨_, _, h⟩ := h
  split at h
  · cases h
    exact hsame
  · split at h
    · cases h
      exact hsame
    · rw [bind_eq_bind, bind_eq_some_iff] at h
      obtain ⟨_, _, h⟩ := h
      cases h
      exact hsame

theorem tryUseRate_same {s s' : RateLimiter F} {size : Nat} {nowMs : Int} {allowed : Bool}
    (h : s.tryUseRate fa size nowMs = some (allowed, s')) :
    s'.windowSizeMs = s.windowSizeMs ∧ SameWindows s.currentRate s'.currentRate := by
  rw [tryUseRate, bind_eq_bind, bind_eq_some_iff] at h
  obtain ⟨⟨value, r⟩, hrate, h⟩ := h
  have hsame := SameWindows.rate hrate
  rw [bind_eq_bind, bind_eq_some_iff] at h
  obtain ⟨within, _, h⟩ := h
  split at h
  · rw [bind_eq_bind, bind_eq_some_iff] at h
    obtain ⟨r', hupdate, h⟩ := h
    cases h
    have hsame' := SameWindows.update hupdate
    exact ⟨rfl, hsame'.1.trans hsame.1, hsame'.2.trans hsame.2⟩
  · cases h
    exact ⟨rfl, hsame⟩

theorem setWindowSize_eq {s s' : RateLimiter F} {windowSizeMs nowMs : Int} {accepted : Bool}
    (h : s.setWindowSize windowSizeMs nowMs = some (accepted, s')) :
    s'.windowSizeMs = windowSizeMs ∧
      s'.currentRate.maxWindowSizeMs = s.currentRate.maxWindowSizeMs ∧
      (accepted = true ↔ InRange s.currentRate.maxWindowSizeMs windowSizeMs) ∧
      (accepted = true → s'.currentRate.currentWindowSizeMs = windowSizeMs) := by
  simp only [RateLimiter.setWindowSize, bind_eq_bind, bind_eq_some_iff] at h
  obtain ⟨⟨ok, r⟩, hset, h⟩ := h
  cases h
  unfold RateStatistics.setWindowSize at hset
  split at hset
  · rename_i hreject
    cases hset
    refine ⟨rfl, rfl, ?_, Bool.noConfusion⟩
    unfold InRange
    constructor
    · exact Bool.noConfusion
    · omega
  · rename_i haccept
    simp only [bind_eq_bind, bind_eq_some_iff] at hset
    obtain ⟨_, _, _, _, r₁, herase, rfl, rfl⟩ := hset
    obtain ⟨hwindow, hmax⟩ := SameWindows.eraseOld herase
    refine ⟨rfl, hmax, ?_, fun _ => hwindow⟩
    unfold InRange
    constructor
    · omega
    · exact fun _ => rfl

theorem Agrees.step {s s' : RateLimiter F} {call : Call} (h : Agrees maxWindowMs s)
    (hcall : ∀ w t, call = .setWindowSize w t → InRange maxWindowMs w)
    (hstep : (step fa s call).map Prod.snd = some s') : Agrees maxWindowMs s' := by
  obtain ⟨⟨returned, _⟩, hcalled, rfl⟩ := map_eq_some_iff.1 hstep
  cases call with
  | tryUseRate size nowMs =>
    obtain ⟨hwindow, hsame⟩ := tryUseRate_same hcalled
    exact ⟨hwindow ▸ h.inRange, (hsame.1.trans h.window).trans hwindow.symm,
      hsame.2.trans h.maxWindow⟩
  | setMaxRate maxRateBps =>
    cases hcalled
    exact ⟨h.inRange, h.window, h.maxWindow⟩
  | setWindowSize windowSizeMs nowMs =>
    have hrange := hcall windowSizeMs nowMs rfl
    obtain ⟨hwindow, hmax, haccepted, hset⟩ := setWindowSize_eq hcalled
    rw [h.maxWindow] at hmax haccepted
    exact ⟨hwindow ▸ hrange, (hset (haccepted.2 hrange)).trans hwindow.symm, hmax⟩

/-- **The window that is divided by is in range** after any calls that set windows in range
only; the next call that sets one does so without side effects if and only if its window is
in range too. -/
theorem window_in_range {s : RateLimiter F} {calls : List Call} (hmax : 1 ≤ maxWindowMs)
    (hcalls : ∀ w t, Call.setWindowSize w t ∈ calls → InRange maxWindowMs w)
    (hrun : after fa (new fa maxWindowMs) calls = some s) :
    InRange maxWindowMs s.windowSizeMs ∧ s.currentRate.currentWindowSizeMs = s.windowSizeMs ∧
      ∀ windowSizeMs nowMs accepted s', s.setWindowSize windowSizeMs nowMs = some (accepted, s') →
        ((accepted = false → Unaffected fa s s') ↔ InRange maxWindowMs windowSizeMs) := by
  have hnew : Agrees maxWindowMs (new fa maxWindowMs) := ⟨⟨hmax, Int.le_refl _⟩, rfl, rfl⟩
  have hs : Agrees maxWindowMs s := by
    refine exec_invariant_of_mem (fun s call s' hmem h hstep => ?_) hnew hrun
    exact h.step (fun w t heq => hcalls w t (heq ▸ hmem)) hstep
  refine ⟨hs.inRange, hs.window, ?_⟩
  intro windowSizeMs nowMs accepted s' hset
  obtain ⟨hwindow, _, haccepted, _⟩ := setWindowSize_eq hset
  rw [hs.maxWindow] at haccepted
  constructor
  · intro hunaffected
    by_contra hrange
    have hfalse : accepted = false := Bool.eq_false_iff.2 fun h => hrange (haccepted.1 h)
    -- the limiter's window is the rejected one, which is out of range
    have hsame := (hunaffected hfalse).1
    exact hrange (hwindow ▸ hsame ▸ hs.inRange)
  · intro hrange hfalse
    rw [haccepted.2 hrange] at hfalse
    cases hfalse

end Steps

def twoPackets : List Call := [.tryUseRate 100 0, .setWindowSize 500 1, .tryUseRate 100 1]

theorem window_after_two_packets :
    ∃ s, after .rational (new .rational 1000) twoPackets = some s ∧
      InRange 1000 s.windowSizeMs := by
  have hcalls : ∀ w t, Call.setWindowSize w t ∈ twoPackets → InRange 1000 w := by
    intro w t hmem
    simp only [twoPackets, List.mem_cons, Call.setWindowSize.injEq, reduceCtorEq,
      List.not_mem_nil, or_false, false_or] at hmem
    exact ⟨by omega, by omega⟩
  exact ⟨_, rfl, (window_in_range (by decide) hcalls rfl).1⟩

/-- The window 0 is rejected, and the next use of the rate divides by it. -/
theorem rejected_window_is_used :
    ∃ s s', after .rational (new .rational 1000) twoPackets = some s ∧
      s.setWindowSize 0 1 = some (false, s') ∧ s'.windowSizeMs = 0 ∧
      s.tryUseRate .rational 100 1 ≠ none ∧ s'.tryUseRate .rational 100 1 = none := by
  refine ⟨_, _, rfl, rfl, rfl, ?_, ?_⟩ <;> decide +kernel

end WebrtcCore.Ports.RateLimit
