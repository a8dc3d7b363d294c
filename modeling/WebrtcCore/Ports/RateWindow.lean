import Mathlib.Algebra.Order.BigOperators.Group.List
import Mathlib.Algebra.Ring.Int.Defs
import Mathlib.Data.Int.Order.Basic
import WebrtcCore.Verified.CMemory
import WebrtcCore.Verified.FloatArithmetic
import WebrtcCore.Verified.Grouping
import WebrtcCore.Verified.Simulation

/-!
# Rate statistics

Port of `RateStatistics` (`rtc_base/rate_statistics.{h,cc}`), with the checks that debug
builds make and for any arithmetic on `float`.  Counts are collected in buckets of one
millisecond, in the order of their times; every call first erases the buckets from before
the start of the window that ends at the time of the call.  An update whose time is before
the newest bucket is taken to be at the time of that bucket.

What the object should hold is said by a log of the updates and of the window starts that
were computed: an update is retained while no later window start is behind its time.
-/

namespace WebrtcCore.Ports.RateWindow

open Verified CMemory Grouping Simulation List Option

structure Bucket where
  sum : Int
  numSamples : Int
  timestamp : Int
deriving DecidableEq, Repr

structure RateStatistics (F : Type) where
  buckets : List Bucket
  accumulatedCount : Int
  firstTimestamp : Int
  overflow : Bool
  numSamples : Int
  scale : F
  maxWindowSizeMs : Int
  currentWindowSizeMs : Int
deriving DecidableEq, Repr

namespace RateStatistics

variable {F : Type}

def new (windowSizeMs : Int) (scale : F) : RateStatistics F :=
  ⟨[], 0, -1, false, 0, scale, windowSizeMs, windowSizeMs⟩

def reset (s : RateStatistics F) : RateStatistics F :=
  { s with
    accumulatedCount := 0
    overflow := false
    numSamples := 0
    firstTimestamp := -1
    currentWindowSizeMs := s.maxWindowSizeMs
    buckets := [] }

/-- The loop of `EraseOld`, with the count and the number of samples that remain. -/
def popOld (newOldestTime : Int) : List Bucket → Int → Int → Option (List Bucket × Int × Int)
  | [], accumulatedCount, numSamples => some ([], accumulatedCount, numSamples)
  | oldestBucket :: buckets, accumulatedCount, numSamples =>
    if oldestBucket.timestamp < newOldestTime then do
      demand (oldestBucket.sum ≤ accumulatedCount)
      demand (oldestBucket.numSamples ≤ numSamples)
      popOld newOldestTime buckets (accumulatedCount - oldestBucket.sum)
        (numSamples - oldestBucket.numSamples)
    else
      some (oldestBucket :: buckets, accumulatedCount, numSamples)

def eraseOld (s : RateStatistics F) (nowMs : Int) : Option (RateStatistics F) := do
  demand (InInt64 (nowMs - s.currentWindowSizeMs))
  -- New oldest time that is included in data set.
  let newOldestTime := nowMs - s.currentWindowSizeMs + 1
  demand (InInt64 newOldestTime)
  let rest ← popOld newOldestTime s.buckets s.accumulatedCount s.numSamples
  return { s with buckets := rest.1, accumulatedCount := rest.2.1, numSamples := rest.2.2 }

/-- The bucket for an update is the last one afterwards. -/
def openBucket (buckets : List Bucket) (nowMs : Int) : List Bucket :=
  match buckets.getLast? with
  | none => [⟨0, 0, nowMs⟩]
  | some back =>
    if nowMs ≠ back.timestamp then
      -- A time before the last bucket is aligned to that.
      buckets ++ [⟨0, 0, if nowMs < back.timestamp then back.timestamp else nowMs⟩]
    else
      buckets

/-- `Update`, after `EraseOld`. -/
def insert (s : RateStatistics F) (count nowMs : Int) : Option (RateStatistics F) := do
  let firstTimestamp := if s.firstTimestamp = -1 then nowMs else s.firstTimestamp
  let buckets := openBucket s.buckets nowMs
  let lastBucket ← buckets.getLast?
  demand (InInt64 (lastBucket.sum + count))
  demand (InInt (lastBucket.numSamples + 1))
  demand (InInt64 (2 ^ 63 - 1 - s.accumulatedCount))
  demand (InInt (s.numSamples + 1))
  return { s with
    firstTimestamp := firstTimestamp
    buckets := buckets.dropLast ++
      [{ lastBucket with
        sum := lastBucket.sum + count
        numSamples := lastBucket.numSamples + 1 }]
    accumulatedCount :=
      if count < 2 ^ 63 - 1 - s.accumulatedCount then s.accumulatedCount + count
      else s.accumulatedCount
    overflow := if count < 2 ^ 63 - 1 - s.accumulatedCount then s.overflow else true
    numSamples := s.numSamples + 1 }

def update (s : RateStatistics F) (count nowMs : Int) : Option (RateStatistics F) := do
  demand (0 ≤ count)
  (← s.eraseOld nowMs).insert count nowMs

/-- The window of `Rate`, an `int`. -/
def activeWindowSize (s : RateStatistics F) (nowMs : Int) : Option Int :=
  if s.firstTimestamp = -1 then
    some 0
  else if s.firstTimestamp ≤ nowMs - s.currentWindowSizeMs then
    -- Count window as full even if no data points currently in view, if the data stream
    -- started before the window.
    some (s.currentWindowSizeMs.bmod (2 ^ 32))
  else do
    -- Size of a single bucket is 1ms, so even if now_ms == first_timestmap_ the window size
    -- should be 1.
    demand (InInt64 (nowMs - s.firstTimestamp))
    demand (InInt64 (nowMs - s.firstTimestamp + 1))
    return (nowMs - s.firstTimestamp + 1).bmod (2 ^ 32)

/-- A single bucket, one sample in a data set that has not grown to the full window size, or
an overflow. -/
def Unavailable (s : RateStatistics F) (activeWindowSize : Int) : Prop :=
  s.numSamples = 0 ∨ activeWindowSize ≤ 1 ∨
    (s.numSamples ≤ 1 ∧ activeWindowSize < s.currentWindowSizeMs) ∨ s.overflow = true
  deriving Decidable

/-- The rate over a window, before it is converted to an integer. -/
def result (fa : FloatArithmetic F) (s : RateStatistics F) (activeWindowSize : Int) : F :=
  fa.add (fa.mul (fa.ofInt s.accumulatedCount) (fa.div s.scale (fa.ofInt activeWindowSize)))
    (fa.ofRat (1 / 2))

def rate (fa : FloatArithmetic F) (s : RateStatistics F) (nowMs : Int) :
    Option (Option Int × RateStatistics F) := do
  let s ← s.eraseOld nowMs
  let activeWindowSize ← s.activeWindowSize nowMs
  if s.Unavailable activeWindowSize then
    return (none, s)
  -- Better return unavailable rate than garbage value (undefined behavior).
  else if fa.lt (fa.ofInt (2 ^ 63 - 1)) (s.result fa activeWindowSize) then
    return (none, s)
  else
    demand (InInt64 (fa.trunc (s.result fa activeWindowSize)))
    return (some (fa.trunc (s.result fa activeWindowSize)), s)

def setWindowSize (s : RateStatistics F) (windowSizeMs nowMs : Int) :
    Option (Bool × RateStatistics F) :=
  if windowSizeMs ≤ 0 ∨ s.maxWindowSizeMs < windowSizeMs then
    some (false, s)
  else do
    demand (InInt64 (nowMs - windowSizeMs))
    demand (InInt64 (nowMs - windowSizeMs + 1))
    let s ← eraseOld { s with
      -- If the window changes we need to update the first timestamp mark as otherwise it
      -- indicates the window covers a region of zeros.
      firstTimestamp :=
        if s.firstTimestamp ≠ -1 then max s.firstTimestamp (nowMs - windowSizeMs + 1)
        else s.firstTimestamp
      currentWindowSizeMs := windowSizeMs } nowMs
    return (true, s)

end RateStatistics

open RateStatistics

inductive Call where
  | update (count nowMs : Int)
  | rate (nowMs : Int)
  | setWindowSize (windowSizeMs nowMs : Int)
  | reset
deriving DecidableEq, Repr

/-- What a call does to the object; `Rate` only moves the window. -/
def step {F : Type} (s : RateStatistics F) : Call → Option (RateStatistics F)
  | .update count nowMs => s.update count nowMs
  | .rate nowMs => s.eraseOld nowMs
  | .setWindowSize windowSizeMs nowMs => (s.setWindowSize windowSizeMs nowMs).map Prod.snd
  | .reset => some s.reset

/-! ## What should be retained -/

/-- An update, with the time that it is taken to be at. -/
structure Update where
  count : Int
  time : Int
deriving DecidableEq, Repr

inductive Event where
  | update (u : Update)
  | windowStart (start : Int)
deriving DecidableEq, Repr

/-- The time of the update is not before a window start. -/
def Update.NotBefore (u : Update) : Event → Prop
  | .update _ => True
  | .windowStart start => start ≤ u.time

instance (u : Update) : (e : Event) → Decidable (u.NotBefore e)
  | .update _ => inferInstanceAs (Decidable True)
  | .windowStart start => inferInstanceAs (Decidable (start ≤ u.time))

/-- The updates that are not before any window start computed after they were added. -/
def retained : List Event → List Update
  | [] => []
  | .update u :: later => if ∀ e ∈ later, u.NotBefore e then u :: retained later else retained later
  | .windowStart _ :: later => retained later

/-- The sum of the counts. -/
def total (updates : List Update) : Int := (updates.map Update.count).sum

/-- The events since the last reset, and the size of the window. -/
structure Past where
  events : List Event
  windowSizeMs : Int
deriving DecidableEq, Repr

namespace Past

/-- The start of the window at some time is computed. -/
def move (past : Past) (nowMs : Int) : Past :=
  { past with events := past.events ++ [.windowStart (nowMs - past.windowSizeMs + 1)] }

/-- The time of an update, which may not be before the newest one. -/
def align (past : Past) (nowMs : Int) : Int :=
  (retained past.events).getLast?.elim nowMs fun newest => max nowMs newest.time

def add (past : Past) (count nowMs : Int) : Past :=
  { past with events := past.events ++ [.update ⟨count, past.align nowMs⟩] }

def start (maxWindowSizeMs : Int) : Past := ⟨[], maxWindowSizeMs⟩

def next (maxWindowSizeMs : Int) (past : Past) : Call → Past
  | .update count nowMs => (past.move nowMs).add count nowMs
  | .rate nowMs => past.move nowMs
  | .setWindowSize windowSizeMs nowMs =>
    if windowSizeMs ≤ 0 ∨ maxWindowSizeMs < windowSizeMs then past
    else ({ past with windowSizeMs := windowSizeMs }).move nowMs
  | .reset => start maxWindowSizeMs

def after (maxWindowSizeMs : Int) (calls : List Call) : Past :=
  calls.foldl (next maxWindowSizeMs) (start maxWindowSizeMs)

end Past

theorem retained_concat (events : List Event) (last : Event) :
    retained (events ++ [last]) =
      ((retained events).filter fun u => u.NotBefore last) ++ retained [last] := by
  induction events with
  | nil => rfl
  | cons e events ih =>
    cases e with
    | windowStart start => exact ih
    | update v =>
      have hsplit : (∀ e ∈ events ++ [last], v.NotBefore e) ↔
          (∀ e ∈ events, v.NotBefore e) ∧ v.NotBefore last := by
        rw [forall_mem_append, forall_mem_singleton]
      rw [cons_append, retained, retained, ih]
      by_cases h : ∀ e ∈ events, v.NotBefore e
      · by_cases hlast : v.NotBefore last
        · rw [if_pos (hsplit.2 ⟨h, hlast⟩), if_pos h, filter_cons_of_pos (by simpa), cons_append]
        · rw [if_neg (fun hall => hlast (hsplit.1 hall).2), if_pos h,
            filter_cons_of_neg (by simpa using hlast)]
      · rw [if_neg (fun hall => h (hsplit.1 hall).1), if_neg h]

theorem retained_concat_update (events : List Event) (u : Update) :
    retained (events ++ [.update u]) = retained events ++ [u] := by
  have hall : ((retained events).filter fun v => v.NotBefore (.update u)) = retained events :=
    filter_eq_self.2 fun v _ => decide_eq_true trivial
  rw [retained_concat, hall]
  rfl

theorem Past.retained_add (past : Past) (count nowMs : Int) :
    retained (past.add count nowMs).events = retained past.events ++ [⟨count, past.align nowMs⟩] :=
  retained_concat_update _ _

theorem retained_concat_windowStart (events : List Event) (start : Int) :
    retained (events ++ [.windowStart start]) = (retained events).filter fun u => start ≤ u.time :=
  (retained_concat events (.windowStart start)).trans (append_nil _)

@[simp] theorem total_append (us us' : List Update) : total (us ++ us') = total us + total us' := by
  rw [total, map_append, sum_append, total, total]

theorem total_concat (us : List Update) (u : Update) : total (us ++ [u]) = total us + u.count := by
  simp [total]

variable {us : List Update} {buckets : List Bucket}

theorem total_nonneg (h : ∀ u ∈ us, 0 ≤ u.count) : 0 ≤ total us := sum_nonneg (forall_mem_map.2 h)

theorem total_filter_le (h : ∀ u ∈ us, 0 ≤ u.count) (p : Update → Bool) :
    total (us.filter p) ≤ total us :=
  (filter_sublist.map _).sum_le_sum (forall_mem_map.2 h)

/-! ## Buckets -/

/-- What a bucket says about its updates. -/
structure Collects (b : Bucket) (group : List Update) : Prop where
  sum : b.sum = total group
  numSamples : b.numSamples = group.length
  timestamp : ∀ u ∈ group, u.time = b.timestamp

/-- A bucket between two calls. -/
def Filled (b : Bucket) (group : List Update) : Prop := Collects b group ∧ group ≠ []

/-- The times of the buckets do not decrease. -/
def InOrder (buckets : List Bucket) : Prop := buckets.Pairwise fun a b => a.timestamp ≤ b.timestamp

theorem time_of_mem (h : Groups Filled buckets us) {u : Update} (hu : u ∈ us) :
    ∃ b ∈ buckets, u.time = b.timestamp := by
  obtain ⟨b, hb, group, hfilled, hmem⟩ := h.exists_of_mem hu
  exact ⟨b, hb, hfilled.1.timestamp u hmem⟩

theorem popOld_eq (start : Int) (h : Groups Filled buckets us) (horder : InOrder buckets)
    (hcount : ∀ u ∈ us, 0 ≤ u.count) :
    ∃ rest, popOld start buckets (total us) us.length =
        some (rest, total (us.filter fun u => start ≤ u.time),
          ((us.filter fun u => start ≤ u.time).length : Int)) ∧
      Groups Filled rest (us.filter fun u => start ≤ u.time) ∧ rest.Sublist buckets := by
  induction h with
  | nil => exact ⟨[], rfl, .nil, .slnil⟩
  | @cons b group buckets us hfilled htail ih =>
    rw [forall_mem_append] at hcount
    obtain ⟨hfirst, horder'⟩ := pairwise_cons.1 horder
    by_cases hold : b.timestamp < start
    · have hgroup : group.filter (fun u => decide (start ≤ u.time)) = [] := by
        rw [filter_eq_nil_iff]
        intro u hu
        have htime := hfilled.1.timestamp u hu
        simp only [decide_eq_true_eq]
        omega
      obtain ⟨rest, hpop, hrest, hsub⟩ := ih horder' hcount.2
      have hnonneg := total_nonneg hcount.2
      have hsum := hfilled.1.sum
      have hnum := hfilled.1.numSamples
      refine ⟨rest, ?_, ?_, hsub.cons b⟩
      · rw [popOld, if_pos hold, total_append, length_append, demand_of (by omega),
          demand_of (by push_cast; omega), filter_append, hgroup, nil_append, ← hpop]
        show popOld start buckets _ _ = _
        congr 1
        · omega
        · omega
      · rwa [filter_append, hgroup]
    · have hall : (group ++ us).filter (fun u => decide (start ≤ u.time)) = group ++ us := by
        rw [filter_eq_self]
        intro u hu
        rw [decide_eq_true_eq]
        rcases mem_append.1 hu with hu | hu
        · have htime := hfilled.1.timestamp u hu
          omega
        · obtain ⟨b', hb', htime⟩ := time_of_mem htail hu
          have hle := hfirst b' hb'
          omega
      rw [hall]
      exact ⟨b :: buckets, if_neg hold, .cons hfilled htail, .refl _⟩

theorem time_of_newest {front : List Bucket} {back : Bucket}
    (h : Groups Filled (front ++ [back]) us) :
    ∃ us' group newest, us = us' ++ group ∧ Groups Filled front us' ∧ Collects back group ∧
      us.getLast? = some newest ∧ newest.time = back.timestamp := by
  obtain ⟨us', group, rfl, hfront, hback⟩ := h.split
  obtain ⟨hcollects, hne⟩ := hback.of_singleton
  refine ⟨us', group, group.getLast hne, rfl, hfront, hcollects, ?_, ?_⟩
  · rw [getLast?_append, getLast?_eq_some_getLast hne, some_or]
  · exact hcollects.timestamp _ (getLast_mem hne)

theorem Collects.new (nowMs : Int) : Collects ⟨0, 0, nowMs⟩ [] := ⟨rfl, rfl, fun _ hu => nomatch hu⟩

theorem openBucket_eq (h : Groups Filled buckets us) (horder : InOrder buckets) (nowMs : Int) :
    ∃ front last us' group, openBucket buckets nowMs = front ++ [last] ∧
      last.timestamp = us.getLast?.elim nowMs (fun newest => max nowMs newest.time) ∧
      us = us' ++ group ∧ Groups Filled front us' ∧ Collects last group ∧
      InOrder (front ++ [last]) := by
  rcases eq_nil_or_concat buckets with rfl | ⟨front, back, rfl⟩
  · cases h
    exact ⟨[], ⟨0, 0, nowMs⟩, [], [], rfl, rfl, rfl, .nil, .new nowMs, pairwise_singleton _ _⟩
  · rw [concat_eq_append] at h horder ⊢
    obtain ⟨us', group, newest, rfl, hfront, hcollects, hnewest, htime⟩ := time_of_newest h
    rw [hnewest, elim_some, htime]
    unfold openBucket
    rw [getLast?_concat]
    by_cases hsame : nowMs = back.timestamp
    · refine ⟨front, back, us', group, if_neg (not_not.2 hsame), ?_, rfl, hfront, hcollects, horder⟩
      rw [hsame, max_self]
    · refine ⟨front ++ [back], ⟨0, 0, max nowMs back.timestamp⟩, us' ++ group, [], ?_, rfl,
        (append_nil _).symm, h, .new _, ?_⟩
      · refine (if_pos hsame).trans ?_
        by_cases hlt : nowMs < back.timestamp
        · rw [if_pos hlt, max_eq_right (le_of_lt hlt)]
        · rw [if_neg hlt, max_eq_left (not_lt.1 hlt)]
      · -- no bucket is behind the last one
        refine pairwise_append.2 ⟨horder, pairwise_singleton _ _, ?_⟩
        intro b hb b' hb'
        rw [mem_singleton.1 hb']
        refine le_trans ?_ (le_max_right _ _)
        rcases mem_append.1 hb with hb | hb
        · exact (pairwise_append.1 horder).2.2 b hb back mem_cons_self
        · rw [mem_singleton.1 hb]

theorem Collects.add {b : Bucket} {group : List Update} (h : Collects b group) (count : Int) :
    Filled { b with sum := b.sum + count, numSamples := b.numSamples + 1 }
      (group ++ [⟨count, b.timestamp⟩]) := by
  refine ⟨⟨?_, ?_, ?_⟩, by simp⟩
  · simp [h.sum, total]
  · simp [h.numSamples]
  · exact forall_mem_append.2 ⟨h.timestamp, forall_mem_singleton.2 rfl⟩

/-! ## Runs -/

/-- The object holds the retained updates. -/
structure Matches {F : Type} (maxWindowSizeMs : Int) (past : Past) (s : RateStatistics F) :
    Prop where
  maxWindow : s.maxWindowSizeMs = maxWindowSizeMs
  window : s.currentWindowSizeMs = past.windowSizeMs
  window_isInt : InInt past.windowSizeMs
  buckets : Groups Filled s.buckets (retained past.events)
  inOrder : InOrder s.buckets
  accumulatedCount : s.accumulatedCount = total (retained past.events)
  numSamples : s.numSamples = (retained past.events).length
  overflow : s.overflow = false
  count_nonneg : ∀ u ∈ retained past.events, 0 ≤ u.count
  total_lt : total (retained past.events) < 2 ^ 63 - 1
  length_lt : (retained past.events).length < 2 ^ 31
  first : -1 ≤ s.firstTimestamp ∧ s.firstTimestamp < 2 ^ 31

/-- The times that calls are made at. -/
def IsTime (nowMs : Int) : Prop := 0 ≤ nowMs ∧ nowMs < 2 ^ 31
  deriving Decidable

section Steps

variable {F : Type} {maxWindowSizeMs : Int} {past : Past} {s : RateStatistics F}

variable {nowMs : Int}

theorem Matches.eraseOld (h : Matches maxWindowSizeMs past s) (htime : IsTime nowMs) :
    ∃ s', s.eraseOld nowMs = some s' ∧ Matches maxWindowSizeMs (past.move nowMs) s' := by
  obtain ⟨hlo, hhi⟩ := htime
  obtain ⟨hwlo, hwhi⟩ := h.window_isInt
  obtain ⟨rest, hpop, hgroups, hsub⟩ :=
    popOld_eq (nowMs - past.windowSizeMs + 1) h.buckets h.inOrder h.count_nonneg
  have hretained := retained_concat_windowStart past.events (nowMs - past.windowSizeMs + 1)
  rw [← hretained] at hpop hgroups
  have hwindow := h.window
  have hstart : InInt64 (nowMs - s.currentWindowSizeMs) := ⟨by omega, by omega⟩
  have hstart' : InInt64 (nowMs - s.currentWindowSizeMs + 1) := ⟨by omega, by omega⟩
  rw [← h.accumulatedCount, ← h.numSamples] at hpop
  refine ⟨{ s with
    buckets := rest
    accumulatedCount := total (retained (past.move nowMs).events)
    numSamples := (retained (past.move nowMs).events).length }, ?_, ?_⟩
  · simp only [RateStatistics.eraseOld, demand_of hstart, demand_of hstart']
    rw [hwindow, hpop]
    rfl
  · exact { h with
      buckets := hgroups
      inOrder := h.inOrder.sublist hsub
      accumulatedCount := rfl
      numSamples := rfl
      count_nonneg := by
        intro u hu
        rw [Past.move, hretained] at hu
        exact h.count_nonneg u (mem_filter.1 hu).1
      total_lt := by
        have hle := total_filter_le h.count_nonneg
          fun u => decide (nowMs - past.windowSizeMs + 1 ≤ u.time)
        have hlt := h.total_lt
        rw [Past.move, hretained]
        omega
      length_lt := by
        rw [Past.move, hretained]
        exact Nat.lt_of_le_of_lt (length_filter_le _ _) h.length_lt
      first := h.first }

theorem Matches.insert (h : Matches maxWindowSizeMs past s) {count : Int} (hnow : IsTime nowMs)
    (hcount : 0 ≤ count) (htotal : total (retained past.events) + count < 2 ^ 63 - 1)
    (hlength : (retained past.events).length + 1 < 2 ^ 31) :
    ∃ s', s.insert count nowMs = some s' ∧ Matches maxWindowSizeMs (past.add count nowMs) s' := by
  obtain ⟨front, last, us', group, hopen, htime, hus, hfront, hcollects, horder⟩ :=
    openBucket_eq h.buckets h.inOrder nowMs
  have hnonneg := h.count_nonneg
  have hacc := h.accumulatedCount
  have hnum := h.numSamples
  have hgroups : retained (past.add count nowMs).events =
      us' ++ (group ++ [⟨count, last.timestamp⟩]) := by
    rw [past.retained_add, Past.align, ← htime, hus, append_assoc]
  have hretained := past.retained_add count nowMs
  have hfirst : -1 ≤ (if s.firstTimestamp = -1 then nowMs else s.firstTimestamp) ∧
      (if s.firstTimestamp = -1 then nowMs else s.firstTimestamp) < 2 ^ 31 := by
    obtain ⟨hlo, hhi⟩ := hnow
    have hbefore := h.first
    split <;> omega
  rw [hus, forall_mem_append] at hnonneg
  have hfront_nonneg := total_nonneg hnonneg.1
  have hgroup_nonneg := total_nonneg hnonneg.2
  have hsum := hcollects.sum
  have hsamples := hcollects.numSamples
  have htotal' := htotal
  have hlength' := hlength
  rw [hus, total_append] at hacc htotal'
  rw [hus, length_append] at hnum hlength'
  have hlast : InInt64 (last.sum + count) := ⟨by omega, by omega⟩
  have hlast' : InInt (last.numSamples + 1) := ⟨by omega, by omega⟩
  have hspace : InInt64 (2 ^ 63 - 1 - s.accumulatedCount) := ⟨by omega, by omega⟩
  have hspace' : InInt (s.numSamples + 1) := ⟨by omega, by omega⟩
  have hfits : count < 2 ^ 63 - 1 - s.accumulatedCount := by omega
  refine ⟨{ s with
    firstTimestamp := if s.firstTimestamp = -1 then nowMs else s.firstTimestamp
    buckets := front ++ [{ last with sum := last.sum + count, numSamples := last.numSamples + 1 }]
    accumulatedCount := s.accumulatedCount + count
    numSamples := s.numSamples + 1 }, ?_, ?_⟩
  · simp only [RateStatistics.insert, hopen, getLast?_concat, dropLast_concat,
      demand_of hlast, demand_of hlast', demand_of hspace, demand_of hspace', if_pos hfits,
      bind_eq_bind, bind_some, Option.pure_def]
  · exact { h with
      buckets := by
        rw [hgroups]
        exact hfront.append (.singleton (hcollects.add count))
      inOrder := by
        refine pairwise_append.2 ⟨(pairwise_append.1 horder).1, pairwise_singleton _ _, ?_⟩
        intro b hb b' hb'
        rw [mem_singleton.1 hb']
        exact (pairwise_append.1 horder).2.2 b hb last mem_cons_self
      accumulatedCount := by rw [hretained, total_concat, h.accumulatedCount]
      numSamples := by rw [hretained, length_append, h.numSamples]; rfl
      count_nonneg := by
        rw [hretained, forall_mem_append, forall_mem_singleton]
        exact ⟨h.count_nonneg, hcount⟩
      total_lt := by rwa [hretained, total_concat]
      length_lt := by rwa [hretained, length_append]
      first := hfirst }

theorem Matches.update (h : Matches maxWindowSizeMs past s) {count : Int} (htime : IsTime nowMs)
    (hcount : 0 ≤ count) (htotal : total (retained (past.move nowMs).events) + count < 2 ^ 63 - 1)
    (hlength : (retained (past.move nowMs).events).length + 1 < 2 ^ 31) :
    ∃ s', s.update count nowMs = some s' ∧
      Matches maxWindowSizeMs ((past.move nowMs).add count nowMs) s' := by
  obtain ⟨s₁, herase, hs₁⟩ := h.eraseOld htime
  obtain ⟨s', hinsert, hs'⟩ := hs₁.insert htime hcount htotal hlength
  refine ⟨s', ?_, hs'⟩
  rw [RateStatistics.update, demand_of hcount, herase]
  exact hinsert

theorem Matches.setWindowSize (hmax : InInt maxWindowSizeMs) (h : Matches maxWindowSizeMs past s)
    (windowSizeMs : Int) (htime : IsTime nowMs) :
    ∃ changed s', s.setWindowSize windowSizeMs nowMs = some (changed, s') ∧
      Matches maxWindowSizeMs (past.next maxWindowSizeMs (.setWindowSize windowSizeMs nowMs))
        s' := by
  obtain rfl := h.maxWindow
  unfold RateStatistics.setWindowSize
  rw [Past.next]
  by_cases hreject : windowSizeMs ≤ 0 ∨ s.maxWindowSizeMs < windowSizeMs
  · rw [if_pos hreject, if_pos hreject]
    exact ⟨false, s, rfl, h⟩
  · rw [if_neg hreject, if_neg hreject]
    obtain ⟨hlo, hhi⟩ := htime
    obtain ⟨hmaxlo, hmaxhi⟩ := hmax
    have hwindow : InInt windowSizeMs := ⟨by omega, by omega⟩
    have hfirst : -1 ≤ (if s.firstTimestamp ≠ -1 then
          max s.firstTimestamp (nowMs - windowSizeMs + 1) else s.firstTimestamp) ∧
        (if s.firstTimestamp ≠ -1 then
          max s.firstTimestamp (nowMs - windowSizeMs + 1) else s.firstTimestamp) < 2 ^ 31 := by
      have hbefore := h.first
      split <;> omega
    have hs₁ : Matches s.maxWindowSizeMs { past with windowSizeMs := windowSizeMs }
        { s with
          firstTimestamp := if s.firstTimestamp ≠ -1 then
            max s.firstTimestamp (nowMs - windowSizeMs + 1) else s.firstTimestamp
          currentWindowSizeMs := windowSizeMs } :=
      { h with window := rfl, window_isInt := hwindow, first := hfirst }
    obtain ⟨s', herase, hs'⟩ := hs₁.eraseOld ⟨hlo, hhi⟩
    refine ⟨true, s', ?_, hs'⟩
    rw [demand_of ⟨by omega, by omega⟩, demand_of ⟨by omega, by omega⟩, herase]
    rfl

theorem Matches.reset (hmax : InInt maxWindowSizeMs)
    (hbound : s.maxWindowSizeMs = maxWindowSizeMs) :
    Matches maxWindowSizeMs (.start maxWindowSizeMs) s.reset where
  maxWindow := hbound
  window := hbound
  window_isInt := hmax
  buckets := .nil
  inOrder := .nil
  accumulatedCount := rfl
  numSamples := rfl
  overflow := rfl
  count_nonneg := fun _ hu => nomatch hu
  total_lt := by
    show total [] < 2 ^ 63 - 1
    decide
  length_lt := Nat.two_pow_pos 31
  first := by
    show (-1 : Int) ≤ -1 ∧ (-1 : Int) < 2 ^ 31
    decide

/-- The times, and the totals after an update. -/
def Admits (past : Past) : Call → Prop
  | .update count nowMs =>
    IsTime nowMs ∧ 0 ≤ count ∧
      total (retained (past.move nowMs).events) + count < 2 ^ 63 - 1 ∧
      (retained (past.move nowMs).events).length + 1 < 2 ^ 31
  | .rate nowMs => IsTime nowMs
  | .setWindowSize _ nowMs => IsTime nowMs
  | .reset => True

instance (past : Past) (call : Call) : Decidable (Admits past call) := by
  cases call <;> unfold Admits <;> infer_instance

theorem Matches.step (hmax : InInt maxWindowSizeMs) (h : Matches maxWindowSizeMs past s)
    (call : Call) (hcall : Admits past call) :
    ∃ s', step s call = some s' ∧ Matches maxWindowSizeMs (past.next maxWindowSizeMs call) s' := by
  cases call with
  | update count nowMs =>
    obtain ⟨htime, hcount, htotal, hlength⟩ := hcall
    exact h.update htime hcount htotal hlength
  | rate nowMs => exact h.eraseOld hcall
  | setWindowSize windowSizeMs nowMs =>
    obtain ⟨changed, s', hset, hs'⟩ := h.setWindowSize hmax windowSizeMs hcall
    refine ⟨s', ?_, hs'⟩
    rw [RateWindow.step, hset, map_some]
  | reset => exact ⟨_, rfl, Matches.reset hmax h.maxWindow⟩

/-! ### The window of a rate -/

theorem Matches.activeWindowSize_le (h : Matches maxWindowSizeMs past s) {window : Int}
    (htime : IsTime nowMs) (hactive : s.activeWindowSize nowMs = some window) (hpos : 0 < window) :
    window ≤ s.currentWindowSizeMs := by
  obtain ⟨hlo, hhi⟩ := htime
  obtain ⟨hfirst, hfirst'⟩ := h.first
  have hwindow := h.window_isInt
  rw [← h.window] at hwindow
  unfold RateStatistics.activeWindowSize at hactive
  split at hactive
  · cases hactive
    omega
  · split at hactive
    · rw [hwindow.bmod_eq] at hactive
      exact Int.le_of_eq (some.inj hactive).symm
    · rename_i hstarted
      have hsize : InInt (nowMs - s.firstTimestamp + 1) := by
        obtain ⟨hwlo, hwhi⟩ := hwindow
        constructor <;> omega
      simp only [bind_eq_bind, bind_eq_some_iff, Option.pure_def, hsize.bmod_eq,
        some.injEq] at hactive
      omega

theorem Matches.rate (fa : FloatArithmetic F) (h : Matches maxWindowSizeMs past s) {value : Int}
    {s' : RateStatistics F} (htime : IsTime nowMs)
    (hrate : s.rate fa nowMs = some (some value, s')) :
    ∃ window, s'.activeWindowSize nowMs = some window ∧ 2 ≤ window ∧
      window ≤ s'.currentWindowSizeMs ∧ value = fa.trunc (s'.result fa window) := by
  obtain ⟨s₁, herase, hs₁⟩ := h.eraseOld htime
  rw [RateStatistics.rate, herase, bind_eq_bind, bind_some, bind_eq_bind, bind_eq_some_iff] at hrate
  obtain ⟨window, hactive, hrate⟩ := hrate
  split at hrate
  · cases hrate
  · rename_i havailable
    split at hrate
    · cases hrate
    · rw [bind_eq_bind, bind_eq_some_iff] at hrate
      obtain ⟨_, _, hvalue⟩ := hrate
      cases hvalue
      have hlarge : ¬ window ≤ 1 := fun hle => havailable (.inr (.inl hle))
      exact ⟨window, hactive, by omega, hs₁.activeWindowSize_le htime hactive (by omega), rfl⟩

/-- **The totals and the buckets** are those of the retained updates, after any calls. -/
theorem totals_match (fa : FloatArithmetic F) (scale : F) (hmax : InInt maxWindowSizeMs)
    {calls : List Call}
    (h : FoldAlong (Past.next maxWindowSizeMs) Admits (.start maxWindowSizeMs) calls) :
    ∃ s, exec step (new maxWindowSizeMs scale) calls = some s ∧
      Groups Filled s.buckets (retained (Past.after maxWindowSizeMs calls).events) ∧
      s.accumulatedCount = total (retained (Past.after maxWindowSizeMs calls).events) ∧
      s.numSamples = (retained (Past.after maxWindowSizeMs calls).events).length ∧
      InOrder s.buckets ∧
      ∀ nowMs value s', IsTime nowMs → s.rate fa nowMs = some (some value, s') →
        ∃ window, s'.activeWindowSize nowMs = some window ∧ 2 ≤ window ∧
          window ≤ s'.currentWindowSizeMs ∧ value = fa.trunc (s'.result fa window) := by
  have hnew : Matches maxWindowSizeMs (.start maxWindowSizeMs) (new maxWindowSizeMs scale) :=
    Matches.reset (s := new maxWindowSizeMs scale) hmax rfl
  obtain ⟨s, hexec, hs⟩ := exec_follows_along (R := Matches maxWindowSizeMs)
    (fun _ _ call hs hcall => hs.step hmax call hcall) calls hnew h
  refine ⟨s, hexec, hs.buckets, hs.accumulatedCount, hs.numSamples, hs.inOrder, ?_⟩
  intro nowMs value s' htime hrate
  exact hs.rate fa htime hrate

end Steps

/-- The second update is late, and the window changes. -/
def callsOfThree : List Call :=
  [.update 5 10, .update 3 8, .rate 12, .setWindowSize 3 12, .update 1 12]

theorem totals_of_three :
    ∃ s, exec step (new 10 (8000 : Rat)) callsOfThree = some s ∧
      Groups Filled s.buckets [⟨5, 10⟩, ⟨3, 10⟩, ⟨1, 12⟩] ∧ s.accumulatedCount = 9 ∧
      s.numSamples = 3 ∧ InOrder s.buckets := by
  have h : FoldAlong (Past.next 10) Admits (.start 10) callsOfThree := by decide
  obtain ⟨s, hexec, hbuckets, hcount, hsamples, horder, _⟩ :=
    totals_match .rational 8000 (by decide) h
  exact ⟨s, hexec, hbuckets, hcount, hsamples, horder⟩

/-- The greatest `int64_t` is a total that fits, but it is taken for an overflow. -/
theorem update_to_greatest_total :
    (exec step (new 1000 (8000 : Rat)) [.update (2 ^ 63 - 1) 0]).map
        (fun s => (s.accumulatedCount, s.numSamples, s.overflow)) = some (0, 1, true) ∧
      retained (Past.after 1000 [.update (2 ^ 63 - 1) 0]).events = [⟨2 ^ 63 - 1, 0⟩] ∧
      InInt64 (2 ^ 63 - 1) := by
  decide

/-! ## The checks of `EraseOld` -/

/-- The totals are those of the buckets. -/
structure Balanced (buckets : List Bucket) (accumulatedCount numSamples : Int) : Prop where
  count : accumulatedCount = (buckets.map Bucket.sum).sum
  samples : numSamples = (buckets.map Bucket.numSamples).sum
  nonneg : ∀ b ∈ buckets, 0 ≤ b.sum ∧ 0 ≤ b.numSamples

section Checks

variable {F : Type} {s s' : RateStatistics F} {buckets : List Bucket}
  {accumulatedCount numSamples nowMs count : Int}

theorem Balanced.popOld (newOldestTime : Int) (h : Balanced buckets accumulatedCount numSamples) :
    ∃ rest, popOld newOldestTime buckets accumulatedCount numSamples = some rest ∧
      Balanced rest.1 rest.2.1 rest.2.2 := by
  induction buckets generalizing accumulatedCount numSamples with
  | nil => exact ⟨_, rfl, h⟩
  | cons b buckets ih =>
    unfold RateStatistics.popOld
    split
    · obtain ⟨hcount, hsamples, hnonneg⟩ := h
      rw [forall_mem_cons] at hnonneg
      rw [map_cons, sum_cons] at hcount hsamples
      have hsums := sum_nonneg (forall_mem_map.2 fun c hc => (hnonneg.2 c hc).1)
      have hnumbers := sum_nonneg (forall_mem_map.2 fun c hc => (hnonneg.2 c hc).2)
      rw [demand_of (by omega), demand_of (by omega)]
      exact ih ⟨by omega, by omega, hnonneg.2⟩
    · exact ⟨_, rfl, h⟩

theorem Balanced.openBucket (h : Balanced buckets accumulatedCount numSamples) (nowMs : Int) :
    Balanced (openBucket buckets nowMs) accumulatedCount numSamples := by
  have hnew (time : Int) : Balanced (buckets ++ [⟨0, 0, time⟩]) accumulatedCount numSamples := by
    refine ⟨by simp [h.count], by simp [h.samples], ?_⟩
    exact forall_mem_append.2 ⟨h.nonneg, by simp⟩
  unfold RateStatistics.openBucket
  split
  · rename_i hnone
    rw [getLast?_eq_none_iff] at hnone
    subst hnone
    exact hnew nowMs
  · split
    · exact hnew _
    · exact h

theorem Balanced.add {last : Bucket} (h : Balanced buckets accumulatedCount numSamples)
    (hlast : buckets.getLast? = some last) (hcount : 0 ≤ count) :
    Balanced (buckets.dropLast ++
      [{ last with sum := last.sum + count, numSamples := last.numSamples + 1 }])
      (accumulatedCount + count) (numSamples + 1) := by
  obtain ⟨front, rfl⟩ := getLast?_eq_some_iff.1 hlast
  obtain ⟨hsum, hsamples, hnonneg⟩ := h
  rw [forall_mem_append, forall_mem_singleton] at hnonneg
  rw [dropLast_concat]
  refine ⟨by simp [hsum, add_assoc], by simp [hsamples, add_assoc], ?_⟩
  rw [forall_mem_append, forall_mem_singleton]
  exact ⟨hnonneg.1, by simp only; omega, by simp only; omega⟩

/-- Between two calls. -/
def InBalance (s : RateStatistics F) : Prop := Balanced s.buckets s.accumulatedCount s.numSamples

theorem InBalance.eraseOld (h : InBalance s) (herase : s.eraseOld nowMs = some s') :
    InBalance s' := by
  simp only [RateStatistics.eraseOld, bind_eq_bind, bind_eq_some_iff,
    Option.pure_def, some.injEq] at herase
  obtain ⟨_, _, _, _, rest, hrest, rfl⟩ := herase
  obtain ⟨rest', hrest', hbalanced⟩ := h.popOld (nowMs - s.currentWindowSizeMs + 1)
  cases hrest.symm.trans hrest'
  exact hbalanced

/-- The total does not overflow. -/
def TotalFits (s : RateStatistics F) : Call → Prop
  | .update count nowMs =>
    ∀ s' ∈ s.eraseOld nowMs, count < 2 ^ 63 - 1 - s'.accumulatedCount
  | _ => True

instance (s : RateStatistics F) (call : Call) : Decidable (TotalFits s call) := by
  cases call <;> unfold TotalFits <;> infer_instance

theorem InBalance.step {call : Call} (h : InBalance s) (hfits : TotalFits s call)
    (hstep : step s call = some s') : InBalance s' := by
  cases call with
  | update count nowMs =>
    simp only [RateWindow.step, RateStatistics.update, bind_eq_bind,
      bind_eq_some_iff, demand_eq_some_iff] at hstep
    obtain ⟨_, hcount, s₁, herase, hinsert⟩ := hstep
    simp only [RateStatistics.insert, if_pos (hfits s₁ herase), bind_eq_bind,
      bind_eq_some_iff, Option.pure_def, some.injEq] at hinsert
    obtain ⟨last, hlast, _, _, _, _, _, _, _, _, rfl⟩ := hinsert
    exact ((h.eraseOld herase).openBucket nowMs).add hlast hcount
  | rate nowMs => exact h.eraseOld hstep
  | setWindowSize windowSizeMs nowMs =>
    rw [RateWindow.step, RateStatistics.setWindowSize] at hstep
    split at hstep
    · cases hstep
      exact h
    · simp only [bind_eq_bind, map_eq_some_iff, bind_eq_some_iff,
        Option.pure_def, some.injEq] at hstep
      obtain ⟨_, ⟨_, _, _, _, s₁, herase, rfl⟩, rfl⟩ := hstep
      exact InBalance.eraseOld (s := { s with
        firstTimestamp := _, currentWindowSizeMs := windowSizeMs }) h herase
  | reset =>
    cases hstep
    exact ⟨rfl, rfl, forall_mem_nil _⟩

/-- **The checks of `EraseOld` hold** in every state that is reached without an overflow. -/
theorem eraseOld_checks_hold {maxWindowSizeMs : Int} {scale : F} {calls : List Call}
    (hfits : ExecAlong step TotalFits (new maxWindowSizeMs scale) calls)
    (hrun : exec step (new maxWindowSizeMs scale) calls = some s) (newOldestTime : Int) :
    (popOld newOldestTime s.buckets s.accumulatedCount s.numSamples).isSome := by
  have hnew : InBalance (new maxWindowSizeMs scale) := ⟨rfl, rfl, fun _ hb => nomatch hb⟩
  have hs : InBalance s :=
    exec_invariant_along (fun _ _ _ h hfits => h.step hfits) calls hnew hfits hrun
  obtain ⟨rest, hrest, _⟩ := hs.popOld newOldestTime
  rw [hrest, isSome_some]

end Checks

/-- A window that moves over two updates. -/
theorem eraseOld_checks_of_two :
    ∃ s, exec step (new 10 (8000 : Rat)) [.update 5 0, .update 3 4, .rate 10] = some s ∧
      (popOld 20 s.buckets s.accumulatedCount s.numSamples).isSome := by
  have hfits : ExecAlong step TotalFits (new 10 (8000 : Rat))
      [.update 5 0, .update 3 4, .rate 10] := by decide
  exact ⟨_, rfl, eraseOld_checks_hold hfits rfl 20⟩

/-- The total stays 0, and the bucket that holds the count is erased. -/
theorem eraseOld_after_overflow :
    ∃ s, exec step (new 1000 (8000 : Rat)) [.update (2 ^ 63 - 1) 0] = some s ∧
      s.eraseOld 1000 = none ∧
      popOld (1000 - s.currentWindowSizeMs + 1) s.buckets s.accumulatedCount s.numSamples =
        none := by
  refine ⟨_, rfl, ?_, ?_⟩ <;> decide

end WebrtcCore.Ports.RateWindow
