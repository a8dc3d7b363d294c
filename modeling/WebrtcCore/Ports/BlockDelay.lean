import WebrtcCore.Verified.CMemory
import WebrtcCore.Verified.Grid
import WebrtcCore.Verified.Ring
import WebrtcCore.Verified.Simulation

/-!
# A delay of all channels and bands (`modules/audio_processing/aec3/block_delay_buffer.cc`)

`BlockDelayBuffer` has a ring of `delay_` samples for every channel and band, and one index for
all of them.  A sample is exchanged with the one in the ring.  `none` is a failed check or an
access out of range.
-/

namespace WebrtcCore.Ports.BlockDelay

open Verified CMemory Grid Ring Simulation List Option

variable {α : Type}

structure BlockDelayBuffer (α : Type) where
  frameLength : Nat
  delay : Nat
  /-- By channel and band. -/
  buf : List (List (List α))
  lastInsert : Nat
deriving DecidableEq, Repr

def new (numChannels numBands frameLength delaySamples : Nat) (zero : α) : BlockDelayBuffer α :=
  ⟨frameLength, delaySamples,
    tabulate numChannels numBands fun _ _ => List.replicate delaySamples zero, 0⟩

/-- The samples of a band: those that come out, the ring, and `i`. -/
def exchange (delay : Nat) : Nat → List α → List α → Option (List α × List α × Nat)
  | i, ring, [] => some ([], ring, i)
  | i, ring, x :: samples => do
    let tmp ← ring[i]?
    let (out, ring, i) ← exchange delay (if i < delay - 1 then i + 1 else 0) (ring.set i x) samples
    some (tmp :: out, ring, i)

/-- A band of the frame, with its ring. -/
def delayBand (s : BlockDelayBuffer α) (ring samples : List α) :
    Option (List α × List α × Nat) := do
  demand (ring.length = s.delay)
  demand (s.frameLength ≤ samples.length)
  let (out, ring, i) ← exchange s.delay s.lastInsert ring (samples.take s.frameLength)
  some (out ++ samples.drop s.frameLength, ring, i)

/-- The frame that comes out, by channel and band, and the buffer. -/
def delaySignal (s : BlockDelayBuffer α) (frame : List (List (List α))) :
    Option (List (List (List α)) × BlockDelayBuffer α) := do
  demand (s.buf.length = frame.length)
  if s.delay = 0 then some (frame, s)
  else
    let numBands := (← s.buf[0]?).length
    demand (∀ bands ∈ frame, bands.length = numBands)
    demand (∀ bands ∈ s.buf, bands.length = numBands)
    let bands ← visit s.buf.length numBands fun ch band => do
      delayBand s (← entry s.buf ch band) (← entry frame ch band)
    -- `i` as the last band leaves it
    let last := entry bands (s.buf.length - 1) (numBands - 1)
    some (bands.map (·.map (·.1)),
      { s with buf := bands.map (·.map (·.2.1)), lastInsert := (last.map (·.2.2)).getD 0 })

theorem exchange_eq {delay i : Nat} {ring queue : List α} (samples : List α)
    (h : Holds ring i queue) (hring : ring.length = delay) (hqueue : queue.length = delay)
    (hi : i < delay) :
    ∃ ring', exchange delay i ring samples =
        some ((queue ++ samples).take samples.length, ring', (i + samples.length) % delay) ∧
      ring'.length = delay ∧
      Holds ring' ((i + samples.length) % delay) ((queue ++ samples).drop samples.length) := by
  induction samples generalizing i ring queue with
  | nil =>
    rw [length_nil, Nat.add_zero, Nat.mod_eq_of_lt hi]
    exact ⟨ring, rfl, hring, by simpa using h⟩
  | cons x samples ih =>
    obtain ⟨y, rest, rfl⟩ := exists_cons_of_length_pos (l := queue) (by omega)
    rw [length_cons] at hqueue
    have hget := h.head
    have hnext := h.exchange (by omega) x
    rw [hring, Nat.mod_eq_of_lt hi] at hget hnext
    have hindex : (if i < delay - 1 then i + 1 else 0) = (i + 1) % delay := by
      split
      · rw [Nat.mod_eq_of_lt (by omega)]
      · rw [show i + 1 = delay by omega, Nat.mod_self]
    have hset : (ring.set i x).length = delay := by rw [length_set, hring]
    obtain ⟨ring', heq, hrest⟩ := ih (i := (i + 1) % delay) (hnext.congr_start (by
      rw [hset, Nat.mod_mod])) hset (by simpa using hqueue) (Nat.mod_lt _ (by omega))
    rw [Nat.mod_add_mod, Nat.add_right_comm, Nat.add_assoc, append_assoc] at heq hrest
    refine ⟨ring', ?_, hrest⟩
    rw [exchange, hget, hindex]
    simp [heq]

theorem visit_exists {β : Type} [Inhabited β] {m n : Nat} {f : Nat → Nat → Option β}
    {P : Nat → Nat → β → Prop} (h : ∀ i < m, ∀ j < n, ∃ y, f i j = some y ∧ P i j y) :
    ∃ g, visit m n f = some (tabulate m n g) ∧ ∀ i < m, ∀ j < n, P i j (g i j) := by
  refine ⟨fun i j => (f i j).getD default, visit_eq_some fun i hi j hj => ?_, fun i hi j hj => ?_⟩
  · obtain ⟨y, hy, _⟩ := h i hi j hj
    rw [hy, getD_some]
  · obtain ⟨y, hy, hP⟩ := h i hi j hj
    simpa only [hy, getD_some] using hP

/-- The samples on their way, in all channels and bands. -/
structure Delays (m n d k : Nat) (queue : Nat → Nat → List α) (s : BlockDelayBuffer α) : Prop where
  frameLength_eq : s.frameLength = k
  delay_eq : s.delay = d
  filled : Filled m n d s.buf
  holds : ∀ ch < m, ∀ band < n, Holds (cell s.buf ch band) s.lastInsert (queue ch band)
  length_eq : ∀ ch < m, ∀ band < n, (queue ch band).length = d
  lastInsert_lt : s.lastInsert < d

section

variable {m n d k : Nat} {queue : Nat → Nat → List α} {s : BlockDelayBuffer α}

theorem Delays.delayBand (h : Delays m n d k queue s) {ch band : Nat} (hch : ch < m)
    (hband : band < n) {samples : List α} (hsamples : samples.length = k) :
    ∃ ring', BlockDelay.delayBand s (cell s.buf ch band) samples =
        some ((queue ch band ++ samples).take k, ring', (s.lastInsert + k) % d) ∧
      ring'.length = d ∧
      Holds ring' ((s.lastInsert + k) % d) ((queue ch band ++ samples).drop k) := by
  have hlength := h.filled.length_cell hch hband
  obtain ⟨ring, heq, hring⟩ := exchange_eq samples (h.holds ch hch band hband) hlength
    (h.length_eq ch hch band hband) h.lastInsert_lt
  rw [hsamples] at heq hring
  refine ⟨ring, ?_, hring⟩
  rw [BlockDelay.delayBand, demand_of (h.delay_eq ▸ hlength), h.frameLength_eq,
    demand_of (Nat.le_of_eq hsamples.symm), h.delay_eq, take_of_length_le (Nat.le_of_eq hsamples),
    heq, drop_of_length_le (Nat.le_of_eq hsamples)]
  simp

variable (hm : 0 < m) (hn : 0 < n) (hd : 0 < d)
include hm hn hd

theorem Delays.delaySignal (h : Delays m n d k queue s) {frame : List (List (List α))}
    (hframe : Filled m n k frame) :
    ∃ out s', BlockDelay.delaySignal s frame = some (out, s') ∧
      (∀ ch < m, ∀ band < n, cell out ch band = (queue ch band ++ cell frame ch band).take k) ∧
      Delays m n d k (fun ch band => (queue ch band ++ cell frame ch band).drop k) s' := by
  have hbuf : 0 < s.buf.length := h.filled.1.1 ▸ hm
  have hbands : s.buf[0].length = n := h.filled.1.2 _ (getElem_mem hbuf)
  obtain ⟨g, hvisit, hg⟩ := visit_exists (m := m) (n := n)
    (f := fun ch band => do
      BlockDelay.delayBand s (← entry s.buf ch band) (← entry frame ch band))
    (P := fun ch band r => r.1 = (queue ch band ++ cell frame ch band).take k ∧
      r.2.2 = (s.lastInsert + k) % d ∧ r.2.1.length = d ∧
      Holds r.2.1 ((s.lastInsert + k) % d) ((queue ch band ++ cell frame ch band).drop k))
    fun ch hch band hband => by
      obtain ⟨ring, heq, hring⟩ := h.delayBand hch hband (hframe.length_cell hch hband)
      rw [h.filled.entry_eq hch hband, hframe.entry_eq hch hband]
      exact ⟨_, heq, rfl, rfl, hring⟩
  refine ⟨tabulate m n fun ch band => (g ch band).1,
    { s with
      buf := tabulate m n fun ch band => (g ch band).2.1
      lastInsert := (s.lastInsert + k) % d }, ?_, ?_, h.frameLength_eq, h.delay_eq, ?_, ?_, ?_,
    Nat.mod_lt _ hd⟩
  · have hlast := (hg (m - 1) (by omega) (n - 1) (by omega)).2.1
    rw [BlockDelay.delaySignal, demand_of (by rw [h.filled.1.1, hframe.1.1]),
      getElem?_eq_getElem hbuf, if_neg (by rw [h.delay_eq]; omega)]
    simp only [bind_eq_bind, bind_some, hbands, demand_of hframe.1.2, demand_of h.filled.1.2,
      h.filled.1.1]
    simp only [bind_eq_bind] at hvisit
    rw [hvisit]
    simp only [bind_some, map_tabulate, map_some, getD_some, hlast,
      entry_tabulate (Nat.sub_one_lt_of_lt hm) (Nat.sub_one_lt_of_lt hn)]
  · intro ch hch band hband
    rw [cell_tabulate hch hband]
    exact (hg ch hch band hband).1
  · exact filled_tabulate fun ch hch band hband => (hg ch hch band hband).2.2.1
  · intro ch hch band hband
    rw [cell_tabulate hch hband]
    exact (hg ch hch band hband).2.2.2
  · intro ch hch band hband
    rw [length_drop, length_append, h.length_eq ch hch band hband, hframe.length_cell hch hband]
    omega

theorem Delays.run (h : Delays m n d k queue s) (frames : List (List (List (List α))))
    (hframes : ∀ frame ∈ frames, Filled m n k frame) :
    ∃ outputs s', runM BlockDelay.delaySignal s frames = some (outputs, s') ∧
      ∀ ch < m, ∀ band < n, stream outputs ch band =
        (queue ch band ++ stream frames ch band).take (k * frames.length) := by
  induction frames generalizing queue s with
  | nil => exact ⟨[], s, rfl, fun _ _ _ _ => rfl⟩
  | cons frame frames ih =>
    rw [forall_mem_cons] at hframes
    obtain ⟨out, s₁, hstep, hout, h₁⟩ := h.delaySignal hm hn hd hframes.1
    obtain ⟨outputs, s', hrun, houtputs⟩ := ih h₁ hframes.2
    refine ⟨out :: outputs, s', by rw [runM_cons_of_step hstep, hrun, bind_some], ?_⟩
    intro ch hch band hband
    have hlength : k ≤ (queue ch band ++ cell frame ch band).length := by
      rw [length_append, hframes.1.length_cell hch hband]
      omega
    rw [stream_cons, stream_cons, hout ch hch band hband, houtputs ch hch band hband, length_cons,
      Nat.mul_succ, Nat.add_comm, take_add, ← append_assoc, take_append_of_le_length hlength,
      drop_append_of_le_length hlength]

/-- **A pure delay** of every channel and band. -/
theorem delaySignal_delays (zero : α) (frames : List (List (List (List α))))
    (hframes : ∀ frame ∈ frames, Filled m n k frame) :
    ∃ outputs s', runM delaySignal (new m n k d zero) frames = some (outputs, s') ∧
      ∀ ch < m, ∀ band < n, stream outputs ch band =
        (List.replicate d zero ++ stream frames ch band).take (k * frames.length) := by
  have hnew : Delays m n d k (fun _ _ => List.replicate d zero) (new m n k d zero) := by
    refine ⟨rfl, rfl, filled_tabulate fun _ _ _ _ => length_replicate, ?_, by simp, hd⟩
    intro ch hch band hband
    rw [new, cell_tabulate hch hband]
    exact .self _
  exact hnew.run hm hn hd frames hframes

end

/-- Two frames of two channels, two bands and two samples. -/
def twoFrames : List (List (List (List Nat))) :=
  [[[[1, 2], [3, 4]], [[5, 6], [7, 8]]], [[[9, 10], [11, 12]], [[13, 14], [15, 16]]]]

/-- They are delayed by three samples. -/
theorem delaySignal_delays_three :
    ∃ outputs s', runM delaySignal (new 2 2 2 3 0) twoFrames = some (outputs, s') ∧
      ∀ ch < 2, ∀ band < 2, stream outputs ch band =
        ([0, 0, 0] ++ stream twoFrames ch band).take 4 :=
  delaySignal_delays (by decide) (by decide) (by decide) 0 twoFrames (by decide)

end WebrtcCore.Ports.BlockDelay
