import Mathlib.Data.List.Sort

/-!
# The choice of the sources a mixer mixes

Port of `ShouldMixBefore` and `AudioMixerImpl::GetAudioFromSources`
(`modules/audio_mixer/audio_mixer_impl.cc`), with `AudioMixerCalculateEnergy`.  The ramp of the
gains, which comes after the choice, is left out.  `Sorts` is what `std::sort` may leave of a
range.
-/

namespace WebrtcCore.Ports.AudioMixer

open List

inductive VADActivity
  | kVadActive
  | kVadPassive
  | kVadUnknown
deriving DecidableEq, Repr

structure AudioFrame where
  data : List Int16
  muted : Bool
  vadActivity : VADActivity
deriving DecidableEq, Repr

inductive AudioFrameInfo
  | kNormal
  | kMuted
  | kError
deriving DecidableEq, Repr

/-- What a source returned from `GetAudioFrameWithInfo`. -/
structure Source where
  status : Nat
  info : AudioFrameInfo
  frame : AudioFrame
deriving DecidableEq, Repr

structure SourceFrame where
  sourceStatus : Nat
  audioFrame : AudioFrame
  muted : Bool
  energy : UInt32
deriving DecidableEq, Repr

def audioMixerCalculateEnergy (frame : AudioFrame) : UInt32 :=
  if frame.muted then 0
  else frame.data.foldl (fun energy x => energy + .ofInt (x.toInt * x.toInt)) 0

/-- The constructor that computes the energy. -/
def SourceFrame.new (status : Nat) (frame : AudioFrame) (muted : Bool) : SourceFrame :=
  ⟨status, frame, muted, if muted then 0 else audioMixerCalculateEnergy frame⟩

def shouldMixBefore (a b : SourceFrame) : Bool :=
  if a.muted ≠ b.muted then b.muted
  else if a.audioFrame.vadActivity ≠ b.audioFrame.vadActivity then
    a.audioFrame.vadActivity = .kVadActive
  else a.energy > b.energy

def kMaximumAmountOfMixedAudioSources : Nat := 3

/-- `audio_source_mixing_data_list` before it is sorted. -/
def mixingData (sources : List Source) : List SourceFrame :=
  (sources.filter (·.info ≠ .kError)).map fun s => .new s.status s.frame (s.info = .kMuted)

/-- The frames to mix, and `is_mixed` of each source. -/
def mixLoop : Nat → List SourceFrame → List AudioFrame × List (Nat × Bool)
  | _, [] => ([], [])
  | counter, p :: view =>
    if p.muted then
      let (audioToMix, isMixed) := mixLoop counter view
      (audioToMix, (p.sourceStatus, false) :: isMixed)
    else if counter > 0 then
      let (audioToMix, isMixed) := mixLoop (counter - 1) view
      (p.audioFrame :: audioToMix, (p.sourceStatus, true) :: isMixed)
    else
      let (audioToMix, isMixed) := mixLoop counter view
      (audioToMix, (p.sourceStatus, false) :: isMixed)

/-- `GetAudioFromSources`, with what the sort has left. -/
def getAudioFromSources (view : List SourceFrame) : List AudioFrame × List (Nat × Bool) :=
  mixLoop kMaximumAmountOfMixedAudioSources view

/-! ## The order -/

/-- The requirements on the comparison of a sort, on the elements it may see. -/
structure StrictWeakOn {α : Type} (S : α → Prop) (lt : α → α → Bool) : Prop where
  irrefl : ∀ a, S a → ¬lt a a
  trans : ∀ a b c, S a → S b → S c → lt a b → lt b c → lt a c
  incomparable_trans : ∀ a b c, S a → S b → S c → ¬lt a b → ¬lt b a → ¬lt b c → ¬lt c b →
    ¬lt a c ∧ ¬lt c a

theorem VADActivity.eq_of_ne {a b c : VADActivity} (ha : a ≠ .kVadActive) (hb : b ≠ .kVadActive)
    (hc : c ≠ .kVadActive) (hab : a ≠ b) (hbc : b ≠ c) : c = a := by
  cases a <;> cases b <;> cases c <;> simp_all

variable {a b c : SourceFrame}

theorem shouldMixBefore_iff : shouldMixBefore a b ↔ (a.muted = false ∧ b.muted = true) ∨
    a.muted = b.muted ∧
      ((a.audioFrame.vadActivity = .kVadActive ∧ b.audioFrame.vadActivity ≠ .kVadActive) ∨
        a.audioFrame.vadActivity = b.audioFrame.vadActivity ∧ b.energy < a.energy) := by
  unfold shouldMixBefore
  grind

theorem incomparable_iff :
    ¬shouldMixBefore a b ∧ ¬shouldMixBefore b a ↔ a.muted = b.muted ∧
      (a.audioFrame.vadActivity = b.audioFrame.vadActivity ∧ a.energy = b.energy ∨
        a.audioFrame.vadActivity ≠ b.audioFrame.vadActivity ∧
          a.audioFrame.vadActivity ≠ .kVadActive ∧ b.audioFrame.vadActivity ≠ .kVadActive) := by
  rw [shouldMixBefore_iff, shouldMixBefore_iff]
  grind

/-- **The preference orders frames** if and only if passive frames and unknown ones, with the
same muted flag, do not come together or the energies of either are all the same. -/
theorem shouldMixBefore_strictWeak_iff (S : SourceFrame → Prop) :
    StrictWeakOn S shouldMixBefore ↔
      ∀ a b c, S a → S b → S c → a.muted = b.muted → b.muted = c.muted →
        a.audioFrame.vadActivity ≠ .kVadActive → b.audioFrame.vadActivity ≠ .kVadActive →
        a.audioFrame.vadActivity ≠ b.audioFrame.vadActivity →
        c.audioFrame.vadActivity = a.audioFrame.vadActivity → a.energy = c.energy := by
  constructor
  · intro h a b c ha hb hc hab hbc hactive hactive' hne heq
    have hbefore := incomparable_iff.2 ⟨hab, .inr ⟨hne, hactive, hactive'⟩⟩
    have hafter := incomparable_iff.2 ⟨hbc, .inr ⟨heq ▸ hne.symm, hactive', heq ▸ hactive⟩⟩
    have hac := h.incomparable_trans a b c ha hb hc hbefore.1 hbefore.2 hafter.1 hafter.2
    obtain ⟨-, hsame | hother⟩ := incomparable_iff.1 hac
    · exact hsame.2
    · exact absurd heq.symm hother.1
  · intro h
    refine ⟨fun a _ => ?_, fun a b c _ _ _ => ?_, fun a b c ha hb hc hab hba hbc hcb => ?_⟩
    · rw [shouldMixBefore_iff]
      grind
    · rw [shouldMixBefore_iff, shouldMixBefore_iff, shouldMixBefore_iff]
      grind
    · obtain ⟨hmuted, hab⟩ := incomparable_iff.1 ⟨hab, hba⟩
      obtain ⟨hmuted', hbc⟩ := incomparable_iff.1 ⟨hbc, hcb⟩
      refine incomparable_iff.2 ⟨hmuted.trans hmuted', ?_⟩
      rcases hab with ⟨hkind, henergy⟩ | ⟨hne, hactive, hactive'⟩
      · rwa [hkind, henergy]
      · rcases hbc with ⟨hkind', henergy'⟩ | ⟨hne', -, hactive''⟩
        · exact .inr ⟨hkind' ▸ hne, hactive, hkind' ▸ hactive'⟩
        · have hkind := VADActivity.eq_of_ne hactive hactive' hactive'' hne hne'
          exact .inl ⟨hkind.symm, h a b c ha hb hc hmuted hmuted' hactive hactive' hne hkind⟩

/-- A passive frame is left between a louder one and a quieter one by an unknown one. -/
theorem shouldMixBefore_not_strictWeak : ¬StrictWeakOn (fun _ => True) shouldMixBefore := by
  intro h
  have hac := h.incomparable_trans ⟨0, ⟨[], false, .kVadPassive⟩, false, 5⟩
    ⟨1, ⟨[], false, .kVadUnknown⟩, false, 4⟩ ⟨2, ⟨[], false, .kVadPassive⟩, false, 3⟩
    trivial trivial trivial (by decide) (by decide) (by decide) (by decide)
  exact absurd hac (by decide)

/-! ## The choice -/

def AudioFrame.exactEnergy (frame : AudioFrame) : Int :=
  if frame.muted then 0 else frame.data.foldl (fun energy x => energy + x.toInt * x.toInt) 0

/-- What `std::sort` may leave of a range. -/
def Sorts (range view : List SourceFrame) : Prop :=
  view.Perm range ∧ view.Pairwise fun a b => shouldMixBefore b a = false

/-- The frames of the sources that are not muted. -/
def unmutedFrames (sources : List Source) : List AudioFrame :=
  (sources.filter (·.info = .kNormal)).map (·.frame)

/-- As many as can be mixed are, and none that is left out is louder than one that is mixed. -/
def MixesLoudest (sources : List Source) (mixed : List AudioFrame) : Prop :=
  mixed.length = min kMaximumAmountOfMixedAudioSources (unmutedFrames sources).length ∧
    ∃ left, (mixed ++ left).Perm (unmutedFrames sources) ∧
      ∀ f ∈ left, ∀ g ∈ mixed, f.exactEnergy ≤ g.exactEnergy

theorem mixLoop_audioToMix (counter : Nat) (view : List SourceFrame) :
    (mixLoop counter view).1 = ((view.filter (!·.muted)).map (·.audioFrame)).take counter := by
  induction view generalizing counter with
  | nil => simp [mixLoop]
  | cons p view ih =>
    rw [mixLoop]
    split
    · rename_i hmuted
      rw [ih, filter_cons_of_neg (by simp [hmuted])]
    · rename_i hmuted
      rw [filter_cons_of_pos (by simp [hmuted])]
      cases counter with
      | zero => simp [ih]
      | succ counter => simp [ih]

theorem unmuted_mixingData (sources : List Source) :
    ((mixingData sources).filter (!·.muted)).map (·.audioFrame) = unmutedFrames sources := by
  induction sources with
  | nil => rfl
  | cons s sources ih =>
    unfold mixingData unmutedFrames at *
    cases hinfo : s.info <;> simp [hinfo, SourceFrame.new] at ih ⊢ <;> exact ih

theorem energy_of_mem_mixingData {sources : List Source} {p : SourceFrame}
    (hp : p ∈ mixingData sources) (hmuted : p.muted = false) :
    p.energy = audioMixerCalculateEnergy p.audioFrame ∧ ∃ s ∈ sources, s.frame = p.audioFrame := by
  obtain ⟨s, hs, rfl⟩ := mem_map.1 hp
  exact ⟨if_neg (Bool.eq_false_iff.1 hmuted), s, (mem_filter.1 hs).1, rfl⟩

/-- **The loudest sources are mixed** whatever frames come, all with one activity, if and only if
the 32 bits of the energy order the frames as their exact energy does. -/
theorem getAudioFromSources_loudest_iff (S : AudioFrame → Prop)
    (hactivity : ∀ f g, S f → S g → f.vadActivity = g.vadActivity) :
    (∀ sources : List Source, (∀ s ∈ sources, S s.frame) → ∀ view, Sorts (mixingData sources) view →
      MixesLoudest sources (getAudioFromSources view).1) ↔
    ∀ f g, S f → S g → audioMixerCalculateEnergy f ≤ audioMixerCalculateEnergy g →
      f.exactEnergy ≤ g.exactEnergy := by
  constructor
  · intro h f g hf hg hle
    -- three times `g`, which the sort may leave before `f`
    have hmixes := h [⟨0, .kNormal, g⟩, ⟨1, .kNormal, g⟩, ⟨2, .kNormal, g⟩, ⟨3, .kNormal, f⟩]
      (by simp [hf, hg]) _ ⟨.rfl, ?_⟩
    · obtain ⟨-, left, hperm, hle⟩ := hmixes
      have hleft := (perm_append_left_iff [g, g, g]).1
        (hperm : ([g, g, g] ++ left).Perm ([g, g, g] ++ [f]))
      exact hle f (hleft.mem_iff.2 (mem_singleton.2 rfl)) g (mem_cons_self ..)
    · have hact := hactivity f g hf hg
      simp [mixingData, SourceFrame.new, shouldMixBefore, hact, hle]
  · intro h sources hsources view ⟨hperm, hsorted⟩
    have hunmuted := (hperm.filter (!·.muted)).map (·.audioFrame)
    rw [unmuted_mixingData] at hunmuted
    rw [getAudioFromSources, mixLoop_audioToMix, ← map_take]
    generalize hkept : view.filter (!·.muted) = kept at *
    have hkeep : ∀ p ∈ kept, p.energy = audioMixerCalculateEnergy p.audioFrame ∧
        p.muted = false ∧ S p.audioFrame := by
      intro p hp
      rw [← hkept, mem_filter] at hp
      have hmuted : p.muted = false := by simpa using hp.2
      obtain ⟨henergy, s, hs, hframe⟩ := energy_of_mem_mixingData (hperm.mem_iff.1 hp.1) hmuted
      exact ⟨henergy, hmuted, hframe ▸ hsources s hs⟩
    have hlength := hunmuted.length_eq
    have hpair : kept.Pairwise fun a b => shouldMixBefore b a = false := hkept ▸ hsorted.filter _
    rw [← take_append_drop kMaximumAmountOfMixedAudioSources kept] at hpair hkeep hunmuted
    refine ⟨by rw [length_map, length_take, ← hlength, length_map], _, map_append ▸ hunmuted, ?_⟩
    intro f hf g hg
    obtain ⟨p, hp, rfl⟩ := mem_map.1 hf
    obtain ⟨q, hq, rfl⟩ := mem_map.1 hg
    have hbefore := (pairwise_append.1 hpair).2.2 q hq p hp
    obtain ⟨hpenergy, hpmuted, hpS⟩ := hkeep p (mem_append_right _ hp)
    obtain ⟨hqenergy, hqmuted, hqS⟩ := hkeep q (mem_append_left _ hq)
    refine h _ _ hpS hqS ?_
    rw [← hpenergy, ← hqenergy]
    simpa [shouldMixBefore, hpmuted, hqmuted, hactivity _ _ hpS hqS] using hbefore

def quiet : AudioFrame := ⟨[1], false, .kVadActive⟩

def loud : AudioFrame := ⟨[-32768, -32768, -32768, -32768], false, .kVadActive⟩

/-- An active frame of one sample. -/
def tone (x : Int16) : AudioFrame := ⟨[x], false, .kVadActive⟩

/-- Four sources are not muted, and the quietest of them is left out. -/
theorem getAudioFromSources_tones :
    let sources := [⟨0, .kNormal, tone 2⟩, ⟨1, .kNormal, tone (-4)⟩, ⟨2, .kMuted, tone 5⟩,
      ⟨3, .kNormal, tone 1⟩, ⟨4, .kNormal, tone 3⟩]
    let view := [.new 1 (tone (-4)) false, .new 4 (tone 3) false, .new 0 (tone 2) false,
      .new 3 (tone 1) false, .new 2 (tone 5) true]
    MixesLoudest sources (getAudioFromSources view).1 ∧
      (getAudioFromSources view).1 = [tone (-4), tone 3, tone 2] := by
  intro sources view
  have hordered : ∀ f ∈ [1, 2, 3, -4, 5].map tone, ∀ g ∈ [1, 2, 3, -4, 5].map tone,
      f.vadActivity = g.vadActivity ∧
        (audioMixerCalculateEnergy f ≤ audioMixerCalculateEnergy g →
          f.exactEnergy ≤ g.exactEnergy) := by
    decide
  have hmixes := (getAudioFromSources_loudest_iff (· ∈ [1, 2, 3, -4, 5].map tone)
    fun f g hf hg => (hordered f hf g hg).1).2 fun f g hf hg => (hordered f hf g hg).2
  exact ⟨hmixes sources (by decide) view ⟨by decide, by decide⟩, rfl⟩

/-- The energy of the loud frame wraps around to 0. -/
theorem getAudioFromSources_overflows :
    let sources := [⟨0, .kNormal, quiet⟩, ⟨1, .kNormal, quiet⟩, ⟨2, .kNormal, quiet⟩,
      ⟨3, .kNormal, loud⟩]
    Sorts (mixingData sources) (mixingData sources) ∧
      (getAudioFromSources (mixingData sources)).1 = [quiet, quiet, quiet] ∧
      quiet.exactEnergy < loud.exactEnergy :=
  ⟨⟨.rfl, by decide⟩, by decide⟩

end WebrtcCore.Ports.AudioMixer
