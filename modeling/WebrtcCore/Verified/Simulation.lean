/-!
# Runs of partial state machines and simulation

A ported component is a partial step function `σ → ι → Option (ο × σ)`: it takes an
operation, produces what the caller observes and the next state, or `none` when the
operation has undefined behaviour; `runM` is its run.  `exec` runs a machine whose
observations are kept in its state.  An abstract model is a total step function (`runT`, or
`List.foldl` without observations), or a relation that leaves something open (`Traces`).

`Along`, `ExecAlong` and `FoldAlong` state a condition on every step of a run.  The rules
below package the inductions that the ports need: forward simulation, invariants of the
runs that are defined, and invariants that also make the steps defined.
-/

namespace WebrtcCore.Verified.Simulation

open Option

variable {σ τ ι ο : Type}

/-- Run a partial machine, collecting the observations. -/
def runM (step : σ → ι → Option (ο × σ)) : σ → List ι → Option (List ο × σ)
  | s, [] => some ([], s)
  | s, i :: rest =>
    (step s i).bind fun r =>
      (runM step r.2 rest).bind fun q => some (r.1 :: q.1, q.2)

/-- Run a total machine, collecting the observations. -/
def runT (step : τ → ι → ο × τ) : τ → List ι → List ο × τ
  | t, [] => ([], t)
  | t, i :: rest =>
    ((step t i).1 :: (runT step (step t i).2 rest).1,
     (runT step (step t i).2 rest).2)

section Observed

variable {step : σ → ι → Option (ο × σ)} {P : σ → ι → Prop} {Inv : σ → Prop} {s s' : σ} {i : ι}
  {o : ο} {rest : List ι}

theorem runM_cons_of_step (h : step s i = some (o, s')) (rest : List ι) :
    runM step s (i :: rest) = (runM step s' rest).bind fun q => some (o :: q.1, q.2) := by
  simp [runM, h]

theorem runM_cons_of_none (h : step s i = none) (rest : List ι) :
    runM step s (i :: rest) = none := by
  simp [runM, h]

theorem runM_cons_eq_some_iff {os : List ο} :
    runM step s (i :: rest) = some (os, s') ↔
      ∃ o s₁ os₁, step s i = some (o, s₁) ∧ runM step s₁ rest = some (os₁, s') ∧ os = o :: os₁ := by
  simp only [runM, bind_eq_some_iff, some.injEq, Prod.mk.injEq, Prod.exists]
  constructor
  · rintro ⟨o, s₁, hs₁, os₁, s₂, hs₂, rfl, rfl⟩
    exact ⟨o, s₁, os₁, hs₁, hs₂, rfl⟩
  · rintro ⟨o, s₁, os₁, hs₁, hs₂, rfl⟩
    exact ⟨o, s₁, hs₁, os₁, s', hs₂, rfl, rfl⟩

theorem runM_simulates {concrete : σ → ι → Option (ο × σ)} {abstract : τ → ι → ο × τ}
    {R : σ → τ → Prop}
    (hstep : ∀ s t i, R s t → ∃ s', concrete s i = some ((abstract t i).1, s') ∧ R s' (abstract t
      i).2) (ops : List ι) (s : σ) (t : τ) (h : R s t) :
    ∃ s', runM concrete s ops = some ((runT abstract t ops).1, s') ∧
      R s' (runT abstract t ops).2 := by
  induction ops generalizing s t with
  | nil => exact ⟨s, rfl, h⟩
  | cons i rest ih =>
    obtain ⟨s₁, hs₁, hR₁⟩ := hstep s t i h
    obtain ⟨s₂, hs₂, hR₂⟩ := ih s₁ (abstract t i).2 hR₁
    refine ⟨s₂, ?_, hR₂⟩
    rw [runM_cons_of_step hs₁, hs₂]
    rfl

/-- Every operation of a run meets the condition `P` in the state it starts
from. -/
def Along (step : σ → ι → Option (ο × σ)) (P : σ → ι → Prop) :
    σ → List ι → Prop
  | _, [] => True
  | s, i :: rest =>
    P s i ∧
      match step s i with
      | none => True
      | some r => Along step P r.2 rest

instance Along.decidable (step : σ → ι → Option (ο × σ)) (P : σ → ι → Prop)
    [inst : ∀ s i, Decidable (P s i)] :
    (s : σ) → (ops : List ι) → Decidable (Along step P s ops)
  | _, [] => inferInstanceAs (Decidable True)
  | s, i :: rest =>
    @instDecidableAnd _ _ (inst s i)
      (match step s i with
      | none => inferInstanceAs (Decidable True)
      | some r => Along.decidable step P r.2 rest)

theorem Along.head (h : Along step P s (i :: rest)) : P s i := h.1

theorem Along.tail (h : Along step P s (i :: rest)) (hs : step s i = some (o, s')) :
    Along step P s' rest := by
  simpa only [hs] using h.2

theorem along_of_mem {P : ι → Prop} {ops : List ι} (hP : ∀ i ∈ ops, P i) (s : σ) :
    Along step (fun _ i => P i) s ops := by
  induction ops generalizing s with
  | nil => trivial
  | cons i rest ih =>
    rw [List.forall_mem_cons] at hP
    refine ⟨hP.1, ?_⟩
    cases step s i with
    | none => trivial
    | some r => exact ih hP.2 r.2

theorem runM_invariant (hstep : ∀ s i o s', Inv s → P s i → step s i = some (o, s') → Inv s')
    (ops : List ι) (s s' : σ) (os : List ο) (h : Inv s)
    (hP : Along step P s ops) (hrun : runM step s ops = some (os, s')) :
    Inv s' := by
  induction ops generalizing s os with
  | nil =>
    simp only [runM, some.injEq, Prod.mk.injEq] at hrun
    exact hrun.2 ▸ h
  | cons i rest ih =>
    obtain ⟨o, s₁, os₁, hs₁, hrest, _⟩ := runM_cons_eq_some_iff.1 hrun
    exact ih s₁ os₁ (hstep s i o s₁ h hP.head hs₁) (hP.tail hs₁) hrest

theorem runM_invariant_of_mem {ops : List ι}
    (hstep : ∀ s i o s', i ∈ ops → Inv s → step s i = some (o, s') → Inv s') {s s' : σ}
    {os : List ο} (h : Inv s) (hrun : runM step s ops = some (os, s')) : Inv s' :=
  runM_invariant (P := fun _ i => i ∈ ops) (fun s i o s' hs hi => hstep s i o s' hi hs) ops s s' os
    h (along_of_mem (fun _ hi => hi) s) hrun

theorem runM_keeps {P : ι → Prop}
    (hstep : ∀ s i, Inv s → P i → ∃ o s', step s i = some (o, s') ∧ Inv s') (ops : List ι) {s : σ}
    (h : Inv s) (hP : ∀ i ∈ ops, P i) : ∃ os s', runM step s ops = some (os, s') ∧ Inv s' := by
  induction ops generalizing s with
  | nil => exact ⟨[], s, rfl, h⟩
  | cons i rest ih =>
    rw [List.forall_mem_cons] at hP
    obtain ⟨o, s₁, hs₁, h₁⟩ := hstep s i h hP.1
    obtain ⟨os, s', hs', h'⟩ := ih h₁ hP.2
    exact ⟨o :: os, s', by rw [runM_cons_of_step hs₁, hs']; rfl, h'⟩

/-- The runs of an abstract model that relates each state, operation and
observation to the states that may follow. -/
inductive Traces (acts : τ → ι → ο → τ → Prop) : τ → List ι → List ο → τ → Prop
  | nil (t : τ) : Traces acts t [] [] t
  | cons {t t' t'' : τ} {i : ι} {o : ο} {is : List ι} {os : List ο}
      (head : acts t i o t') (tail : Traces acts t' is os t'') :
      Traces acts t (i :: is) (o :: os) t''

theorem runM_traces {acts : τ → ι → ο → τ → Prop} {R : σ → τ → Prop}
    (hstep : ∀ s t i, R s t → P s i → ∃ o s' t', step s i = some (o, s') ∧ acts t i o t' ∧ R s' t')
    (ops : List ι) {s : σ} {t : τ} (h : R s t) (hP : Along step P s ops) :
    ∃ os s' t', runM step s ops = some (os, s') ∧ Traces acts t ops os t' ∧ R s' t' := by
  induction ops generalizing s t with
  | nil => exact ⟨[], s, t, rfl, .nil t, h⟩
  | cons i rest ih =>
    obtain ⟨o, s₁, t₁, hs₁, hacts, h₁⟩ := hstep s t i h hP.head
    obtain ⟨os, s₂, t₂, hs₂, htraces, h₂⟩ := ih h₁ (hP.tail hs₁)
    refine ⟨o :: os, s₂, t₂, ?_, .cons hacts htraces, h₂⟩
    rw [runM_cons_of_step hs₁, hs₂]
    rfl

end Observed

theorem runT_traces {step : σ → ι → ο × σ} {acts : τ → ι → ο → τ → Prop} {R : List ι → σ → τ → Prop}
    (hstep : ∀ i rest s t, R (i :: rest) s t → ∃ t', acts t i (step s i).1 t' ∧ R rest (step s i).2
      t') (ops : List ι) {s : σ} {t : τ} (h : R ops s t) :
    ∃ t', Traces acts t ops (runT step s ops).1 t' ∧ R [] (runT step s ops).2 t' := by
  induction ops generalizing s t with
  | nil => exact ⟨t, .nil t, h⟩
  | cons i rest ih =>
    obtain ⟨t₁, hacts, h₁⟩ := hstep i rest s t h
    obtain ⟨t', htraces, h'⟩ := ih h₁
    exact ⟨t', .cons hacts htraces, h'⟩

theorem Traces.keeps {acts : τ → ι → ο → τ → Prop} {P : ι → Prop} {Inv : τ → Prop}
    (hstep : ∀ t i o t', acts t i o t' → P i → Inv t → Inv t') {t t' : τ} {ops : List ι}
    {os : List ο} (htraces : Traces acts t ops os t') :
    (∀ i ∈ ops, P i) → Inv t → Inv t' := by
  induction htraces with
  | nil t => exact fun _ h => h
  | cons head tail ih =>
    intro hP h
    rw [List.forall_mem_cons] at hP
    exact ih hP.2 (hstep _ _ _ _ head hP.1 h)

section Silent

variable {step : σ → ι → Option σ} {P : σ → ι → Prop} {Inv : σ → Prop}

/-- Run a partial machine that has no observations. -/
def exec (step : σ → ι → Option σ) : σ → List ι → Option σ
  | s, [] => some s
  | s, i :: rest => (step s i).bind (exec step · rest)

/-- Every operation of such a run meets the condition `P` in the state it starts
from. -/
def ExecAlong (step : σ → ι → Option σ) (P : σ → ι → Prop) : σ → List ι → Prop
  | _, [] => True
  | s, i :: rest =>
    P s i ∧
      match step s i with
      | none => True
      | some s' => ExecAlong step P s' rest

instance ExecAlong.decidable (step : σ → ι → Option σ) (P : σ → ι → Prop)
    [inst : ∀ s i, Decidable (P s i)] :
    (s : σ) → (ops : List ι) → Decidable (ExecAlong step P s ops)
  | _, [] => inferInstanceAs (Decidable True)
  | s, i :: rest =>
    @instDecidableAnd _ _ (inst s i)
      (match step s i with
      | none => inferInstanceAs (Decidable True)
      | some s' => ExecAlong.decidable step P s' rest)

theorem exec_keeps_along (hstep : ∀ s i, Inv s → P s i → ∃ s', step s i = some s' ∧ Inv s')
    (ops : List ι) {s : σ} (h : Inv s) (hP : ExecAlong step P s ops) :
    ∃ s', exec step s ops = some s' ∧ Inv s' := by
  induction ops generalizing s with
  | nil => exact ⟨s, rfl, h⟩
  | cons i rest ih =>
    obtain ⟨s₁, hs₁, h₁⟩ := hstep s i h hP.1
    have htail : ExecAlong step P s₁ rest := by simpa only [hs₁] using hP.2
    obtain ⟨s₂, hs₂, h₂⟩ := ih h₁ htail
    exact ⟨s₂, by rw [exec, hs₁, bind_some, hs₂], h₂⟩

theorem execAlong_of_mem {P : ι → Prop} {ops : List ι} (hP : ∀ i ∈ ops, P i) (s : σ) :
    ExecAlong step (fun _ i => P i) s ops := by
  induction ops generalizing s with
  | nil => trivial
  | cons i rest ih =>
    rw [List.forall_mem_cons] at hP
    refine ⟨hP.1, ?_⟩
    cases step s i with
    | none => trivial
    | some s' => exact ih hP.2 s'

theorem exec_keeps (hstep : ∀ s i, Inv s → ∃ s', step s i = some s' ∧ Inv s') (ops : List ι) {s : σ}
    (h : Inv s) : ∃ s', exec step s ops = some s' ∧ Inv s' :=
  exec_keeps_along (fun s i hs _ => hstep s i hs) ops h
    (execAlong_of_mem (P := fun _ => True) (fun _ _ => trivial) s)

theorem exec_invariant_along (hstep : ∀ s i s', Inv s → P s i → step s i = some s' → Inv s')
    (ops : List ι) {s s' : σ} (h : Inv s) (hP : ExecAlong step P s ops)
    (hexec : exec step s ops = some s') : Inv s' := by
  induction ops generalizing s with
  | nil => exact some.inj hexec ▸ h
  | cons i rest ih =>
    rw [exec, bind_eq_some_iff] at hexec
    obtain ⟨s₁, hs₁, hrest⟩ := hexec
    have htail : ExecAlong step P s₁ rest := by simpa only [hs₁] using hP.2
    exact ih (hstep s i s₁ h hP.1 hs₁) htail hrest

theorem exec_invariant_of_mem {ops : List ι}
    (hstep : ∀ s i s', i ∈ ops → Inv s → step s i = some s' → Inv s') {s s' : σ} (h : Inv s)
    (hexec : exec step s ops = some s') : Inv s' :=
  exec_invariant_along (P := fun _ i => i ∈ ops) (fun s i s' hs hi => hstep s i s' hi hs) ops h
    (execAlong_of_mem (fun _ hi => hi) s) hexec

theorem exec_invariant (hstep : ∀ s i s', Inv s → step s i = some s' → Inv s')
    (ops : List ι) {s s' : σ} (h : Inv s) (hexec : exec step s ops = some s') : Inv s' :=
  exec_invariant_of_mem (fun s i s' _ => hstep s i s') h hexec

theorem exec_done {Inv : List ι → σ → Prop} {all : List ι}
    (hstep : ∀ done i rest s, all = done ++ i :: rest → Inv done s →
      ∃ s', step s i = some s' ∧ Inv (done ++ [i]) s') {s : σ} (h : Inv [] s) :
    ∃ s', exec step s all = some s' ∧ Inv all s' := by
  have hrest : ∀ rest done s, all = done ++ rest → Inv done s →
      ∃ s', exec step s rest = some s' ∧ Inv all s' := by
    intro rest done s hall hs
    induction rest generalizing done s with
    | nil =>
      rw [hall, List.append_nil]
      exact ⟨s, rfl, hs⟩
    | cons i rest ih =>
      obtain ⟨t, hstep', ht⟩ := hstep done i rest s hall hs
      obtain ⟨s', hexec, hs'⟩ := ih (done ++ [i]) t (by rw [hall]; simp) ht
      exact ⟨s', by rw [exec, hstep', bind_some, hexec], hs'⟩
  exact hrest all [] s rfl h

def FoldAlong (step : σ → ι → σ) (P : σ → ι → Prop) : σ → List ι → Prop
  | _, [] => True
  | s, i :: rest => P s i ∧ FoldAlong step P (step s i) rest

instance FoldAlong.decidable (step : σ → ι → σ) (P : σ → ι → Prop)
    [inst : ∀ s i, Decidable (P s i)] :
    (s : σ) → (ops : List ι) → Decidable (FoldAlong step P s ops)
  | _, [] => inferInstanceAs (Decidable True)
  | s, i :: rest =>
    @instDecidableAnd _ _ (inst s i) (FoldAlong.decidable step P (step s i) rest)

theorem exec_follows_along {next : τ → ι → τ} {P : τ → ι → Prop} {R : τ → σ → Prop}
    (hstep : ∀ t s i, R t s → P t i → ∃ s', step s i = some s' ∧ R (next t i) s')
    (ops : List ι) {t : τ} {s : σ} (h : R t s) (hP : FoldAlong next P t ops) :
    ∃ s', exec step s ops = some s' ∧ R (ops.foldl next t) s' := by
  induction ops generalizing t s with
  | nil => exact ⟨s, rfl, h⟩
  | cons i rest ih =>
    obtain ⟨s₁, hs₁, h₁⟩ := hstep t s i h hP.1
    obtain ⟨s₂, hs₂, h₂⟩ := ih h₁ hP.2
    exact ⟨s₂, by rw [exec, hs₁, bind_some, hs₂], h₂⟩

theorem foldAlong_of_forall {step : σ → ι → σ} {P : σ → ι → Prop} (hP : ∀ s i, P s i)
    (ops : List ι) (s : σ) : FoldAlong step P s ops := by
  induction ops generalizing s with
  | nil => trivial
  | cons i rest ih => exact ⟨hP s i, ih (step s i)⟩

theorem exec_follows {next : τ → ι → τ} {R : τ → σ → Prop}
    (hstep : ∀ t s i, R t s → ∃ s', step s i = some s' ∧ R (next t i) s') (ops : List ι)
    {t : τ} {s : σ} (h : R t s) :
    ∃ s', exec step s ops = some s' ∧ R (ops.foldl next t) s' :=
  exec_follows_along (P := fun _ _ => True) (fun t s i hR _ => hstep t s i hR) ops h
    (foldAlong_of_forall (fun _ _ => trivial) ops t)

end Silent

theorem foldl_keeps {step : σ → ι → σ} {Inv : σ → Prop}
    (hstep : ∀ s i, Inv s → Inv (step s i)) (ops : List ι) {s : σ} (h : Inv s) :
    Inv (ops.foldl step s) :=
  List.foldlRecOn ops step h fun t ht i _ => hstep t i ht

theorem foldl_good_or_bad {step : σ → ι → σ} {P : σ → ι → Prop} {Good Bad : σ → Prop}
    (hgood : ∀ s i, Good s → Good (step s i) ∧ P s i ∨ Bad (step s i) ∧ ¬ P s i)
    (hbad : ∀ s i, Bad s → Bad (step s i)) (ops : List ι) {s : σ} (h : Good s) :
    Good (ops.foldl step s) ∧ FoldAlong step P s ops ∨
      Bad (ops.foldl step s) ∧ ¬ FoldAlong step P s ops := by
  induction ops generalizing s with
  | nil => exact .inl ⟨h, trivial⟩
  | cons i rest ih =>
    cases hgood s i h with
    | inl hnext =>
      cases ih hnext.1 with
      | inl hrun => exact .inl ⟨hrun.1, hnext.2, hrun.2⟩
      | inr hrun => exact .inr ⟨hrun.1, fun halong => hrun.2 halong.2⟩
    | inr hnext => exact .inr ⟨foldl_keeps hbad rest hnext.1, fun halong => hnext.2 halong.1⟩

/-- One step of a run and of the run that makes only the visible operations. -/
def skipStep (step : σ → ι → Option (ο × σ)) (visible : ι → Bool) (st : σ × σ) (i : ι) :
    Option (σ × σ) := do
  let s ← step st.1 i
  if visible i then
    let t ← step st.2 i
    some (s.2, t.2)
  else some (s.2, st.2)

theorem runM_skips {step : σ → ι → Option (ο × σ)} {visible : ι → Bool} {shown : ο → Bool}
    {P : σ × σ → ι → Prop} {R : σ → σ → Prop}
    (hvisible : ∀ s t i o s' o' t', R s t → P (s, t) i → visible i = true →
      step s i = some (o, s') → step t i = some (o', t') → o = o' ∧ shown o = true ∧ R s' t')
    (hhidden : ∀ s t i o s', R s t → visible i = false → step s i = some (o, s') →
      shown o = false ∧ R s' t) (ops : List ι) {s t s' t' : σ} {os os' : List ο} (h : R s t)
    (halong : ExecAlong (skipStep step visible) P (s, t) ops)
    (hrun : runM step s ops = some (os, s'))
    (hrun' : runM step t (ops.filter visible) = some (os', t')) :
    os.filter shown = os' ∧ R s' t' := by
  induction ops generalizing s t os os' with
  | nil =>
    cases hrun
    cases hrun'
    exact ⟨rfl, h⟩
  | cons i rest ih =>
    obtain ⟨o, s₁, os₁, hs₁, hrest, rfl⟩ := runM_cons_eq_some_iff.1 hrun
    have htail := halong.2
    cases hi : visible i with
    | true =>
      rw [List.filter_cons, if_pos hi] at hrun'
      obtain ⟨o', t₁, os₁', ht₁, hrest', rfl⟩ := runM_cons_eq_some_iff.1 hrun'
      obtain ⟨rfl, hshown, hnext⟩ := hvisible s t i o s₁ o' t₁ h halong.1 hi hs₁ ht₁
      simp only [skipStep, hs₁, ht₁, hi] at htail
      obtain ⟨hout, hend⟩ := ih hnext htail hrest hrest'
      rw [List.filter_cons, if_pos hshown, hout]
      exact ⟨rfl, hend⟩
    | false =>
      rw [List.filter_cons, hi] at hrun'
      obtain ⟨hshown, hnext⟩ := hhidden s t i o s₁ h hi hs₁
      simp only [skipStep, hs₁, hi] at htail
      rw [List.filter_cons, hshown]
      exact ih hnext htail hrest hrun'

end WebrtcCore.Verified.Simulation
