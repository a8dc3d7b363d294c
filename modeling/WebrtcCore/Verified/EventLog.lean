/-!
# Conditions on every event of a growing log

A machine that appends to a log what it does is specified by a condition on each
event together with what stands before it and after it.  `Everywhere` is such a
condition, and `Everywhere.append` the rule for a step: when the condition survives
later events, only the events of the step are to be checked.
-/

namespace WebrtcCore.Verified.EventLog

open List

variable {ε : Type} {P : List ε → ε → List ε → Prop} {log : List ε}

/-- The condition `P` holds of every event, between the events before and after it. -/
def Everywhere (P : List ε → ε → List ε → Prop) (log : List ε) : Prop :=
  ∀ before event after, log = before ++ event :: after → P before event after

/-- What holds of an event is not lost when the log grows. -/
def Stable (P : List ε → ε → List ε → Prop) : Prop :=
  ∀ before event after more, P before event after → P before event (after ++ more)

theorem everywhere_nil : Everywhere P [] := by
  intro before event after h
  simp at h

theorem Everywhere.append (hstable : Stable P) (h : Everywhere P log) {more : List ε}
    (hmore : ∀ before event after, more = before ++ event :: after →
      P (log ++ before) event after) :
    Everywhere P (log ++ more) := by
  intro before event after heq
  cases append_eq_append_iff.mp heq with
  | inl hin =>
    obtain ⟨b, hbefore, hb⟩ := hin
    rw [hbefore]
    exact hmore b event after hb
  | inr hin =>
    obtain ⟨a, hlog, ha⟩ := hin
    cases a with
    | nil =>
      -- the event is the first of the new ones
      rw [append_nil] at hlog
      rw [← hlog, ← append_nil log]
      exact hmore [] event after ha.symm
    | cons first rest =>
      rw [cons_append, cons.injEq] at ha
      rw [ha.1, ha.2]
      apply hstable
      exact h before first rest hlog

theorem Everywhere.append_one (hstable : Stable P) (h : Everywhere P log) {event : ε}
    (hevent : P log event []) : Everywhere P (log ++ [event]) := by
  apply h.append hstable
  intro before e after heq
  cases before with
  | nil =>
    simp only [nil_append, cons.injEq] at heq
    rw [append_nil, ← heq.1, ← heq.2]
    exact hevent
  | cons b bs => simp at heq

theorem Everywhere.append_two (hstable : Stable P) (h : Everywhere P log) {first second : ε}
    (hfirst : P log first [second]) (hsecond : P (log ++ [first]) second []) :
    Everywhere P (log ++ [first, second]) := by
  apply h.append hstable
  intro before e after heq
  cases before with
  | nil =>
    simp only [nil_append, cons.injEq] at heq
    rw [append_nil, ← heq.1, ← heq.2]
    exact hfirst
  | cons b bs =>
    cases bs with
    | nil =>
      simp only [cons_append, nil_append, cons.injEq] at heq
      rw [← heq.1, ← heq.2.1, ← heq.2.2]
      exact hsecond
    | cons c cs => simp at heq

end WebrtcCore.Verified.EventLog
