import Mathlib.Logic.Function.Basic

/-! # Runs of a transition system

A system has start states and, for every event, the state the event leads to where it is
enabled. `Reach` collects the states of all runs whose steps meet a side condition on
the state before the step and the event. -/

namespace Exyde.Lib

/-- What an event does to a state; `none` where the event is not enabled. -/
structure System (σ ε : Type) where
  start : σ → Prop
  step : σ → ε → Option σ

variable {σ ε : Type} {sys : System σ ε} {ok ok' : σ → ε → Prop} {s s' : σ}

inductive Reach (sys : System σ ε) (ok : σ → ε → Prop) : σ → Prop
  | start {s : σ} : sys.start s → Reach sys ok s
  | step {s s' : σ} {e : ε} : Reach sys ok s → ok s e → sys.step s e = some s' →
      Reach sys ok s'

abbrev Reachable (sys : System σ ε) : σ → Prop := Reach sys fun _ _ => True

/-- **The invariant rule.** What holds at the start and is kept by every step
that meets the side condition holds in every state reached. -/
theorem Reach.invariant {I : σ → Prop} (h : Reach sys ok s)
    (init : ∀ s, sys.start s → I s)
    (keep : ∀ s e s', I s → ok s e → sys.step s e = some s' → I s') : I s := by
  induction h with
  | start hs => exact init _ hs
  | step _ hok hstep ih => exact keep _ _ _ ih hok hstep

theorem Reach.mono (h : Reach sys ok s) (himp : ∀ s e, ok s e → ok' s e) : Reach sys ok' s := by
  induction h with
  | start hs => exact .start hs
  | step _ hok hstep ih => exact .step ih (himp _ _ hok) hstep

def System.run (sys : System σ ε) : σ → List ε → Option σ
  | s, [] => some s
  | s, e :: es => (sys.step s e).bind fun s' => sys.run s' es

/-- The same, refusing a step that does not meet the side condition. -/
def System.runOk (sys : System σ ε) (ok : σ → ε → Prop) [∀ s e, Decidable (ok s e)] :
    σ → List ε → Option σ
  | s, [] => some s
  | s, e :: es => if ok s e then (sys.step s e).bind fun s' => sys.runOk ok s' es else none

theorem Reach.runOk [∀ s e, Decidable (ok s e)] {es : List ε} (hrun : s' ∈ sys.runOk ok s es)
    (h : Reach sys ok s) : Reach sys ok s' := by
  induction es generalizing s with
  | nil => cases hrun; exact h
  | cons e es ih =>
    obtain ⟨hok, hrun⟩ := Option.ite_none_right_eq_some.mp hrun
    obtain ⟨s1, h1, h2⟩ := Option.bind_eq_some_iff.mp hrun
    exact ih h2 (.step h hok h1)

theorem Reachable.run {es : List ε} (hrun : s' ∈ sys.run s es) (h : Reachable sys s) :
    Reachable sys s' := by
  induction es generalizing s with
  | nil => cases hrun; exact h
  | cons e es ih =>
    obtain ⟨s1, h1, h2⟩ := Option.bind_eq_some_iff.mp hrun
    exact ih h2 (.step h trivial h1)

end Exyde.Lib
