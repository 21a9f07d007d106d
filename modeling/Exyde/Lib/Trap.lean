import Mathlib.Logic.Function.Basic

/-! # Programs that may trap

A program turns a state into an answer and a state, or traps. The lemmas run a program
forward one operation at a time. -/

namespace Exyde.Lib

/-- A program over the state `σ`; `none` is a trap. -/
def Trap (σ α : Type) : Type := σ → Option (α × σ)

namespace Trap

instance instMonadTrap {σ : Type} : Monad (Trap σ) where
  pure a := fun s => some (a, s)
  bind p q := fun s => (p s).bind fun r => q r.1 r.2

variable {σ τ α β ι : Type} {s s' : σ} {a : α} {f : σ → Option α}

def trap : Trap σ α := fun _ => none

def read (f : σ → Option α) : Trap σ α := fun s => (f s).map fun a => (a, s)

def change (g : σ → σ) : Trap σ Unit := fun s => some ((), g s)

def forEach (body : ι → Trap σ Unit) : List ι → Trap σ Unit
  | [] => pure ()
  | i :: l => do
    body i
    forEach body l

def within (part : τ → σ) (put : τ → σ → τ) (p : Trap σ α) : Trap τ α := fun t =>
  (p (part t)).map fun r => (r.1, put t r.2)

@[simp] theorem change_apply (g : σ → σ) (s : σ) : change g s = some ((), g s) := rfl

@[simp] theorem read_apply (f : σ → Option α) (s : σ) : read f s = (f s).map fun a => (a, s) := rfl

theorem bind_apply (p : Trap σ α) (q : α → Trap σ β) (s : σ) :
    (p >>= q) s = (p s).bind fun r => q r.1 r.2 := rfl

theorem bind_of {p : Trap σ α} (h : p s = some (a, s')) (q : α → Trap σ β) :
    (p >>= q) s = q a s' := by
  rw [bind_apply, h, Option.bind_some]

theorem read_of (h : f s = some a) : read f s = some (a, s) := by
  rw [read_apply, h, Option.map_some]

theorem read_bind (h : f s = some a) (q : α → Trap σ β) : (read f >>= q) s = q a s :=
  bind_of (read_of h) q

theorem change_bind (g : σ → σ) (q : Unit → Trap σ β) (s : σ) : (change g >>= q) s = q () (g s) :=
  rfl

/-- **The loop rule.** What every round keeps, without a trap, the loop keeps. -/
theorem forEach_of {body : ι → Trap σ Unit} {J : List ι → σ → Prop} (l : List ι)
    (hbody : ∀ i l s, J (i :: l) s → ∃ s', body i s = some ((), s') ∧ J l s') (hs : J l s) :
    ∃ s', forEach body l s = some ((), s') ∧ J [] s' := by
  induction l generalizing s with
  | nil => exact ⟨s, rfl, hs⟩
  | cons i l ih =>
    obtain ⟨s1, h1, hJ⟩ := hbody i l s hs
    obtain ⟨s2, h2, hend⟩ := ih hJ
    exact ⟨s2, (bind_of h1 _).trans h2, hend⟩

def Ends (p : Trap σ α) (s : σ) (Q : α → σ → Prop) : Prop :=
  ∃ a s', p s = some (a, s') ∧ Q a s'

namespace Ends

variable {Q Q' : α → σ → Prop} {R : β → σ → Prop} {p q : Trap σ α} {c : Prop} [Decidable c]

theorem pure (h : Q a s) : Ends (Pure.pure a) s Q :=
  ⟨a, s, rfl, h⟩

theorem read {f : σ → Option α} (hf : f s = some a) (h : Q a s) : Ends (Trap.read f) s Q :=
  ⟨a, s, read_of hf, h⟩

theorem change {g : σ → σ} {Q : Unit → σ → Prop} (h : Q () (g s)) : Ends (Trap.change g) s Q :=
  ⟨(), g s, rfl, h⟩

theorem bind {q : α → Trap σ β} (h : Ends p s fun a s' => Ends (q a) s' R) :
    Ends (p >>= q) s R := by
  obtain ⟨a, s1, hp, b, s2, hq, hR⟩ := h
  exact ⟨b, s2, (bind_of hp q).trans hq, hR⟩

theorem mono (h : Ends p s Q) (himp : ∀ a s', Q a s' → Q' a s') : Ends p s Q' := by
  obtain ⟨a, s', hp, hQ⟩ := h
  exact ⟨a, s', hp, himp a s' hQ⟩

theorem ite (hp : c → Ends p s Q) (hq : ¬ c → Ends q s Q) : Ends (if c then p else q) s Q := by
  split
  next hc => exact hp hc
  next hc => exact hq hc

end Ends

end Trap

end Exyde.Lib
