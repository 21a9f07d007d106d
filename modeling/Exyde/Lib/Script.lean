import Mathlib.Logic.Function.Basic

/-! # Clients of a service

A script makes requests to a service, waits for the answer to each and ends with a
result. A `Contract` says what may be asked, and what may be answered in which state;
`Safe` is what holds of a script whatever is answered within it. A client is a script
with a state of its own. -/

namespace Exyde.Lib

inductive Script (Q R α : Type)
  | done (a : α)
  | ask (q : Q) (k : R → Script Q R α)

/-- What may be asked, and the answers of a service with states `T`. -/
structure Contract (Q R T : Type) where
  may : Q → Prop
  answers : T → Q → R → T → Prop

namespace Script

variable {Q R T α β : Type} {C : Contract Q R T} {t : T} {p : Script Q R α}

def bind : Script Q R α → (α → Script Q R β) → Script Q R β
  | .done a, f => f a
  | .ask q k, f => .ask q fun r => (k r).bind f

instance instMonadScript : Monad (Script Q R) where
  pure := .done
  bind := bind

/-- The script asks only what it may, and ends with `P` whatever is answered. -/
def Safe (C : Contract Q R T) (P : α → T → Prop) : Script Q R α → T → Prop
  | .done a, t => P a t
  | .ask q k, t => C.may q ∧ ∀ r t', C.answers t q r t' → Safe C P (k r) t'

theorem Safe.mono {P P' : α → T → Prop} (h : Safe C P p t)
    (himp : ∀ a t, P a t → P' a t) : Safe C P' p t := by
  induction p generalizing t with
  | done a => exact himp a t h
  | ask q k ih => exact ⟨h.1, fun r t' hr => ih r (h.2 r t' hr)⟩

theorem Safe.bind {P : β → T → Prop} {f : α → Script Q R β}
    (h : Safe C (fun a t => Safe C P (f a) t) p t) : Safe C P (p.bind f) t := by
  induction p generalizing t with
  | done a => exact h
  | ask q k ih => exact ⟨h.1, fun r t' hr => ih r (h.2 r t' hr)⟩

end Script

abbrev Client (σ Q R : Type) := StateT σ (Script Q R)

namespace Client

variable {σ Q R T α β : Type} {C : Contract Q R T} {s : σ} {t : T}

def ask (q : Q) : Client σ Q R R := fun s => .ask q fun r => .done (r, s)

/-- From its state and a state of the service the client ends with `P`. -/
def Runs (C : Contract Q R T) (p : Client σ Q R α) (s : σ) (t : T) (P : α → σ → T → Prop) : Prop :=
  Script.Safe C (fun x t => P x.1 x.2 t) (p s) t

namespace Runs

variable {P P' : α → σ → T → Prop} {p p' : Client σ Q R α} {c : Prop} [Decidable c]

theorem mono (h : Runs C p s t P) (himp : ∀ a s t, P a s t → P' a s t) : Runs C p s t P' :=
  Script.Safe.mono h fun x t => himp x.1 x.2 t

theorem pure {a : α} (h : P a s t) : Runs C (Pure.pure a) s t P := h

theorem bind {P : β → σ → T → Prop} {f : α → Client σ Q R β}
    (h : Runs C p s t fun a s t => Runs C (f a) s t P) : Runs C (p >>= f) s t P :=
  Script.Safe.bind h

theorem get {P : σ → σ → T → Prop} (h : P s s t) : Runs C (MonadState.get : Client σ Q R σ) s t P := h

theorem set {s' : σ} {P : PUnit → σ → T → Prop} (h : P ⟨⟩ s' t) :
    Runs C (MonadStateOf.set s' : Client σ Q R PUnit) s t P := h

theorem modify {f : σ → σ} {P : PUnit → σ → T → Prop} (h : P ⟨⟩ (f s) t) :
    Runs C (modifyGet fun s => (⟨⟩, f s) : Client σ Q R PUnit) s t P := h

theorem ask {q : Q} {P : R → σ → T → Prop} (hmay : C.may q)
    (h : ∀ r t', C.answers t q r t' → P r s t') : Runs C (Client.ask q) s t P :=
  ⟨hmay, h⟩

theorem ite (hp : c → Runs C p s t P) (hq : ¬ c → Runs C p' s t P) :
    Runs C (if c then p else p') s t P := by
  split
  next hc => exact hp hc
  next hc => exact hq hc

end Runs

end Client

end Exyde.Lib
