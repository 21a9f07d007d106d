import Exyde.Lib.Lockstep
import Exyde.Lib.Trap

/-! # Programs that note what they do

A program over a state with a log notes accesses as it makes them, and traps where its
loops have used up their fuel. `Follows ok p q s` says that from `s` the program `p`
does not trap, gives what the silent program `q` gives, and notes accesses that are all
`ok`. -/

namespace Exyde.Lib

/-- A state, with the accesses noted so far, the last one first. -/
structure Traced (σ A : Type) where
  state : σ
  log : List A

namespace Traced

variable {σ A α β : Type}

def silent (q : Prog σ α) : Trap (Traced σ A) α := fun t =>
  some ((q t.state).1, ⟨(q t.state).2, t.log⟩)

def note (a : A) : Trap (Traced σ A) Unit := .change fun t => ⟨t.state, a :: t.log⟩

end Traced

def Follows {σ A α : Type} (ok : A → Prop) (p : Trap (Traced σ A) α) (q : Prog σ α) (s : σ) : Prop :=
  ∀ log, ∃ new, p ⟨s, log⟩ = some ((q s).1, ⟨(q s).2, new ++ log⟩) ∧ ∀ a ∈ new, ok a

namespace Follows

variable {σ A α β : Type} {ok : A → Prop} {p p' : Trap (Traced σ A) α} {q q' : Prog σ α} {s : σ}
  {k : α → Trap (Traced σ A) β}

theorem congr (h : Follows ok p q s) (hq : q' s = q s) : Follows ok p q' s := by
  intro log
  rw [hq]
  exact h log

theorem of_eq {a : α} (h : q s = (a, s)) : Follows ok (pure a) q s := by
  intro log
  rw [h]
  exact ⟨[], rfl, fun _ h0 => absurd h0 List.not_mem_nil⟩

theorem pure (a : α) : Follows ok (pure a) (pure a) s := of_eq rfl

theorem silent (q : Prog σ α) : Follows ok (Traced.silent q) q s := fun _ =>
  ⟨[], rfl, fun _ h0 => absurd h0 List.not_mem_nil⟩

theorem bind {k' : α → Prog σ β} (h : Follows ok p q s)
    (hk : Follows ok (k (q s).1) (k' (q s).1) (q s).2) : Follows ok (p >>= k) (q >>= k') s := by
  intro log
  obtain ⟨new, hp, hnew⟩ := h log
  obtain ⟨new', hp', hnew'⟩ := hk (new ++ log)
  refine ⟨new' ++ new, ?_, fun a ha => ?_⟩
  · rw [Trap.bind_of hp, hp', List.append_assoc]
    rfl
  · exact (List.mem_append.mp ha).elim (hnew' a) (hnew a)

/-- A step that `q` does not make: it changes nothing. -/
theorem skip {q : Prog σ β} {a : α}
    (h : Follows ok p (Pure.pure a) s) (hk : Follows ok (k a) q s) : Follows ok (p >>= k) q s := by
  have hb : Follows ok (p >>= k) (Pure.pure a >>= fun _ => q) s := bind h hk
  exact hb

theorem read {f : σ → α} {q : Prog σ β} (hk : Follows ok (k (f s)) q s) :
    Follows ok (Traced.silent (Prog.read f) >>= k) q s :=
  skip (fun _ => ⟨[], rfl, fun _ h0 => absurd h0 List.not_mem_nil⟩) hk

theorem note {a : A} {k : Unit → Trap (Traced σ A) β} {q : Prog σ β} (ha : ok a)
    (hk : Follows ok (k ()) q s) : Follows ok (Traced.note a >>= k) q s := by
  refine skip (a := ()) (fun log => ⟨[a], rfl, fun b hb => ?_⟩) hk
  rw [List.mem_singleton.mp hb]
  exact ha

theorem ite {c : Prop} [Decidable c] (hp : c → Follows ok p q s) (hp' : ¬ c → Follows ok p' q s) :
    Follows ok (if c then p else p') q s := by
  split
  next hc => exact hp hc
  next hc => exact hp' hc

theorem cond {c : Prop} [Decidable c] (h : c → Follows ok p q s) (h' : ¬ c → Follows ok p' q' s) :
    Follows ok (if c then p else p') (if c then q else q') s := by
  by_cases hc : c
  · rw [if_pos hc, if_pos hc]
    exact h hc
  · rw [if_neg hc, if_neg hc]
    exact h' hc

end Follows

end Exyde.Lib
