import Mathlib.Order.Defs.Unbundled

/-! # Programs run in lockstep

`Lockstep E p s Q` says that the run of `p` from `s` ends in `Q`, and that from every
state that `E` relates to `s` the program gives the same answer and ends in a state that
`E` relates to the end of this run. `Prog.Keeps R p` says of all runs of `p` that their
last state is related to their first. -/

namespace Exyde.Lib

def Prog (σ α : Type) : Type := σ → α × σ

namespace Prog

instance {σ : Type} : Monad (Prog σ) where
  pure a := fun s => (a, s)
  bind p q := fun s => q (p s).1 (p s).2

variable {σ α β ι : Type}

def read (f : σ → α) : Prog σ α := fun s => (f s, s)

def change (g : σ → σ) : Prog σ Unit := fun s => ((), g s)

theorem read_bind (f : σ → α) (k : α → Prog σ β) (s : σ) : (read f >>= k) s = k (f s) s := rfl

/-- Run `body i` for `i` from `lo` on, `n` times at most, until it answers
`false`; the answer is the first index whose body did not run to `true`. -/
def upFrom (body : Nat → Prog σ Bool) : Nat → Nat → Prog σ Nat
  | 0, lo => pure lo
  | n + 1, lo => do
    if ← body lo then upFrom body n (lo + 1) else pure lo

def forEach (body : ι → Prog σ Unit) : List ι → Prog σ Unit
  | [] => pure ()
  | i :: l => do
    body i
    forEach body l

theorem forEach_append (body : ι → Prog σ Unit) (l l' : List ι) (s : σ) :
    forEach body (l ++ l') s = forEach body l' (forEach body l s).2 := by
  induction l generalizing s with
  | nil => rfl
  | cons i l ih => exact ih _

end Prog

def Lockstep {σ α : Type} (E : σ → σ → Prop) (p : Prog σ α) (s : σ) (Q : α → σ → Prop) : Prop :=
  Q (p s).1 (p s).2 ∧ ∀ t, E s t → (p t).1 = (p s).1 ∧ E (p s).2 (p t).2

namespace Lockstep

variable {σ α β ι : Type} {E : σ → σ → Prop} {p : Prog σ α} {s : σ} {Q Q' : α → σ → Prop}

theorem post (h : Lockstep E p s Q) : Q (p s).1 (p s).2 := h.1

theorem twin (h : Lockstep E p s Q) {t : σ} (ht : E s t) : E (p s).2 (p t).2 := (h.2 t ht).2

theorem of_post (h : Q (p s).1 (p s).2) : Lockstep Eq p s Q :=
  ⟨h, fun t ht => by subst ht; exact ⟨rfl, rfl⟩⟩

theorem alone (h : Lockstep E p s Q) : Lockstep Eq p s Q := .of_post h.1

theorem both {E' : σ → σ → Prop} (h : Lockstep E p s Q) (h' : Lockstep E' p s Q') :
    Lockstep Eq p s fun a s' => Q a s' ∧ Q' a s' := .of_post ⟨h.1, h'.1⟩

theorem mono (h : Lockstep E p s Q) (hQ : ∀ a s', Q a s' → Q' a s') : Lockstep E p s Q' :=
  ⟨hQ _ _ h.1, h.2⟩

theorem pure {a : α} (h : Q a s) : Lockstep E (pure a) s Q :=
  ⟨h, fun _ ht => ⟨rfl, ht⟩⟩

theorem bind {q : α → Prog σ β} {R : β → σ → Prop}
    (h : Lockstep E p s fun a s' => Lockstep E (q a) s' R) : Lockstep E (p >>= q) s R := by
  refine ⟨h.1.1, fun t ht => ?_⟩
  obtain ⟨ha, hE⟩ := h.2 t ht
  change (q (p t).1 (p t).2).1 = _ ∧ E _ (q (p t).1 (p t).2).2
  rw [ha]
  exact h.1.2 _ hE

theorem ite {c : Prop} [Decidable c] {q : Prog σ α} (hp : c → Lockstep E p s Q)
    (hq : ¬ c → Lockstep E q s Q) : Lockstep E (if c then p else q) s Q := by
  split
  next hc => exact hp hc
  next hc => exact hq hc

theorem read {f : σ → α} (hf : ∀ t, E s t → f t = f s) (h : Q (f s) s) :
    Lockstep E (Prog.read f) s Q :=
  ⟨h, fun t ht => ⟨hf t ht, ht⟩⟩

theorem change {g : σ → σ} {Q : Unit → σ → Prop} (hg : ∀ t, E s t → E (g s) (g t))
    (h : Q () (g s)) : Lockstep E (Prog.change g) s Q :=
  ⟨h, fun t ht => ⟨rfl, hg t ht⟩⟩

theorem look {f : σ → α} (h : Q (f s) s) : Lockstep Eq (Prog.read f) s Q := .of_post h

theorem put {g : σ → σ} {Q : Unit → σ → Prop} (h : Q () (g s)) : Lockstep Eq (Prog.change g) s Q :=
  .of_post h

/-- **The loop rule.** `J i` holds before the body runs at `i`, `K i` where it
stopped there. -/
theorem upFrom {f : Nat → Prog σ Bool} {J K : Nat → σ → Prop} (n lo : Nat)
    (hf : ∀ i s, lo ≤ i → i < lo + n → J i s →
      Lockstep E (f i) s fun ok s' => if ok then J (i + 1) s' else K i s')
    {s : σ} (hs : J lo s) :
    Lockstep E (Prog.upFrom f n lo) s fun m s' =>
      (m = lo + n ∧ J m s') ∨ (lo ≤ m ∧ m < lo + n ∧ K m s') := by
  induction n generalizing lo s with
  | zero => exact .pure (.inl ⟨rfl, hs⟩)
  | succ n ih =>
    refine .bind ((hf lo s (Nat.le_refl _) (by omega) hs).mono fun ok s' hok => .ite ?_ ?_)
    · intro htrue
      rw [if_pos htrue] at hok
      have hrec := ih (lo + 1) (fun i s hlo hlt => hf i s (by omega) (by omega)) hok
      refine hrec.mono fun m s'' hm => ?_
      rcases hm with ⟨hm, hJ⟩ | ⟨h1, h2, hK⟩
      · exact .inl ⟨by omega, hJ⟩
      · exact .inr ⟨by omega, by omega, hK⟩
    · intro hfalse
      rw [if_neg hfalse] at hok
      exact .pure (.inr ⟨Nat.le_refl _, by omega, hok⟩)

theorem forEach {body : ι → Prog σ Unit} {J : σ → Prop} (l : List ι)
    (hbody : ∀ i ∈ l, ∀ s, J s → Lockstep E (body i) s fun _ s' => J s') {s : σ} (hs : J s) :
    Lockstep E (Prog.forEach body l) s fun _ s' => J s' := by
  induction l generalizing s with
  | nil => exact .pure hs
  | cons i l ih =>
    refine .bind ((hbody i List.mem_cons_self s hs).mono fun _ s' hs' => ?_)
    exact ih (fun j hj => hbody j (List.mem_cons_of_mem _ hj)) hs'

end Lockstep

def Prog.Keeps {σ α : Type} (R : σ → σ → Prop) (p : Prog σ α) : Prop := ∀ s, R s (p s).2

namespace Prog.Keeps

variable {σ α β ι : Type} {R : σ → σ → Prop} [IsPreorder σ R] {p q : Prog σ α}

theorem pure (a : α) : Keeps R (pure a : Prog σ α) := fun s => refl_of R s

theorem bind {k : α → Prog σ β} (hp : Keeps R p) (hk : ∀ a, Keeps R (k a)) : Keeps R (p >>= k) :=
  fun s => trans_of R (hp s) (hk _ _)

omit [IsPreorder σ R] in
theorem ite {c : Prop} [Decidable c] (hp : c → Keeps R p) (hq : ¬ c → Keeps R q) :
    Keeps R (if c then p else q) := by
  split
  next hc => exact hp hc
  next hc => exact hq hc

theorem read (f : σ → α) : Keeps R (Prog.read f) := fun s => refl_of R s

theorem upFrom {f : Nat → Prog σ Bool} (hf : ∀ i, Keeps R (f i)) (n lo : Nat) :
    Keeps R (Prog.upFrom f n lo) := by
  induction n generalizing lo with
  | zero => exact .pure lo
  | succ n ih => exact .bind (hf lo) fun _ => .ite (fun _ => ih (lo + 1)) fun _ => .pure lo

theorem forEach {body : ι → Prog σ Unit} (hbody : ∀ i, Keeps R (body i)) (l : List ι) :
    Keeps R (Prog.forEach body l) := by
  induction l with
  | nil => exact .pure ()
  | cons i l ih => exact .bind (hbody i) fun _ => ih

end Prog.Keeps

end Exyde.Lib
