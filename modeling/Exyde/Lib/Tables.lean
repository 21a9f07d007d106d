import Mathlib.Logic.Function.Basic

/-! # Tables of objects

Partial maps from names to objects, changed at one name. -/

namespace Exyde.Lib

open Function

variable {α β γ : Type} {f : α → Option β} {x y : α} {v w : β}

theorem ne_of_some_of_none (hx : f x = some v) (hy : f y = none) : x ≠ y := by
  rintro rfl
  rw [hx] at hy
  cases hy

variable [DecidableEq α]

theorem update_some_cases (h : update f x (some v) y = some w) :
    (y = x ∧ w = v) ∨ (y ≠ x ∧ f y = some w) := by
  by_cases hy : y = x
  · subst hy
    rw [update_self] at h
    exact .inl ⟨rfl, (Option.some.inj h).symm⟩
  · rw [update_of_ne hy] at h
    exact .inr ⟨hy, h⟩

theorem update_none_cases (h : update f x none y = some w) : y ≠ x ∧ f y = some w := by
  by_cases hy : y = x
  · subst hy
    rw [update_self] at h
    cases h
  · rw [update_of_ne hy] at h
    exact ⟨hy, h⟩

theorem update_eq_none {o : Option β} (hy : f y = none) (ho : y = x → o = none) :
    update f x o y = none := by
  by_cases hyx : y = x
  · rw [hyx, update_self, ho hyx]
  · rw [update_of_ne hyx, hy]

theorem update_seen (g : Option β → γ) (f : α → Option β) (x : α) (o : Option β) :
    (fun y => g (update f x o y)) = update (fun y => g (f y)) x (g o) :=
  funext fun y => apply_update (fun _ => g) f x o y

theorem update_unseen (g : Option β → γ) {o : Option β} (h : g o = g (f x)) :
    (fun y => g (update f x o y)) = fun y => g (f y) := by
  rw [update_seen, h]
  exact update_eq_self ..

end Exyde.Lib
