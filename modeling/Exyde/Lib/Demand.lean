import Mathlib.Data.Finset.Card

/-! # Places made on demand

Places that are made when they are first needed, each at the price of one unit of some
stock; `made` says which are there. Making one set first and then another costs what
making both at once does. -/

namespace Exyde.Lib

open Finset

variable {P : Type} {made : P → Bool}

def price (made : P → Bool) (A : Finset P) : Nat := (A.filter fun p => made p = false).card

theorem price_singleton_of_made {p : P} (h : made p = true) : price made {p} = 0 := by
  rw [price, filter_singleton, if_neg (by rw [h]; decide), card_empty]

theorem price_singleton_of_lacking {p : P} (h : made p = false) : price made {p} = 1 := by
  rw [price, filter_singleton, if_pos h, card_singleton]

theorem price_mono {A B : Finset P} (h : A ⊆ B) : price made A ≤ price made B :=
  card_le_card (filter_subset_filter _ h)

variable [DecidableEq P]

/-- The places that are there once those of `A` have been made. -/
def withPlaces (made : P → Bool) (A : Finset P) (p : P) : Bool := made p || decide (p ∈ A)

theorem withPlaces_empty (made : P → Bool) : withPlaces made ∅ = made := by
  funext p
  simp [withPlaces]

theorem withPlaces_union (made : P → Bool) (A B : Finset P) :
    withPlaces (withPlaces made A) B = withPlaces made (A ∪ B) := by
  funext p
  simp [withPlaces, Bool.or_assoc]

theorem withPlaces_of_made {p : P} (h : made p = true) : withPlaces made {p} = made := by
  funext q
  by_cases hq : q = p
  · subst hq
    rw [withPlaces, h, Bool.true_or]
  · simp [withPlaces, hq]

theorem price_union (made : P → Bool) (A B : Finset P) :
    price made (A ∪ B) = price made A + price (withPlaces made A) B := by
  have hsplit : (A ∪ B).filter (fun p => made p = false) =
      A.filter (fun p => made p = false) ∪ B.filter (fun p => withPlaces made A p = false) := by
    ext p
    simp only [withPlaces, mem_filter, mem_union, Bool.or_eq_false_iff,
      decide_eq_false_iff_not]
    tauto
  have hdisj : Disjoint (A.filter fun p => made p = false)
      (B.filter fun p => withPlaces made A p = false) := by
    rw [disjoint_left]
    intro p hp hp'
    have hno := (mem_filter.mp hp').2
    simp [withPlaces, (mem_filter.mp hp).1] at hno
  rw [price, hsplit, card_union_of_disjoint hdisj, price, price]

end Exyde.Lib
