import Mathlib.Data.Finset.Card
import Mathlib.Order.Interval.Finset.Nat

/-! # Blocks of consecutive units

An allocator of consecutive units, seen as the finite set of its free units. -/

namespace Exyde.Lib

def block (start count : Nat) : Finset Nat := Finset.Ico start (start + count)

@[simp] theorem mem_block {start count f : Nat} :
    f ∈ block start count ↔ start ≤ f ∧ f < start + count := Finset.mem_Ico

@[simp] theorem card_block (start count : Nat) : (block start count).card = count := by
  simp [block]

structure Lowest (free : Finset Nat) (count start : Nat) : Prop where
  inside : block start count ⊆ free
  least : ∀ s, block s count ⊆ free → start ≤ s

section

variable {free : Finset Nat} {count start : Nat}

theorem count_le_card (h : block start count ⊆ free) : count ≤ free.card := by
  rw [← card_block start count]
  exact Finset.card_le_card h

theorem card_take (h : block start count ⊆ free) : (free \ block start count).card = free.card - count := by
  rw [Finset.card_sdiff_of_subset h, card_block]

theorem card_give (h : Disjoint free (block start count)) :
    (free ∪ block start count).card = free.card + count := by
  rw [Finset.card_union_of_disjoint h, card_block]

end

end Exyde.Lib
