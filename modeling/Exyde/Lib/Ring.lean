import Mathlib.Data.List.Basic
import Mathlib.Data.List.Range
import Mathlib.Data.Nat.ModEq

/-! # Ring windows

The occupied part of a ring of `cap` slots, read in order from `head`. Slots are an
arbitrary function. -/

namespace Exyde.Lib

variable {α : Type} {cap head count : Nat} {get get' : Nat → α}

def window (cap head count : Nat) (get : Nat → α) : List α :=
  (List.range count).map fun k => get ((head + k) % cap)

@[simp] theorem window_length : (window cap head count get).length = count := by
  simp [window]

theorem slot_inj {i j : Nat} (hi : i < cap) (hj : j < cap)
    (h : (head + i) % cap = (head + j) % cap) : i = j := by
  have hmod : Nat.ModEq cap i j := Nat.ModEq.add_left_cancel' head h
  exact hmod.eq_of_lt_of_lt hi hj

theorem window_congr
    (h : ∀ k, k < count → get' ((head + k) % cap) = get ((head + k) % cap)) :
    window cap head count get' = window cap head count get := by
  apply List.map_congr_left
  intro k hk
  exact h k (List.mem_range.mp hk)

theorem window_push (hc : count < cap)
    (hget : ∀ i, i < cap → i ≠ (head + count) % cap → get' i = get i) :
    window cap head (count + 1) get' =
      window cap head count get ++ [get' ((head + count) % cap)] := by
  have hold : window cap head count get' = window cap head count get := by
    apply window_congr
    intro k hk
    refine hget _ (Nat.mod_lt _ (by omega)) fun he => ?_
    have := slot_inj (by omega) hc he
    omega
  rw [← hold]
  simp [window, List.range_succ]

/-- The window is its first slot and the window from the next slot on; writing
the first slot does not change the rest. -/
theorem window_pop (hc : count < cap)
    (hget : ∀ i, i < cap → i ≠ head % cap → get' i = get i) :
    window cap head (count + 1) get =
      get (head % cap) :: window cap ((head + 1) % cap) count get' := by
  have hrest : window cap ((head + 1) % cap) count get' =
      (List.range count).map fun k => get ((head + (k + 1)) % cap) := by
    apply List.map_congr_left
    intro k hk
    have hk := List.mem_range.mp hk
    have hidx : ((head + 1) % cap + k) % cap = (head + (k + 1)) % cap := by
      rw [Nat.mod_add_mod]; congr 1; omega
    rw [hidx]
    refine hget _ (Nat.mod_lt _ (by omega)) fun he => ?_
    have hk0 : k + 1 < cap := by omega
    have := slot_inj hk0 (Nat.zero_lt_of_lt hk0) (by simpa using he)
    omega
  rw [hrest]
  simp [window, List.range_succ_eq_map, Function.comp_def]

end Exyde.Lib
