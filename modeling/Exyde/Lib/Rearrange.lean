import Mathlib.GroupTheory.Perm.Basic
import Mathlib.Data.List.Nodup

/-! # Rearranging a sequence in place

A step of an in-place sort rearranges one stretch of places. Once an element has the
smaller ones before it, its two sides are sorted apart from each other. -/

namespace Exyde.Lib

open List

variable {α : Type} {a b c : Nat → α} {l h l' h' x y k n : Nat}

/-- `b` is `a` with the places from `l` to `h` rearranged. -/
def Rearranges (l h : Nat) (a b : Nat → α) : Prop :=
  ∃ π : Equiv.Perm Nat, (∀ k, k < l ∨ h < k → π k = k) ∧ b = a ∘ π

namespace Rearranges

theorem refl (l h : Nat) (a : Nat → α) : Rearranges l h a a :=
  ⟨1, fun _ _ => rfl, rfl⟩

theorem trans (hab : Rearranges l h a b) (hbc : Rearranges l h b c) : Rearranges l h a c := by
  obtain ⟨π, hπ, rfl⟩ := hab
  obtain ⟨ρ, hρ, rfl⟩ := hbc
  refine ⟨π * ρ, fun k hk => ?_, rfl⟩
  rw [Equiv.Perm.mul_apply, hρ k hk, hπ k hk]

theorem mono (hab : Rearranges l h a b) (hl : l' ≤ l) (hh : h ≤ h') : Rearranges l' h' a b := by
  obtain ⟨π, hπ, rfl⟩ := hab
  exact ⟨π, fun k hk => hπ k (by omega), rfl⟩

theorem swap (a : Nat → α) (hx : l ≤ x ∧ x ≤ h) (hy : l ≤ y ∧ y ≤ h) :
    Rearranges l h a (a ∘ Equiv.swap x y) := by
  refine ⟨Equiv.swap x y, fun k hk => ?_, rfl⟩
  exact Equiv.swap_apply_of_ne_of_ne (by omega) (by omega)

section

variable (hab : Rearranges l h a b)

include hab

theorem outside (hk : k < l ∨ h < k) : b k = a k := by
  obtain ⟨π, hπ, rfl⟩ := hab
  exact congrArg a (hπ k hk)

/-- What stands in the stretch afterwards stood in it before. -/
theorem source (hk : l ≤ k ∧ k ≤ h) : ∃ k', l ≤ k' ∧ k' ≤ h ∧ b k = a k' := by
  obtain ⟨π, hπ, rfl⟩ := hab
  refine ⟨π k, ?_⟩
  have hin : ¬ (π k < l ∨ h < π k) := by
    intro hout
    have hfix := π.injective (hπ (π k) hout)
    omega
  exact ⟨by omega, by omega, rfl⟩

theorem symm : Rearranges l h b a := by
  obtain ⟨π, hπ, rfl⟩ := hab
  refine ⟨π.symm, fun k hk => ?_, ?_⟩
  · rw [Equiv.symm_apply_eq]
    exact (hπ k hk).symm
  · funext k
    exact congrArg a (π.apply_symm_apply k).symm

theorem target (hk : l ≤ k ∧ k ≤ h) : ∃ k', l ≤ k' ∧ k' ≤ h ∧ b k' = a k := by
  obtain ⟨k', hl, hh, heq⟩ := hab.symm.source hk
  exact ⟨k', hl, hh, heq.symm⟩

theorem perm (hn : h < n) : ((List.range n).map b).Perm ((List.range n).map a) := by
  obtain ⟨π, hπ, rfl⟩ := hab
  have hrange : ((List.range n).map π).Perm (List.range n) := by
    refine (perm_ext_iff_of_nodup (List.Nodup.map π.injective nodup_range)
      nodup_range).mpr ?_
    intro k
    have hfix : ∀ k, n ≤ k → π k = k := fun k hk => hπ k (by omega)
    rw [mem_map, mem_range]
    constructor
    · rintro ⟨j, hj, rfl⟩
      rw [mem_range] at hj
      by_contra hout
      have := π.injective (hfix (π j) (by omega))
      omega
    · intro hk
      refine ⟨π.symm k, ?_, π.apply_symm_apply k⟩
      rw [mem_range]
      by_contra hout
      have := hfix (π.symm k) (by omega)
      rw [π.apply_symm_apply] at this
      omega
  have := hrange.map a
  rwa [map_map] at this

end

end Rearranges

/-! ## Order -/

/-- The elements from `l` to `h` do not decrease. -/
def AscendingOn (le : α → α → Prop) (l h : Nat) (a : Nat → α) : Prop :=
  ∀ x y, l ≤ x → x < y → y ≤ h → le (a x) (a y)

def Ascending (le : α → α → Prop) (n : Nat) (a : Nat → α) : Prop :=
  ∀ x y, x < y → y < n → le (a x) (a y)

/-- Any two of the elements from `l` to `h` compare. -/
def TotalOn (le : α → α → Prop) (l h : Nat) (a : Nat → α) : Prop :=
  ∀ x y, l ≤ x ∧ x ≤ h → l ≤ y ∧ y ≤ h → le (a x) (a y) ∨ le (a y) (a x)

variable {le : α → α → Prop}

theorem Rearranges.totalOn (hab : Rearranges l h a b) (htotal : TotalOn le l h a) :
    TotalOn le l h b := by
  intro x y hx hy
  obtain ⟨x', hlx, hxh, hbx⟩ := hab.source hx
  obtain ⟨y', hly, hyh, hby⟩ := hab.source hy
  rw [hbx, hby]
  exact htotal x' y' ⟨hlx, hxh⟩ ⟨hly, hyh⟩

/-- **Sorting the two sides of `y`**, the right one first, where nothing on the left is above
what stands at `y`: the whole is sorted exactly if both sides are and nothing on the right
was below it. -/
theorem ascendingOn_sides (htrans : ∀ a b c, le a b → le b c → le a c) (hy : l ≤ y ∧ y ≤ h)
    (hlow : ∀ k, l ≤ k → k < y → le (a k) (a y)) (hab : Rearranges (y + 1) h a b)
    (hbc : Rearranges l (y - 1) b c) :
    AscendingOn le l h c ↔ (∀ k, y < k → k ≤ h → le (a y) (a k)) ∧
      AscendingOn le (y + 1) h b ∧ AscendingOn le l (y - 1) c := by
  have hright : ∀ k, y < k → c k = b k := fun k hk => hbc.outside (by omega)
  have hmid : c y = a y := by
    rw [← hab.outside (.inl (Nat.lt_succ_self y))]
    by_cases hpos : 0 < y
    · exact hbc.outside (by omega)
    · obtain ⟨k, _, hk, heq⟩ := hbc.source (k := y) (by omega)
      rw [heq]
      exact congrArg b (by omega)
  constructor
  · refine fun hasc => ⟨fun k h1 h2 => ?_, fun x z h1 h2 h3 => ?_, fun x z h1 h2 h3 => ?_⟩
    · obtain ⟨k', h3, h4, heq⟩ := hab.target (k := k) ⟨h1, h2⟩
      rw [← hmid, ← heq, ← hright k' h3]
      exact hasc y k' hy.1 h3 h4
    · rw [← hright x h1, ← hright z (by omega)]
      exact hasc x z (by omega) h2 h3
    · exact hasc x z h1 h2 (by omega)
  · rintro ⟨hhigh, hascr, hascl⟩ x z h1 h2 h3
    have hup : ∀ k, y < k → k ≤ h → le (c y) (c k) := by
      intro k hk1 hk2
      obtain ⟨k', hl, hh, heq⟩ := hab.source (k := k) ⟨hk1, hk2⟩
      rw [hmid, hright k hk1, heq]
      exact hhigh k' hl hh
    have hdown : ∀ k, l ≤ k → k < y → le (c k) (c y) := by
      intro k hk1 hk2
      obtain ⟨k', hl, hh, heq⟩ := hbc.source (k := k) ⟨hk1, by omega⟩
      rw [hmid, heq, hab.outside (.inl (by omega))]
      exact hlow k' hl (by omega)
    rcases Nat.lt_trichotomy x y with hx | rfl | hx
    · rcases Nat.lt_trichotomy z y with hz | rfl | hz
      · exact hascl x z h1 h2 (by omega)
      · exact hdown x h1 hx
      · exact htrans _ _ _ (hdown x h1 hx) (hup z hz h3)
    · exact hup z h2 h3
    · rw [hright x hx, hright z (by omega)]
      exact hascr x z hx h2 h3

end Exyde.Lib
