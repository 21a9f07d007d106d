import Mathlib.Data.List.Basic

/-! # Linked list segments

`Seg next h l t` says that following `next` from `h` one passes through the members of
`l` and arrives at `t`. Links are changed at the end of a segment only. -/

namespace Exyde.Lib

variable {α : Type} [Zero α] {next next' : α → α} {h t u p : α} {l l' : List α}

def Seg (next : α → α) : α → List α → α → Prop
  | h, [], t => h = t
  | h, a :: l, t => h = a ∧ a ≠ 0 ∧ Seg next (next a) l t

theorem Seg.congr (hs : Seg next h l t) (heq : ∀ a ∈ l, next' a = next a) : Seg next' h l t := by
  induction l generalizing h with
  | nil => exact hs
  | cons a l ih =>
    refine ⟨hs.1, hs.2.1, ?_⟩
    rw [heq a (List.mem_cons_self ..)]
    exact ih hs.2.2 fun b hb => heq b (List.mem_cons_of_mem _ hb)

theorem seg_append : Seg next h (l ++ l') t ↔ ∃ u, Seg next h l u ∧ Seg next u l' t := by
  induction l generalizing h with
  | nil => exact ⟨fun hs => ⟨h, rfl, hs⟩, fun ⟨u, hu, hs⟩ => by rw [show h = u from hu]; exact hs⟩
  | cons a l ih =>
    constructor
    · intro ⟨ha, hne, hs⟩
      obtain ⟨u, hu, hs⟩ := ih.mp hs
      exact ⟨u, ⟨ha, hne, hu⟩, hs⟩
    · intro ⟨u, ⟨ha, hne, hu⟩, hs⟩
      exact ⟨ha, hne, ih.mpr ⟨u, hu, hs⟩⟩

theorem Seg.redirect (hs : Seg next h (l ++ [p]) t) (heq : ∀ a ∈ l, next' a = next a)
    (hp : next' p = u) : Seg next' h (l ++ [p]) u := by
  obtain ⟨v, hv, hvp, hne, _⟩ := seg_append.mp hs
  exact seg_append.mpr ⟨v, hv.congr heq, hvp, hne, hp⟩

theorem Seg.head_eq (hs : Seg next h l 0) : h = l.headD 0 := by
  cases l with
  | nil => exact hs
  | cons a l => exact hs.1

end Exyde.Lib
