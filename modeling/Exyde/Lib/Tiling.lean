import Mathlib.Algebra.Ring.Nat
import Mathlib.Data.List.Pairwise
import Mathlib.Algebra.BigOperators.Group.List.Basic

/-! # Tilings of an interval

A list of extents that lie end to end and fill an interval. -/

namespace Exyde.Lib

variable {β : Type} {place len : β → Nat} {lo hi mid : Nat} {b c : β} {bs cs pre post : List β}

def Tiles (place len : β → Nat) : Nat → List β → Nat → Prop
  | lo, [], hi => lo = hi
  | lo, b :: bs, hi => place b = lo ∧ Tiles place len (lo + len b) bs hi

theorem tiles_append :
    Tiles place len lo (bs ++ cs) hi ↔ ∃ mid, Tiles place len lo bs mid ∧ Tiles place len mid cs hi := by
  induction bs generalizing lo with
  | nil => exact ⟨fun h => ⟨lo, rfl, h⟩, fun ⟨mid, hm, h⟩ => by rw [show lo = mid from hm]; exact h⟩
  | cons b bs ih =>
    constructor
    · intro ⟨hb, h⟩
      obtain ⟨mid, h1, h2⟩ := ih.mp h
      exact ⟨mid, ⟨hb, h1⟩, h2⟩
    · intro ⟨mid, ⟨hb, h1⟩, h2⟩
      exact ⟨hb, ih.mpr ⟨mid, h1, h2⟩⟩

theorem Tiles.le (h : Tiles place len lo bs hi) : lo ≤ hi := by
  induction bs generalizing lo with
  | nil => exact Nat.le_of_eq h
  | cons b bs ih => exact Nat.le_trans (Nat.le_add_right ..) (ih h.2)

theorem Tiles.mem (h : Tiles place len lo bs hi) (hb : b ∈ bs) :
    lo ≤ place b ∧ place b + len b ≤ hi := by
  obtain ⟨pre, post, heq⟩ := List.mem_iff_append.mp hb
  subst heq
  obtain ⟨mid, hpre, hat, hpost⟩ := tiles_append.mp h
  have := hpre.le
  have := hpost.le
  omega

theorem Tiles.dvd {d : Nat} (h : Tiles place len lo bs hi) (hlo : d ∣ lo) (hlen : ∀ b ∈ bs, d ∣ len b) :
    d ∣ hi := by
  induction bs generalizing lo with
  | nil =>
    have heq : lo = hi := h
    exact heq ▸ hlo
  | cons b bs ih =>
    have hb := hlen b (List.mem_cons_self ..)
    exact ih h.2 (Nat.dvd_add hlo hb) fun c hc => hlen c (List.mem_cons_of_mem _ hc)

theorem Tiles.pairwise (h : Tiles place len lo bs hi) :
    bs.Pairwise fun b c => place b + len b ≤ place c := by
  induction bs generalizing lo with
  | nil => exact List.Pairwise.nil
  | cons b bs ih =>
    refine List.pairwise_cons.mpr ⟨fun c hc => ?_, ih h.2⟩
    have := (h.2.mem hc).1
    rw [h.1]
    exact this

/-- Where a given extent stands: what is before it ends there, what is behind it
starts at its end. -/
theorem Tiles.around (h : Tiles place len lo (pre ++ b :: post) hi) :
    Tiles place len lo pre (place b) ∧ Tiles place len (place b + len b) post hi := by
  obtain ⟨mid, hpre, hat, hpost⟩ := tiles_append.mp h
  rw [hat]
  exact ⟨hpre, hpost⟩

theorem Tiles.apart (h : Tiles place len lo bs hi) (hb : b ∈ bs) (hc : c ∈ bs) :
    b = c ∨ place b + len b ≤ place c ∨ place c + len c ≤ place b := by
  obtain ⟨pre, post, rfl⟩ := List.mem_iff_append.mp hb
  obtain ⟨hpre, hpost⟩ := h.around
  rcases List.mem_append.mp hc with hc | hc
  · exact .inr (.inr (hpre.mem hc).2)
  · rcases List.mem_cons.mp hc with rfl | hc
    · exact .inl rfl
    · exact .inr (.inl (hpost.mem hc).1)

theorem Tiles.sum (h : Tiles place len lo bs hi) : lo + (bs.map len).sum = hi := by
  induction bs generalizing lo with
  | nil => exact h
  | cons b bs ih =>
    have := ih h.2
    rw [List.map_cons, List.sum_cons]
    omega

/-- An extent and those right behind it are replaced by a list that tiles the same place. -/
theorem Tiles.replace (h : Tiles place len lo (pre ++ b :: (bs ++ post)) hi)
    (hcs : Tiles place len (place b) cs (place b + len b + (bs.map len).sum)) :
    Tiles place len lo (pre ++ (cs ++ post)) hi := by
  obtain ⟨hpre, hrest⟩ := h.around
  obtain ⟨mid, hbs, hpost⟩ := tiles_append.mp hrest
  rw [hbs.sum] at hcs
  exact tiles_append.mpr ⟨_, hpre, tiles_append.mpr ⟨_, hcs, hpost⟩⟩

end Exyde.Lib
