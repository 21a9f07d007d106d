import Exyde.Mem.CopySpec

/-! # Fresh pages and what is written to them

The loops that map a range of fresh pages, and `Filled`: which pages a space has got
since a state `s0`, and for each of their bytes whether it was written since. -/

namespace Exyde.Mem

open Exyde.Lib (Prog Lockstep)

variable {s s' s0 : State} {r : Nat} {space : Space} {vas : Nat → Nat}

/-! ## Mapping a range -/

/-- `s'` has, over `s`, the pages at `vas 0, …, vas (n - 1)` of the space `r`. -/
structure Maps (s s' : State) (r : Nat) (vas : Nat → Nat) (n : Nat) : Prop where
  aligned : ∀ i < n, vas i % 4096 = 0
  vacant : ∀ i < n, s.node r (vaPath (vas i)) = none
  mapped : ∀ i < n, s'.node r (vaPath (vas i)) ≠ none
  others : ∀ r' p, p.length = 4 → ¬ (r' = r ∧ ∃ i < n, p = vaPath (vas i)) →
    s'.node r' p = s.node r' p

theorem Maps.zero (s : State) (r : Nat) (vas : Nat → Nat) : Maps s s r vas 0 where
  aligned _ h := absurd h (by omega)
  vacant _ h := absurd h (by omega)
  mapped _ h := absurd h (by omega)
  others _ _ _ _ := rfl

theorem Maps.succ {s'' : State} {n : Nat} (h : Maps s s' r vas n)
    (hb : Builds s s') (hb' : Builds s' s'') (hnew : NewLeaf s' s'' r (vas n)) :
    Maps s s'' r vas (n + 1) := by
  have hsplit : ∀ {i}, i < n + 1 → i < n ∨ i = n := by omega
  refine ⟨fun i hi => ?_, fun i hi => ?_, fun i hi => ?_, fun r' p hp hne => ?_⟩
  · rcases hsplit hi with hi | rfl
    · exact h.aligned i hi
    · exact hnew.aligned
  · rcases hsplit hi with hi | rfl
    · exact h.vacant i hi
    · cases hs : s.node r (vaPath (vas i)) with
      | none => rfl
      | some g => exact absurd (hb.keeps hs) (by rw [hnew.vacant]; simp)
  · rcases hsplit hi with hi | rfl
    · cases hs : s'.node r (vaPath (vas i)) with
      | none => exact absurd hs (h.mapped i hi)
      | some g => rw [hb'.keeps hs]; simp
    · obtain ⟨c, _, hc⟩ := hnew.mapped
      rw [hc]; simp
  · rw [hnew.others r' p hp fun h0 => hne ⟨h0.1, n, by omega, h0.2⟩]
    exact h.others r' p hp fun ⟨h0, i, hi, hpi⟩ => hne ⟨h0, i, by omega, hpi⟩

/-- **The mapping loop**: it stops where a page could not be mapped, or has
mapped them all; what it mapped is above the lower bound of the space. -/
theorem mapLoop_spec (h : Layout s) (hs : s.space r = some space) {n : Nat}
    (hva : ∀ i < n, Mappable r (vas i)) (flags : BitVec 32) :
    Lockstep Twin (Prog.upFrom (fun i => mapFresh r (vas i) flags) n 0) s fun m s' =>
      Layout s' ∧ Builds s s' ∧ (∀ i < m, lowerBound space ≤ vas i) ∧
        (m = n ∧ Maps s s' r vas n ∨ m < n) := by
  have hloop := Lockstep.upFrom (E := Twin) (f := fun i => mapFresh r (vas i) flags)
    (J := fun i s' => (Layout s' ∧ Builds s s' ∧ ∀ j < i, lowerBound space ≤ vas j) ∧
      Maps s s' r vas i)
    (K := fun i s' => Layout s' ∧ Builds s s' ∧ ∀ j < i, lowerBound space ≤ vas j) n 0
    (fun i s1 _ hi ⟨⟨h₁, hb1, hlow⟩, hm⟩ =>
      (mapFresh_spec h₁ (hb1.space ▸ hs) (hva i (by omega)) flags).mono fun ok s2 ⟨h₂, hb2, hok⟩ => by
        split
        next hk =>
          rw [if_pos hk] at hok
          refine ⟨⟨h₂, hb1.trans hb2, fun j hj => ?_⟩, hm.succ hb1 hb2 hok⟩
          rcases Nat.lt_succ_iff_lt_or_eq.mp hj with hj | rfl
          · exact hlow j hj
          · exact hok.low (hb1.space ▸ hs)
        · exact ⟨h₂, hb1.trans hb2, hlow⟩)
    (s := s) ⟨⟨h, .refl s, fun j hj => absurd hj (by omega)⟩, .zero s r vas⟩
  refine hloop.mono fun m s' hm => ?_
  rcases hm with ⟨hmn, ⟨h', hb, hlow⟩, hmaps⟩ | ⟨_, hlt, h', hb, hlow⟩
  · have hmn : m = n := by omega
    subst hmn
    exact ⟨h', hb, hlow, .inl ⟨rfl, hmaps⟩⟩
  · exact ⟨h', hb, hlow, .inr (by omega)⟩

/-! ## Bytes written -/

abbrev Image := Nat → Option Byte

def Image.write (img : Image) (va : Nat) (bs : List Byte) : Image :=
  fun a => if va ≤ a ∧ a < va + bs.length then some (bs.getD (a - va) 0#8) else img a

/-- Since `s0` the space `r` has got the pages with the addresses `N`; their
frames were free, and their bytes are those of `img`, or untouched. -/
structure Filled (s0 : State) (r : Nat) (N : Nat → Prop) (img : Image) (s : State) : Prop where
  keeps : ∀ {p g}, s0.node r p = some g → s.node r p = some g
  idle : ∀ {g}, s.pmm.Free g → s0.pmm.Free g ∧ s.mem g = s0.mem g
  new : ∀ {a}, UserVa a → (N a ↔ s0.node r (vaPath a) = none ∧ s.node r (vaPath a) ≠ none)
  byte : ∀ {a g}, UserVa a → N a → s.node r (vaPath a) = some g →
    s0.pmm.Free g ∧ s.byte g (a % 4096) = (img a).getD (s0.byte g (a % 4096))
  written : ∀ {a}, UserVa a → img a ≠ none → s.node r (vaPath a) ≠ none

namespace Filled

variable {N : Nat → Prop} {img : Image}

theorem refl (s0 : State) (r : Nat) : Filled s0 r (fun _ => False) (fun _ => none) s0 where
  keeps h := h
  idle h := ⟨h, rfl⟩
  new _ := ⟨False.elim, fun h => h.2 h.1⟩
  byte _ h := h.elim
  written _ h := (h rfl).elim

theorem setCr3 (h : Filled s0 r N img s) (a : Nat) : Filled s0 r N img (s.setCr3 a) := { h with }

theorem maps (hF : Filled s0 r N img s) (h' : Layout s') (hb : Builds s s')
    {vas : Nat → Nat} {n : Nat} (hm : Maps s s' r vas n) (huser : ∀ i < n, vas i < 2 ^ 48) :
    Filled s0 r (fun a => N a ∨ ∃ i < n, a / 4096 = vas i / 4096) img s' := by
  -- frames that are no tables were not written
  have hsame : ∀ {g}, ¬ s'.IsTable g → s'.mem g = s.mem g := fun hg => (hb.mem _).resolve_right hg
  have hleaf : ∀ {a g}, s'.node r (vaPath a) = some g → s'.mem g = s.mem g :=
    fun hg => hsame (h'.not_table_of_leaf (vaPath_length _) hg)
  have hpage : ∀ {a}, UserVa a → ∀ {i}, i < n → vaPath a = vaPath (vas i) →
      a / 4096 = vas i / 4096 := fun ha i hi hp => vaPath_inj ha.2 (huser i hi) hp
  -- an address of the new pages was not mapped, so nothing was written there
  have hvac : ∀ {a}, (∃ i < n, a / 4096 = vas i / 4096) → s.node r (vaPath a) = none := by
    intro a ⟨i, hi, hpg⟩
    rw [vaPath_congr hpg]
    exact hm.vacant i hi
  refine
    { keeps := fun hg => hb.keeps (hF.keeps hg)
      idle := fun hg => ?_, new := fun {a} ha => ?_, byte := fun {a g} ha hN hg => ?_
      written := fun ha hw => ?_ }
  · obtain ⟨hfree, hmem⟩ := hF.idle (hb.free hg)
    refine ⟨hfree, (hsame ?_).trans hmem⟩
    exact Layout.not_table_of_unplaced (h'.unplaced_of_free hg)
  · constructor
    · intro hN
      rcases hN with hN | hM
      · obtain ⟨h0, h1⟩ := (hF.new ha).mp hN
        refine ⟨h0, fun h2 => h1 ?_⟩
        cases hg : s.node r (vaPath a) with
        | none => rfl
        | some g => rw [hb.keeps hg] at h2; cases h2
      · obtain ⟨i, hi, hpg⟩ := hM
        refine ⟨?_, by rw [vaPath_congr hpg]; exact hm.mapped i hi⟩
        cases hg : s0.node r (vaPath a) with
        | none => rfl
        | some g => rw [← hF.keeps hg]; exact hvac ⟨i, hi, hpg⟩
    · intro ⟨h0, h1⟩
      by_cases hM : ∃ i < n, a / 4096 = vas i / 4096
      · exact .inr hM
      · refine .inl ((hF.new ha).mpr ⟨h0, fun h2 => h1 ?_⟩)
        rw [hm.others r _ (vaPath_length a) fun ⟨_, i, hi, hp⟩ => hM ⟨i, hi, hpage ha hi hp⟩]
        exact h2
  · rw [State.byte, hleaf hg]
    rcases hN with hN | hM
    · cases hg' : s.node r (vaPath a) with
      | none => exact absurd hg' ((hF.new ha).mp hN).2
      | some g' =>
        have hgg : g' = g := Option.some.inj ((hb.keeps hg').symm.trans hg)
        exact hF.byte ha hN (hgg ▸ hg')
    · have hfree : s.pmm.Free g := by
        rcases hb.fresh hg with hg' | hfree
        · rw [hvac hM] at hg'; cases hg'
        · exact hfree
      obtain ⟨hfree0, hmem⟩ := hF.idle hfree
      have himg : img a = none := by
        by_contra hne
        exact hF.written ha hne (hvac hM)
      refine ⟨hfree0, ?_⟩
      rw [himg, Option.getD_none, State.byte, hmem]
  · cases hg : s.node r (vaPath _) with
    | none => exact absurd hg (hF.written ha hw)
    | some g => rw [hb.keeps hg]; simp

theorem wrote (hF : Filled s0 r N img s) (h : Layout s) {va : Nat} {bs : List Byte}
    (htw : Twin s s') (hw : Wrote r va bs s s') : Filled s0 r N (img.write va bs) s' := by
  refine
    { keeps := fun hg => (htw.node _ _).trans (hF.keeps hg)
      idle := fun hg => ?_, new := fun {a} ha => ?_, byte := fun {a g} ha hN hg => ?_
      written := fun {a} ha himg => ?_ }
  · rw [htw.pmm] at hg
    obtain ⟨hfree, hmem⟩ := hF.idle hg
    exact ⟨hfree, (hw.idle _ (h.unplaced_of_free hg)).trans hmem⟩
  · rw [htw.node]
    exact hF.new ha
  · rw [htw.node] at hg
    obtain ⟨hfree, hbyte⟩ := hF.byte ha hN hg
    refine ⟨hfree, ?_⟩
    rw [hw.byte a g ha hg, Image.write]
    split
    · rfl
    · exact hbyte
  · rw [htw.node]
    unfold Image.write at himg
    split at himg
    next hin =>
      obtain ⟨g, hg⟩ := (hw.mapped a hin.1 hin.2).2
      rw [hg]; simp
    · exact hF.written ha himg

end Filled

def Covered (N : Nat → Prop) (img : Image) : Prop := ∀ a, UserVa a → N a → img a ≠ none

end Exyde.Mem
