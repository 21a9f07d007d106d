import Exyde.Mem.PmmSpec
import Exyde.Mem.TableMap

/-! # The end of a space

`destroy_space` is a list of calls of `pmm_free_page`, one for each page that has a
place in the tree, and each is accepted, because the pages of user spaces came from the
allocator. -/

namespace Exyde.Mem

open Function List State
open Exyde.Lib (Forest Prog Lockstep)

theorem nodup_spacePages {s : State} {r : Nat} (h : Layout s) {space : Space} (hs : s.space r = some space) :
    (s.spacePages r).Nodup :=
  Forest.nodup_walk h.distinct (nodup_finRange 512) (spacePages_root hs)

/-! ## The calls are accepted -/

namespace Pmm

/-- The page was handed out, and can be given back. -/
def Taken (m : Pmm) (f : Nat) : Prop :=
  f < m.totalPages ∧ m.usedGet f = true ∧ m.resvGet f = false

inductive Accepts : Pmm → List Nat → Pmm → Prop
  | nil (m : Pmm) : Accepts m [] m
  | cons {m m' m'' : Pmm} {f : Nat} {l : List Nat} :
      m.pmmFreePages (f * 4096) 1 = (true, m') → Accepts m' l m'' → Accepts m (f :: l) m''

variable {m m' : Pmm} {f : Nat} {l : List Nat}

theorem Taken.accepted (ht : m.Taken f) (h : m.Wf) :
    ∃ m', m.pmmFreePages (f * 4096) 1 = (true, m') ∧ m.Releases m' (f * 4096) 1 := by
  rcases pmmFreePages_spec h (f * 4096) 1 with hno | hyes
  · -- none of the checks fails
    obtain ⟨hlt, hused, hresv⟩ := ht
    have hspan := h.span
    have hsmall := h.small
    have hend : (f * 4096 + 1 * 4096 % 2 ^ 64) % 2 ^ 64 = f * 4096 + 4096 := by omega
    simp only [pmmFreePages] at hno
    rw [if_neg (by decide), if_neg (by omega), if_neg (by omega), hend, if_neg (by omega), if_neg] at hno
    · cases hno
    · simp [hused, hresv]
  · exact hyes

theorem Releases.free_iff (h : m.Releases m' (f * 4096) 1) (g : Nat) : m'.Free g ↔ m.Free g ∨ g = f := by
  have hgive := h.sets.freeSet_give h.tracked
  rw [← mem_freeSet, hgive, Finset.mem_union, mem_freeSet, Lib.mem_block]
  exact or_congr_right (by omega)

theorem Accepts.of_taken {s : State} (h : s.pmm.Wf) (hnd : l.Nodup) (ht : ∀ f ∈ l, s.pmm.Taken f) :
    Accepts s.pmm l (freeList l s).2.pmm ∧
      ∀ g, (freeList l s).2.pmm.Free g ↔ s.pmm.Free g ∨ g ∈ l := by
  induction l generalizing s with
  | nil => exact ⟨.nil _, fun g => by simp [freeList, Prog.forEach]; rfl⟩
  | cons f l ih =>
    obtain ⟨hf, hnd⟩ := nodup_cons.mp hnd
    obtain ⟨m', hm', hr⟩ := (ht f mem_cons_self).accepted h
    have hstep : freeList (f :: l) s = freeList l (s.setPmm m') := by
      change freeList l (s.setPmm (s.pmm.pmmFreePages (f * 4096) 1).2) = _
      rw [hm']
    obtain ⟨hacc, hfree⟩ := ih (s := s.setPmm m') (hr.wf h) hnd fun g hg => by
      obtain ⟨hlt, hused, hresv⟩ := ht g (mem_cons_of_mem _ hg)
      refine ⟨hr.sets.total ▸ hlt, ?_, by rw [setPmm_pmm, hr.sets.resvGet]; exact hresv⟩
      rw [setPmm_pmm, hr.sets.used, mul_div_page, if_neg, hused]
      intro hblock
      obtain rfl : g = f := by rw [Lib.mem_block] at hblock; omega
      exact hf hg
    rw [hstep]
    refine ⟨.cons hm' hacc, fun g => ?_⟩
    rw [hfree, setPmm_pmm, hr.free_iff, mem_cons, or_assoc]

end Pmm

/-! ## Counting references -/

theorem Layout.taken {s : State} (h : Layout s) {r : Nat} (hr : r ≠ 0) {p : Path} {f : Nat}
    (hn : s.node r p = some f) : s.pmm.Taken f := by
  obtain ⟨hlt, hresv⟩ := h.drawn hr hn
  refine ⟨hlt, ?_, hresv⟩
  by_contra hused
  exact h.held hn ⟨hlt, by simpa using hused⟩

section Count

variable {s : State} {sp : Nat} {space : Space}

theorem vmmSpaceRef_eq (hs : s.space sp = some space) (hk : space.isKernel = false) :
    (vmmSpaceRef sp s).2 =
      s.setSpace sp (some { space with refcount := (space.refcount + 1) % 2 ^ 32 }) := by
  rw [vmmSpaceRef, Prog.read_bind, hs]
  simp only [hk]
  rfl

theorem vmmSpaceUnref_zero (hs : s.space sp = some space) (hk : space.isKernel = false)
    (hn : space.refcount = 0) : (vmmSpaceUnref sp s).2 = s := by
  rw [vmmSpaceUnref, Prog.read_bind, hs]
  simp only [hk, hn]
  rfl

theorem vmmSpaceUnref_more (hs : s.space sp = some space) (hk : space.isKernel = false)
    (hn : 1 < space.refcount) :
    (vmmSpaceUnref sp s).2 = s.setSpace sp (some { space with refcount := space.refcount - 1 }) := by
  have h0 : space.refcount ≠ 0 := by omega
  have h1 : space.refcount - 1 ≠ 0 := by omega
  rw [vmmSpaceUnref, Prog.read_bind, hs]
  simp only [hk, if_neg h0, if_neg h1]
  rfl

/-- **The last reference**: the pages of the space are freed, each of them accepted. -/
theorem vmmSpaceUnref_last (h : Layout s) (hr : sp ≠ 0) (hs : s.space sp = some space)
    (hn : space.refcount = 1) : (vmmSpaceUnref sp s).2.space = update s.space sp none ∧
      Pmm.Accepts s.pmm (s.spacePages sp) (vmmSpaceUnref sp s).2.pmm ∧
      ∀ g, (vmmSpaceUnref sp s).2.pmm.Free g ↔ s.pmm.Free g ∨ g ∈ s.spacePages sp := by
  have hk : space.isKernel = false := by simpa [hr] using h.kind hs
  have hspace1 : (s.setSpace sp (some { space with refcount := 0 })).space sp =
      some { space with refcount := 0 } := update_self ..
  have hpages : (s.setSpace sp (some { space with refcount := 0 })).spacePages sp =
      s.spacePages sp := by
    rw [spacePages, spacePages, pml4Of, pml4Of, hspace1, hs]
    exact Forest.walk_congr rfl 4 _ _
  have hrun : (vmmSpaceUnref sp s).2 =
      (destroySpace sp (s.setSpace sp (some { space with refcount := 0 }))).2 := by
    rw [vmmSpaceUnref, Prog.read_bind, hs]
    simp only [hk, hn]
    rfl
  have hdestroy := (destroySpace_eq (h.setRefcount hs 0) hr hspace1).post
  rw [hpages] at hdestroy
  have htaken : ∀ f ∈ s.spacePages sp, s.pmm.Taken f := by
    intro f hf
    obtain ⟨p, hp⟩ := (mem_spacePages hs).mp hf
    exact h.taken hr hp
  have hfree := Pmm.Accepts.of_taken (s := s.setSpace sp (some { space with refcount := 0 })) h.wf
    (nodup_spacePages h hs) htaken
  have hkept := (freeList_kept (s := s.setSpace sp (some { space with refcount := 0 })) (s.spacePages sp)).2
  generalize (freeList (s.spacePages sp) (s.setSpace sp _)).2 = s2 at hdestroy hfree hkept
  rw [hrun, hdestroy]
  refine ⟨?_, hfree⟩
  change update s2.space sp none = _
  rw [hkept]
  exact update_idem ..

end Count

end Exyde.Mem
