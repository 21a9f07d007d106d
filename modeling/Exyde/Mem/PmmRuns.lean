import Exyde.Lib.Runs
import Exyde.Mem.PmmSpec

/-! # Runs of the page allocator

Any sequence of calls after `pmm_init` on any memory map. The tracked pages are free,
handed out, reserved, or gap pages, which lie in no region and which `pmm_init` leaves
used but not reserved. -/

namespace Exyde.Mem

open Exyde.Lib List Option Pmm

/-- `boot`: the allocator as `pmm_init` left it. `out`: the pages handed out and
not freed since. -/
structure PmmState where
  pmm : Pmm
  boot : Pmm
  out : List Nat

inductive PmmCall where
  | alloc (count : Nat)
  | free (page count : Nat)
  deriving DecidableEq, Repr

namespace PmmState

/-- A caller of `pmm_alloc_pages` takes 0 for a failure. -/
def step (s : PmmState) : PmmCall → Option PmmState
  | .alloc count =>
    let (base, m) := s.pmm.pmmAllocPages count
    some { s with
      pmm := m
      out := if base = 0 then s.out else List.range' (base / 4096) count ++ s.out }
  | .free page count =>
    let (ok, m) := s.pmm.pmmFreePages page count
    some { s with
      pmm := m
      out := if ok then s.out.filter (· ∉ block (page / 4096) count) else s.out }

/-- A tracked page that `pmm_init` leaves used and not reserved. -/
def Gap (s : PmmState) (f : Nat) : Prop :=
  f < s.boot.totalPages ∧ s.boot.usedGet f = true ∧ s.boot.resvGet f = false
  deriving Decidable

end PmmState

def pmmSystem (regions : List Region) : System PmmState PmmCall where
  start s := ∃ m, Pmm.pmmInit regions = some m ∧ s = ⟨m, m, []⟩
  step := PmmState.step

/-- `pmm_init` marks page 0 reserved, as it does with the first MiB that `kmain` adds. -/
def ReservesZero (regions : List Region) : Prop :=
  ∀ m, Pmm.pmmInit regions = some m → m.resvGet 0 = true

/-! ## Every run -/

structure Held (s : PmmState) : Prop where
  wf : s.pmm.Wf
  zero : s.pmm.resvGet 0 = true
  resv : s.pmm.resvBitmap = s.boot.resvBitmap
  total : s.pmm.totalPages = s.boot.totalPages
  nodup : s.out.Nodup
  out : ∀ f, f ∈ s.out → f < s.pmm.totalPages ∧ s.pmm.usedGet f = true ∧ s.pmm.resvGet f = false

section

variable {regions : List Region} {s s' : PmmState} {c : PmmCall}

theorem Held.zero_used (h : Held s) : ¬ s.pmm.Free 0 := by
  intro ⟨_, hf⟩
  rw [h.wf.resv_used 0 h.zero] at hf
  cases hf

/-- What a call does: it fails and changes nothing, takes a block, or gives one
back. -/
inductive CallCase (s s' : PmmState) : PmmCall → Prop
  | failed {c : PmmCall} : s' = s → CallCase s s' c
  | alloc (count start : Nat) : 0 < count → start ≠ 0 → s.pmm.Allocates s'.pmm start count →
      s.pmm.pmmAllocPages count = (start * 4096, s'.pmm) → s'.boot = s.boot →
      s'.out = List.range' start count ++ s.out → CallCase s s' (.alloc count)
  | free (page count : Nat) : s.pmm.Releases s'.pmm page count → s'.boot = s.boot →
      s'.out = s.out.filter (· ∉ block (page / 4096) count) → CallCase s s' (.free page count)

theorem Held.start_ne_zero (h : Held s) {count start : Nat} (hc : 0 < count)
    (hlow : block start count ⊆ s.pmm.freeSet) : start ≠ 0 := by
  rintro rfl
  exact h.zero_used (mem_freeSet.mp (hlow (mem_block.mpr ⟨Nat.le_refl 0, by omega⟩)))

theorem Held.call (h : Held s) (hs : s.step c = some s') : CallCase s s' c := by
  cases c with
  | alloc count =>
    simp only [PmmState.step] at hs
    cases hs
    rcases Nat.eq_zero_or_pos count with hz | hc
    · subst hz
      exact .failed rfl
    rcases pmmAllocPages_spec h.wf hc with ⟨start, m', heq, ha⟩ | ⟨heq, -⟩
    · have hne := h.start_ne_zero hc ha.lowest.inside
      have hbase : start * 4096 ≠ 0 := by omega
      rw [heq]
      refine .alloc count start hc hne ha heq rfl ?_
      simp only [if_neg hbase, Nat.mul_div_cancel start (by decide : 0 < 4096)]
    · rw [heq]
      exact .failed rfl
  | free page count =>
    simp only [PmmState.step] at hs
    cases hs
    rcases pmmFreePages_spec h.wf page count with heq | ⟨m', heq, hr⟩
    · rw [heq]
      exact .failed rfl
    · rw [heq]
      exact .free page count hr rfl rfl

theorem Held.step (h : Held s) (hs : s.step c = some s') : Held s' := by
  cases h.call hs with
  | failed heq => rw [heq]; exact h
  | alloc count start _ _ ha _ hboot hout =>
    have hnew : ∀ f, f ∈ List.range' start count → f ∈ block start count ∧ s.pmm.Free f := by
      intro f hf
      have hb := mem_block.mpr (mem_range'_1.mp hf)
      exact ⟨hb, mem_freeSet.mp (ha.lowest.inside hb)⟩
    refine ⟨ha.wf h.wf, by rw [ha.sets.resvGet]; exact h.zero, by rw [ha.sets.resv, hboot, h.resv],
      by rw [ha.sets.total, hboot, h.total], ?_, fun f hf => ?_⟩
    · rw [hout]
      refine List.Nodup.append List.nodup_range' h.nodup fun f hf hold => ?_
      have hused := (h.out f hold).2.1
      rw [(hnew f hf).2.2] at hused
      cases hused
    · rw [hout] at hf
      rw [ha.sets.total, ha.sets.resvGet, ha.sets.used]
      rcases mem_append.mp hf with hf | hf
      · obtain ⟨hb, hlt, hfree⟩ := hnew f hf
        refine ⟨hlt, by rw [if_pos hb], ?_⟩
        by_contra hne
        rw [h.wf.resv_used f (by simpa using hne)] at hfree
        cases hfree
      · obtain ⟨hlt, hused, hresv⟩ := h.out f hf
        exact ⟨hlt, by rw [hused, ite_self], hresv⟩
  | free page count hr hboot hout =>
    refine ⟨hr.wf h.wf, by rw [hr.sets.resvGet]; exact h.zero, by rw [hr.sets.resv, hboot, h.resv],
      by rw [hr.sets.total, hboot, h.total], by rw [hout]; exact h.nodup.filter _, fun f hf => ?_⟩
    rw [hout, mem_filter, decide_eq_true_eq] at hf
    rw [hr.sets.total, hr.sets.resvGet, hr.sets.used, if_neg hf.2]
    exact h.out f hf.1

theorem init_held (hz : ReservesZero regions) {m : Pmm} (hm : Pmm.pmmInit regions = some m) :
    Held ⟨m, m, []⟩ :=
  ⟨(pmmInit_initial hm).wf, hz m hm, rfl, rfl, nodup_nil, by simp⟩

theorem reach_held {ok : PmmState → PmmCall → Prop} (hz : ReservesZero regions)
    (h : Reach (pmmSystem regions) ok s) : Held s := by
  refine h.invariant (I := Held) ?_ fun s c s' hh _ hs => hh.step hs
  intro s ⟨m, hm, hs⟩
  subst hs
  exact init_held hz hm

/-- **The allocator's invariant and the allocation law.** After any calls the
cached count is the number of clear used bits, reserved pages are used, an
allocation takes the lowest block of free pages or fails where there is none, and
no page is handed out twice or is reserved. -/
theorem allocation_law (hz : ReservesZero regions) (h : Reachable (pmmSystem regions) s) :
    s.pmm.freePages = s.pmm.freeSet.card ∧
      (∀ f, s.pmm.resvGet f = true → s.pmm.usedGet f = true) ∧
      (∀ count, 0 < count →
        ((∃ start, block start count ⊆ s.pmm.freeSet) →
          ∃ start m', s.pmm.pmmAllocPages count = (start * 4096, m') ∧ start * 4096 ≠ 0 ∧
            Lowest s.pmm.freeSet count start ∧ s.pmm.Sets m' true start count) ∧
        ((¬ ∃ start, block start count ⊆ s.pmm.freeSet) → s.pmm.pmmAllocPages count = (0, s.pmm))) ∧
      s.out.Nodup ∧ ∀ f, f ∈ s.out → s.pmm.usedGet f = true ∧ s.pmm.resvGet f = false := by
  have hh := reach_held hz h
  refine ⟨hh.wf.count, hh.wf.resv_used, fun count hc => ?_, hh.nodup, fun f hf => (hh.out f hf).2⟩
  rcases pmmAllocPages_spec hh.wf hc with ⟨start, m', heq, ha⟩ | ⟨heq, hno⟩
  · have hne := hh.start_ne_zero hc ha.lowest.inside
    exact ⟨fun _ => ⟨start, m', heq, by omega, ha.lowest, ha.sets⟩,
      fun hno => absurd ⟨start, ha.lowest.inside⟩ hno⟩
  · exact ⟨fun ⟨start, hs⟩ => absurd hs (hno start), fun _ => heq⟩

end

def smallMap : List Region := [⟨4096, 12288, .usable⟩, ⟨0, 4096, .reserved⟩]

theorem smallMap_reservesZero : ReservesZero smallMap :=
  (Option.all_eq_true _ _).mp (by decide +kernel)

/-- Three pages taken one by one, the middle one given back: two pages at once are
not to be had. -/
theorem allocation_law_fragmented :
    ∃ s, Reachable (pmmSystem smallMap) s ∧ s.out = [3, 1] ∧ s.pmm.freePages = 1 ∧
      s.pmm.freeSet.card = 1 ∧ s.out.Nodup := by
  obtain ⟨m, hm, s, hs, hout, hfree⟩ : ∃ m ∈ Pmm.pmmInit smallMap,
      ∃ s ∈ (pmmSystem smallMap).run ⟨m, m, []⟩ [.alloc 1, .alloc 1, .alloc 1, .free 8192 1],
        s.out = [3, 1] ∧ s.pmm.freePages = 1 := by decide +kernel
  have hreach := Reachable.run hs (.start ⟨m, hm, rfl⟩)
  obtain ⟨hcount, -, -, hnodup, -⟩ := allocation_law smallMap_reservesZero hreach
  exact ⟨s, hreach, hout, hfree, hcount.symm.trans hfree, hnodup⟩

/-! ## What a free accepts -/

/-- The checks of `pmm_free_pages` before it looks at the bitmaps. -/
def Pmm.freeChecks (m : Pmm) (page count : Nat) : Prop :=
  count ≠ 0 ∧ page % 4096 = 0 ∧ page < m.maxPaddr ∧
    (page + count * 4096 % 2 ^ 64) % 2 ^ 64 ≤ m.maxPaddr

def Pmm.valid (m : Pmm) (f : Nat) : Prop := m.resvGet f = false ∧ m.usedGet f = true

/-- Page `f` is one whose bits `pmm_free_pages` looks at: the loop comes to it
after pages that all passed. The pages it clears are among these. -/
def Pmm.Looks (m : Pmm) (page count f : Nat) : Prop :=
  m.freeChecks page count ∧ ∃ i, i < count ∧ f = page / 4096 + i ∧ ∀ j, j < i → m.valid (page / 4096 + j)

theorem Pmm.pmmFreePages_true {m : Pmm} {page count : Nat} : (m.pmmFreePages page count).1 = true ↔
      m.freeChecks page count ∧ ∀ i, i < count → m.valid (page / 4096 + i) := by
  unfold pmmFreePages
  split
  next h => simp [freeChecks, h]
  split
  next h => simp [freeChecks, h]
  split
  next h => simp [freeChecks, Nat.not_lt.mpr h]
  split
  next h =>
    refine iff_of_false (by simp) fun hc => ?_
    have := hc.1.2.2.2
    omega
  next h1 h2 h3 h4 =>
  extract_lets start
  split
  next hany =>
    obtain ⟨i, hi, hbad⟩ := List.any_eq_true.mp hany
    refine iff_of_false (by simp) fun ⟨_, hall⟩ => ?_
    obtain ⟨hr, hu⟩ := hall i (List.mem_range.mp hi)
    simp [start, hr, hu] at hbad
  next hany =>
    refine iff_of_true rfl ⟨⟨h1, by simpa using h2, by omega, by omega⟩, fun i hi => ?_⟩
    simp only [List.any_eq_true, List.mem_range, not_exists, not_and, Bool.not_eq_true,
      Bool.or_eq_false_iff, Bool.not_eq_false'] at hany
    exact hany i hi

/-- No page of the range is a gap page, and the range does not wrap round. -/
def FreesOwn (s : PmmState) : PmmCall → Prop
  | .alloc _ => True
  | .free page count => page + count * 4096 < 2 ^ 64 ∧ ∀ f, f ∈ block (page / 4096) count → ¬ s.Gap f

instance (s : PmmState) (c : PmmCall) : Decidable (FreesOwn s c) := by
  cases c <;> simp only [FreesOwn] <;> infer_instance

def UsableFits (regions : List Region) : Prop :=
  ∀ r, r ∈ regions → r.type = .usable → r.base + r.size ≤ 2 ^ 64

def Region.Covers (r : Region) (f : Nat) : Prop :=
  r.base ≤ f * 4096 ∧ (f + 1) * 4096 ≤ r.base + r.size
  deriving Decidable

section

variable {regions : List Region} {s s' : PmmState} {c : PmmCall} {page count f : Nat}

/-- Under the condition every tracked page is reserved, a gap page, handed out, or
free as it was after `pmm_init`. -/
structure Accounted (regions : List Region) (s : PmmState) : Prop where
  held : Held s
  boot : Pmm.Initial regions s.boot
  used : ∀ f, f < s.pmm.totalPages → s.pmm.usedGet f = true →
    s.pmm.resvGet f = true ∨ s.Gap f ∨ f ∈ s.out
  free : ∀ f, s.pmm.Free f → s.boot.Free f
  gap : ∀ f, s.Gap f → s.pmm.usedGet f = true ∧ f ∉ s.out

theorem gap_congr (h : s'.boot = s.boot) : s'.Gap f ↔ s.Gap f := by
  unfold PmmState.Gap
  rw [h]

/-- A page that a free may take is one that was handed out. -/
theorem Accounted.out_of_valid (h : Accounted regions s) (hlt : f < s.pmm.totalPages)
    (hv : s.pmm.usedGet f = true ∧ s.pmm.resvGet f = false) (hg : ¬ s.Gap f) : f ∈ s.out := by
  rcases h.used f hlt hv.1 with hr | hgap | hout
  · rw [hv.2] at hr; cases hr
  · exact absurd hgap hg
  · exact hout

theorem Accounted.step (h : Accounted regions s) (hok : FreesOwn s c) (hs : s.step c = some s') :
    Accounted regions s' := by
  have hheld := h.held.step hs
  cases h.held.call hs with
  | failed heq => rw [heq]; exact h
  | alloc count start _ _ ha _ hboot hout =>
    refine ⟨hheld, hboot ▸ h.boot, fun f hlt hused => ?_, fun f hf => ?_, fun f hg => ?_⟩
    · rw [ha.sets.total] at hlt
      rw [ha.sets.used] at hused
      rw [ha.sets.resvGet, gap_congr hboot, hout, mem_append]
      split at hused
      next hb => exact .inr (.inr (.inl (mem_range'_1.mpr (mem_block.mp hb))))
      · exact (h.used f hlt hused).imp_right (Or.imp_right .inr)
    · rw [hboot]
      refine h.free f ?_
      have := mem_freeSet.mpr hf
      rw [ha.sets.freeSet_take, Finset.mem_sdiff] at this
      exact mem_freeSet.mp this.1
    · rw [gap_congr hboot] at hg
      obtain ⟨hused, hout'⟩ := h.gap f hg
      refine ⟨by rw [ha.sets.used, hused, ite_self], fun hm => ?_⟩
      rw [hout] at hm
      have hnew := (mem_append.mp hm).resolve_right hout'
      have hfree := mem_freeSet.mp (ha.lowest.inside (mem_block.mpr (mem_range'_1.mp hnew)))
      rw [hfree.2] at hused
      cases hused
  | free page count hr hboot hout =>
    refine ⟨hheld, hboot ▸ h.boot, fun f hlt hused => ?_, fun f hf => ?_, fun f hg => ?_⟩
    · rw [hr.sets.total] at hlt
      rw [hr.sets.used] at hused
      rw [hr.sets.resvGet, gap_congr hboot, hout]
      split at hused
      · cases hused
      next hb =>
        refine (h.used f hlt hused).imp_right (Or.imp_right fun hm => ?_)
        exact mem_filter.mpr ⟨hm, decide_eq_true hb⟩
    · rw [hboot]
      have hmem := mem_freeSet.mpr hf
      rw [hr.sets.freeSet_give hr.tracked, Finset.mem_union] at hmem
      rcases hmem with hold | hb
      · exact h.free f (mem_freeSet.mp hold)
      -- not a gap page, so it was free after `pmm_init`
      have hlt : f < s.boot.totalPages := by
        rw [← h.held.total]
        exact Nat.lt_of_lt_of_le (mem_block.mp hb).2 hr.tracked
      have hresv : s.boot.resvGet f = false := by
        rw [Pmm.resvGet, ← h.held.resv]
        exact (hr.used f hb).2
      refine ⟨hlt, ?_⟩
      by_contra hne
      exact hok.2 f hb ⟨hlt, by simpa using hne, hresv⟩
    · rw [gap_congr hboot] at hg
      obtain ⟨hused, hout'⟩ := h.gap f hg
      rw [hr.sets.used, if_neg fun hb => hok.2 f hb hg, hout]
      exact ⟨hused, fun hm => hout' (mem_filter.mp hm).1⟩

theorem reach_accounted (hz : ReservesZero regions) (h : Reach (pmmSystem regions) FreesOwn s) :
    Accounted regions s := by
  refine h.invariant (I := Accounted regions) ?_ fun s c s' hh hok hs => hh.step hok hs
  intro s ⟨m, hm, hs⟩
  subst hs
  refine ⟨init_held hz hm, pmmInit_initial hm, fun f hlt hused => ?_, fun f hf => hf,
    fun f hg => ⟨hg.2.1, by simp⟩⟩
  cases hr : m.resvGet f with
  | true => exact .inl rfl
  | false => exact .inr (.inl ⟨hlt, hused, hr⟩)

theorem inUsable_covers {r : Region} {max : Nat} (hfit : r.base + r.size ≤ 2 ^ 64)
    (hend : (r.base + r.size) % 2 ^ 64 + 4095 < 2 ^ 64) (hin : Pmm.inUsable r max f) : r.Covers f := by
  obtain ⟨h1, h2⟩ := hin
  rcases Nat.lt_or_eq_of_le hfit with hlt | heq
  · rw [Pmm.pageUp, Nat.mod_eq_of_lt (show r.base + 4095 < 2 ^ 64 by omega)] at h1
    rw [Pmm.pageDown] at h2
    clear hfit hend hlt
    constructor
    · omega
    · clear h1
      omega
  · rw [heq, Nat.mod_self] at h2
    simp [Pmm.pageDown] at h2

/-- **Only allocated pages can be freed**, in every run whose frees name no gap
page and do not wrap round: a free that returns true was of pages handed out, one
that returns false changes nothing, no page outside the tracked range is looked
at, and every page handed out lies in a usable region. -/
theorem only_allocated_freed (hfit : UsableFits regions) (hz : ReservesZero regions)
    (h : Reach (pmmSystem regions) FreesOwn s) :
    (∀ page count, FreesOwn s (.free page count) →
      ((s.pmm.pmmFreePages page count).1 = true →
        page % 4096 = 0 ∧ ∀ f, f ∈ block (page / 4096) count → f ∈ s.out) ∧
      ((s.pmm.pmmFreePages page count).1 = false → (s.pmm.pmmFreePages page count).2 = s.pmm) ∧
      ∀ f, s.pmm.Looks page count f → f < s.pmm.totalPages) ∧
    ∀ count base m', s.pmm.pmmAllocPages count = (base, m') → base ≠ 0 →
      ∀ f, f ∈ block (base / 4096) count → ∃ r, r ∈ regions ∧ r.type = .usable ∧ r.Covers f := by
  have ha := reach_accounted hz h
  refine ⟨fun page count hok => ⟨?_, ?_, ?_⟩, fun count base m' heq hne f hf => ?_⟩
  · intro hret
    rcases pmmFreePages_spec ha.held.wf page count with heq | ⟨m', heq, hr⟩
    · rw [heq] at hret; cases hret
    · refine ⟨?_, fun f hf => ha.out_of_valid ?_ (hr.used f hf) (hok.2 f hf)⟩
      · have := hr.aligned
        omega
      · exact Nat.lt_of_lt_of_le (mem_block.mp hf).2 hr.tracked
  · intro hret
    rcases pmmFreePages_spec ha.held.wf page count with heq | ⟨m', heq, -⟩
    · rw [heq]
    · rw [heq] at hret; cases hret
  · intro f ⟨⟨_, hal, _, hend⟩, i, hi, hf, _⟩
    have hwrap := hok.1
    have hspan := ha.held.wf.span
    omega
  · rcases Nat.eq_zero_or_pos count with hzero | hc
    · subst hzero
      exact absurd (Prod.mk.inj heq).1.symm hne
    rcases pmmAllocPages_spec ha.held.wf hc with ⟨start, m1, heq1, hall⟩ | ⟨heq1, -⟩
    · rw [heq1] at heq
      obtain ⟨hb, -⟩ := Prod.mk.inj heq
      rw [← hb, Nat.mul_div_cancel start (by decide : 0 < 4096)] at hf
      obtain ⟨r, hr, hu, hin⟩ := ha.boot.usable f (ha.free f (mem_freeSet.mp (hall.lowest.inside hf)))
      exact ⟨r, hr, hu, inUsable_covers (hfit r hr hu) (ha.boot.ends r hr hu) hin⟩
    · rw [heq1] at heq
      exact absurd (Prod.mk.inj heq).1.symm hne

/-- A gap page can be freed at any time, though it was never handed out. -/
theorem gap_accepted (hz : ReservesZero regions) (h : Reach (pmmSystem regions) FreesOwn s)
    (hg : s.Gap f) : (s.pmm.pmmFreePages (f * 4096) 1).1 = true ∧ f ∉ s.out := by
  have ha := reach_accounted hz h
  obtain ⟨hused, hout⟩ := ha.gap f hg
  have hlt : f < s.pmm.totalPages := by rw [ha.held.total]; exact hg.1
  have hspan := ha.held.wf.span
  have hsmall := ha.held.wf.small
  refine ⟨pmmFreePages_true.mpr ⟨⟨by decide, by omega, by omega, ?_⟩, fun i hi => ?_⟩, hout⟩
  · omega
  · have hi : i = 0 := by omega
    subst hi
    rw [Nat.mul_div_cancel f (by decide : 0 < 4096), Nat.add_zero]
    refine ⟨?_, hused⟩
    rw [Pmm.resvGet, ha.held.resv]
    exact hg.2.2

end

theorem only_allocated_freed_page :
    ∃ s, Reach (pmmSystem smallMap) FreesOwn s ∧ (s.pmm.pmmFreePages 4096 1).1 = true ∧ 1 ∈ s.out := by
  obtain ⟨m, hm, s, hs, hret, hown⟩ : ∃ m ∈ Pmm.pmmInit smallMap,
      ∃ s ∈ (pmmSystem smallMap).runOk FreesOwn ⟨m, m, []⟩ [.alloc 2, .free 8192 1],
        (s.pmm.pmmFreePages 4096 1).1 = true ∧ FreesOwn s (.free 4096 1) := by decide +kernel
  have hreach := Reach.runOk hs (.start ⟨m, hm, rfl⟩)
  have hfit : UsableFits smallMap := by
    intro r hr _
    simp only [smallMap, mem_cons, not_mem_nil, or_false] at hr
    rcases hr with rfl | rfl <;> decide
  obtain ⟨hfree, -⟩ := only_allocated_freed hfit smallMap_reservesZero hreach
  have hmem := ((hfree 4096 1 hown).1 hret).2 1 (mem_block.mpr (by decide))
  exact ⟨s, hreach, hret, hmem⟩

/-- Pages 1 and 3 are usable, page 2 is in no region. -/
def gapMap : List Region := [⟨4096, 4096, .usable⟩, ⟨12288, 4096, .usable⟩, ⟨0, 4096, .reserved⟩]

/-- Page 2 is freed though nobody was given it, and is then handed out though it
is in no usable region. With the tracked pages all used, a free of `2 ^ 52` pages
looks at page 4, past the last one. -/
theorem gap_page_freed :
    (∃ s, Reachable (pmmSystem gapMap) s ∧ (s.pmm.pmmFreePages 8192 1).1 = true ∧ 2 ∉ s.out) ∧
    (∃ s, Reachable (pmmSystem gapMap) s ∧ (s.pmm.pmmAllocPages 1).1 = 8192 ∧
      ∀ r, r ∈ gapMap → r.type = .usable → ¬ r.Covers 2) ∧
    ∃ s, Reachable (pmmSystem gapMap) s ∧ s.pmm.totalPages = 4 ∧ s.pmm.Looks 4096 (2 ^ 52) 4 := by
  have hfrom : ∀ {P : PmmState → Prop} (es : List PmmCall),
      (∃ m ∈ Pmm.pmmInit gapMap, ∃ s ∈ (pmmSystem gapMap).run ⟨m, m, []⟩ es, P s) →
      ∃ s, Reachable (pmmSystem gapMap) s ∧ P s := by
    rintro P es ⟨m, hm, s, hs, hP⟩
    exact ⟨s, Reachable.run hs (.start ⟨m, hm, rfl⟩), hP⟩
  refine ⟨hfrom [] (by decide +kernel), hfrom [.free 8192 1, .alloc 1] (by decide +kernel), ?_⟩
  obtain ⟨s, hreach, htotal, hmax, hused⟩ :=
    hfrom (P := fun s => s.pmm.totalPages = 4 ∧ s.pmm.maxPaddr = 16384 ∧
      ∀ j < 3, s.pmm.resvGet (1 + j) = false ∧ s.pmm.usedGet (1 + j) = true)
      [.alloc 1, .alloc 1] (by decide +kernel)
  exact ⟨s, hreach, htotal, ⟨by decide, by decide, by rw [hmax]; decide, by rw [hmax]; decide⟩,
    3, by decide, by decide, hused⟩

end Exyde.Mem
