import Exyde.Mem.SpaceSpec

/-! # Tables without their pages

For `vmm_map` and `vmm_unmap` with any physical page the layout asks too much: only the
tables must not be aliased. Under `Tabled` the tables of a space are a function from
pages to words, `vmm_query` reads the word of its page, and the other two change the
word of theirs or none. -/

namespace Exyde.Mem

open Function State
open Exyde.Lib (Forest Prog Lockstep)

/-! ## Tables -/

/-- The page tables of all spaces, without the pages mapped in them. -/
abbrev State.tableForest (s : State) : Forest Nat (Fin 512) Nat := s.forestTo 3

abbrev State.table (s : State) (r : Nat) (p : Path) : Option Nat := s.tableForest.node r p

section Places

variable {s t : State} {r : Nat} {p : Path} {i : Fin 512} {f : Nat}

theorem table_length (h : s.table r p = some f) : p.length ≤ 3 := by
  cases p with
  | nil => exact Nat.zero_le 3
  | cons i p =>
    obtain ⟨g, _, hc⟩ := Forest.node_cons_eq_some.mp h
    rw [forestTo_child] at hc
    split at hc
    next hp => exact hp
    · cases hc

theorem table_eq_node (s : State) (r : Nat) (hp : p.length ≤ 3) : s.table r p = s.node r p := by
  induction p with
  | nil => rfl
  | cons i p ih =>
    change (s.table r p).bind _ = (s.node r p).bind _
    rw [ih (Nat.le_of_lt hp)]
    congr 1
    funext f
    exact (if_pos hp).trans (forest_child ..).symm

theorem node_of_table (h : s.table r p = some f) : s.node r p = some f :=
  (table_eq_node s r (table_length h)).symm.trans h

theorem table_root {space : Space} (h : s.space r = some space) :
    s.table r [] = some (space.pml4 / 4096) :=
  node_root h

end Places

/-! ## The invariant -/

/-- No table is aliased, none is free, and every root has the kernel's entry. -/
abbrev Tabled (s : State) : Prop := Housed 3 s

variable {s : State}

theorem Layout.tabled (h : Layout s) : Tabled s :=
  { h with
    distinct := fun _ _ _ _ _ h1 h2 => h.distinct (node_of_table h1) (node_of_table h2)
    held := fun hn => h.held (node_of_table hn)
    nonzero := fun hn => h.nonzero (node_of_table hn) }

theorem Tabled.setPmm (h : Tabled s) {m : Pmm} (htotal : m.totalPages = s.pmm.totalPages)
    (hheld : ∀ g, m.Free g → s.tableForest.Unplaced g) : Tabled (s.setPmm m) :=
  h.transfer (by decide) (fun _ => rfl) rfl (Nat.le_trans (Nat.le_of_eq htotal) h.total) (fun _ _ => rfl)
    fun hn hf => hheld _ hf _ _ hn

/-! ## The words of the last level -/

/-- The word for a page in the table at a place, 0 where there is no table. -/
def State.word (s : State) (r : Nat) (p : Path) (i : Fin 512) : Word :=
  ((s.table r p).map fun f => s.mem f i).getD 0#64

abbrev State.wordAt (s : State) (r va : Nat) : Word := s.word r (vaTable va) (idxPt va)

def SameWords (s s' : State) : Prop := ∀ r p i, p.length = 3 → s'.word r p i = s.word r p i

/-- The page at `va` is mapped by `e`, no other page is mapped differently. -/
def SetsWord (s s' : State) (r va : Nat) (e : Word) : Prop :=
  ∀ r' p i, p.length = 3 →
    s'.word r' p i = if r' = r ∧ p = vaTable va ∧ i = idxPt va then e else s.word r' p i

/-- What a word says of its page: the physical address and the flags. -/
def entryView (e : Word) : Option (Nat × BitVec 32) :=
  if present e then some (pteAddr e, pteToFlags e) else none

section Words

variable {s s' : State} {r va : Nat} {p : Path} {i : Fin 512} {f : Nat} {space : Space}

theorem word_of (h : s.table r p = some f) (i : Fin 512) : s.word r p i = s.mem f i := by
  rw [word, h, Option.map_some, Option.getD_some]

theorem word_none (h : s.table r p = none) (i : Fin 512) : s.word r p i = 0#64 := by
  rw [word, h, Option.map_none, Option.getD_none]

theorem Tabled.vmmQuery_eq (h : Tabled s) (hs : s.space r = some space) (va : Nat) :
    s.vmmQuery r va = if va % 4096 ≠ 0 then none else entryView (s.wordAt (home r va) va) := by
  have hwalk := walkLeaf_eq h.rooted hs va
  rw [← table_eq_node s _ (Nat.le_of_eq (vaTable_length va))] at hwalk
  have hleaf : (s.leafEntry r va).map (fun e => (pteAddr e, pteToFlags e)) =
      entryView (s.wordAt (home r va) va) := by
    cases hf : s.table (home r va) (vaTable va) with
    | none =>
      rw [hf] at hwalk
      rw [wordAt, word_none hf, leafEntry, hwalk]
      rfl
    | some f =>
      rw [hf] at hwalk
      have hwalk : s.walkLeaf r va = f * 4096 := hwalk
      have hne : f * 4096 ≠ 0 := Nat.mul_ne_zero (h.nonzero hf) (by decide)
      simp only [leafEntry, hwalk, if_neg hne, mul_div_page, entryView, wordAt,
        word_of hf]
      split <;> rfl
  rw [vmmQuery, hleaf]

theorem vmmQuery_dead (hs : s.space r = none) (va : Nat) : s.vmmQuery r va = none := by
  simp [vmmQuery, leafEntry, walkLeaf, hs]

theorem SameWords.vmmQuery (hw : SameWords s s') (h : Tabled s) (h' : Tabled s')
    (hspace : s'.space = s.space) (r va : Nat) : s'.vmmQuery r va = s.vmmQuery r va := by
  cases hs : s.space r with
  | none => rw [vmmQuery_dead hs, vmmQuery_dead (hspace ▸ hs)]
  | some space =>
    rw [h.vmmQuery_eq hs, h'.vmmQuery_eq (hspace ▸ hs), wordAt, hw _ _ _ (vaTable_length va)]

theorem Tabled.setEntry (h : Tabled s) (hf : s.table r (vaTable va) = some f) (e : Word) :
    Tabled (s.setWord f (idxPt va) e) ∧ SetsWord s (s.setWord f (idxPt va) e) r va e := by
  have hmem : ∀ {r' q g}, s.table r' q = some g → ¬ (r' = r ∧ q = vaTable va) →
      (s.setWord f (idxPt va) e).mem g = s.mem g := by
    intro r' q g hg hne
    rw [setWord_mem, update_of_ne]
    rintro rfl
    exact hne (h.distinct hg hf)
  have hinner : ∀ {r' q g}, s.table r' q = some g → q.length < 3 →
      (s.setWord f (idxPt va) e).mem g = s.mem g := by
    intro r' q g hg hq
    refine hmem hg fun heq => ?_
    rw [heq.2, vaTable_length] at hq
    exact absurd hq (Nat.lt_irrefl 3)
  have htable := forestTo_congr (s := s) (t := s.setWord f (idxPt va) e) (d := 3) (fun _ => rfl) hinner
  refine ⟨h.transfer (by decide) (fun _ => rfl) rfl h.total hinner h.held, fun r' p i _ => ?_⟩
  by_cases hplace : r' = r ∧ p = vaTable va
  · obtain ⟨rfl, rfl⟩ := hplace
    rw [word_of ((htable _ _).trans hf), word_of hf, setWord_mem, update_self]
    by_cases hi : i = idxPt va
    · rw [hi, update_self, if_pos ⟨rfl, rfl, rfl⟩]
    · rw [update_of_ne hi, if_neg fun heq => hi heq.2.2]
  · rw [if_neg fun heq => hplace ⟨heq.1, heq.2.1⟩]
    cases hg : s.table r' p with
    | none => rw [word_none hg, word_none ((htable _ _).trans hg)]
    | some g => rw [word_of hg, word_of ((htable _ _).trans hg), hmem hg hplace]

end Words

/-! ## Tables on demand -/

structure Spare (s : State) (f : Nat) : Prop where
  unplaced : s.tableForest.Unplaced f
  used : ¬ s.pmm.Free f

/-- Tables may have been added, from free pages, but no page is mapped differently. -/
structure Grown (s s' : State) : Prop where
  tabled : Tabled s'
  space : s'.space = s.space
  nextSpace : s'.nextSpace = s.nextSpace
  words : SameWords s s'
  fresh : ∀ {r p g}, s'.table r p = some g → s.table r p = some g ∨ s.pmm.Free g
  free : ∀ {g}, s'.pmm.Free g → s.pmm.Free g

namespace Grown

variable {s s' s'' : State} {f : Nat}

theorem refl (h : Tabled s) : Grown s s := ⟨h, rfl, rfl, fun _ _ _ _ => rfl, .inl, id⟩

theorem trans (h : Grown s s') (h' : Grown s' s'') : Grown s s'' where
  tabled := h'.tabled
  space := h'.space.trans h.space
  nextSpace := h'.nextSpace.trans h.nextSpace
  words r p i hp := (h'.words r p i hp).trans (h.words r p i hp)
  fresh hn := (h'.fresh hn).elim h.fresh fun hf => .inr (h.free hf)
  free hf := h.free (h'.free hf)

theorem spare (h : Grown s s') (hf : Spare s f) : Spare s' f where
  unplaced r p hn := (h.fresh hn).elim (hf.unplaced r p) hf.used
  used hfree := hf.used (h.free hfree)

end Grown

section Descend

variable {s s' : State} {r : Nat} {p : Path} {i : Fin 512} {f c : Nat}

theorem pmmAllocPage_tabled (h : Tabled s) : Lockstep Eq pmmAllocPage s fun pa s' =>
    Grown s s' ∧ s'.mem = s.mem ∧
      (pa ≠ 0 → ∃ f, pa = f * 4096 ∧ s.pmm.Free f ∧ Spare s' f ∧ f ≠ 0 ∧ f < 2 ^ 18) := by
  refine .of_post ?_
  change Grown s (s.setPmm (s.pmm.pmmAllocPages 1).2) ∧ _ ∧
    ((s.pmm.pmmAllocPages 1).1 ≠ 0 → ∃ f, (s.pmm.pmmAllocPages 1).1 = f * 4096 ∧ _ ∧
      Spare (s.setPmm _) f ∧ _)
  have hun : ∀ g, s.pmm.Free g → s.tableForest.Unplaced g := fun g hg r p hn => h.held hn hg
  rcases s.pmm.pmmAllocPages_one with hm | ⟨f, m', hm, htake⟩
  · rw [hm]
    exact ⟨.refl h, rfl, fun h0 => (h0 rfl).elim⟩
  rw [hm]
  have hfree : ∀ g, m'.Free g → s.pmm.Free g := fun g hg => ((htake.rest g).mp hg).1
  have h' := h.setPmm htake.total fun g hg => hun g (hfree g hg)
  refine ⟨⟨h', rfl, rfl, fun _ _ _ _ => rfl, .inl, fun hg => hfree _ hg⟩, rfl, fun h0 => ?_⟩
  refine ⟨f, rfl, htake.free, ⟨hun f htake.free, fun hf => ((htake.rest f).mp hf).2 rfl⟩, ?_, ?_⟩
  · rintro rfl
    exact h0 (Nat.zero_mul _)
  · exact Nat.lt_of_lt_of_le htake.free.1 h.total

theorem pmmFreePage_tabled (h : Tabled s) (hf : s.tableForest.Unplaced f) :
    Lockstep Eq (pmmFreePage (f * 4096)) s fun _ s' =>
      ∃ m, s' = s.setPmm m ∧ Tabled s' ∧ ∀ g, m.Free g → s.pmm.Free g ∨ g = f := by
  refine .of_post ⟨_, rfl, ?_⟩
  change Tabled (s.setPmm (s.pmm.pmmFreePages (f * 4096) 1).2) ∧
    ∀ g, (s.pmm.pmmFreePages (f * 4096) 1).2.Free g → _
  rcases s.pmm.pmmFreePages_one (f * 4096) with hm | ⟨m', hm, hgive⟩
  · rw [hm]
    exact ⟨h, fun _ => .inl⟩
  · rw [hm]
    rw [mul_div_page] at hgive
    refine ⟨h.setPmm hgive.total fun g hg => ?_, hgive.rest⟩
    rcases hgive.rest g hg with hg | rfl
    · exact fun r p hn => h.held hn hg
    · exact hf

/-- **A new table** goes into an entry that is not present and maps nothing. -/
theorem Tabled.newTable (h : Tabled s) (hh : Hung s s' r p i f c) (hf : s.table r p = some f)
    (hp : p.length < 3) (hi : Opens r p i) (habsent : present (s.mem f i) = false)
    (hc : Spare s c) (hlt : c < 2 ^ 40) (hc0 : c ≠ 0) : Tabled s' ∧ SameWords s s' := by
  have hF := hh.forestTo hf hp (by decide) hi habsent hc.unplaced hlt
  have hd := h.distinct
  refine ⟨h.hang hh hF hi habsent hc0 hc.used, fun r' q j hq => ?_⟩
  by_cases hnew : r' = r ∧ q = i :: p
  · obtain ⟨rfl, rfl⟩ := hnew
    rw [word_of (hF.node_new hd), word_none hF.vacant_node, hh.blank hp]
  · have hsame : s'.table r' q = s.table r' q := (hF.node_both hd r' q).2 hnew
    cases hg : s.table r' q with
    | none => rw [word_none hg, word_none (hsame.trans hg)]
    | some g =>
      rw [word_of hg, word_of (hsame.trans hg), hh.same hF hd hg]
      rintro ⟨-, rfl, -⟩
      omega

theorem descendOrAlloc_tabled (h : Tabled s) (hf : s.table r p = some f) (hp : p.length < 3)
    (hi : Opens r p i) (user : Bool) :
    Lockstep Eq (descendOrAlloc (f * 4096) i user) s fun c s' =>
      Grown s s' ∧ (c ≠ 0 → ∃ g, c = g * 4096 ∧ s'.table r (i :: p) = some g) := by
  refine .bind (.look ?_)
  rw [mul_div_page]
  refine .ite (fun hpres => .ite (fun _ => ?_) fun hhuge => ?_) fun habs => ?_
  · exact .pure ⟨.refl h, fun h0 => (h0 rfl).elim⟩
  · refine .pure ⟨.refl h, fun _ => ⟨_, (pteAddr_aligned _).symm, ?_⟩⟩
    rw [table_eq_node s r (p := i :: p) hp, walk_step (node_of_table hf) hp hi, hpres]
    simp [hhuge]
  · refine .bind ((pmmAllocPage_tabled h).mono fun np s1 ⟨hg1, hm1, hnp⟩ => ?_)
    refine .ite (fun _ => .pure ⟨hg1, fun h0 => (h0 rfl).elim⟩) fun hne => ?_
    obtain ⟨c, rfl, hfree, hspare, hc0, hc⟩ := hnp hne
    have h₁ := hg1.tabled
    have hf1 : s1.table r p = some f :=
      (forestTo_congr (fun _ => by rw [hg1.space]) (fun _ _ => by rw [hm1]) r p).trans hf
    have hfc : f ≠ c := fun hfc => hspare.unplaced r p (hfc ▸ hf1)
    have hlt : c < 2 ^ 40 := Nat.lt_of_lt_of_le hc (by decide)
    have habs1 : present (s1.mem f i) = false := by rw [hm1]; simpa using habs
    have hh := descend_hung (s := s1) (r := r) (p := p) (i := i) user hlt hfc
    have hF := hh.forestTo hf1 hp (by decide) hi habs1 hspare.unplaced hlt
    obtain ⟨h₂, hw2⟩ := h₁.newTable hh hf1 hp hi habs1 hspare hlt hc0
    rw [hangTable_prog]
    refine .of_post ⟨⟨h₂, hh.space.trans hg1.space, hh.nextSpace.trans hg1.nextSpace, ?_, ?_, ?_⟩,
      fun _ => ⟨c, rfl, hF.node_new h₁.distinct⟩⟩
    · exact fun r p i hp => (hw2 r p i hp).trans (hg1.words r p i hp)
    · intro r' q g hn
      rcases hF.node_cases h₁.distinct hn with hn | ⟨_, _, rfl⟩
      · exact hg1.fresh hn
      · exact .inr hfree
    · exact fun hg => hg1.free (hh.pmm ▸ hg)

end Descend

/-! ## Mapping and unmapping -/

section Map

variable {s : State} {r va : Nat} {space : Space}

theorem Mappable.home_eq (hva : Mappable r va) (hkind : space.isKernel = true ↔ r = 0)
    (hlow : lowerBound space ≤ va) : home r va = r := by
  unfold home
  split
  next h0 => exact ((hva.opens hkind hlow rfl).mpr h0).symm
  · rfl

/-- **`vmm_map`** sets the word of its page, which was not present, or none. -/
theorem vmmMap_tabled (h : Tabled s) (hs : s.space r = some space) (hva : Mappable r va) (pa : Nat)
    (flags : BitVec 32) :
    Lockstep Eq (vmmMap r va pa flags) s fun ok s' =>
      if ok then
        pa % 4096 = 0 ∧ hasFlag flags vmPresent = true ∧ present (s.wordAt r va) = false ∧
          Tabled s' ∧ s'.space = s.space ∧ s'.nextSpace = s.nextSpace ∧
          SetsWord s s' r va (pteFor pa (flagsToPte flags))
      else Grown s s' := by
  refine .bind (.look ?_)
  rw [hs]
  refine .ite (fun _ => .pure (.refl h)) fun hchk => ?_
  simp only [not_or, not_not, Nat.not_lt, Bool.not_eq_false] at hchk
  obtain ⟨halign, hpa, hlow, hpres⟩ := hchk
  have hd1 := descendOrAlloc_tabled h (table_root hs) (by decide) (hva.opens (h.kind hs) hlow)
    (hasFlag flags vmUser)
  rw [h.aligned hs] at hd1
  refine .bind (hd1.mono fun pdpt s1 ⟨hg1, hn1⟩ => ?_)
  refine .ite (fun _ => .pure hg1) fun hne => ?_
  obtain ⟨f1, rfl, hf1⟩ := hn1 hne
  refine .bind ((descendOrAlloc_tabled hg1.tabled hf1 (by simp) (opens_cons _ _ _ _) _).mono
    fun pd s2 ⟨hg2, hn2⟩ => ?_)
  refine .ite (fun _ => .pure (hg1.trans hg2)) fun hne => ?_
  obtain ⟨f2, rfl, hf2⟩ := hn2 hne
  refine .bind ((descendOrAlloc_tabled hg2.tabled hf2 (by simp) (opens_cons _ _ _ _) _).mono
    fun pt s3 ⟨hg3, hn3⟩ => ?_)
  have hg := (hg1.trans hg2).trans hg3
  refine .ite (fun _ => .pure hg) fun hne => ?_
  obtain ⟨f, rfl, hf⟩ := hn3 hne
  refine .bind (.look ?_)
  rw [mul_div_page]
  refine .ite (fun _ => .pure hg) fun habs => ?_
  have hword : s3.mem f (idxPt va) = s.wordAt r va :=
    (word_of hf _).symm.trans (hg.words r _ _ (vaTable_length va))
  rw [hword] at habs
  obtain ⟨h', hset⟩ := hg.tabled.setEntry hf (pteFor pa (flagsToPte flags))
  refine .bind (.put (.pure ?_))
  rw [if_pos rfl, mul_div_page]
  refine ⟨hpa, hpres, by simpa using habs, h', hg.space, hg.nextSpace, fun r' p i hp => ?_⟩
  rw [hset r' p i hp, hg.words r' p i hp]

/-- **`vmm_unmap`** clears the word of its page if that was present. -/
theorem vmmUnmap_tabled (h : Tabled s) (hs : s.space r = some space) (hva : Mappable r va) :
    Lockstep Eq (vmmUnmap r va) s fun ok s' =>
      if ok then
        va % 4096 = 0 ∧ lowerBound space ≤ va ∧ present (s.wordAt r va) = true ∧ Tabled s' ∧
          s'.space = s.space ∧ s'.pmm = s.pmm ∧ SetsWord s s' r va 0#64
      else
        s' = s ∧ (va % 4096 = 0 → lowerBound space ≤ va → present (s.wordAt r va) = false) := by
  refine .bind (.look ?_)
  rw [hs]
  refine .ite (fun hchk => .pure ⟨rfl, fun h1 h2 => by omega⟩) fun hchk => ?_
  simp only [not_or, not_not, Nat.not_lt] at hchk
  obtain ⟨halign, hlow⟩ := hchk
  have hwalk := walkLeaf_eq h.rooted hs va
  rw [hva.home_eq (h.kind hs) hlow, ← table_eq_node s _ (Nat.le_of_eq (vaTable_length va))] at hwalk
  refine .bind (.look ?_)
  cases hf : s.table r (vaTable va) with
  | none =>
    rw [hf] at hwalk
    refine .ite (fun _ => .pure ⟨rfl, fun _ _ => ?_⟩) fun hne => absurd hwalk hne
    rw [wordAt, word_none hf]
    rfl
  | some f =>
    rw [hf] at hwalk
    have hwalk : s.walkLeaf r va = f * 4096 := hwalk
    rw [hwalk]
    have hne : f * 4096 ≠ 0 := Nat.mul_ne_zero (h.nonzero hf) (by decide)
    refine .ite (fun h0 => absurd h0 hne) fun _ => .bind (.look ?_)
    rw [mul_div_page, ← word_of hf]
    refine .ite (fun hpres => .bind (.put (.pure ?_))) fun habs => ?_
    · obtain ⟨h', hset⟩ := h.setEntry hf 0#64
      rw [if_pos rfl, mul_div_page]
      exact ⟨halign, hlow, hpres, h', rfl, rfl, hset⟩
    · exact .pure ⟨rfl, fun _ _ => by simpa using habs⟩

end Map

end Exyde.Mem
