import Exyde.Mem.Layout

/-! # What mapping and unmapping do to the places

One specification per function of `vmm.c`, as a lockstep statement: a laid-out state
leads to a laid-out state, and twins of the state go the same way. -/

namespace Exyde.Mem

open State
open Exyde.Lib (Forest Prog Lockstep)

/-! ## Walks -/

def vaTable (va : Nat) : Path := [idxPd va, idxPdpt va, idxPml4 va]

theorem vaPath_eq (va : Nat) : vaPath va = idxPt va :: vaTable va := rfl

@[simp] theorem vaTable_length (va : Nat) : (vaTable va).length = 3 := rfl
@[simp] theorem vaPath_length (va : Nat) : (vaPath va).length = 4 := rfl

theorem opens_cons (r : Nat) (j : Fin 512) (p : Path) (i : Fin 512) : Opens r (j :: p) i :=
  fun h0 => absurd h0 (by simp)

/-- The space whose tables hold an address: under entry 0 that is the kernel. -/
def home (r va : Nat) : Nat := if idxPml4 va = 0 then 0 else r

section Walk

variable {s t : State} {r va : Nat} {space : Space}

theorem walk_step {p : Path} {f : Nat} {i : Fin 512} (hf : s.node r p = some f)
    (hp : p.length < 3) (hi : Opens r p i) :
    s.node r (i :: p) =
      if !present (s.mem f i) || huge (s.mem f i) then none else some (pteAddr (s.mem f i) / 4096) := by
  rw [node_cons_of hf]
  cases he : present (s.mem f i) with
  | false => rw [childOf_absent he]; rfl
  | true =>
    cases hh : huge (s.mem f i) with
    | false => rw [childOf_open (by omega) hi he fun _ => hh]; rfl
    | true =>
      rw [childOf, if_neg]
      · rfl
      · intro h
        rw [hh] at h
        exact absurd (h.2.2.1 hp) (by decide)

theorem walkFrom_open {f : Nat} (hf : s.node r [] = some f) (hi : Opens r [] (idxPml4 va)) (a : Nat)
    (ha : a / 4096 = f) :
    s.walkFrom a va = ((s.node r (vaTable va)).map (· * 4096)).getD 0 := by
  simp only [walkFrom, ha, vaTable]
  have h1 := walk_step hf (by decide) hi
  split
  next hc =>
    rw [if_pos hc] at h1
    rw [node_cons_none (node_cons_none h1 _)]
    rfl
  next hc =>
    rw [if_neg hc] at h1
    have h2 := walk_step (i := idxPdpt va) h1 (by simp) (opens_cons _ _ _ _)
    split
    next hc =>
      rw [if_pos hc] at h2
      rw [node_cons_none h2]
      rfl
    next hc =>
      rw [if_neg hc] at h2
      have h3 := walk_step (i := idxPd va) h2 (by simp) (opens_cons _ _ _ _)
      split
      next hc => rw [h3, if_pos hc]; rfl
      next hc =>
        rw [h3, if_neg hc, Option.map_some, Option.getD_some, pteAddr_aligned]

theorem walkLeaf_eq (h : Rooted s) (hs : s.space r = some space) (va : Nat) :
    s.walkLeaf r va = ((s.node (home r va) (vaTable va)).map (· * 4096)).getD 0 := by
  have hroot := node_root hs
  simp only [walkLeaf, hs]
  by_cases h0 : idxPml4 va = 0
  · -- entry 0 of the root is the kernel's
    have hk : s.walkFrom space.pml4 va = s.walkFrom (s.pml4Of vmmKernelSpace) va := by
      have hsame : s.mem (space.pml4 / 4096) (idxPml4 va) =
          s.mem (s.pml4Of vmmKernelSpace / 4096) (idxPml4 va) := by
        rw [h0]; exact h.shared hroot
      simp only [walkFrom, hsame]
    rw [hk, home, if_pos h0]
    exact walkFrom_open h.kroot_node (fun _ => by simp [h0]) _ rfl
  · rw [home, if_neg h0]
    by_cases hr : r = 0
    · -- the kernel's root has no other entry
      subst hr
      have hk : space.pml4 / 4096 = s.kroot :=
        Option.some.inj (hroot.symm.trans h.kroot_node)
      have habs := h.kernelTop h0
      have hnone : s.node 0 [idxPml4 va] = none := by
        rw [node_cons_of h.kroot_node, childOf_absent habs]
      rw [vaTable, node_cons_none (node_cons_none hnone _)]
      simp only [walkFrom, hk, habs]
      rfl
    · exact walkFrom_open hroot (fun _ => by simp [h0, hr]) _ rfl

theorem walkLeaf_node (h : Rooted s) (hs : s.space r = some space) (hne : s.walkLeaf r va ≠ 0) :
    ∃ f, s.node (home r va) (vaTable va) = some f ∧ s.walkLeaf r va = f * 4096 := by
  rw [walkLeaf_eq h hs] at hne ⊢
  cases hf : s.node (home r va) (vaTable va) with
  | none => rw [hf] at hne; exact absurd rfl hne
  | some f => exact ⟨f, rfl, rfl⟩

theorem leafEntry_node (h : Layout s) (hs : s.space r = some space) {e : Word}
    (he : s.leafEntry r va = some e) :
    ∃ f, s.node (home r va) (vaTable va) = some f ∧ s.mem f (idxPt va) = e ∧ present e = true ∧
      s.node (home r va) (vaPath va) = some (pteAddr e / 4096) := by
  obtain ⟨hne, he⟩ := Option.ite_none_left_eq_some.mp he
  obtain ⟨f, hf, hw⟩ := walkLeaf_node h.rooted hs hne
  rw [hw, Nat.mul_div_cancel _ (by decide)] at he
  split at he
  next hp =>
    cases he
    refine ⟨f, hf, rfl, hp, ?_⟩
    rw [vaPath_eq, node_cons_of hf]
    exact childOf_open (by simp) (opens_cons _ _ _ _) hp fun h3 => absurd h3 (by simp)
  · cases he

theorem vmmQuery_node (h : Layout s) (hs : s.space r = some space) {pa : Nat} {fl : BitVec 32}
    (hq : s.vmmQuery r va = some (pa, fl)) :
    va % 4096 = 0 ∧ ∃ f, s.node (home r va) (vaPath va) = some f ∧ pa = f * 4096 := by
  obtain ⟨halign, hq⟩ := Option.ite_none_left_eq_some.mp hq
  obtain ⟨e, he, heq⟩ := Option.map_eq_some_iff.mp hq
  obtain ⟨f, hf, hmem, hp, hn⟩ := leafEntry_node h hs he
  cases heq
  exact ⟨by omega, _, hn, (pteAddr_aligned e).symm⟩

/-- Twins answer every query alike. -/
theorem Twin.leafEntry (ht : Twin s t) (h : Layout s) (r va : Nat) :
    t.leafEntry r va = s.leafEntry r va := by
  have hwalk : t.walkLeaf r va = s.walkLeaf r va := by
    cases hs : s.space r with
    | none =>
      simp only [walkLeaf, ht.space, hs]
    | some space =>
      rw [walkLeaf_eq h.rooted hs, walkLeaf_eq (ht.layout h).rooted (ht.space ▸ hs), ht.node]
  simp only [State.leafEntry, hwalk]
  by_cases hne : s.walkLeaf r va = 0
  · rw [if_pos hne, if_pos hne]
  · cases hs : s.space r with
    | none => exact absurd (by simp only [walkLeaf, hs]) hne
    | some space =>
      obtain ⟨f, hf, hw⟩ := walkLeaf_node h.rooted hs hne
      rw [hw, Nat.mul_div_cancel _ (by decide), ht.tables ⟨_, _, hf, by simp⟩]

theorem Twin.vmmQuery (ht : Twin s t) (h : Layout s) (r va : Nat) :
    t.vmmQuery r va = s.vmmQuery r va := by
  simp only [State.vmmQuery, ht.leafEntry h]

end Walk

/-! ## Building -/

/-- `s'` comes from `s` by building: frames that were free have become tables
or mapped pages, nothing placed has moved, and only tables were written. -/
structure Builds (s s' : State) : Prop where
  space : s'.space = s.space
  nextSpace : s'.nextSpace = s.nextSpace
  heapEnd : s'.heapEnd = s.heapEnd
  cr3 : s'.cr3 = s.cr3
  keeps : ∀ {r p g}, s.node r p = some g → s'.node r p = some g
  fresh : ∀ {r p g}, s'.node r p = some g → s.node r p = some g ∨ s.pmm.Free g
  free : ∀ {g}, s'.pmm.Free g → s.pmm.Free g
  same : s.pmm.Same s'.pmm
  mem : ∀ g, s'.mem g = s.mem g ∨ s'.IsTable g

def SameLeaves (s s' : State) : Prop := ∀ r p, p.length = 4 → s'.node r p = s.node r p

namespace Builds

variable {s s' s'' : State} {f : Nat}

theorem refl (s : State) : Builds s s :=
  ⟨rfl, rfl, rfl, rfl, id, .inl, id, ⟨rfl, rfl⟩, fun _ => .inl rfl⟩

theorem isTable (h : Builds s s') (hf : s.IsTable f) : s'.IsTable f := by
  obtain ⟨r, p, hn, hp⟩ := hf
  exact ⟨r, p, h.keeps hn, hp⟩

theorem trans (h : Builds s s') (h' : Builds s' s'') : Builds s s'' where
  space := h'.space.trans h.space
  nextSpace := h'.nextSpace.trans h.nextSpace
  heapEnd := h'.heapEnd.trans h.heapEnd
  cr3 := h'.cr3.trans h.cr3
  keeps hn := h'.keeps (h.keeps hn)
  fresh hn := by
    rcases h'.fresh hn with hn | hf
    · exact h.fresh hn
    · exact .inr (h.free hf)
  free hf := h.free (h'.free hf)
  same := h.same.trans h'.same
  mem g := by
    rcases h'.mem g with hg | hg
    · rcases h.mem g with hg' | hg'
      · exact .inl (hg.trans hg')
      · exact .inr (h'.isTable hg')
    · exact .inr hg

theorem hang (h : Builds s s') {r : Nat} {p : Path} {i : Fin 512} {f c : Nat}
    (hh : Hung s' s'' r p i f c) (hF : Forest.Hang s'.forest s''.forest r p i f c)
    (hd : s'.forest.Distinct) (hctl : s''.heapEnd = s'.heapEnd ∧ s''.cr3 = s'.cr3)
    (hfree : s.pmm.Free c) (hmem : ∀ g, s''.mem g = s'.mem g ∨ s''.IsTable g) : Builds s s'' where
  space := hh.space.trans h.space
  nextSpace := hh.nextSpace.trans h.nextSpace
  heapEnd := hctl.1.trans h.heapEnd
  cr3 := hctl.2.trans h.cr3
  keeps hn := hF.node_keep hd (h.keeps hn)
  fresh hn := by
    rcases hF.node_cases hd hn with hn | ⟨_, _, rfl⟩
    · exact h.fresh hn
    · exact .inr hfree
  free hf := h.free (hh.pmm ▸ hf)
  same := hh.pmm ▸ h.same
  mem g := by
    rcases hmem g with hg | hg
    · rcases h.mem g with hg' | ⟨r', q, hn, hq⟩
      · exact .inl (hg.trans hg')
      · exact .inr ⟨r', q, hF.node_keep hd hn, hq⟩
    · exact .inr hg

theorem pending (h : Builds s s') (hf : Pending s f) : Pending s' f where
  unplaced r p hn := (h.fresh hn).elim (hf.unplaced r p) hf.used
  used hfree := hf.used (h.free hfree)
  nonzero := hf.nonzero
  fit := h.same.fit hf.fit

end Builds

theorem SameLeaves.refl (s : State) : SameLeaves s s := fun _ _ _ => rfl

theorem SameLeaves.trans {s s' s'' : State} (h : SameLeaves s s') (h' : SameLeaves s' s'') :
    SameLeaves s s'' := fun r p hp => (h' r p hp).trans (h r p hp)

/-! ## Allocating a page -/

section Alloc

variable {s t : State}

theorem Twin.setPmm (h : Twin s t) (m : Pmm) : Twin (s.setPmm m) (t.setPmm m) :=
  ⟨rfl, h.space, h.nextSpace, h.heapEnd, h.cr3, h.tables⟩

theorem pmmAllocPage_spec (h : Layout s) : Lockstep Twin pmmAllocPage s fun pa s' =>
    Layout s' ∧ Builds s s' ∧ SameLeaves s s' ∧ s'.mem = s.mem ∧
      (pa ≠ 0 → ∃ f, pa = f * 4096 ∧ s.pmm.Free f ∧ Pending s' f) := by
  refine ⟨?_, fun t ht => ?_⟩
  · change Layout (s.setPmm (s.pmm.pmmAllocPages 1).2) ∧ Builds s (s.setPmm _) ∧ _ ∧ _ ∧
      ((s.pmm.pmmAllocPages 1).1 ≠ 0 → ∃ f, (s.pmm.pmmAllocPages 1).1 = f * 4096 ∧ _ ∧
        Pending (s.setPmm _) f)
    have hkeep := h.wf.alloc
    rcases s.pmm.pmmAllocPages_one with hm | ⟨f, m', hm, htake⟩
    · rw [hm]
      exact ⟨h, .refl s, .refl s, rfl, fun h0 => (h0 rfl).elim⟩
    rw [hm] at hkeep ⊢
    have hfree : ∀ g, m'.Free g → s.pmm.Free g := fun g hg => ((htake.rest g).mp hg).1
    refine ⟨h.setPmm hkeep fun g hg => h.unplaced_of_free (hfree g hg),
      ⟨rfl, rfl, rfl, rfl, id, .inl, fun hg => hfree _ hg, hkeep.2, fun _ => .inl rfl⟩,
      fun _ _ _ => rfl, rfl, fun h0 => ⟨f, rfl, htake.free, ?_⟩⟩
    exact
      { unplaced := h.unplaced_of_free htake.free
        used := fun hf => ((htake.rest f).mp hf).2 rfl
        nonzero := fun hf => h0 (by rw [hf])
        fit := hkeep.2.fit (h.wf.fit htake.free) }
  · change (t.pmm.pmmAllocPages 1).1 = _ ∧ Twin _ (t.setPmm (t.pmm.pmmAllocPages 1).2)
    rw [ht.pmm]
    exact ⟨rfl, ht.setPmm _⟩

theorem pmmFreePage_spec (h : Layout s) {f : Nat} (hf : s.forest.Unplaced f) :
    Lockstep Twin (pmmFreePage (f * 4096)) s fun _ s' =>
      Layout s' ∧ ∃ m, s' = s.setPmm m ∧ s.pmm.Same m ∧ ∀ g, m.Free g → s.pmm.Free g ∨ g = f := by
  refine ⟨?_, fun t ht => ?_⟩
  · change Layout (s.setPmm (s.pmm.pmmFreePages (f * 4096) 1).2) ∧ ∃ m, s.setPmm _ = s.setPmm m ∧ _
    have hkeep := h.wf.give (f * 4096)
    rcases s.pmm.pmmFreePages_one (f * 4096) with hm | ⟨m', hm, hgive⟩
    · rw [hm]
      exact ⟨h, _, rfl, ⟨rfl, rfl⟩, fun _ => .inl⟩
    · rw [hm] at hkeep ⊢
      rw [Nat.mul_div_cancel _ (by decide)] at hgive
      refine ⟨h.setPmm hkeep fun g hg => ?_, _, rfl, hkeep.2, hgive.rest⟩
      rcases hgive.rest g hg with hg | rfl
      · exact h.unplaced_of_free hg
      · exact hf
  · change (t.pmm.pmmFreePages (f * 4096) 1).1 = _ ∧
      Twin _ (t.setPmm (t.pmm.pmmFreePages (f * 4096) 1).2)
    rw [ht.pmm]
    exact ⟨rfl, ht.setPmm _⟩

end Alloc

/-! ## Tables on demand -/

section Descend

variable {s t : State} {r : Nat} {p : Path} {i : Fin 512} {f c : Nat}

def State.hangTable (s : State) (f : Nat) (i : Fin 512) (c : Nat) (e : Word) : State :=
  (s.setZero c).setWord f i e

theorem hangTable_prog (f : Nat) (i : Fin 512) (c : Nat) (e : Word) :
    (do zeroPage (c * 4096); store (f * 4096) i e; pure (c * 4096) : MM Nat) =
      fun s => (c * 4096, s.hangTable f i c e) := by
  funext s
  change (c * 4096, (s.setZero (c * 4096 / 4096)).setWord (f * 4096 / 4096) i e) = _
  rw [mul_div_page, mul_div_page, hangTable]

theorem hangTable_hung (e : Word) {bits : Word} (hb : LowBits bits) (he : e = pteFor (c * 4096) bits)
    (hne : f ≠ c) : Hung s (s.hangTable f i c e) r p i f c where
  space := rfl
  nextSpace := rfl
  pmm := rfl
  entry := ⟨bits, hb, by simp [hangTable, he]⟩
  others g j hgc hgf := by
    by_cases hg : g = f
    · subst hg
      simp [hangTable, hgc, hgf.resolve_left (by simp)]
    · simp [hangTable, hg, hgc]
  blank _ j := by simp [hangTable, Function.update_of_ne hne.symm]

theorem setWord_hung (e : Word) {bits : Word} (hb : LowBits bits) (he : e = pteFor (c * 4096) bits)
    (hp : p.length = 3) : Hung s (s.setWord f i e) r p i f c where
  space := rfl
  nextSpace := rfl
  pmm := rfl
  entry := ⟨bits, hb, by simp [he]⟩
  others g j _ hgf := by
    by_cases hg : g = f
    · subst hg
      simp [hgf.resolve_left (by simp)]
    · simp [hg]
  blank h3 := absurd h3 (by omega)

theorem Twin.hangTable (ht : Twin s t) (hd : s.forest.Distinct) {e : Word}
    (hF : Forest.Hang s.forest (s.hangTable f i c e).forest r p i f c) (hne : f ≠ c)
    (hp : p.length < 4) : Twin (s.hangTable f i c e) (t.hangTable f i c e) := by
  refine { ht with tables := ?_ }
  intro g ⟨r', q, hg, hq⟩
  funext j
  by_cases hgf : g = f
  · subst hgf
    simp [hangTable, hne, ht.tables ⟨r, p, hF.parent, hp⟩]
  · rcases hF.node_cases hd hg with hg | ⟨_, _, rfl⟩
    · have hgc : g ≠ c := fun hgc => hF.unplaced r' q (hgc ▸ hg)
      simp [State.hangTable, hgf, hgc, ht.tables ⟨r', q, hg, hq⟩]
    · simp [hangTable, hgf]

theorem tableBits_lowBits (user : Bool) :
    LowBits (ptePresent ||| pteWrite ||| if user then pteUser else 0#64) := by
  cases user <;> exact ⟨by decide, by decide, by decide⟩

theorem descend_hung (user : Bool) {c : Nat} (hlt : c < 2 ^ 40) (hfc : f ≠ c) :
    Hung s (s.hangTable f i c (BitVec.ofNat 64 (c * 4096) |||
      (ptePresent ||| pteWrite ||| if user then pteUser else 0#64))) r p i f c :=
  hangTable_hung _ (tableBits_lowBits user) (by rw [pteFor, ofNat_and_pteAddrMask hlt]) hfc

theorem descendOrAlloc_spec (h : Layout s) (hf : s.node r p = some f) (hp : p.length < 3)
    (hi : Opens r p i) (user : Bool) :
    Lockstep Twin (descendOrAlloc (f * 4096) i user) s fun c s' =>
      Layout s' ∧ Builds s s' ∧ SameLeaves s s' ∧
        (c ≠ 0 → ∃ g, c = g * 4096 ∧ s'.node r (i :: p) = some g) := by
  refine .bind (.read (fun t ht => by rw [mul_div_page, ht.tables ⟨r, p, hf, by omega⟩]) ?_)
  rw [mul_div_page]
  refine .ite (fun hpres => .ite (fun _ => ?_) fun hhuge => ?_) fun habs => ?_
  · exact .pure ⟨h, .refl s, .refl s, fun h0 => (h0 rfl).elim⟩
  · refine .pure ⟨h, .refl s, .refl s, fun _ => ⟨_, (pteAddr_aligned _).symm, ?_⟩⟩
    rw [walk_step hf hp hi, hpres]
    simp [hhuge]
  · refine .bind ((pmmAllocPage_spec h).mono fun np s1 ⟨h₁, hb1, hl1, hm1, hnp⟩ => ?_)
    refine .ite (fun _ => .pure ⟨h₁, hb1, hl1, fun h0 => (h0 rfl).elim⟩) fun hne => ?_
    obtain ⟨c, rfl, hfree, hpend⟩ := hnp hne
    have hf1 := hb1.keeps hf
    have hfc : f ≠ c := fun hfc => hpend.unplaced r p (hfc ▸ hf1)
    have hlt := hpend.lt h₁
    have habs1 : present (s1.mem f i) = false := by rw [hm1]; simpa using habs
    have hh := descend_hung (s := s1) (r := r) (p := p) (i := i) user hlt hfc
    have hF := hh.forest hf1 (by omega) hi habs1 hpend.unplaced hlt
    have hd := h₁.distinct
    -- the two stores are one step for the twins: between them the new page is no table
    rw [hangTable_prog]
    refine ⟨⟨?_, ?_, ?_, fun _ => ⟨c, rfl, hF.node_new hd⟩⟩, fun t ht => ⟨rfl, ?_⟩⟩
    · exact h₁.hang hh hf1 (by omega) hi habs1 hpend
    · refine hb1.hang hh hF hd ⟨rfl, rfl⟩ hfree fun g => ?_
      by_cases hgf : g = f
      · subst hgf
        exact .inr ⟨r, p, hF.node_keep hd hf1, by omega⟩
      · by_cases hgc : g = c
        · subst hgc
          exact .inr ⟨r, i :: p, hF.node_new hd, by simp only [List.length_cons]; omega⟩
        · exact .inl (by simp [hangTable, hgf, hgc])
    · refine hl1.trans fun r' q hq => (hF.node_both hd r' q).2 fun hnew => ?_
      rw [hnew.2, List.length_cons] at hq
      omega
    · exact ht.hangTable hd hF hfc (by omega)

end Descend

/-! ## Mapping a fresh page -/

/-- The addresses that may be mapped in a space: the kernel's own half, or the
48 bits the tables of a user space tell apart. -/
def Mappable (r va : Nat) : Prop := if r = 0 then va < userVaBase else va < 2 ^ 48
  deriving Decidable

theorem Mappable.kernel {va : Nat} (h : va < userVaBase) : Mappable 0 va := by
  exact h

theorem Mappable.user {r va : Nat} (hr : r ≠ 0) (h : va < 2 ^ 48) : Mappable r va := by
  rw [Mappable, if_neg hr]
  exact h

theorem idxPml4_val (va : Nat) : (idxPml4 va).val = va / 2 ^ 39 % 512 := by
  rw [idxPml4, Fin.val_ofNat, Nat.shiftRight_eq_div_pow]

theorem idxPml4_eq_zero {va : Nat} (h : va < userVaBase) : idxPml4 va = 0 := by
  have hlt : va < 2 ^ 39 := h
  apply Fin.ext
  rw [idxPml4_val, Nat.div_eq_of_lt hlt]
  rfl

theorem idxPml4_ne_zero {va : Nat} (h : userVaBase ≤ va) (hlt : va < 2 ^ 48) : idxPml4 va ≠ 0 := by
  intro h0
  have hval := congrArg Fin.val h0
  rw [idxPml4_val] at hval
  simp only [userVaBase, Fin.val_zero] at h hval
  omega

theorem Mappable.opens {r va : Nat} {space : Space} (hva : Mappable r va)
    (hkind : space.isKernel = true ↔ r = 0) (hlow : lowerBound space ≤ va) :
    Opens r [] (idxPml4 va) := by
  intro _
  unfold Mappable at hva
  split at hva
  next hr => simp [hr, idxPml4_eq_zero hva]
  next hr =>
    have hkind : space.isKernel = false := by simpa [hr] using hkind
    rw [lowerBound, hkind] at hlow
    simp [hr, idxPml4_ne_zero hlow hva]

section Map

variable {s t : State} {r va c : Nat} {space : Space}

/-- Twins stay twins when an entry of a table is written in both and no new table comes of it. -/
theorem Twin.setWord (ht : Twin s t) {f : Nat} {i : Fin 512} {e : Word}
    (hsub : ∀ g, (s.setWord f i e).IsTable g → s.IsTable g) :
    Twin (s.setWord f i e) (t.setWord f i e) := by
  refine { ht with tables := ?_ }
  intro g hg
  have hmem := ht.tables (hsub g hg)
  by_cases hgf : g = f
  · subst hgf
    simp [hmem]
  · simp [hgf, hmem]

/-- What `vmm_map` of an allocated page `c` does: some tables are built, and on
success the page hangs in the last of them. -/
theorem vmmMap_spec (h : Layout s) (hs : s.space r = some space) (hva : Mappable r va)
    (hc : Pending s c) (flags : BitVec 32) :
    Lockstep Twin (vmmMap r va (c * 4096) flags) s fun ok s' => Layout s' ∧
      ∃ s1, Layout s1 ∧ Builds s s1 ∧ SameLeaves s s1 ∧
        if ok then
          va % 4096 = 0 ∧ lowerBound space ≤ va ∧ ∃ f e, s' = s1.setWord f (idxPt va) e ∧
            Hung s1 s' r (vaTable va) (idxPt va) f c ∧
            Forest.Hang s1.forest s'.forest r (vaTable va) (idxPt va) f c
        else s' = s1 := by
  -- a failure after some tables were built
  have hfail : ∀ {s'}, Layout s' → Builds s s' → SameLeaves s s' →
      Layout s' ∧ ∃ s1, Layout s1 ∧ Builds s s1 ∧ SameLeaves s s1 ∧ s' = s1 :=
    fun h' hb hl => ⟨h', _, h', hb, hl, rfl⟩
  refine .bind (.read (fun t ht => by rw [ht.space]) ?_)
  rw [hs]
  refine .ite (fun _ => .pure (hfail h (.refl s) (.refl s))) fun hchk => ?_
  simp only [not_or, not_not, Nat.not_lt, Bool.not_eq_false] at hchk
  obtain ⟨halign, -, hlow, hpres⟩ := hchk
  have hd1 := descendOrAlloc_spec h (node_root hs) (by decide) (hva.opens (h.kind hs) hlow)
    (hasFlag flags vmUser)
  rw [h.aligned hs] at hd1
  refine .bind (hd1.mono fun pdpt s1 ⟨h₁, hb1, hl1, hn1⟩ => ?_)
  refine .ite (fun _ => .pure (hfail h₁ hb1 hl1)) fun hne => ?_
  obtain ⟨f1, rfl, hf1⟩ := hn1 hne
  refine .bind ((descendOrAlloc_spec h₁ hf1 (by simp) (opens_cons _ _ _ _) _).mono
    fun pd s2 ⟨h₂, hb2, hl2, hn2⟩ => ?_)
  refine .ite (fun _ => .pure (hfail h₂ (hb1.trans hb2) (hl1.trans hl2))) fun hne => ?_
  obtain ⟨f2, rfl, hf2⟩ := hn2 hne
  refine .bind ((descendOrAlloc_spec h₂ hf2 (by simp) (opens_cons _ _ _ _) _).mono
    fun pt s3 ⟨h₃, hb3, hl3, hn3⟩ => ?_)
  have hb := (hb1.trans hb2).trans hb3
  have hl := (hl1.trans hl2).trans hl3
  refine .ite (fun _ => .pure (hfail h₃ hb hl)) fun hne => ?_
  obtain ⟨f, rfl, hf⟩ := hn3 hne
  have hpend := hb.pending hc
  have hlt := hpend.lt h₃
  refine .bind (.read (fun t ht => by rw [mul_div_page, ht.tables ⟨_, _, hf, by simp⟩]) ?_)
  refine .ite (fun _ => .pure (hfail h₃ hb hl)) fun habs => ?_
  have habs : present (s3.mem f (idxPt va)) = false := by simpa using habs
  have hh := setWord_hung (s := s3) (r := r) (p := vaTable va) (i := idxPt va) (f := f) (c := c) _
    (flagsToPte_lowBits hpres) rfl rfl
  have hF := hh.forest hf (by simp) (opens_cons _ _ _ _) habs hpend.unplaced hlt
  refine .bind (.change (fun t ht => ?_) (.pure ?_))
  · rw [mul_div_page]
    refine ht.setWord fun g hg => ?_
    obtain ⟨r', q, hn, hq⟩ := hg
    rcases hF.node_cases h₃.distinct hn with hn | ⟨_, rfl, _⟩
    · exact ⟨r', q, hn, hq⟩
    · simp at hq
  · rw [mul_div_page]
    exact ⟨h₃.hang hh hf (by simp) (opens_cons _ _ _ _) habs hpend, s3, h₃, hb, hl, halign, hlow, f, _, rfl, hh, hF⟩

/-- `s'` has, over `s`, one more page mapped: at `va` in the space `r`, and on
a frame that was free. -/
structure NewLeaf (s s' : State) (r va : Nat) : Prop where
  aligned : va % 4096 = 0
  low : ∀ {space}, s.space r = some space → lowerBound space ≤ va
  vacant : s.node r (vaPath va) = none
  mapped : ∃ c, s.pmm.Free c ∧ s'.node r (vaPath va) = some c
  others : ∀ r' p, p.length = 4 → ¬ (r' = r ∧ p = vaPath va) → s'.node r' p = s.node r' p

/-- **Mapping a fresh page** builds tables and, on success, maps one page; on
failure the page is given back. -/
theorem mapFresh_spec (h : Layout s) (hs : s.space r = some space) (hva : Mappable r va)
    (flags : BitVec 32) :
    Lockstep Twin (mapFresh r va flags) s fun ok s' =>
      Layout s' ∧ Builds s s' ∧ if ok then NewLeaf s s' r va else SameLeaves s s' := by
  refine .bind ((pmmAllocPage_spec h).mono fun pa s1 ⟨h₁, hb1, hl1, _, hpa⟩ => ?_)
  refine .ite (fun _ => .pure ⟨h₁, hb1, hl1⟩) fun hne => ?_
  obtain ⟨c, rfl, hfree, hpend⟩ := hpa hne
  refine .bind ((vmmMap_spec h₁ (hb1.space ▸ hs) hva hpend flags).mono
    fun ok s3 ⟨h₃, s2, h₂, hb2, hl2, hok⟩ => ?_)
  have hb := hb1.trans hb2
  have hl := hl1.trans hl2
  refine .ite (fun htrue => ?_) fun hfalse => ?_
  · rw [if_pos htrue] at hok
    obtain ⟨halign, hlow, f, e, rfl, hh, hF⟩ := hok
    have hd := h₂.distinct
    have hkeep : ∀ r' p, p.length = 4 → ¬ (r' = r ∧ p = vaPath va) →
        (s2.setWord f (idxPt va) e).node r' p = s.node r' p :=
      fun r' p hp hne => ((hF.node_both hd r' p).2 hne).trans (hl r' p hp)
    refine .pure ⟨h₃, hb.hang hh hF hd ⟨rfl, rfl⟩ hfree fun g => ?_,
      { aligned := halign
        low := fun hs' => by rw [hs] at hs'; cases hs'; exact hlow
        vacant := by rw [← hl r _ (vaPath_length va)]; exact hF.vacant_node
        mapped := ⟨c, hfree, hF.node_new hd⟩
        others := hkeep }⟩
    by_cases hgf : g = f
    · subst hgf
      exact .inr ⟨r, vaTable va, hF.node_keep hd hF.parent, by simp⟩
    · exact .inl (by simp [hgf])
  · rw [if_neg hfalse] at hok
    subst hok
    refine .bind ((pmmFreePage_spec h₃ (hb2.pending hpend).unplaced).mono
      fun _ s4 ⟨h4, m, hs4, hsame, hm⟩ => ?_)
    subst hs4
    refine .pure ⟨h4, { hb with free := fun hg => ?_, same := hb.same.trans hsame }, hl⟩
    rcases hm _ hg with hg | rfl
    · exact hb.free hg
    · exact hfree

end Map

/-! ## Unmapping -/

section Unmap

variable {s : State} {r va c : Nat} {space : Space}

def UserVa (va : Nat) : Prop := userVaBase ≤ va ∧ va < 2 ^ 48
  deriving Decidable

theorem UserVa.home (h : UserVa va) (r : Nat) : home r va = r :=
  if_neg (idxPml4_ne_zero h.1 h.2)

theorem vmmUnmap_spec (h : Layout s) (hs : s.space r = some space) (hr : r ≠ 0) (hva : UserVa va)
    (hmapped : s.node r (vaPath va) = some c) :
    Lockstep Twin (vmmUnmap r va) s fun _ s' =>
      Layout s' ∧ s'.space = s.space ∧ s'.cr3 = s.cr3 ∧ (va % 4096 = 0 → s'.forest.Unplaced c) := by
  have hkind : space.isKernel = false := by simpa [hr] using h.kind hs
  refine .bind (.read (fun t ht => by rw [ht.space]) ?_)
  rw [hs]
  refine .ite (fun hchk => .pure ⟨h, rfl, rfl, fun halign => ?_⟩) fun _ => ?_
  · rw [lowerBound, hkind] at hchk
    have hlow := hva.1
    simp only [Bool.false_eq_true, if_false] at hchk
    omega
  rw [vaPath_eq] at hmapped
  obtain ⟨f, hf, hc⟩ := node_cons_some hmapped
  have hwalk : s.walkLeaf r va = f * 4096 := by
    rw [walkLeaf_eq h.rooted hs, hva.home, hf]
    rfl
  have hpt : f * 4096 ≠ 0 := Nat.mul_ne_zero (h.nonzero hf) (by decide)
  refine .bind (.read (fun t ht => ?_) ?_)
  · rw [walkLeaf_eq h.rooted hs, walkLeaf_eq (ht.layout h).rooted (ht.space ▸ hs), ht.node]
  rw [hwalk]
  refine .ite (fun h0 => (hpt h0).elim) fun _ => ?_
  refine .bind (.read (fun t ht => by rw [mul_div_page, ht.tables ⟨_, _, hf, by simp⟩]) ?_)
  rw [mul_div_page, (childOf_some hc).1]
  refine .ite (fun _ => .bind (.change (fun t ht => ?_) (.pure ?_))) fun h0 => (h0 rfl).elim
  · rw [mul_div_page]
    obtain ⟨_, hF⟩ := h.cut hf (vaTable_length va) hr (idxPt va)
    exact ht.setWord fun g ⟨r', q, hn, hq⟩ => ⟨r', q, (hF.node_cases h.distinct hn).1, hq⟩
  · rw [mul_div_page]
    obtain ⟨h', hF⟩ := h.cut hf (vaTable_length va) hr (idxPt va)
    exact ⟨h', rfl, rfl, fun _ => hF.unplaced h.distinct hmapped⟩

/-- **Unmapping and giving back** a user page, if there is one. -/
theorem unmapFree_spec (h : Layout s) (hs : s.space r = some space) (hr : r ≠ 0) (hva : UserVa va) :
    Lockstep Twin (unmapFree r va) s fun _ s' =>
      Layout s' ∧ s'.space = s.space ∧ s'.cr3 = s.cr3 := by
  refine .bind (.read (fun t ht => ht.vmmQuery h r va) ?_)
  cases hq : s.vmmQuery r va with
  | none => exact .pure ⟨h, rfl, rfl⟩
  | some q =>
    obtain ⟨pa, fl⟩ := q
    obtain ⟨halign, f, hf, rfl⟩ := vmmQuery_node h hs hq
    rw [hva.home] at hf
    refine .bind ((vmmUnmap_spec h hs hr hva hf).mono fun _ s1 ⟨h₁, hs1, hc1, hun⟩ => ?_)
    refine .bind ((pmmFreePage_spec h₁ (hun halign)).mono fun _ s2 ⟨h₂, m, hs2, _⟩ => .pure ?_)
    subst hs2
    exact ⟨h₂, hs1, hc1⟩

end Unmap

end Exyde.Mem
