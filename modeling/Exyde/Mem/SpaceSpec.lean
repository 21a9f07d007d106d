import Exyde.Lib.Tables
import Exyde.Mem.VmmSpec

/-! # Spaces come and go

The kernel heap grows, `vmm_create` plants a new root, and the last `vmm_space_unref`
takes a whole tree away. Each keeps the layout. -/

namespace Exyde.Mem

open Function State
open Exyde.Lib (Forest Prog Lockstep update_none_cases update_eq_none)

variable {s s0 : State} {r : Nat} {space : Space}

/-- New places are for pages that were free, and no page has become free. -/
structure Draws (s s' : State) : Prop where
  fresh : ∀ {r p g}, s'.node r p = some g → s.node r p = some g ∨ s.pmm.Free g
  free : ∀ {g}, s'.pmm.Free g → s.pmm.Free g
  same : s.pmm.Same s'.pmm

theorem Builds.draws {s s' : State} (h : Builds s s') : Draws s s' := ⟨h.fresh, h.free, h.same⟩

/-! ## Kernel heap -/

theorem growPage_spec (h : Layout s) (base i : Nat) :
    Lockstep Twin (growPage base i) s fun _ s' => Layout s' ∧ Builds s s' := by
  refine .ite (fun _ => .pure ⟨h, .refl s⟩) fun hlt => ?_
  obtain ⟨space, hs⟩ := h.kernel
  have hmax : kernelHeapMax ≤ userVaBase := by decide
  have hva : base + i * 4096 < userVaBase := Nat.lt_of_lt_of_le (by omega) hmax
  exact (mapFresh_spec h hs (.kernel hva) _).mono fun ok s' ⟨h', hb, _⟩ => ⟨h', hb⟩

structure HeapGrown (s s' : State) : Prop where
  layout : Layout s'
  space : s'.space = s.space
  nextSpace : s'.nextSpace = s.nextSpace
  draws : Draws s s'

theorem HeapGrown.refl (h : Layout s) : HeapGrown s s := ⟨h, rfl, rfl, (Builds.refl s).draws⟩

theorem heapGrow_spec (h : Layout s) (need : Nat) :
    Lockstep Twin (heapGrow need) s fun _ s' => HeapGrown s s' := by
  have hloop := fun base n => Lockstep.upFrom (E := Twin) (f := growPage base)
    (J := fun _ s' => Layout s' ∧ Builds s s') (K := fun _ s' => Layout s' ∧ Builds s s') n 0
    (fun i s' _ _ ⟨h', hb'⟩ => (growPage_spec h' base i).mono fun ok s'' ⟨h'', hb''⟩ => by
      cases ok <;> exact ⟨h'', hb'.trans hb''⟩) (s := s) ⟨h, .refl s⟩
  refine .bind (.read (fun t ht => ht.heapEnd) (.bind ((hloop _ _).mono fun m s' hm => ?_)))
  obtain ⟨h', hb⟩ : Layout s' ∧ Builds s s' := hm.elim (·.2) (·.2.2)
  refine .ite (fun _ => .pure ⟨h', hb.space, hb.nextSpace, hb.draws⟩) fun _ => ?_
  refine .bind (.change (fun t ht => ?_) (.pure ⟨?_, hb.space, hb.nextSpace, hb.fresh, hb.free, hb.same⟩))
  · exact ⟨ht.pmm, ht.space, ht.nextSpace, rfl, ht.cr3, ht.tables⟩
  · exact { h' with }

theorem exyMalloc_spec (h : Layout s) (size : Nat) (answer : HeapAnswer) :
    Lockstep Twin (exyMalloc size answer) s fun _ s' => HeapGrown s s' := by
  refine .ite (fun _ => .pure (.refl h)) fun _ => ?_
  cases answer with
  | fits => exact .pure (.refl h)
  | grows fitsThen =>
    refine .bind ((heapGrow_spec h _).mono fun ok s' hs' => .ite (fun _ => ?_) fun _ => ?_)
    · exact .pure hs'
    · exact .pure hs'

/-! ## A new space -/

def State.plant (s : State) (c : Nat) : State :=
  ((s.setZero c).copyPage c s.kroot).addSpace (c * 4096)

theorem plant_mem_self (s : State) (c : Nat) : (s.plant c).mem c = (s.setZero c).mem s.kroot :=
  update_self ..

theorem plant_mem_of_ne (s : State) {c g : Nat} (hg : g ≠ c) : (s.plant c).mem g = s.mem g := by
  change update (update s.mem c _) c _ g = s.mem g
  rw [update_of_ne hg, update_of_ne hg]

theorem plant_space_cases {c : Nat} (hs : (s.plant c).space r = some space) :
    (r ≠ s.nextSpace ∧ s.space r = some space) ∨
      (r = s.nextSpace ∧ space = ⟨c * 4096, 1, false⟩) := by
  by_cases hr : r = s.nextSpace
  · subst hr
    exact .inr ⟨rfl, Option.some.inj (hs.symm.trans (update_self ..))⟩
  · exact .inl ⟨hr, (update_of_ne hr .. : (s.plant c).space r = s.space r) ▸ hs⟩

theorem nextSpace_ne_zero (hkernel : ∃ space, s.space 0 = some space)
    (hnum : ∀ {r}, s.nextSpace ≤ r → s.space r = none) : s.nextSpace ≠ 0 := by
  intro h0
  obtain ⟨space, hs⟩ := hkernel
  rw [hnum (Nat.le_of_eq h0)] at hs
  cases hs

section Plant

variable {d c : Nat}

/-- The new root is a copy of the kernel's, so it has nothing under it that is the space's own. -/
theorem Housed.plant_forest (h : Housed d s) (hc : (s.forestTo d).Unplaced c) :
    (s.plant c).mem c = s.mem s.kroot ∧
      Forest.Plant (s.forestTo d) ((s.plant c).forestTo d) s.nextSpace c := by
  have hkc : s.kroot ≠ c := fun hk => hc 0 [] (hk ▸ h.rooted.kroot_node)
  have hself : (s.plant c).mem c = s.mem s.kroot := by
    rw [plant_mem_self, setZero_mem, update_of_ne hkc]
  refine ⟨hself, ?_⟩
  exact
    { absent := by
        change (s.space s.nextSpace).map _ = none
        rw [h.numbered (Nat.le_refl _), Option.map_none]
      planted := (node_root (update_self ..)).trans (congrArg some (mul_div_page c))
      others := fun r' hr => by
        change (update s.space s.nextSpace _ r').map _ = (s.space r').map _
        rw [update_of_ne hr]
      unplaced := hc
      bare := fun j => by
        rw [forestTo_child, hself]
        split
        · by_cases hj : j = 0
          · subst hj
            exact if_neg fun hcond =>
              hcond.2.2.2 rfl (nextSpace_ne_zero h.kernel h.numbered) rfl
          · exact childOf_absent (h.kernelTop hj)
        · rfl
      rest := fun r' q g j hg => by
        rw [forestTo_child, forestTo_child, plant_mem_of_ne s hg] }

theorem Housed.plant (h : Housed d s) (hc : (s.forestTo d).Unplaced c) (hused : ¬ s.pmm.Free c)
    (hc0 : c ≠ 0) : Housed d (s.plant c) := by
  have hkc : s.kroot ≠ c := fun hk => hc 0 [] (hk ▸ h.rooted.kroot_node)
  obtain ⟨hself, hF⟩ := h.plant_forest hc
  have hn0 := nextSpace_ne_zero h.kernel h.numbered
  have hspace : ∀ {r}, r ≠ s.nextSpace → (s.plant c).space r = s.space r :=
    fun hr => update_of_ne hr ..
  have hkroot : (s.plant c).kroot = s.kroot := by
    simp only [kroot, pml4Of, vmmKernelSpace, hspace (Ne.symm hn0)]
  have hk : (s.plant c).mem s.kroot = s.mem s.kroot := plant_mem_of_ne s hkc
  refine
    { rooted := ⟨?_, ?_, fun hi => by rw [hkroot, hk]; exact h.kernelTop hi⟩
      entered := by rw [hkroot, hk]; exact h.entered
      distinct := hF.distinct h.distinct
      held := ?_, nonzero := ?_, total := h.total, aligned := ?_, kind := ?_, numbered := ?_ }
  · obtain ⟨space, hs⟩ := h.rooted.kernel
    exact ⟨space, by rw [hspace (Ne.symm hn0)]; exact hs⟩
  · intro r f hn
    rw [hkroot, hk]
    rcases hF.node_cases (q := []) hn with hn | ⟨_, _, rfl⟩
    · rw [plant_mem_of_ne s fun hfc => hc _ _ (hfc ▸ hn)]
      exact h.rooted.shared hn
    · rw [hself]
  · intro r p f hn
    rcases hF.node_cases hn with hn | ⟨_, _, rfl⟩
    · exact h.held hn
    · exact hused
  · intro r p f hn
    rcases hF.node_cases hn with hn | ⟨_, _, rfl⟩
    · exact h.nonzero hn
    · exact hc0
  · intro r space hs
    rcases plant_space_cases hs with ⟨_, hs⟩ | ⟨_, rfl⟩
    · exact h.aligned hs
    · simp only [mul_div_page]
  · intro r space hs
    rcases plant_space_cases hs with ⟨_, hs⟩ | ⟨rfl, rfl⟩
    · exact h.kind hs
    · simp [hn0]
  · intro r hr
    have hr : s.nextSpace + 1 ≤ r := hr
    rw [hspace (by omega)]
    exact h.numbered (by omega)

theorem Layout.plant_forest (h : Layout s) (hc : Pending s c) :
    Forest.Plant s.forest (s.plant c).forest s.nextSpace c :=
  (h.toHoused.plant_forest hc.unplaced).2

theorem Layout.plant (h : Layout s) (hc : Pending s c) : Layout (s.plant c) := by
  have hF := h.plant_forest hc
  have hn0 := nextSpace_ne_zero h.kernel h.numbered
  have hold : ∀ {r p f}, s.node r p = some f → (s.plant c).mem f = s.mem f :=
    fun hn => plant_mem_of_ne s fun hfc => hc.unplaced _ _ (hfc ▸ hn)
  refine ⟨h.toHoused.plant hc.unplaced hc.used hc.nonzero, h.wf, fun hr hn => ?_, ?_, ?_⟩
  · rcases hF.node_cases hn with hn | ⟨_, _, rfl⟩
    · exact h.drawn hr hn
    · exact hc.fit
  · obtain ⟨pd, hpd, hmem⟩ := h.identity
    exact ⟨pd, (hF.node_of_ne (Ne.symm hn0) _).trans hpd, hold hpd ▸ hmem⟩
  · intro r p f i hr hn hp hi hpres
    rcases hF.node_cases hn with hn | ⟨rfl, rfl, rfl⟩
    · rw [hold hn] at hpres ⊢
      exact h.noHuge hr hn hp hi hpres
    · rw [(h.toHoused.plant_forest hc.unplaced).1, h.kernelTop fun hi0 => hr ((hi rfl).mpr hi0)] at hpres
      cases hpres

end Plant

structure NewSpace (s s' : State) (sp : Nat) : Prop where
  ne_zero : sp ≠ 0
  absent : s.space sp = none
  record : ∃ pml4, s'.space = update s.space sp (some ⟨pml4, 1, false⟩)

theorem vmmCreate_spec (h : Layout s) (answer : HeapAnswer) :
    Lockstep Eq (vmmCreate answer) s fun o s' => Layout s' ∧ Draws s s' ∧
      match o with
      | none => s'.space = s.space
      | some sp => NewSpace s s' sp := by
  refine .bind ((exyMalloc_spec h _ _).alone.mono fun ok s1 hg => .ite (fun _ => ?_) fun _ => ?_)
  · refine .bind ((pmmAllocPage_spec hg.layout).alone.mono fun np s2 ⟨h2, hb, _, _, hnp⟩ => ?_)
    have hsp : s2.space = s.space := hb.space.trans hg.space
    have hdraws : Draws s s2 :=
      { fresh := fun hn => (hb.fresh hn).elim hg.draws.fresh fun hf => .inr (hg.draws.free hf)
        free := fun hf => hg.draws.free (hb.free hf)
        same := hg.draws.same.trans hb.same }
    refine .ite (fun _ => .pure ⟨h2, hdraws, hsp⟩) fun hne => ?_
    obtain ⟨c, rfl, hfree, hpend⟩ := hnp hne
    refine .of_post ?_
    change Layout (((s2.setZero (c * 4096 / 4096)).copyPage (c * 4096 / 4096) s2.kroot).addSpace
        (c * 4096)) ∧ Draws s (((s2.setZero (c * 4096 / 4096)).copyPage (c * 4096 / 4096)
        s2.kroot).addSpace (c * 4096)) ∧ NewSpace s _ s2.nextSpace
    rw [mul_div_page]
    refine ⟨h2.plant hpend, ⟨fun hn => ?_, hdraws.free, hdraws.same⟩, ?_⟩
    · rcases (h2.plant_forest hpend).node_cases hn with hn | ⟨_, _, rfl⟩
      · exact hdraws.fresh hn
      · exact .inr (hg.draws.free hfree)
    · refine ⟨nextSpace_ne_zero h2.kernel h2.numbered, ?_, c * 4096, ?_⟩
      · rw [← hsp]
        exact h2.numbered (Nat.le_refl _)
      · rw [← hsp]
        rfl
  · exact .pure ⟨hg.layout, hg.draws, hg.space⟩

/-! ## Teardown -/

/-- `s` is `s0` with some pages of the space `r` given back. -/
structure Freed (r : Nat) (s0 s : State) : Prop where
  mem : s.mem = s0.mem
  space : s.space = s0.space
  nextSpace : s.nextSpace = s0.nextSpace
  pmm : s.pmm.Wf ∧ s0.pmm.Same s.pmm
  free : ∀ {g}, s.pmm.Free g → s0.pmm.Free g ∨ ∃ p, s0.node r p = some g

theorem Housed.fell {d : Nat} (h : Housed d s0) (hr : r ≠ 0) (hmem : s.mem = s0.mem)
    (hsp : s.space = s0.space) (hnext : s.nextSpace = s0.nextSpace)
    (htotal : s.pmm.totalPages = s0.pmm.totalPages) :
    Forest.Fell (s0.forestTo d) ((s.setSpace r none).forestTo d) r ∧
      ((∀ r' p f, ((s.setSpace r none).forestTo d).node r' p = some f → ¬ s.pmm.Free f) →
        Housed d (s.setSpace r none)) := by
  have hF : Forest.Fell (s0.forestTo d) ((s.setSpace r none).forestTo d) r :=
    { felled := by
        change (update s.space r none r).map _ = none
        rw [update_self, Option.map_none]
      others := fun r' hne => by
        change (update s.space r none r').map _ = (s0.space r').map _
        rw [update_of_ne hne, hsp]
      child := by
        change (fun r p f i => if p.length < d then childOf r p i (s.mem f i) else none) = _
        rw [hmem]
        rfl }
  have hspace : ∀ {r' space}, (s.setSpace r none).space r' = some space →
      s0.space r' = some space := by
    intro r' space h'
    rw [← hsp]
    exact (update_none_cases h').2
  have hzero : (s.setSpace r none).space 0 = s0.space 0 := by
    change update s.space r none 0 = _
    rw [update_of_ne (Ne.symm hr), hsp]
  have hkroot : (s.setSpace r none).kroot = s0.kroot := by
    simp only [kroot, pml4Of, vmmKernelSpace, hzero]
  have hmem : (s.setSpace r none).mem = s0.mem := hmem
  refine ⟨hF, fun hheld => ?_⟩
  exact
    { rooted :=
        { kernel := by rw [hzero]; exact h.rooted.kernel
          shared := fun hn => by
            rw [hkroot, hmem]
            exact h.rooted.shared (hF.node_cases (q := []) hn).2
          kernelTop := fun hi => by rw [hkroot, hmem]; exact h.kernelTop hi }
      entered := by rw [hkroot, hmem]; exact h.entered
      distinct := hF.distinct h.distinct
      held := fun hn => hheld _ _ _ hn
      nonzero := fun hn => h.nonzero (hF.node_cases hn).2
      total := Nat.le_trans (Nat.le_of_eq htotal) h.total
      aligned := fun h' => h.aligned (hspace h')
      kind := fun h' => h.kind (hspace h')
      numbered := fun {r'} hr' => by
        have hnone := h.numbered (hnext ▸ hr')
        rw [← hsp] at hnone
        exact update_eq_none hnone fun _ => rfl }

theorem Freed.freePage (h : Freed r s0 s) {p : Path} {f : Nat} (hf : s0.node r p = some f) :
    Freed r s0 (pmmFreePage (f * 4096) s).2 := by
  change Freed r s0 (s.setPmm (s.pmm.pmmFreePages (f * 4096) 1).2)
  have hkeep := h.pmm.1.give (f * 4096)
  rcases s.pmm.pmmFreePages_one (f * 4096) with hm | ⟨m, hm, hgive⟩
  · rw [hm]
    exact { h with }
  · rw [hm] at hkeep ⊢
    rw [mul_div_page] at hgive
    refine { h with pmm := ⟨hkeep.1, h.pmm.2.trans hkeep.2⟩, free := fun hg => ?_ }
    rcases hgive.rest _ hg with hg | rfl
    · exact h.free hg
    · exact .inr ⟨p, hf⟩

/-- The pages of a space, in the order in which `destroy_space` comes to them. -/
def State.spacePages (s : State) (sp : Nat) : List Nat :=
  s.forest.walk (List.finRange 512) sp 4 [] (s.pml4Of sp / 4096)

def freeList : List Nat → MM Unit :=
  Prog.forEach fun f => do
    let _ ← pmmFreePage (f * 4096)
    pure ()

section Teardown

open List

variable {p : Path} {f n : Nat}

theorem freeList_kept (l : List Nat) :
    (freeList l s).2.mem = s.mem ∧ (freeList l s).2.space = s.space := by
  induction l generalizing s with
  | nil => exact ⟨rfl, rfl⟩
  | cons f l ih => exact ih (s := (pmmFreePage (f * 4096) s).2)

theorem Freed.freeList {l : List Nat} (hs : Freed r s0 s) (hl : ∀ f ∈ l, ∃ p, s0.node r p = some f) :
    Freed r s0 (freeList l s).2 := by
  induction l generalizing s with
  | nil => exact hs
  | cons f l ih =>
    obtain ⟨p, hf⟩ := hl f mem_cons_self
    exact ih (hs.freePage hf) fun g hg => hl g (mem_cons_of_mem _ hg)

theorem forEach_freeList {body : Fin 512 → MM Unit} {pages : Fin 512 → List Nat}
    (idxs : List (Fin 512))
    (hbody : ∀ i ∈ idxs, ∀ s : State, s.mem = s0.mem → body i s = freeList (pages i) s)
    (hs : s.mem = s0.mem) : Prog.forEach body idxs s = freeList (idxs.flatMap pages) s := by
  induction idxs generalizing s with
  | nil => rfl
  | cons i idxs ih =>
    rw [flatMap_cons, freeList, Prog.forEach_append]
    change Prog.forEach body idxs (body i s).2 = _
    rw [hbody i mem_cons_self s hs]
    exact ih (fun j hj => hbody j (mem_cons_of_mem _ hj)) ((freeList_kept _).1.trans hs)

theorem freeLast_eq {below : MM Unit} {l : List Nat} (hbelow : below s = freeList l s) :
    (do below; let _ ← pmmFreePage (f * 4096); pure () : MM Unit) s = freeList (l ++ [f]) s := by
  rw [freeList, Prog.forEach_append]
  change (do let _ ← pmmFreePage (f * 4096); pure () : MM Unit) (below s).2 = _
  rw [hbelow]
  rfl

theorem node_length {g : Nat} (h : s.node r p = some g) : p.length ≤ 4 := by
  cases p with
  | nil => exact Nat.zero_le 4
  | cons i p =>
    obtain ⟨f, _, hc⟩ := node_cons_some h
    exact (childOf_some hc).2.1

theorem spacePages_root (hs : s.space r = some space) : s.node r [] = some (s.pml4Of r / 4096) := by
  rw [node_root hs, pml4Of, hs]
  rfl

theorem mem_spacePages (hs : s.space r = some space) {g : Nat} :
    g ∈ s.spacePages r ↔ ∃ p, s.node r p = some g := by
  have hroot := spacePages_root hs
  constructor
  · intro hg
    obtain ⟨p, _, hn⟩ := Forest.walk_below hroot hg
    exact ⟨p, hn⟩
  · intro ⟨p, hn⟩
    exact Forest.mem_walk mem_finRange hroot nil_suffix
      (Nat.le_trans (node_length hn) (by simp)) hn

variable (h₀ : Layout s0) (hr : r ≠ 0)
include h₀ hr

theorem freeEntry_eq (hf : s0.node r p = some f) (hp : p.length < 4)
    {i : Fin 512} (hi : Opens r p i) {below : Nat → MM Unit} {whenHuge : Word → MM Unit}
    (hbelow : ∀ g, s0.node r (i :: p) = some g → ∀ s : State, s.mem = s0.mem →
      below (g * 4096) s = freeList (s0.forest.walk (List.finRange 512) r n (i :: p) g) s)
    (hs : s.mem = s0.mem) :
    (do
      let e ← load (f * 4096) i
      if !present e then pure () else if huge e then whenHuge e else below (pteAddr e) : MM Unit) s =
      freeList (((s0.forest.child r p f i).map
        (s0.forest.walk (List.finRange 512) r n (i :: p))).getD []) s := by
  rw [load, Prog.read_bind, mul_div_page, hs, forest_child]
  cases hpres : present (s0.mem f i) with
  | false =>
    rw [childOf_absent hpres]
    rfl
  | true =>
    have hhuge := h₀.noHuge hr hf hp hi hpres
    have hchild := childOf_open (r := r) hp hi hpres fun _ => hhuge
    rw [hchild, hhuge, ← pteAddr_aligned]
    refine (hbelow _ ?_ s hs).trans ?_
    · rw [node_cons_of hf, hchild]
    · rw [mul_div_page]
      rfl

/-- A table below the root is freed after what its entries lead to. -/
theorem freeTable_eq (below : Nat → MM Unit) (whenHuge : Word → MM Unit) (hf : s0.node r p = some f)
    (hp : p.length + n = 3) (hn : n < 3)
    (hbelow : ∀ i g, s0.node r (i :: p) = some g → ∀ s : State, s.mem = s0.mem →
      below (g * 4096) s = freeList (s0.forest.walk (List.finRange 512) r n (i :: p) g) s)
    (hs : s.mem = s0.mem) :
    (do
      Prog.forEach (fun i => do
        let e ← load (f * 4096) i
        if !present e then pure () else if huge e then whenHuge e else below (pteAddr e)) (List.finRange 512)
      let _ ← pmmFreePage (f * 4096)
      pure () : MM Unit) s = freeList (s0.forest.walk (List.finRange 512) r (n + 1) p f) s := by
  have hopen : ∀ i, Opens r p i := fun i h0 => by rw [h0, length_nil] at hp; omega
  refine freeLast_eq (forEach_freeList _ (fun i _ s hs => ?_) hs)
  exact freeEntry_eq h₀ hr hf (by omega) (hopen i) (hbelow i) hs

theorem freePt_eq (hf : s0.node r p = some f) (hp : p.length = 3) (hs : s.mem = s0.mem) :
    freePt (f * 4096) s = freeList (s0.forest.walk (List.finRange 512) r 1 p f) s :=
  freeTable_eq h₀ hr (fun a => do let _ ← pmmFreePage a; pure ()) (fun _ => pure ()) hf hp (by decide)
    (fun _ _ _ _ _ => rfl) hs

theorem freePd_eq (hf : s0.node r p = some f) (hp : p.length = 2) (hs : s.mem = s0.mem) :
    freePd (f * 4096) s = freeList (s0.forest.walk (List.finRange 512) r 2 p f) s :=
  freeTable_eq h₀ hr _ _ hf (by rw [hp]) (by decide)
    (fun _ _ hg _ hs => freePt_eq h₀ hr hg (by rw [length_cons, hp]) hs) hs

theorem freePdpt_eq (hf : s0.node r p = some f) (hp : p.length = 1) (hs : s.mem = s0.mem) :
    freePdpt (f * 4096) s = freeList (s0.forest.walk (List.finRange 512) r 3 p f) s :=
  freeTable_eq h₀ hr _ _ hf (by rw [hp]) (by decide)
    (fun _ _ hg _ hs => freePd_eq h₀ hr hg (by rw [length_cons, hp]) hs) hs

omit h₀ hr in
/-- Without its first entry the loop over the root is the whole walk. -/
theorem flatMap_finRange {g : Fin 512 → List Nat} (h : g 0 = []) :
    (List.finRange 512).flatMap g = ((List.finRange 511).map Fin.succ).flatMap g := by
  rw [finRange_succ, flatMap_cons, h, nil_append]

/-- **The teardown** frees the pages of the space, one after another, and drops its record. -/
theorem destroySpace_eq (hs : s0.space r = some space) : Lockstep Eq (destroySpace r) s0 fun _ s' =>
      s' = (freeList (s0.spacePages r) s0).2.setSpace r none := by
  have hroot := node_root hs
  have hpml4 : s0.pml4Of r = space.pml4 / 4096 * 4096 := by
    rw [pml4Of, hs, h₀.aligned hs]
    rfl
  have hopen : ∀ i ∈ (List.finRange 511).map Fin.succ, Opens r [] i := by
    intro i hi _
    obtain ⟨j, _, rfl⟩ := mem_map.mp hi
    simp [hr, Fin.succ_ne_zero]
  -- entry 0 of the root leads to no place of the space
  have hzero : s0.forest.child r [] (space.pml4 / 4096) 0 = none :=
    if_neg fun hcond => hcond.2.2.2 rfl hr rfl
  have hentries : freeEntries (space.pml4 / 4096 * 4096) ((List.finRange 511).map Fin.succ) freePdpt
      s0 = freeList (((List.finRange 511).map Fin.succ).flatMap fun i =>
        ((s0.forest.child r [] (space.pml4 / 4096) i).map
          (s0.forest.walk (List.finRange 512) r 3 [i])).getD []) s0 :=
    forEach_freeList _ (fun i hi _ hs' => freeEntry_eq h₀ hr hroot (by decide) (hopen i hi)
      (fun _ hg _ hs'' => freePdpt_eq h₀ hr hg rfl hs'') hs') rfl
  rw [← flatMap_finRange (by rw [hzero]; rfl)] at hentries
  refine .bind (.look ?_)
  have hall := freeLast_eq (f := space.pml4 / 4096) hentries
  refine .bind (.of_post (.bind (.of_post (.put ?_))))
  rw [spacePages, hpml4, mul_div_page, Forest.walk, ← hall]
  rfl

theorem Freed.fell (hs : Freed r s0 s) : Layout (s.setSpace r none) := by
  obtain ⟨hF, hhoused⟩ := h₀.toHoused.fell hr hs.mem hs.space hs.nextSpace hs.pmm.2.total
  have hmem : (s.setSpace r none).mem = s0.mem := hs.mem
  refine ⟨hhoused fun r' p f hn hfree => ?_, hs.pmm.1, ?_, ?_, ?_⟩
  · rcases hs.free hfree with hfree | ⟨q, hq⟩
    · exact h₀.held (hF.node_cases hn).2 hfree
    · exact hF.unplaced h₀.distinct hq _ _ hn
  · intro r' p f hr' hn
    exact hs.pmm.2.fit (h₀.drawn hr' (hF.node_cases hn).2)
  · obtain ⟨pd, hpd, hpres⟩ := h₀.identity
    rw [hmem]
    exact ⟨pd, (hF.node_of_ne (Ne.symm hr) _).trans hpd, hpres⟩
  · intro r' p f i hr' hn
    rw [hmem]
    exact h₀.noHuge hr' (hF.node_cases hn).2

theorem destroySpace_spec (hs : s0.space r = some space) :
    Lockstep Eq (destroySpace r) s0 fun _ s' => Layout s' := by
  have hnone : Freed r s0 s0 := ⟨rfl, rfl, rfl, ⟨h₀.wf, rfl, rfl⟩, .inl⟩
  refine (destroySpace_eq h₀ hr hs).mono fun _ s' hs' => ?_
  rw [hs']
  exact (hnone.freeList fun f => (mem_spacePages hs).mp).fell h₀ hr

end Teardown

/-! ## References -/

theorem Layout.setRefcount (h : Layout s) (hs : s.space r = some space) (n : Nat) :
    Layout (s.setSpace r (some { space with refcount := n })) := by
  refine h.transfer rfl rfl (fun r' => ?_) fun _ => rfl
  change (update s.space r _ r').map _ = _
  by_cases hr : r' = r
  · subst hr
    rw [update_self, hs]
    rfl
  · rw [update_of_ne hr]

theorem vmmSpaceRef_spec (h : Layout s) (r : Nat) :
    Lockstep Eq (vmmSpaceRef r) s fun _ s' => Layout s' := by
  refine .bind (.look ?_)
  cases hs : s.space r with
  | none => exact .pure h
  | some space =>
    refine .ite (fun _ => .pure h) fun _ => ?_
    exact .put (h.setRefcount hs _)

theorem vmmSpaceUnref_spec (h : Layout s) (r : Nat) :
    Lockstep Eq (vmmSpaceUnref r) s fun _ s' => Layout s' := by
  refine .bind (.look ?_)
  cases hs : s.space r with
  | none => exact .pure h
  | some space =>
    refine .ite (fun _ => .pure h) fun hk => .ite (fun _ => .pure h) fun _ => ?_
    have hr : r ≠ 0 := fun hr => hk ((h.kind hs).mpr hr)
    have h' := h.setRefcount hs (space.refcount - 1)
    refine .bind (.put (.ite (fun _ => ?_) fun _ => .pure h'))
    exact destroySpace_spec h' hr (update_self ..)

end Exyde.Mem
