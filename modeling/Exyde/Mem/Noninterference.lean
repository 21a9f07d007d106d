import Exyde.Mem.System

/-! # What fresh user memory shows of its earlier owners

Two runs from states that differ only in the contents of free pages take the same
course; the bytes of the new pages agree in the two exactly if the operation writes all
of them. -/

namespace Exyde.Mem

open Function Option State
open Exyde.Lib (Prog Lockstep System Reach Reachable)
open Pmm (pageDown)

variable {s s' t : State} {sp : Nat} {space : Space}

/-! ## Producers of user pages -/

/-- An operation that gives pages to the user space. -/
inductive Producer
  | sysMap (sp : Nat) (nextMapVa hint npages flags : BitVec 64)
  /-- `map_user_stack` and then `exec_build_initial_stack` -/
  | stack (cur sp : Nat) (argv envp : List CString)
  | elfLoad (cur sp : Nat) (data : List Byte)

namespace Producer

def target : Producer → Nat
  | .sysMap sp _ _ _ _ => sp
  | .stack _ sp _ _ => sp
  | .elfLoad _ sp _ => sp

def run : Producer → MM (Option Nat)
  | .sysMap sp nextMapVa hint npages flags => do
    match (← Mem.sysMap sp nextMapVa.toNat hint.toNat npages.toNat flags).1 with
    | .ok base => pure (some base)
    | .error _ => pure none
  | .stack cur sp argv envp => do
    if ← mapUserStack sp userStackTopInit execStackPages then
      let rsp ← execBuildInitialStack cur sp userStackTopInit argv envp
      pure (if rsp = 0 then none else some rsp)
    else pure none
  | .elfLoad cur sp data => do
    let image ← Mem.elfLoad cur sp data
    pure (image.map ElfImage.entry)

/-- When the operation can be called. -/
def Enabled (s : State) : Producer → Prop
  | .sysMap sp _ _ _ _ => s.UserSpace sp
  | .stack cur sp _ _ => s.Target cur sp
  | .elfLoad cur sp _ => s.Target cur sp

def phdrs (data : List Byte) : List Phdr := ((elfHeader data).map Prod.snd).getD []

/-- The operation writes every byte of the pages it maps. -/
def Covers : Producer → Prop
  | .sysMap _ _ _ _ _ => False
  | .stack _ _ argv envp => StackWhole argv envp
  | .elfLoad _ _ data => ∀ ph ∈ phdrs data, ph.Loadable → ph.Whole

def pages : Producer → Nat → Nat → Prop
  | .sysMap _ _ _ npages _, base => MapPages base npages.toNat
  | .stack _ _ _ _, _ => StackPages
  | .elfLoad _ _ data, _ => elfPages (phdrs data) fun _ => False

def image : Producer → Image
  | .sysMap _ _ _ _ _ => fun _ => none
  | .stack _ _ argv envp => stackImage userStackTopInit argv envp fun _ => none
  | .elfLoad _ _ data => elfBytes data (phdrs data) fun _ => none

theorem run_spec (op : Producer) (h : Layout s) (hen : op.Enabled s) :
    Lockstep Twin op.run s fun out s' => Layout s' ∧ ∀ v, out = some v →
      Filled s op.target (op.pages v) op.image s' ∧
        (Covered (op.pages v) op.image ↔ op.Covers) := by
  cases op with
  | sysMap sp nextMapVa hint npages flags =>
    obtain ⟨space, hs⟩ := State.UserSpace.space hen
    refine .bind ((sysMap_spec h hs hen.1 hint.isLt flags).mono fun out s' ⟨h', hout⟩ => ?_)
    obtain ⟨res, next⟩ := out
    cases res with
    | error e => exact .pure ⟨h', fun _ hno => by cases hno⟩
    | ok base =>
      obtain ⟨hpos, huser, hF⟩ := hout base rfl
      refine .pure ⟨h', fun v hv => ?_⟩
      cases hv
      -- the first byte is not written
      exact ⟨hF, fun hc => hc base huser ⟨Nat.le_refl _, by omega⟩ rfl, False.elim⟩
  | stack cur sp argv envp =>
    obtain ⟨space, hs, hcur⟩ := State.Target.space hen
    refine .bind ((mapUserStack_spec h hs hen.1.1).mono fun ok s1 ⟨h1, hsp, hcr3, hok⟩ =>
      .ite (fun hk => ?_) fun _ => .pure ⟨h1, fun _ hno => by cases hno⟩)
    refine .bind ((execBuildInitialStack_spec argv envp h1 (hsp ▸ hs) hen.1.1
      (fun hc => hcr3.trans (hcur hc)) (hok hk) (by decide)).mono fun rsp s2 ⟨h2, hrsp⟩ =>
        .pure ⟨h2, fun v hv => ?_⟩)
    obtain ⟨hfit, hF⟩ := hrsp (by intro h0; rw [if_pos h0] at hv; cases hv)
    exact ⟨hF, covered_stack hfit⟩
  | elfLoad cur sp data =>
    obtain ⟨space, hs, hcur⟩ := State.Target.space hen
    refine .bind ((Mem.elfLoad_spec h hs hen.1.1 hcur data).mono fun out s' ⟨h', hout⟩ =>
      .pure ⟨h', fun v hv => ?_⟩)
    obtain ⟨entry, phs, hhead, hF, hcov⟩ := hout (by intro h0; rw [h0] at hv; cases hv)
    have hphs : phdrs data = phs := by rw [phdrs, hhead]; rfl
    simp only [pages, image, Covers, hphs]
    exact ⟨hF, hcov⟩

end Producer

/-! ## Bytes of user memory -/

def State.userByte (s : State) (sp va : Nat) : Option Byte :=
  (s.vmmQuery sp (pageDown va)).map fun q => s.byte (q.1 / 4096) (va % 4096)

theorem pageDown_div (va : Nat) : pageDown va / 4096 = va / 4096 :=
  Nat.mul_div_cancel _ (by decide)

theorem Layout.userByte_eq (h : Layout s) (hs : s.space sp = some space) {va : Nat}
    (hva : UserVa va) :
    s.userByte sp va = (s.node sp (vaPath va)).map fun g => s.byte g (va % 4096) := by
  have hpath : vaPath (pageDown va) = vaPath va := vaPath_congr (pageDown_div va)
  cases hq : s.vmmQuery sp (pageDown va) with
  | some q =>
    obtain ⟨pa, fl⟩ := q
    obtain ⟨_, f, hf, rfl⟩ := vmmQuery_node h hs hq
    rw [hva.pageDown.home, hpath] at hf
    rw [userByte, hq, hf, map_some, map_some, mul_div_page]
  | none =>
    cases hf : s.node sp (vaPath va) with
    | none => rw [userByte, hq]; rfl
    | some f =>
      -- the last table of the walk has an entry for the page
      rw [← hpath, vaPath_eq] at hf
      obtain ⟨g, hg, hc⟩ := node_cons_some hf
      have hwalk := walkLeaf_eq h.rooted hs (pageDown va)
      rw [hva.pageDown.home, hg] at hwalk
      have hpt : s.walkLeaf sp (pageDown va) = g * 4096 := hwalk
      have hg0 : g * 4096 ≠ 0 := by have := h.nonzero hg; omega
      have halign : ¬ pageDown va % 4096 ≠ 0 := by
        unfold pageDown
        omega
      simp only [vmmQuery, leafEntry, if_neg halign, hpt, if_neg hg0, mul_div_page,
        (childOf_some hc).1] at hq
      cases hq

/-! ## Two runs -/

/-- The states agree on everything except the contents of free pages. -/
structure AgreeOffFree (s t : State) : Prop where
  pmm : t.pmm = s.pmm
  space : t.space = s.space
  nextSpace : t.nextSpace = s.nextSpace
  heapEnd : t.heapEnd = s.heapEnd
  cr3 : t.cr3 = s.cr3
  mem : ∀ f, ¬ s.pmm.Free f → t.mem f = s.mem f

theorem AgreeOffFree.twin (h : AgreeOffFree s t) (hs : Layout s) : Twin s t :=
  ⟨h.pmm, h.space, h.nextSpace, h.heapEnd, h.cr3, fun ⟨_, _, hp, _⟩ => h.mem _ (hs.held hp)⟩

theorem AgreeOffFree.enabled (h : AgreeOffFree s t) {op : Producer} (hen : op.Enabled s) :
    op.Enabled t := by
  cases op <;>
    simpa only [Producer.Enabled, State.Target, State.UserSpace, pml4Of, h.space, h.cr3]
      using hen

section

variable (op : Producer)

/-- Every byte of every page that the operation maps is the same in the two runs. -/
def Producer.SameBytes (s t : State) : Prop :=
  ∀ va, UserVa va → s.userByte op.target va = none →
    (op.run t).2.userByte op.target va = (op.run s).2.userByte op.target va

/-- The operation shows nothing of what free pages held: from any state that
agrees with `s` off the free pages it succeeds with the same bytes. -/
def Producer.Noninterfering (s : State) : Prop :=
  ∀ t, AgreeOffFree s t → (op.run t).1 ≠ none → op.SameBytes s t

theorem Producer.run_both (h : Layout s) (hen : op.Enabled s)
    (hag : AgreeOffFree s t) {v : Nat} (hv : (op.run s).1 = some v) :
    (op.run t).1 = some v ∧ Layout (op.run t).2 ∧
      Filled t op.target (op.pages v) op.image (op.run t).2 ∧
      ∀ r p, (op.run t).2.node r p = (op.run s).2.node r p := by
  have htwin := hag.twin h
  have hboth := (op.run_spec h hen).2 t htwin
  have hv' : (op.run t).1 = some v := hboth.1.trans hv
  have hspec := (op.run_spec (htwin.layout h) (hag.enabled hen)).post
  exact ⟨hv', hspec.1, (hspec.2 v hv').1, hboth.2.node⟩

theorem Producer.Enabled.live {op : Producer} (hen : op.Enabled s) :
    ∃ space, s.space op.target = some space := by
  cases op with
  | sysMap sp => exact State.UserSpace.space hen
  | stack cur sp | elfLoad cur sp => exact hen.1.space

theorem Filled.live {N : Nat → Prop} {img : Image} (hF : Filled s sp N img s')
    (hs : s.space sp = some space) : ∃ space', s'.space sp = some space' := by
  have hroot := hF.keeps (node_root hs)
  obtain ⟨space', hs', _⟩ := map_eq_some_iff.mp hroot
  exact ⟨space', hs'⟩

theorem Filled.userByte {N : Nat → Prop} {img : Image} (hF : Filled s sp N img s') (h' : Layout s')
    (hs : s.space sp = some space) {va g : Nat} (hva : UserVa va) (hN : N va)
    (hg : s'.node sp (vaPath va) = some g) :
    s'.userByte sp va = some ((img va).getD (s.byte g (va % 4096))) := by
  obtain ⟨space', hs'⟩ := hF.live hs
  rw [h'.userByte_eq hs' hva, hg, map_some, (hF.byte hva hN hg).2]

theorem Producer.sameBytes_of_covered (h : Layout s) (hen : op.Enabled s)
    (hag : AgreeOffFree s t) {v : Nat} (hv : (op.run s).1 = some v)
    (hcov : Covered (op.pages v) op.image) : op.SameBytes s t := by
  intro va hva hnew
  obtain ⟨space, hs⟩ := hen.live
  obtain ⟨_, h', hF', hnode⟩ := op.run_both h hen hag hv
  obtain ⟨_, h1, hF1, _⟩ := op.run_both h hen (t := s) ⟨rfl, rfl, rfl, rfl, rfl, fun _ _ => rfl⟩ hv
  have hs' : t.space op.target = some space := hag.space ▸ hs
  rw [h.userByte_eq hs hva, map_eq_none_iff] at hnew
  cases hg : (op.run s).2.node op.target (vaPath va) with
  | none =>
    obtain ⟨sp1, hsp1⟩ := hF1.live hs
    obtain ⟨sp', hsp'⟩ := hF'.live hs'
    rw [h'.userByte_eq hsp' hva, h1.userByte_eq hsp1 hva, hnode, hg]
    rfl
  | some g =>
    have hN : op.pages v va := (hF1.new hva).mpr ⟨hnew, by rw [hg]; simp⟩
    rw [hF'.userByte h' hs' hva hN ((hnode _ _).trans hg), hF1.userByte h1 hs hva hN hg]
    cases himg : op.image va with
    | none => exact absurd himg (hcov va hva hN)
    | some b => rfl

/-- An operation that leaves a byte unwritten shows what the page held there:
another byte in that page of the free memory is another byte in the new page. -/
theorem Producer.differs_of_uncovered (h : Layout s) (hen : op.Enabled s) {v va : Nat}
    (hv : (op.run s).1 = some v) (hva : UserVa va) (hN : op.pages v va) (himg : op.image va = none) :
    ∃ t, AgreeOffFree s t ∧ (op.run t).1 ≠ none ∧ ¬ op.SameBytes s t := by
  obtain ⟨space, hs⟩ := hen.live
  obtain ⟨_, h1, hF1, _⟩ := op.run_both h hen (t := s) ⟨rfl, rfl, rfl, rfl, rfl, fun _ _ => rfl⟩ hv
  obtain ⟨hvac, hmapped⟩ := (hF1.new hva).mp hN
  obtain ⟨g, hg⟩ := ne_none_iff_exists'.mp hmapped
  have hfree := (hF1.byte hva hN hg).1
  have hlt : va % 4096 < 4096 := Nat.mod_lt _ (by decide)
  -- the same state with one bit of the page flipped
  let t := s.setByte g (va % 4096) (s.byte g (va % 4096) ^^^ 1#8)
  have hag : AgreeOffFree s t := by
    refine ⟨rfl, rfl, rfl, rfl, rfl, fun f hf => setByte_mem_of_ne s (fun hfg => hf ?_) _ _⟩
    exact hfg ▸ hfree
  obtain ⟨hv', h', hF', hnode⟩ := op.run_both h hen hag hv
  refine ⟨t, hag, by rw [hv']; simp, fun hsame => ?_⟩
  have hnew : s.userByte op.target va = none := by
    rw [h.userByte_eq hs hva, hvac]
    rfl
  have hbyte := hsame va hva hnew
  rw [hF'.userByte h' (hag.space ▸ hs) hva hN ((hnode _ _).trans hg), hF1.userByte h1 hs hva hN hg,
    himg, getD_none, getD_none, byte_setByte s g g hlt hlt,
    if_pos ⟨rfl, rfl⟩] at hbyte
  have hflip : ∀ b : Byte, b ^^^ 1#8 ≠ b := by decide
  exact hflip _ (Option.some.inj hbyte)

/-- **Fresh user memory.** A producer of user pages that succeeds shows nothing
of what the free pages held exactly if it writes all it maps: never for
`sys_map`, for a stack that the strings and the frame fill, for an image whose
loadable segments start and end on page boundaries. -/
theorem noninterfering_iff_covers (h : Reachable memSys s) (hen : op.Enabled s)
    (hok : (op.run s).1 ≠ none) : op.Noninterfering s ↔ op.Covers := by
  have hl := Layout.reachable h
  obtain ⟨v, hv⟩ := ne_none_iff_exists'.mp hok
  have hcov := ((op.run_spec hl hen).post.2 v hv).2
  constructor
  · intro hni
    refine hcov.mp fun va hva hN himg => ?_
    obtain ⟨t, hag, hrun, hdiff⟩ := op.differs_of_uncovered hl hen hv hva hN himg
    exact hdiff (hni t hag hrun)
  · intro hc t hag _
    exact op.sameBytes_of_covered hl hen hag hv (hcov.mpr hc)

end

/-! ## Runs on a small machine -/

instance (s : State) (op : Producer) : Decidable (op.Enabled s) := by
  cases op <;> unfold Producer.Enabled <;> infer_instance

def Producer.onePage : Producer := .sysMap 1 0#64 (BitVec.ofNat 64 userVaBase) 1#64 2#64

theorem noninterfering_iff_covers_tiny : ∃ s, Reachable memSys s ∧ Producer.onePage.Enabled s ∧
    (Producer.onePage.run s).1 ≠ none ∧
    (Producer.onePage.Noninterfering s ↔ Producer.onePage.Covers) := by
  obtain ⟨s, hs, hen, hok⟩ : ∃ s ∈ BootMap.tiny.run (fun _ _ => 0#64) [.vmmCreate .fits],
      Producer.onePage.Enabled s ∧ (Producer.onePage.run s).1 ≠ none := by decide +kernel
  have hreach := BootMap.run_reachable hs
  exact ⟨s, hreach, hen, hok, noninterfering_iff_covers _ hreach hen hok⟩

structure OffPage (g : Nat) (s t : State) : Prop where
  pmm : t.pmm = s.pmm
  space : t.space = s.space
  nextSpace : t.nextSpace = s.nextSpace
  heapEnd : t.heapEnd = s.heapEnd
  cr3 : t.cr3 = s.cr3
  mem : ∀ f, f ≠ g → t.mem f = s.mem f

theorem OffPage.agree {g : Nat} (h : OffPage g s t) (hg : s.pmm.Free g) : AgreeOffFree s t :=
  ⟨h.pmm, h.space, h.nextSpace, h.heapEnd, h.cr3, fun f hf => h.mem f fun hfg => hf (hfg ▸ hg)⟩

theorem OffPage.set {g c : Nat} (h : OffPage g s t) {w w' : Fin 512 → Word} (hw : w' = w) :
    OffPage g { s with mem := update s.mem c w } { t with mem := update t.mem c w' } :=
  { h with
    mem := fun f hf => by
      change update t.mem c w' f = update s.mem c w f
      by_cases hfc : f = c
      · subst hfc
        rw [update_self, update_self, hw]
      · rw [update_of_ne hfc, update_of_ne hfc, h.mem f hf] }

theorem vmmCreate_offPage {g : Nat} (hg : s.kroot ≠ g) :
    Lockstep (OffPage g) (vmmCreate .fits) s fun _ _ => True := by
  have halloc : Lockstep (OffPage g) pmmAllocPage s fun _ s' => s'.space = s.space :=
    ⟨rfl, fun t ht => ⟨by simp only [pmmAllocPage, ht.pmm],
      { ht with pmm := by simp only [pmmAllocPage, setPmm_pmm, ht.pmm] }⟩⟩
  refine .bind (p := exyMalloc 16 .fits) (.pure (.bind (halloc.mono fun np s1 hsp => ?_)))
  refine .ite (fun _ => .pure trivial) fun _ => .bind (.change (fun t ht => ht.set rfl) ?_)
  have hroot : (s1.setZero (np / 4096)).pml4Of vmmKernelSpace / 4096 ≠ g := by
    rw [pml4Of, setZero_space, hsp]
    exact hg
  refine .bind (.read (fun t ht => ?_) (.bind (.change (fun t ht => ht.set (ht.mem _ hroot)) ?_)))
  · simp only [pml4Of, ht.space]
  refine .bind (.read (fun t ht => ht.nextSpace) (.bind (.change (fun t ht => ?_) (.pure trivial))))
  exact { ht with
    space := by simp only [addSpace, ht.space, ht.nextSpace]
    nextSpace := by simp only [addSpace, ht.nextSpace] }

/-- Page 5 is the first free one after a space was made. It holds `b` everywhere. -/
def pageFive (b : Byte) (f : Nat) (_ : Fin 512) : Word :=
  if f = 5 then BitVec.ofNat 64 (b.toNat * 0x0101010101010101) else 0#64

/-- **`sys_map` shows what a free page held.** Two states of the machine, which
agree on everything except the contents of a free page; the new page of the
process reads as 0 in one, as `0x5A` in the other. -/
theorem sysMap_shows_old_bytes : ∃ s t, Reachable memSys s ∧ Reachable memSys t ∧
    AgreeOffFree s t ∧ Producer.onePage.Enabled s ∧
    (Producer.onePage.run s).1 ≠ none ∧ (Producer.onePage.run t).1 ≠ none ∧
    s.userByte 1 userVaBase = none ∧
    (Producer.onePage.run s).2.userByte 1 userVaBase = some 0#8 ∧
    (Producer.onePage.run t).2.userByte 1 userVaBase = some 0x5A#8 := by
  -- both runs make a space first
  have hruns : ∀ b : Byte, b = 0#8 ∨ b = 0x5A#8 →
      ∃ s ∈ BootMap.tiny.run (pageFive b) [.vmmCreate .fits], s.pmm.Free 5 ∧
        Producer.onePage.Enabled s ∧ (Producer.onePage.run s).1 ≠ none ∧
        s.userByte 1 userVaBase = none ∧
        (Producer.onePage.run s).2.userByte 1 userVaBase = some b := by
    intro b hb
    rcases hb with rfl | rfl <;> decide +kernel
  obtain ⟨s, hs, hfree, hen, hok, hnew, hbyte⟩ := hruns 0#8 (.inl rfl)
  obtain ⟨t, ht, _, _, hok', _, hbyte'⟩ := hruns 0x5A#8 (.inr rfl)
  refine ⟨s, t, BootMap.run_reachable hs, BootMap.run_reachable ht, ?_, hen, hok, hok', hnew, hbyte,
    hbyte'⟩
  -- the two machines differ in page 5 only, and making a space keeps it that way
  obtain ⟨pmm, hpmm, hstep⟩ := bind_eq_some_iff.mp hs
  obtain ⟨pmm', hpmm', hstep'⟩ := bind_eq_some_iff.mp ht
  cases hpmm.symm.trans hpmm'
  cases hstep
  cases hstep'
  have hboot : OffPage 5 (BootMap.tiny.state pmm (pageFive 0#8))
      (BootMap.tiny.state pmm (pageFive 0x5A#8)) :=
    ⟨rfl, rfl, rfl, rfl, rfl, fun f hf => by
      have hsame : pageFive 0x5A#8 f = pageFive 0#8 f := by
        funext i
        simp only [pageFive, if_neg hf]
      simp only [BootMap.state, hsame]⟩
  have hroot : (BootMap.tiny.state pmm (pageFive 0#8)).kroot ≠ 5 := by
    rw [BootMap.kroot_state]
    decide
  exact ((vmmCreate_offPage hroot).twin hboot).agree hfree

/-- A byte that a process stored, in the page of the next owner. -/
example : (BootMap.tiny.run (fun _ _ => 0#64)
    [.vmmCreate .fits, .vmmCreate .fits, .sysMap 2 0#64 (BitVec.ofNat 64 userVaBase) 1#64 2#64,
      .userStore 2 userVaBase 0x5A#8, .sysUnmap 2 (BitVec.ofNat 64 userVaBase) 1#64,
      .sysMap 1 0#64 (BitVec.ofNat 64 userVaBase) 1#64 0#64]).map
    (fun s => s.userByte 1 userVaBase) = some (some 0x5A#8) := by
  decide +kernel

end Exyde.Mem
