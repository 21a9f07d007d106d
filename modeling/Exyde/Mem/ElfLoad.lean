import Exyde.Mem.ElfImage
import Exyde.Mem.Footprint

/-! # When `elf_load` succeeds, and which tables it leaves loaded

Two of the ways to end the loop over the headers lead to the label `done`, where the
tables of the caller are loaded again; a header that is turned down makes the function
return at once. -/

namespace Exyde.Mem

open Function Exyde.Lib List Option
open Pmm (pageUp pageDown)
open Producer (phdrs)

variable {s s' : State} {r cur : Nat} {space curSpace : Space} {data : List Byte} {phs : List Phdr}

theorem Clear.setCr3 (a : Nat) {size : Nat} : Clear (s.setCr3 a) r size phs ↔ Clear s r size phs :=
  ⟨fun h => ⟨h.good, h.vacant, h.apart, h.room⟩, fun h => ⟨h.good, h.vacant, h.apart, h.room⟩⟩

theorem Refuses.setCr3 (a : Nat) {size : Nat} : Refuses (s.setCr3 a) r size phs ↔ Refuses s r size phs := by
  simp only [Refuses, Clear.setCr3]

theorem Ready.reachable (h : Reachable memSys s) (h0 : s.pmm.resvGet 0 = true) : Ready s where
  layout := Layout.reachable h
  zero hfree := by
    have hfit := ((Layout.reachable h).wf.fit hfree).2
    rw [h0] at hfit
    cases hfit

theorem Ready.setCr3 (h : Ready s) (a : Nat) : Ready (s.setCr3 a) := ⟨h.layout.setCr3 a, h.zero⟩

/-- The loader comes to a header that it turns down. -/
def Strays (s : State) (sp : Nat) (data : List Byte) : Prop :=
  Refuses s sp data.length (phdrs data)

/-- The loader comes through all headers, and one of them is a segment to load. -/
def LoadsAll (s : State) (sp : Nat) (data : List Byte) : Prop :=
  Clear s sp data.length (phdrs data) ∧ ∃ ph ∈ phdrs data, ph.Loadable

def SameRoots (s s' : State) : Prop := s'.space = s.space ∧ s'.cr3 = s.cr3

instance sameRootsPreorder : IsPreorder State SameRoots where
  refl _ := ⟨rfl, rfl⟩
  trans _ _ _ h1 h2 := ⟨h2.1.trans h1.1, h2.2.trans h1.2⟩

theorem sameRoots_steps : Steps SameRoots where
  alloc _ := ⟨rfl, rfl⟩
  free _ _ := ⟨rfl, rfl⟩
  word _ _ _ _ := ⟨rfl, rfl⟩
  zero _ _ := ⟨rfl, rfl⟩
  heapEnd _ _ := ⟨rfl, rfl⟩

def State.RunsOn (s : State) (sp : Nat) : Prop := ∃ space, s.space sp = some space ∧ s.cr3 = space.pml4

theorem enter_active (h : Layout s) (hs : s.space r = some space) (hr : r ≠ 0)
    (hcur : cur = r → s.cr3 = space.pml4) :
    Lockstep Eq (switchIf (decide (cur ≠ r)) r) s fun _ s' =>
      Active s' r space ∧ ∃ a, s' = s.setCr3 a := by
  have henter := (enter_spec h hs hr hcur (.refl s r)).both (leave_spec (s := s) (decide (cur ≠ r)) r)
  exact henter.mono fun _ _ ⟨⟨hA, _⟩, ha⟩ => ⟨hA, ha⟩

theorem leave_active (cur : Nat) {s2 : State} (hA : Active s2 r space) (hspace : s2.space = s.space) :
    Lockstep Eq (switchIf (decide (cur ≠ r)) cur) s2 fun _ s' =>
      s'.space = s.space ∧ (s.RunsOn cur → s'.cr3 = s.cr3) := by
  refine .ite (fun hne => ?_) fun hne => .pure ⟨hspace, fun ⟨curSpace, hcur, hcr3⟩ => ?_⟩
  · refine (vmmSwitch_spec cur).alone.mono fun _ s' ⟨a, hs', ha⟩ => ?_
    subst hs'
    refine ⟨hspace, fun ⟨curSpace, hcur, hcr3⟩ => ?_⟩
    rw [hcr3]
    exact ha curSpace (hspace ▸ hcur)
  · have heq : cur = r := by simpa using hne
    subst heq
    have hsame : curSpace = space := Option.some.inj (hcur.symm.trans (hspace ▸ hA.live))
    rw [hA.loaded, hcr3, hsame]

/-- **`elf_load`, exactly**: when it succeeds, and which tables are loaded at its end. -/
theorem elfLoad_ready (h : Ready s) (hs : s.space r = some space) (hr : r ≠ 0)
    (hcur : cur = r → s.cr3 = space.pml4) (data : List Byte) :
    Lockstep Eq (elfLoad cur r data) s fun out s' => s'.space = s.space ∧
      (out ≠ none ↔ LoadsAll s r data) ∧ (Strays s r data → s'.cr3 = space.pml4) ∧
      (¬ Strays s r data → s.RunsOn cur → s'.cr3 = s.cr3) := by
  unfold elfLoad
  cases hhead : elfHeader data with
  | none =>
    have hphs : phdrs data = [] := by rw [phdrs, hhead]; rfl
    have hno : ¬ Strays s r data := by
      rw [Strays, hphs]
      exact Refuses.not_nil
    have hnone : ¬ LoadsAll s r data := by
      rintro ⟨_, ph, hmem, _⟩
      rw [hphs] at hmem
      exact absurd hmem not_mem_nil
    exact .pure ⟨rfl, ⟨fun h0 => absurd rfl h0, fun hall => absurd hall hnone⟩, fun h0 => absurd h0 hno,
      fun _ _ => rfl⟩
  | some head =>
    obtain ⟨entry, phs⟩ := head
    have hphs := phdrs_eq hhead
    refine .bind ((enter_active h.layout hs hr hcur).mono fun _ s1 hentered => ?_)
    obtain ⟨hA, a, hs1⟩ := hentered
    have h₁ : Ready s1 := hs1 ▸ h.setCr3 _
    have hspec := (elfSegments_spec data phs (2 ^ 64 - 1) 0 0 hA (.refl s1 r)).both
      (elfSegments_ready data phs (2 ^ 64 - 1) 0 0 hA h₁)
    have hcount := hspec.both (elfSegments_shown data phs (2 ^ 64 - 1) 0 0 hA (.refl s1 r) (.refl s1 r))
    have hkept : Lockstep Eq (elfSegments r data phs (2 ^ 64 - 1) 0 0) s1 fun _ s' =>
        s'.space = s1.space := .of_post (sameRoots_steps.elfSegments r data phs _ _ _ s1).1
    refine .bind ((hcount.both hkept).mono fun e s2 hended => ?_)
    obtain ⟨⟨⟨⟨hA2, _⟩, hthrough, hrefused⟩, hshown⟩, hsp2⟩ := hended
    rw [hs1, Clear.setCr3, ← hphs] at hthrough
    rw [hs1, Refuses.setCr3, ← hphs] at hrefused
    have hspace2 : s2.space = s.space := hsp2.trans (by rw [hs1]; rfl)
    have hback := leave_active cur hA2 hspace2
    -- an end that is not `through` is one where not all could be loaded
    have hfail : ∀ {o : LoadEnd}, o = e → (∀ lo hi n, o ≠ .through lo hi n) → ¬ LoadsAll s r data := by
      rintro o rfl hnot hall
      obtain ⟨lo, hi, n, h0⟩ := hthrough.mpr hall.1
      exact hnot lo hi n h0
    cases e with
    | refused =>
      have hno := hfail rfl fun _ _ _ h0 => LoadEnd.noConfusion h0
      exact .pure ⟨hspace2, ⟨fun h0 => absurd rfl h0, fun hall => absurd hall hno⟩, fun _ => hA2.loaded,
        fun hst => absurd (hrefused.mp rfl) hst⟩
    | failed =>
      have hno := hfail rfl fun _ _ _ h0 => LoadEnd.noConfusion h0
      have hst : ¬ Strays s r data := fun h0 => LoadEnd.noConfusion (hrefused.mpr h0)
      refine .bind (hback.mono fun _ s3 hleft => .pure ?_)
      exact ⟨hleft.1, ⟨fun h0 => absurd rfl h0, fun hall => absurd hall hno⟩, fun h0 => absurd h0 hst,
        fun _ => hleft.2⟩
    | through lo hi n =>
      have hst : ¬ Strays s r data := fun h0 => LoadEnd.noConfusion (hrefused.mpr h0)
      have hclear := hthrough.mp ⟨lo, hi, n, rfl⟩
      obtain ⟨_, hspans, _⟩ := hshown lo hi n rfl
      have hn : n ≠ 0 ↔ ∃ ph ∈ phdrs data, ph.Loadable := by
        rw [hphs, hspans.loaded, Nat.zero_add, Nat.ne_zero_iff_zero_lt, countP_pos_iff]
        simp
      refine .bind (hback.mono fun _ s3 hleft => .ite (fun h0 => .pure ?_) fun h0 => .pure ?_)
      · exact ⟨hleft.1, ⟨fun h1 => absurd rfl h1, fun hall => absurd h0 (hn.mpr hall.2)⟩,
          fun h1 => absurd h1 hst, fun _ => hleft.2⟩
      · exact ⟨hleft.1, ⟨fun _ => ⟨hclear, hn.mp h0⟩, fun _ h1 => by cases h1⟩,
          fun h1 => absurd h1 hst, fun _ => hleft.2⟩

theorem LoadsAll.not_strays (h : LoadsAll s r data) : ¬ Strays s r data := by
  rintro ⟨pre, ph, post, heq, _, hload, hbad⟩
  exact h.1.good ph (by rw [heq]; simp) hload hbad

theorem Layout.root_inj (h : Layout s) (hs : s.space r = some space) (hcur : s.space cur = some curSpace)
    (heq : space.pml4 = curSpace.pml4) : r = cur := by
  have hroot := State.node_root hs
  rw [heq] at hroot
  exact (h.distinct hroot (State.node_root hcur)).1

/-! ## Processes -/

def processSize : Nat := 1648

/-- `process_create_from_elf`, as far as memory goes: the space and the image of the new
process. The last two answers are for the process record and for the copy of the name. -/
def processCreateFromElf (cur : Nat) (name : CString) (data : List Byte)
    (forSpace forRecord forName : HeapAnswer) : MM (Option (Nat × ElfImage)) := do
  match ← vmmCreate forSpace with
  | none => pure none
  | some sp =>
    match ← elfLoad cur sp data with
    | none =>
      vmmSpaceUnref sp
      pure none
    | some image =>
      if ← exyMalloc processSize forRecord then
        if ← exyMalloc name.bytes.length forName then pure (some (sp, image))
        else
          vmmSpaceUnref sp
          pure none
      else
        vmmSpaceUnref sp
        pure none

def State.RunsOnLive (s : State) : Prop := ∃ sp, s.RunsOn sp

theorem vmmCreate_cr3 (answer : HeapAnswer) (s : State) : (vmmCreate answer s).2.cr3 = s.cr3 := by
  have hspec : Lockstep Eq (vmmCreate answer) s fun _ s' => s'.cr3 = s.cr3 := by
    refine .bind (.of_post (.ite (fun _ => ?_) fun _ => .pure ?_))
    · refine .bind (.of_post (.ite (fun _ => .pure ?_) fun _ => .of_post ?_))
      · exact (sameRoots_steps.exyMalloc 16 answer s).2
      · exact (sameRoots_steps.exyMalloc 16 answer s).2
    · exact (sameRoots_steps.exyMalloc 16 answer s).2
  exact hspec.post

theorem vmmSpaceUnref_only {pml4 : Nat} (hs : s.space r = some ⟨pml4, 1, false⟩) :
    Lockstep Eq (vmmSpaceUnref r) s fun _ s' =>
      s'.space = update s.space r none ∧ s'.cr3 = s.cr3 := by
  refine .bind (.look ?_)
  rw [hs]
  refine .bind (.put ?_)
  refine (destroySpace_pmmOnly _ r).mono fun _ s' ⟨s1, ⟨m, hs1, _⟩, hs'⟩ => ?_
  subst hs' hs1
  exact ⟨update_idem .., rfl⟩

theorem dropNew_runs {sp pml4 : Nat} (hlay : Layout s) (hsp : s.space sp = some ⟨pml4, 1, false⟩)
    (hcur : s.space cur = some curSpace) (hne : cur ≠ sp) (hs' : s'.space = s.space)
    (hcr3 : s'.cr3 = pml4 ∨ s'.cr3 = curSpace.pml4) :
    Lockstep Eq (vmmSpaceUnref sp) s' fun _ s'' =>
      s''.RunsOnLive ↔ s'.cr3 = curSpace.pml4 := by
  refine (vmmSpaceUnref_only (hs'.symm ▸ hsp)).mono fun _ s'' ⟨hspace, hroot⟩ => ?_
  constructor
  · rintro ⟨r, space, hr, heq⟩
    rw [hspace, hs'] at hr
    rw [hroot] at heq
    refine hcr3.resolve_left fun hold => ?_
    by_cases hrs : r = sp
    · rw [hrs, update_self] at hr
      cases hr
    · rw [update_of_ne hrs] at hr
      exact hrs (hlay.root_inj hr hsp (heq.symm.trans hold))
  · intro heq
    refine ⟨cur, curSpace, ?_, hroot.trans heq⟩
    rw [hspace, update_of_ne hne, hs']
    exact hcur

/-- **Creating a process**: the CPU is left on the tables of a destroyed space exactly if
the new space could be made and its loading comes to a header that is turned down. -/
theorem processCreateFromElf_runs (h : Reachable memSys s) (h0 : s.pmm.resvGet 0 = true)
    (hcur : s.space cur = some curSpace) (hcr3 : s.cr3 = curSpace.pml4) (name : CString)
    (data : List Byte) (forSpace forRecord forName : HeapAnswer) :
    Lockstep Eq (processCreateFromElf cur name data forSpace forRecord forName) s fun _ s' =>
      s'.RunsOnLive ↔
        ¬ ∃ sp, (vmmCreate forSpace s).1 = some sp ∧ Strays (vmmCreate forSpace s).2 sp data := by
  have hlay := Layout.reachable h
  have hreach : Reachable memSys (vmmCreate forSpace s).2 :=
    .step (e := .vmmCreate forSpace) h trivial rfl
  have hresv : (vmmCreate forSpace s).2.pmm.resvGet 0 = true := by
    rw [Pmm.resvGet, (vmmCreate_spec hlay forSpace).post.2.1.same.resv]
    exact h0
  have hready := Ready.reachable hreach hresv
  have hcreate := (vmmCreate_spec hlay forSpace).post.2.2
  have hroot := vmmCreate_cr3 forSpace s
  refine .bind (.of_post ?_)
  generalize vmmCreate forSpace s = made at *
  obtain ⟨o, s1⟩ := made
  cases o with
  | none =>
    have hspace : s1.space = s.space := hcreate
    refine .pure ⟨fun _ => by simp, fun _ => ⟨cur, curSpace, hspace ▸ hcur, ?_⟩⟩
    exact hroot.trans hcr3
  | some sp =>
    have hnew : NewSpace s s1 sp := hcreate
    obtain ⟨pml4, hrecord⟩ := hnew.record
    have habsent := hnew.absent
    have hne : cur ≠ sp := by
      rintro rfl
      rw [habsent] at hcur
      cases hcur
    have hsp1 : s1.space sp = some ⟨pml4, 1, false⟩ := by rw [hrecord, update_self]
    have hcur1 : s1.space cur = some curSpace := by rw [hrecord, update_of_ne hne]; exact hcur
    have hcr31 : s1.cr3 = curSpace.pml4 := hroot.trans hcr3
    have hdiff : pml4 ≠ curSpace.pml4 := fun heq => hne (hready.layout.root_inj hcur1 hsp1 heq.symm)
    have hex : (∃ sp', some sp = some sp' ∧ Strays s1 sp' data) ↔ Strays s1 sp data := by simp
    simp only [hex]
    refine .bind ((elfLoad_ready hready hsp1 hnew.ne_zero (fun h0 => absurd h0 hne) data).mono
      fun out s2 hloaded => ?_)
    obtain ⟨hspace2, hall, hstray, hstay⟩ := hloaded
    have hruns : s1.RunsOn cur := ⟨curSpace, hcur1, hcr31⟩
    have hcases : s2.cr3 = pml4 ∨ s2.cr3 = curSpace.pml4 := by
      by_cases hst : Strays s1 sp data
      · exact .inl (hstray hst)
      · exact .inr ((hstay hst hruns).trans hcr31)
    have hwhich : s2.cr3 = curSpace.pml4 ↔ ¬ Strays s1 sp data := by
      refine ⟨fun heq hst => hdiff ((hstray hst).symm.trans heq), fun hst => (hstay hst hruns).trans hcr31⟩
    -- the space is dropped after any steps that leave the roots alone
    have hdrop : ∀ {s3 : State}, SameRoots s2 s3 →
        Lockstep Eq (vmmSpaceUnref sp) s3 fun _ s' => s'.RunsOnLive ↔ ¬ Strays s1 sp data := by
      rintro s3 ⟨hsp3, hcr₃⟩
      refine (dropNew_runs hready.layout hsp1 hcur1 hne (hsp3.trans hspace2) (hcr₃ ▸ hcases)).mono
        fun _ s' hs' => hs'.trans ?_
      rw [hcr₃, hwhich]
    cases out with
    | none => exact .bind ((hdrop (refl_of SameRoots s2)).mono fun _ _ hs' => .pure hs')
    | some image =>
      have hno := (hall.mp (by simp)).not_strays
      refine .bind (.of_post (.ite (fun _ => ?_) fun _ => ?_))
      · have hkept := sameRoots_steps.exyMalloc processSize forRecord s2
        refine .bind (.of_post (.ite (fun _ => .pure ⟨fun _ => hno, fun _ => ?_⟩) fun _ => ?_))
        · have hkept' := trans_of SameRoots hkept
            (sameRoots_steps.exyMalloc name.bytes.length forName (exyMalloc processSize forRecord s2).2)
          refine ⟨cur, curSpace, ?_, hkept'.2.trans (hwhich.mpr hno)⟩
          rw [hkept'.1, hspace2]
          exact hcur1
        · have hkept' := trans_of SameRoots hkept
            (sameRoots_steps.exyMalloc name.bytes.length forName (exyMalloc processSize forRecord s2).2)
          exact .bind ((hdrop hkept').mono fun _ _ hs' => .pure hs')
      · exact .bind ((hdrop (sameRoots_steps.exyMalloc processSize forRecord s2)).mono
          fun _ _ hs' => .pure hs')

/-- **The loaded tables after `elf_load`** are those loaded before exactly if no header is
turned down after the switch; and so `process_create_from_elf` leaves the CPU on the tables
of a live space. -/
theorem loaded_tables_kept_iff (h : Reachable memSys s) (h0 : s.pmm.resvGet 0 = true)
    (hcur : s.RunsOn cur) (data : List Byte) :
    (∀ sp, s.UserSpace sp →
      ((elfLoad cur sp data s).2.cr3 = s.cr3 ↔ ¬ (cur ≠ sp ∧ Strays s sp data))) ∧
    ∀ name forSpace forRecord forName,
      (processCreateFromElf cur name data forSpace forRecord forName s).2.RunsOnLive ↔
        ¬ ∃ sp, (vmmCreate forSpace s).1 = some sp ∧ Strays (vmmCreate forSpace s).2 sp data := by
  obtain ⟨curSpace, hc, hcr3⟩ := hcur
  refine ⟨fun sp hsp => ?_, fun name a1 a2 a3 =>
    (processCreateFromElf_runs h h0 hc hcr3 name data a1 a2 a3).post⟩
  obtain ⟨space, hs⟩ := hsp.space
  have hsame : cur = sp → s.cr3 = space.pml4 := by
    rintro rfl
    rw [hcr3, Option.some.inj (hc.symm.trans hs)]
  obtain ⟨_, _, hstray, hstay⟩ := (elfLoad_ready (.reachable h h0) hs hsp.1 hsame data).post
  constructor
  · rintro hkept ⟨hne, hst⟩
    refine hne ((Layout.reachable h).root_inj hc hs ?_)
    rw [← hcr3, ← hkept, hstray hst]
  · intro hno
    by_cases hst : Strays s sp data
    · have heq : cur = sp := by
        by_contra hne
        exact hno ⟨hne, hst⟩
      rw [hstray hst, hsame heq]
    · exact hstay hst ⟨curSpace, hc, hcr3⟩

/-- A file whose only segment has more bytes in the file than in memory. -/
def longSegment : List Byte := elfFile userVaBase [⟨1, 120, userVaBase, 2, 1⟩] [0xAA#8, 0xBB#8]

def shortName : CString := ⟨[0x61#8], by decide, by decide⟩

theorem longSegment_strays (s : State) (sp : Nat) : Strays s sp longSegment := by
  have hphs : phdrs longSegment = [⟨1, 120, userVaBase, 2, 1⟩] := by decide +kernel
  rw [Strays, hphs]
  exact ⟨[], _, [], rfl, .nil s sp _, by decide, by decide +kernel⟩

/-- From the kernel's own thread, the loader turns the segment down and leaves the root of
the target loaded; `process_create_from_elf` then destroys the space it runs on. -/
theorem elf_load_strays : ∃ s, Reachable memSys s ∧ s.pmm.resvGet 0 = true ∧ s.RunsOn 0 ∧
    s.UserSpace 1 ∧ (elfLoad 0 1 longSegment s).2.cr3 ≠ s.cr3 ∧
    ¬ (processCreateFromElf 0 shortName longSegment .fits .fits .fits s).2.RunsOnLive := by
  obtain ⟨s, hs, h0, ⟨kspace, hk, hcr3⟩, hsp, hmoved, hmade⟩ :
      ∃ s ∈ BootMap.tiny.run (fun _ _ => 0#64) [.vmmCreate .fits], s.pmm.resvGet 0 = true ∧
        (∃ space ∈ s.space 0, s.cr3 = space.pml4) ∧ s.UserSpace 1 ∧
        (elfLoad 0 1 longSegment s).2.cr3 ≠ s.cr3 ∧ (vmmCreate .fits s).1 = some 2 := by
    decide +kernel
  have hreach := BootMap.run_reachable hs
  refine ⟨s, hreach, h0, ⟨kspace, hk, hcr3⟩, hsp, hmoved, fun hlive => ?_⟩
  have hiff := (processCreateFromElf_runs hreach h0 hk hcr3 shortName longSegment
    .fits .fits .fits).post
  exact hiff.mp hlive ⟨2, hmade, longSegment_strays _ 2⟩

theorem loaded_tables_kept_iff_tiny : ∃ s, Reachable memSys s ∧ s.pmm.resvGet 0 = true ∧ s.RunsOn 0 ∧
    s.UserSpace 1 ∧ ((elfLoad 0 1 twoSegments s).2.cr3 = s.cr3 ↔ ¬ (0 ≠ 1 ∧ Strays s 1 twoSegments)) := by
  obtain ⟨s, hs, h0, hruns, hsp⟩ : ∃ s ∈ BootMap.tiny.run (fun _ _ => 0#64) [.vmmCreate .fits],
      s.pmm.resvGet 0 = true ∧ (∃ space ∈ s.space 0, s.cr3 = space.pml4) ∧ s.UserSpace 1 := by
    decide +kernel
  have hreach := BootMap.run_reachable hs
  have hruns : s.RunsOn 0 := hruns
  exact ⟨s, hreach, h0, hruns, hsp, (loaded_tables_kept_iff hreach h0 hruns twoSegments).1 1 hsp⟩

/-! ## Images that are accepted -/

/-- The loadable segments of an executable as they should be: within the file, in the user
range, and no two of them with a byte in common. -/
structure WellFormed (data : List Byte) : Prop where
  header : elfHeader data ≠ none
  loads : ∃ ph ∈ phdrs data, ph.Loadable
  inFile : ∀ ph ∈ phdrs data, ph.Loadable → ph.filesz ≤ ph.memsz ∧ ph.offset + ph.filesz ≤ data.length
  user : ∀ ph ∈ phdrs data, ph.Loadable →
    userVaBase ≤ ph.vaddr ∧ ph.vaddr + ph.memsz ≤ userVaTop
  disjoint : (phdrs data).Pairwise fun ph ph' => ph.Loadable → ph'.Loadable →
    ph.vaddr + ph.memsz ≤ ph'.vaddr ∨ ph'.vaddr + ph'.memsz ≤ ph.vaddr

theorem WellFormed.good (h : WellFormed data) {ph : Phdr} (hmem : ph ∈ phdrs data)
    (hload : ph.Loadable) : ¬ ph.bad data.length := by
  obtain ⟨h1, h2⟩ := h.inFile ph hmem hload
  obtain ⟨h3, h4⟩ := h.user ph hmem hload
  have htop : userVaTop = 0x800000000000 := rfl
  simp only [Phdr.bad, Pmm.pageUp, pageDown]
  omega

def State.EmptySpace (s : State) (sp : Nat) : Prop :=
  ∀ va, UserVa va → s.vmmQuery sp (pageDown va) = none

theorem State.EmptySpace.vacant (h : s.EmptySpace r) (hlay : Layout s) (hs : s.space r = some space)
    {va : Nat} (hva : UserVa va) : s.node r (vaPath va) = none := by
  have hbyte := hlay.userByte_eq hs hva
  rw [State.userByte, h va hva, map_none] at hbyte
  exact map_eq_none_iff.mp hbyte.symm

theorem vmmCreate_empty (h : Layout s) (answer : HeapAnswer) :
    Lockstep Eq (vmmCreate answer) s fun o s' => ∀ sp, o = some sp → s'.EmptySpace sp := by
  have hnone : ∀ {t : State} sp, none = some sp → t.EmptySpace sp := by
    intro t sp h0
    cases h0
  refine .bind ((exyMalloc_spec h _ _).alone.mono fun ok s1 hg => .ite (fun _ => ?_) fun _ => .pure hnone)
  refine .bind ((pmmAllocPage_spec hg.layout).alone.mono fun np s2 ⟨h₂, _, _, _, hnp⟩ => ?_)
  refine .ite (fun _ => .pure hnone) fun hne => .of_post ?_
  obtain ⟨c, rfl, _, hpend⟩ := hnp hne
  change ∀ sp, some s2.nextSpace = some sp → (((s2.setZero (c * 4096 / 4096)).copyPage
    (c * 4096 / 4096) s2.kroot).addSpace (c * 4096)).EmptySpace sp
  rw [mul_div_page]
  intro sp hsp va hva
  cases hsp
  -- nothing hangs from the new root
  have hnode : (s2.plant c).node s2.nextSpace (vaPath va) = none := (h₂.plant_forest hpend).node_below ..
  have hs : (s2.plant c).space s2.nextSpace = some ⟨c * 4096, 1, false⟩ := update_self ..
  have hbyte := (h₂.plant hpend).userByte_eq hs hva
  rw [hnode, map_none, State.userByte] at hbyte
  exact map_eq_none_iff.mp hbyte

/-- There are free pages for the segments and for the tables on the way to them. -/
def State.RoomFor (s : State) (sp : Nat) (data : List Byte) : Prop :=
  price (s.placed sp) (elfPlaces (phdrs data)) ≤ s.free

/-- **Which images `elf_load` accepts**, well-formed ones into an empty space with room
enough: those whose segments share no page. -/
theorem elf_load_accepts_iff (h : Reachable memSys s) (h0 : s.pmm.resvGet 0 = true)
    (ht : s.Target cur r) (hwf : WellFormed data) (hempty : s.EmptySpace r)
    (hroom : s.RoomFor r data) : (elfLoad cur r data s).1 ≠ none ↔ Apart (phdrs data) := by
  obtain ⟨space, hs, hcur⟩ := ht.space
  have hready := Ready.reachable h h0
  have hpost := (elfLoad_ready hready hs ht.1.1 hcur data).post.2.1
  rw [hpost]
  refine ⟨fun hall => hall.1.apart, fun hap => ⟨⟨fun ph => hwf.good, fun ph hmem hl a ha => ?_, hap, hroom⟩,
    hwf.loads⟩⟩
  exact hempty.vacant hready.layout hs ((Phdr.fits (hwf.good hmem hl)).userVa ha)

theorem freshSpace_tiny (data : List Byte) (image : Option ElfImage)
    (hrun : ∃ s ∈ BootMap.tiny.run (fun _ _ => 0#64) [],
      let made := vmmCreate .fits s
      made.1 = some 1 ∧ made.2.pmm.resvGet 0 = true ∧ made.2.Target 0 1 ∧
        price (made.2.placed 1) (elfPlaces (phdrs data)) ≤ made.2.free ∧
        (elfLoad 0 1 data made.2).1 = image) :
    ∃ s, Reachable memSys s ∧ s.pmm.resvGet 0 = true ∧ s.Target 0 1 ∧ s.EmptySpace 1 ∧
      s.RoomFor 1 data ∧ (elfLoad 0 1 data s).1 = image := by
  obtain ⟨s, hs, hmade, h0, ht, hroom, hload⟩ := hrun
  have hreach := BootMap.run_reachable hs
  have hempty := (vmmCreate_empty (Layout.reachable hreach) .fits).post 1 hmade
  exact ⟨_, .step (e := .vmmCreate .fits) hreach trivial rfl, h0, ht, hempty, hroom, hload⟩

theorem WellFormed.of_check {data : List Byte} {phs : List Phdr} {entry : Nat}
    (hhead : elfHeader data = some (entry, phs)) (hsome : ∃ ph ∈ phs, ph.Loadable)
    (hin : ∀ ph ∈ phs, ph.filesz ≤ ph.memsz ∧ ph.offset + ph.filesz ≤ data.length ∧
      userVaBase ≤ ph.vaddr ∧ ph.vaddr + ph.memsz ≤ userVaTop)
    (hdis : phs.Pairwise fun ph ph' =>
      ph.vaddr + ph.memsz ≤ ph'.vaddr ∨ ph'.vaddr + ph'.memsz ≤ ph.vaddr) : WellFormed data := by
  have hphs := phdrs_eq hhead
  refine ⟨by rw [hhead]; simp, hphs ▸ hsome, fun ph hmem _ => ?_, fun ph hmem _ => ?_, ?_⟩
  · exact ⟨(hin ph (hphs ▸ hmem)).1, (hin ph (hphs ▸ hmem)).2.1⟩
  · exact (hin ph (hphs ▸ hmem)).2.2
  · rw [hphs]
    exact hdis.imp fun h _ _ => h

def sharedPage : List Byte :=
  elfFile userVaBase [⟨1, 176, userVaBase, 1, 1⟩, ⟨1, 177, userVaBase + 1, 1, 1⟩] [0xAA#8, 0xBB#8]

/-- The second segment meets the page of the first, and the image is turned down. -/
theorem shared_page_refused : ∃ s, Reachable memSys s ∧ s.pmm.resvGet 0 = true ∧ s.Target 0 1 ∧
    WellFormed sharedPage ∧ s.EmptySpace 1 ∧ s.RoomFor 1 sharedPage ∧
    (elfLoad 0 1 sharedPage s).1 = none := by
  have hwf : WellFormed sharedPage := by
    have hhead : elfHeader sharedPage = some (userVaBase,
        [⟨1, 176, userVaBase, 1, 1⟩, ⟨1, 177, userVaBase + 1, 1, 1⟩]) := by
      decide +kernel
    exact .of_check hhead (by decide) (by decide +kernel) (by decide)
  obtain ⟨s, hreach, h0, ht, hempty, hroom, hload⟩ :=
    freshSpace_tiny sharedPage none (by decide +kernel)
  exact ⟨s, hreach, h0, ht, hwf, hempty, hroom, hload⟩

theorem elf_load_accepts_iff_tiny : ∃ s, Reachable memSys s ∧ WellFormed twoSegments ∧ s.EmptySpace 1 ∧
    s.RoomFor 1 twoSegments ∧ ((elfLoad 0 1 twoSegments s).1 ≠ none ↔ Apart (phdrs twoSegments)) := by
  have hwf : WellFormed twoSegments := by
    have hhead : elfHeader twoSegments = some (userVaBase,
        [⟨1, 176, userVaBase + 0x2FFE, 1, 3⟩, ⟨1, 177, userVaBase + 0x10, 1, 1⟩]) := by
      decide +kernel
    exact .of_check hhead (by decide) (by decide +kernel) (by decide)
  obtain ⟨s, hreach, h0, ht, hempty, hroom, _⟩ := freshSpace_tiny twoSegments
    (some ⟨userVaBase, userVaBase, 0x4000⟩) (by decide +kernel)
  exact ⟨s, hreach, hwf, hempty, hroom, elf_load_accepts_iff hreach h0 ht hwf hempty hroom⟩

end Exyde.Mem
