import Exyde.Mem.Teardown

/-! # References to spaces, over whole runs

Spaces are made, pages mapped and unmapped in them, references taken and dropped, in any
order. As long as the count does not wrap, the last reference gives back the pages of
the space, and no other does. -/

namespace Exyde.Mem

open Function
open Exyde.Lib (Forest Prog Lockstep System Reach)

/-! ## Runs -/

/-- The memory, with the number of references to each space that have been taken
and not dropped. -/
structure SpaceState where
  mem : State
  refs : Nat → Nat

inductive SpaceEvent
  | vmmCreate (answer : HeapAnswer)
  | mapFresh (sp va : Nat) (flags : BitVec 32)
  | unmapFree (sp va : Nat)
  | spaceRef (sp : Nat)
  | spaceUnref (sp : Nat)
  deriving DecidableEq, Repr

/-- Operations on a space are for those who have a reference to it. -/
def SpaceState.step (st : SpaceState) : SpaceEvent → Option SpaceState
  | .vmmCreate answer =>
    some
      { mem := (Mem.vmmCreate answer st.mem).2
        refs :=
          match (Mem.vmmCreate answer st.mem).1 with
          | none => st.refs
          | some sp => update st.refs sp 1 }
  | .mapFresh sp va flags =>
    if 0 < st.refs sp ∧ UserVa va then
      some { st with mem := (Mem.mapFresh sp va flags st.mem).2 }
    else none
  | .unmapFree sp va =>
    if 0 < st.refs sp ∧ UserVa va then some { st with mem := (Mem.unmapFree sp va st.mem).2 }
    else none
  | .spaceRef sp =>
    if 0 < st.refs sp then
      some ⟨(vmmSpaceRef sp st.mem).2, update st.refs sp (st.refs sp + 1)⟩
    else none
  | .spaceUnref sp =>
    if 0 < st.refs sp then
      some ⟨(vmmSpaceUnref sp st.mem).2, update st.refs sp (st.refs sp - 1)⟩
    else none

def spaceSys : System SpaceState SpaceEvent where
  start st := Booted st.mem ∧ st.refs = fun _ => 0
  step := SpaceState.step

def SpaceEvent.CountFits (st : SpaceState) : SpaceEvent → Prop
  | .spaceRef sp => st.refs sp + 1 < 2 ^ 32
  | _ => True

/-- Every space has its references counted, and those that are gone have none. -/
structure Counted (st : SpaceState) : Prop where
  layout : Layout st.mem
  kernel : st.refs 0 = 0
  live : ∀ {sp space}, sp ≠ 0 → st.mem.space sp = some space →
    space.refcount = st.refs sp ∧ 0 < st.refs sp
  gone : ∀ {sp}, st.mem.space sp = none → st.refs sp = 0

section Runs

variable {st st' : SpaceState} {sp : Nat} {e : SpaceEvent}

theorem Counted.space (h : Counted st) (hsp : 0 < st.refs sp) :
    sp ≠ 0 ∧ ∃ space, st.mem.space sp = some space ∧ space.isKernel = false ∧
      space.refcount = st.refs sp := by
  have hne : sp ≠ 0 := by
    rintro rfl
    rw [h.kernel] at hsp
    exact absurd hsp (Nat.lt_irrefl 0)
  cases hs : st.mem.space sp with
  | none => rw [h.gone hs] at hsp; exact absurd hsp (Nat.lt_irrefl 0)
  | some space =>
    exact ⟨hne, space, rfl, by simpa [hne] using h.layout.kind hs, (h.live hne hs).1⟩

theorem Counted.update (h : Counted st) {s' : State} {n : Nat} {o : Option Space}
    (hlayout : Layout s') (hsp : sp ≠ 0) (hspace : s'.space = update st.mem.space sp o)
    (hsome : ∀ space, o = some space → space.refcount = n ∧ 0 < n) (hnone : o = none → n = 0) :
    Counted ⟨s', update st.refs sp n⟩ where
  layout := hlayout
  kernel := (update_of_ne hsp.symm ..).trans h.kernel
  live {sp' space} hne hs := by
    dsimp only at hs ⊢
    rw [hspace] at hs
    by_cases heq : sp' = sp
    · subst heq
      rw [update_self] at hs ⊢
      exact hsome space hs
    · rw [update_of_ne heq] at hs ⊢
      exact h.live hne hs
  gone {sp'} hs := by
    dsimp only at hs ⊢
    rw [hspace] at hs
    by_cases heq : sp' = sp
    · subst heq
      rw [update_self] at hs ⊢
      exact hnone hs
    · rw [update_of_ne heq] at hs ⊢
      exact h.gone hs

theorem Counted.same (h : Counted st) {s' : State} (hlayout : Layout s')
    (hspace : s'.space = st.mem.space) : Counted ⟨s', st.refs⟩ where
  layout := hlayout
  kernel := h.kernel
  live hne hs := h.live hne (hspace ▸ hs)
  gone hs := h.gone (hspace ▸ hs)

theorem Counted.step (h : Counted st) (hok : e.CountFits st) (hstep : st.step e = some st') :
    Counted st' := by
  have hl := h.layout
  cases e with
  | vmmCreate answer =>
    simp only [SpaceState.step, Option.some.injEq] at hstep
    subst hstep
    obtain ⟨hl', _, hcase⟩ := (vmmCreate_spec hl answer).post
    cases ho : (Mem.vmmCreate answer st.mem).1 with
    | none =>
      rw [ho] at hcase
      exact h.same hl' hcase
    | some sp =>
      rw [ho] at hcase
      obtain ⟨pml4, hspace⟩ := hcase.record
      refine h.update hl' hcase.ne_zero hspace ?_ (fun hno => (nomatch hno))
      rintro _ ⟨⟩
      exact ⟨rfl, by decide⟩
  | mapFresh sp va flags =>
    obtain ⟨hen, hx⟩ := Option.ite_none_right_eq_some.mp hstep
    cases hx
    obtain ⟨hne, space, hs, _⟩ := h.space hen.1
    obtain ⟨hl', hb, _⟩ := (mapFresh_spec hl hs (.user hne hen.2.2) flags).post
    exact h.same hl' hb.space
  | unmapFree sp va =>
    obtain ⟨hen, hx⟩ := Option.ite_none_right_eq_some.mp hstep
    cases hx
    obtain ⟨hne, space, hs, _⟩ := h.space hen.1
    obtain ⟨hl', hsp, _⟩ := (unmapFree_spec hl hs hne hen.2).post
    exact h.same hl' hsp
  | spaceRef sp =>
    obtain ⟨hen, hx⟩ := Option.ite_none_right_eq_some.mp hstep
    cases hx
    obtain ⟨hne, space, hs, hk, hcount⟩ := h.space hen
    have hfits : st.refs sp + 1 < 2 ^ 32 := hok
    rw [vmmSpaceRef_eq hs hk]
    refine h.update (hl.setRefcount hs _) hne rfl ?_ (fun hno => (nomatch hno))
    rintro _ ⟨⟩
    exact ⟨by simp only [hcount]; exact Nat.mod_eq_of_lt hfits, by omega⟩
  | spaceUnref sp =>
    obtain ⟨hen, hx⟩ := Option.ite_none_right_eq_some.mp hstep
    cases hx
    obtain ⟨hne, space, hs, hk, hcount⟩ := h.space hen
    by_cases hlast : st.refs sp = 1
    · obtain ⟨hspace, _⟩ := vmmSpaceUnref_last hl hne hs (hcount.trans hlast)
      refine h.update (vmmSpaceUnref_spec hl sp).post hne hspace (fun _ hno => (nomatch hno)) fun _ => ?_
      rw [hlast]
    · rw [vmmSpaceUnref_more hs hk (by omega)]
      refine h.update (hl.setRefcount hs _) hne rfl ?_ (fun hno => (nomatch hno))
      rintro _ ⟨⟩
      exact ⟨by simp only [hcount], by omega⟩

theorem Counted.reached (h : Reach spaceSys SpaceEvent.CountFits st) : Counted st := by
  refine h.invariant (fun st hst => ?_) fun _ _ _ hs hok hstep => hs.step hok hstep
  obtain ⟨hboot, hrefs⟩ := hst
  refine ⟨hboot.layout, by rw [hrefs], fun hne hs => ?_, fun _ => by rw [hrefs]⟩
  obtain ⟨b, pmm, mem, _, hmem⟩ := hboot
  rw [hmem, BootMap.space_other hne] at hs
  cases hs

theorem vaPath_vaAt (i j k l : Fin 512) : vaPath (vaAt i j k l) = [i, j, k, l] := by
  simp only [vaPath, vaAt, idxPt, idxPd, idxPdpt, idxPml4, Nat.shiftRight_eq_div_pow,
    List.cons.injEq, and_true, Fin.ext_iff, Fin.val_ofNat]
  omega

theorem plays_leaf {s : State} (h : Layout s) {space : Space} (hs : s.space sp = some space)
    (hne : sp ≠ 0) {i j k l : Fin 512} {f : Nat} (hn : s.node sp [i, j, k, l] = some f) :
    s.Plays f (.leaf sp (vaAt i j k l)) := by
  obtain ⟨pt, hpt, hc⟩ := State.node_cons_some hn
  -- entry 0 of the root is the kernel's
  have hl : l ≠ 0 := by
    obtain ⟨pdpt, hpdpt⟩ := Forest.node_of_suffix (p := [l]) ⟨[j, k], rfl⟩ hpt
    obtain ⟨root, _, hroot⟩ := State.node_cons_some hpdpt
    unfold childOf at hroot
    split at hroot
    next hcond => exact hcond.2.2.2 rfl hne
    · cases hroot
  have hpath := vaPath_vaAt i j k l
  simp only [vaPath, List.cons.injEq, and_true] at hpath
  obtain ⟨hi, hj, hk, hl'⟩ := hpath
  have hhome : home sp (vaAt i j k l) = sp := if_neg (by rw [hl']; exact hl)
  have hword : s.wordAt sp (vaAt i j k l) = s.mem pt i := by
    rw [State.wordAt, vaTable, hi, hj, hk, hl']
    exact word_of ((table_eq_node s sp (p := [j, k, l]) (Nat.le_refl 3)).trans hpt) i
  refine ⟨⟨?_, ?_⟩, pteToFlags (s.mem pt i), ?_⟩
  · simp only [userVaBase, vaAt]
    omega
  · simp only [vaAt]
    omega
  · obtain ⟨hpres, _, _, haddr⟩ := childOf_some hc
    rw [h.tabled.vmmQuery_eq hs, if_neg (by simp only [vaAt]; omega), hhome, hword, entryView,
      if_pos hpres, haddr]

theorem placed_iff {s : State} (h : Layout s) {space : Space} (hs : s.space sp = some space)
    (hne : sp ≠ 0) (f : Nat) : (∃ p, s.node sp p = some f) ↔
      s.Plays f (.pml4 sp) ∨ (∃ place, s.Plays f (.table sp place)) ∨
        ∃ va, s.Plays f (.leaf sp va) := by
  constructor
  · intro ⟨p, hp⟩
    by_cases h0 : p = []
    · subst h0
      refine .inl ⟨space, hs, ?_⟩
      rw [← h.aligned hs, Option.some.inj ((State.node_root hs).symm.trans hp)]
    · by_cases hlen : p.length < 4
      · exact .inr (.inl ⟨p, h0, hlen, hp⟩)
      · match p, hp, Nat.le_antisymm (node_length hp) (Nat.le_of_not_lt hlen) with
        | [i, j, k, l], hp, _ => exact .inr (.inr ⟨_, plays_leaf h hs hne hp⟩)
  · intro hplays
    rcases hplays with ⟨space', hs', hpml4⟩ | ⟨place, _, _, hp⟩ | ⟨va, hva, flags, hq⟩
    · exact ⟨[], by rw [State.node_root hs', hpml4, mul_div_page]⟩
    · exact ⟨place, hp⟩
    · obtain ⟨_, hp⟩ := h.query_place hq
      rw [hva.home] at hp
      exact ⟨_, hp⟩

/-- **The end of a space.** Whatever was mapped and unmapped in it, while there
are other references nothing is freed. The last one gives back the root, the
tables below its entries 1 to 511 and the pages still mapped, each with one call
that is accepted, and nothing of the kernel's. -/
theorem last_reference_frees_space (h : Reach spaceSys SpaceEvent.CountFits st)
    (hsp : 0 < st.refs sp) :
    (1 < st.refs sp → (vmmSpaceUnref sp st.mem).2.pmm = st.mem.pmm) ∧
    (st.refs sp = 1 → ∃ pages : List Nat, pages.Nodup ∧
      (∀ f, f ∈ pages ↔ st.mem.Plays f (.pml4 sp) ∨ (∃ place, st.mem.Plays f (.table sp place)) ∨
        ∃ va, st.mem.Plays f (.leaf sp va)) ∧
      Pmm.Accepts st.mem.pmm pages (vmmSpaceUnref sp st.mem).2.pmm ∧
      (∀ f, (vmmSpaceUnref sp st.mem).2.pmm.Free f ↔ st.mem.pmm.Free f ∨ f ∈ pages) ∧
      ∀ f ∈ pages, ∀ p, st.mem.node vmmKernelSpace p ≠ some f) := by
  have hc := Counted.reached h
  have hl := hc.layout
  obtain ⟨hne, space, hs, hk, hcount⟩ := hc.space hsp
  refine ⟨fun hmore => ?_, fun hlast => ?_⟩
  · rw [vmmSpaceUnref_more hs hk (by omega)]
    rfl
  · obtain ⟨_, hacc, hfree⟩ := vmmSpaceUnref_last hl hne hs (hcount.trans hlast)
    refine ⟨_, nodup_spacePages hl hs, fun f => ?_, hacc, hfree, fun f hf p hp => ?_⟩
    · rw [mem_spacePages hs]
      exact placed_iff hl hs hne f
    · obtain ⟨q, hq⟩ := (mem_spacePages hs).mp hf
      exact hne (hl.distinct hq hp).1

instance (st : SpaceState) (e : SpaceEvent) : Decidable (e.CountFits st) :=
  match e with
  | .spaceRef _ => inferInstanceAs (Decidable (_ < _))
  | .vmmCreate _ | .mapFresh _ _ _ | .unmapFree _ _ | .spaceUnref _ =>
    inferInstanceAs (Decidable True)

theorem last_reference_frees_space_tiny : ∃ st pages, Reach spaceSys SpaceEvent.CountFits st ∧
    st.refs 1 = 1 ∧ st.mem.Plays 5 (.leaf 1 userVaBase) ∧ 5 ∈ pages ∧
    Pmm.Accepts st.mem.pmm pages (vmmSpaceUnref 1 st.mem).2.pmm := by
  obtain ⟨pmm, hpmm, st, hst, hrefs, hquery⟩ : ∃ pmm ∈ Pmm.pmmInit BootMap.tiny.regions,
      ∃ st ∈ spaceSys.runOk (fun st e => e.CountFits st)
        ⟨BootMap.tiny.state pmm fun _ _ => 0#64, fun _ => 0⟩
        [.vmmCreate .fits, .mapFresh 1 userVaBase 7#32, .spaceRef 1, .spaceUnref 1],
        st.refs 1 = 1 ∧ st.mem.vmmQuery 1 userVaBase = some (5 * 4096, 7#32) := by decide +kernel
  have hreach := Reach.runOk hst (.start ⟨⟨_, _, _, hpmm, rfl⟩, rfl⟩)
  have hleaf : st.mem.Plays 5 (.leaf 1 userVaBase) := ⟨by decide, _, hquery⟩
  obtain ⟨pages, _, hmem, hacc, _⟩ :=
    (last_reference_frees_space hreach (by omega : 0 < st.refs 1)).2 hrefs
  exact ⟨st, pages, hreach, hrefs, hleaf, (hmem 5).mpr (.inr (.inr ⟨_, hleaf⟩)), hacc⟩

/-! ## A count of 32 bits -/

section Wrap

variable {space : Space}

theorem setSpace_self (s : State) (o : Option Space) : (s.setSpace sp o).space sp = o :=
  update_self ..

theorem setSpace_setSpace (s : State) (o o' : Option Space) :
    (s.setSpace sp o).setSpace sp o' = s.setSpace sp o' := by
  simp only [State.setSpace, update_idem]

/-- Taking references counts them modulo `2 ^ 32`. -/
theorem reach_refs (sp : Nat) (h : Reach spaceSys (fun _ _ => True) st) (hsp : 0 < st.refs sp)
    (hs : st.mem.space sp = some space) (hk : space.isKernel = false) (n : Nat) :
    ∃ st', Reach spaceSys (fun _ _ => True) st' ∧ st'.refs sp = st.refs sp + (n + 1) ∧
      st'.mem = st.mem.setSpace sp
        (some { space with refcount := (space.refcount + (n + 1)) % 2 ^ 32 }) := by
  have hone : ∀ {st : SpaceState} {space : Space}, Reach spaceSys (fun _ _ => True) st →
      0 < st.refs sp → st.mem.space sp = some space → space.isKernel = false →
      ∃ st', Reach spaceSys (fun _ _ => True) st' ∧ st'.refs sp = st.refs sp + 1 ∧
        st'.mem = st.mem.setSpace sp
          (some { space with refcount := (space.refcount + 1) % 2 ^ 32 }) := by
    intro st space h hsp hs hk
    refine ⟨_, .step h trivial (e := .spaceRef sp) (if_pos hsp), update_self .., ?_⟩
    exact vmmSpaceRef_eq hs hk
  induction n with
  | zero => exact hone h hsp hs hk
  | succ n ih =>
    obtain ⟨st1, h1, hrefs1, hmem1⟩ := ih
    have hs1 : st1.mem.space sp =
        some { space with refcount := (space.refcount + (n + 1)) % 2 ^ 32 } := by
      rw [hmem1, setSpace_self]
    obtain ⟨st2, h2, hrefs2, hmem2⟩ := hone h1 (by omega) hs1 hk
    refine ⟨st2, h2, by omega, ?_⟩
    rw [hmem2, hmem1, setSpace_setSpace, Nat.mod_add_mod]
    rfl

/-- Once the count is 0, dropping references does nothing. -/
theorem reach_unrefs (h : Reach spaceSys (fun _ _ => True) st) (hs : st.mem.space sp = some space)
    (hk : space.isKernel = false) (hzero : space.refcount = 0) (n : Nat)
    (hrefs : st.refs sp = n + 1) :
    ∃ st', Reach spaceSys (fun _ _ => True) st' ∧ st'.refs sp = 1 ∧ st'.mem = st.mem := by
  induction n generalizing st with
  | zero => exact ⟨st, h, hrefs, rfl⟩
  | succ n ih =>
    have hmem := vmmSpaceUnref_zero hs hk hzero
    have hstep : spaceSys.step st (.spaceUnref sp) =
        some ⟨(vmmSpaceUnref sp st.mem).2, update st.refs sp (st.refs sp - 1)⟩ :=
      if_pos (by omega)
    obtain ⟨st', h', hrefs', hmem'⟩ := ih (.step h trivial hstep) (by rw [hmem]; exact hs)
      ((update_self ..).trans (by omega))
    exact ⟨st', h', hrefs', hmem'.trans hmem⟩

end Wrap

/-- **A space that is not freed.** After `2 ^ 32 - 1` calls of `vmm_space_ref` the
count is 0, so none of the `2 ^ 32` calls of `vmm_space_unref` that follow does
anything: the last one leaves the root of the space in use. -/
theorem wrapped_space_not_freed : ∃ st space, Reach spaceSys (fun _ _ => True) st ∧
    st.refs 1 = 1 ∧ st.mem.space 1 = some space ∧
    (vmmSpaceUnref 1 st.mem).2.pmm = st.mem.pmm ∧
    ¬ (vmmSpaceUnref 1 st.mem).2.pmm.Free (space.pml4 / 4096) := by
  obtain ⟨pmm, hpmm, hnew, space, hs, hk, hcount, hfree⟩ :
      ∃ pmm ∈ Pmm.pmmInit BootMap.tiny.regions,
        let r := Mem.vmmCreate .fits (BootMap.tiny.state pmm fun _ _ => 0#64)
        r.1 = some 1 ∧ ∃ space ∈ r.2.space 1, space.isKernel = false ∧ space.refcount = 1 ∧
          ¬ r.2.pmm.Free (space.pml4 / 4096) := by decide +kernel
  have hstep : spaceSys.step ⟨BootMap.tiny.state pmm fun _ _ => 0#64, fun _ => 0⟩ (.vmmCreate .fits) =
      some ⟨(Mem.vmmCreate .fits (BootMap.tiny.state pmm fun _ _ => 0#64)).2,
        update (fun _ => 0) 1 1⟩ := by
    simp only [spaceSys, SpaceState.step, hnew]
  have hstart : Reach spaceSys (fun _ _ => True)
      ⟨BootMap.tiny.state pmm fun _ _ => 0#64, fun _ => 0⟩ :=
    .start ⟨⟨_, _, _, hpmm, rfl⟩, rfl⟩
  obtain ⟨st1, h1, hrefs1, hmem1⟩ :=
    reach_refs 1 (.step hstart trivial hstep) Nat.one_pos hs hk (2 ^ 32 - 2)
  have hwrap : (space.refcount + (2 ^ 32 - 2 + 1)) % 2 ^ 32 = 0 := by rw [hcount]; decide
  rw [hwrap] at hmem1
  have hs1 : st1.mem.space 1 = some { space with refcount := 0 } := by rw [hmem1, setSpace_self]
  have hrefs1 : st1.refs 1 = 1 + (2 ^ 32 - 2 + 1) := hrefs1
  obtain ⟨st2, h2, hrefs2, hmem2⟩ := reach_unrefs h1 hs1 hk rfl (2 ^ 32 - 1) (by omega)
  have hs2 : st2.mem.space 1 = some { space with refcount := 0 } := by rw [hmem2]; exact hs1
  have hlast : (vmmSpaceUnref 1 st2.mem).2 = st2.mem := vmmSpaceUnref_zero hs2 hk rfl
  refine ⟨st2, _, h2, hrefs2, hs2, by rw [hlast], ?_⟩
  rw [hlast, hmem2, hmem1]
  exact hfree

end Runs

end Exyde.Mem
