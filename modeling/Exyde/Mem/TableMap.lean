import Exyde.Mem.Footprint
import Exyde.Mem.System
import Exyde.Mem.Tables

/-! # Page tables as a map

Over any run of calls of `vmm.c` the tables behave as a map from pages to physical pages
with flags. -/

namespace Exyde.Mem

open Function
open Exyde.Lib (Forest Prog Lockstep System Reach)

/-! ## Spaces come and go -/

section Spaces

variable {s : State} {r : Nat} {space : Space}

/-- The tables are sound, and the spaces are the same. -/
structure Kept (s s' : State) : Prop where
  tabled : Tabled s'
  space : s'.space = s.space
  nextSpace : s'.nextSpace = s.nextSpace

theorem Kept.trans {s s' s'' : State} (h : Kept s s') (h' : Kept s' s'') : Kept s s'' :=
  ⟨h'.tabled, h'.space.trans h.space, h'.nextSpace.trans h.nextSpace⟩

theorem mapFresh_tabled (h : Tabled s) (hs : s.space r = some space) {va : Nat}
    (hva : Mappable r va) (flags : BitVec 32) :
    Lockstep Eq (mapFresh r va flags) s fun _ s' => Kept s s' := by
  refine .bind ((pmmAllocPage_tabled h).mono fun pa s1 ⟨hg1, _, hpa⟩ => ?_)
  refine .ite (fun _ => .pure ⟨hg1.tabled, hg1.space, hg1.nextSpace⟩) fun hne => ?_
  obtain ⟨c, rfl, _, hspare, _⟩ := hpa hne
  refine .bind ((vmmMap_tabled hg1.tabled (hg1.space ▸ hs) hva _ flags).mono fun ok s2 hok => ?_)
  refine .ite (fun htrue => ?_) fun hfalse => ?_
  · rw [if_pos htrue] at hok
    obtain ⟨_, _, _, h2, hsp2, hn2, _⟩ := hok
    exact .pure ⟨h2, hsp2.trans hg1.space, hn2.trans hg1.nextSpace⟩
  · rw [if_neg hfalse] at hok
    refine .bind ((pmmFreePage_tabled hok.tabled (hok.spare hspare).unplaced).mono
      fun _ s3 ⟨m, hs3, h3, _⟩ => .pure ?_)
    subst hs3
    exact ⟨h3, hok.space.trans hg1.space, hok.nextSpace.trans hg1.nextSpace⟩

theorem growPage_tabled (h : Tabled s) (base i : Nat) :
    Lockstep Eq (growPage base i) s fun _ s' => Kept s s' := by
  refine .ite (fun _ => .pure ⟨h, rfl, rfl⟩) fun hlt => ?_
  obtain ⟨space, hs⟩ := h.rooted.kernel
  have hmax : kernelHeapMax ≤ userVaBase := by decide
  have hva : base + i * 4096 < userVaBase := Nat.lt_of_lt_of_le (by omega) hmax
  exact mapFresh_tabled h hs (.kernel hva) _

theorem exyMalloc_tabled (h : Tabled s) (size : Nat) (answer : HeapAnswer) :
    Lockstep Eq (exyMalloc size answer) s fun _ s' => Kept s s' := by
  have hgrow : ∀ need, Lockstep Eq (heapGrow need) s fun _ s' => Kept s s' := by
    intro need
    have hloop := fun base n => Lockstep.upFrom (E := Eq) (f := growPage base)
      (J := fun _ s' => Kept s s') (K := fun _ s' => Kept s s') n 0
      (fun i s' _ _ hk => (growPage_tabled hk.tabled base i).mono fun ok s'' hk' => by
        cases ok <;> exact hk.trans hk') (s := s) ⟨h, rfl, rfl⟩
    refine .bind (.look (.bind ((hloop _ _).mono fun m s' hm => ?_)))
    have hm : Kept s s' := hm.elim (·.2) (·.2.2)
    refine .ite (fun _ => .pure hm) fun _ => .bind (.put (.pure ?_))
    exact ⟨hm.tabled.transfer (by decide) (fun _ => rfl) rfl hm.tabled.total (fun _ _ => rfl) hm.tabled.held,
      hm.space, hm.nextSpace⟩
  refine .ite (fun _ => .pure ⟨h, rfl, rfl⟩) fun _ => ?_
  cases answer with
  | fits => exact .pure ⟨h, rfl, rfl⟩
  | grows fitsThen =>
    exact .bind ((hgrow _).mono fun ok s' hk => .ite (fun _ => .pure hk) fun _ => .pure hk)

theorem vmmCreate_tabled (h : Tabled s) (answer : HeapAnswer) :
    Lockstep Eq (vmmCreate answer) s fun _ s' => Tabled s' := by
  refine .bind ((exyMalloc_tabled h _ _).mono fun ok s1 hk => .ite (fun _ => ?_) fun _ => ?_)
  · refine .bind ((pmmAllocPage_tabled hk.tabled).mono fun np s2 ⟨hg, _, hnp⟩ => ?_)
    refine .ite (fun _ => .pure hg.tabled) fun hne => ?_
    obtain ⟨c, rfl, _, hspare, hc0, _⟩ := hnp hne
    refine .of_post ?_
    change Tabled (((s2.setZero (c * 4096 / 4096)).copyPage (c * 4096 / 4096) s2.kroot).addSpace
      (c * 4096))
    rw [mul_div_page]
    exact hg.tabled.plant hspare.unplaced hspare.used hc0
  · exact .pure hk.tabled

/-- Only the allocator has changed, and it tracks as many pages. -/
def PmmOnly (s s' : State) : Prop := ∃ m, s' = s.setPmm m ∧ m.totalPages = s.pmm.totalPages

instance pmmOnlyPreorder : IsPreorder State PmmOnly where
  refl s := ⟨s.pmm, rfl, rfl⟩
  trans := by
    rintro s _ _ ⟨m, rfl, hm⟩ ⟨m', rfl, hm'⟩
    exact ⟨m', rfl, hm'.trans hm⟩

theorem pmmFreePage_pmmOnly (page : Nat) : (pmmFreePage page).Keeps PmmOnly := by
  refine fun s => ⟨_, rfl, ?_⟩
  rcases s.pmm.pmmFreePages_one page with hfree | ⟨m', hfree, hgive⟩
  · rw [hfree]
  · rw [hfree]
    exact hgive.total

theorem destroySpace_pmmOnly (s : State) (r : Nat) :
    Lockstep Eq (destroySpace r) s fun _ s' => ∃ s1, PmmOnly s s1 ∧ s' = s1.setSpace r none := by
  have hentries := Steps.freeEntries pmmFreePage_pmmOnly (Steps.freePdpt pmmFreePage_pmmOnly)
  refine .bind (.look (.bind (.of_post (.bind (.of_post ?_)))))
  refine .put ⟨_, ?_, rfl⟩
  exact trans_of PmmOnly (hentries _ _ s) (pmmFreePage_pmmOnly _ _)

def TablesHeld (s : State) : Prop := ∀ r p f, s.table r p = some f → ¬ s.pmm.Free f

theorem Tabled.fell {s' : State} (h : Tabled s) (hr : r ≠ 0) (hs : PmmOnly s s')
    (hheld : TablesHeld (s'.setSpace r none)) : Tabled (s'.setSpace r none) := by
  obtain ⟨m, rfl, hm⟩ := hs
  exact (Housed.fell (s := s.setPmm m) h hr rfl rfl rfl hm).2 hheld

theorem Tabled.setRefcount (h : Tabled s) (hs : s.space r = some space) (n : Nat) :
    Tabled (s.setSpace r (some { space with refcount := n })) := by
  refine h.transfer (by decide) (fun r' => ?_) rfl h.total (fun _ _ => rfl) h.held
  change (update s.space r _ r').map _ = _
  by_cases hr : r' = r
  · subst hr
    rw [update_self, hs]
    rfl
  · rw [update_of_ne hr]

theorem vmmSpaceRef_tabled (h : Tabled s) (r : Nat) :
    Lockstep Eq (vmmSpaceRef r) s fun _ s' => Tabled s' := by
  refine .bind (.look ?_)
  cases hs : s.space r with
  | none => exact .pure h
  | some space =>
    refine .ite (fun _ => .pure h) fun _ => ?_
    exact .put (h.setRefcount hs _)

theorem vmmSpaceUnref_tabled (h : Tabled s) (r : Nat) :
    Lockstep Eq (vmmSpaceUnref r) s fun _ s' => TablesHeld s' → Tabled s' := by
  refine .bind (.look ?_)
  cases hs : s.space r with
  | none => exact .pure fun _ => h
  | some space =>
    refine .ite (fun _ => .pure fun _ => h) fun hk => .ite (fun _ => .pure fun _ => h) fun _ => ?_
    have hr : r ≠ 0 := fun hr => hk ((h.kind hs).mpr hr)
    have h' := h.setRefcount hs (space.refcount - 1)
    refine .bind (.put (.ite (fun _ => ?_) fun _ => .pure fun _ => h'))
    refine (destroySpace_pmmOnly _ r).mono fun _ s2 ⟨s1, h1, hs2⟩ hheld => ?_
    subst hs2
    exact h'.fell hr h1 hheld

end Spaces

/-! ## Runs -/

/-- Nothing but pages that are no tables, and the allocator, is different, and no table is free. -/
structure Aside (s t : State) : Prop where
  space : t.space = s.space
  nextSpace : t.nextSpace = s.nextSpace
  total : t.pmm.totalPages = s.pmm.totalPages
  tables : ∀ {r p f}, s.table r p = some f → t.mem f = s.mem f
  held : ∀ {r p f}, s.table r p = some f → ¬ t.pmm.Free f

/-- The calls of `vmm.c` on any arguments; `other` is whatever else happens in
the memory and at the allocator. -/
inductive MapEvent
  | vmmCreate (answer : HeapAnswer)
  | vmmMap (sp va pa : Nat) (flags : BitVec 32)
  | vmmUnmap (sp va : Nat)
  | spaceRef (sp : Nat)
  | spaceUnref (sp : Nat)
  | other (t : State)

def MapEvent.apply (s : State) : MapEvent → State
  | .vmmCreate answer => (Mem.vmmCreate answer s).2
  | .vmmMap sp va pa flags => (Mem.vmmMap sp va pa flags s).2
  | .vmmUnmap sp va => (Mem.vmmUnmap sp va s).2
  | .spaceRef sp => (vmmSpaceRef sp s).2
  | .spaceUnref sp => (vmmSpaceUnref sp s).2
  | .other t => t

/-- What the callers see to: addresses in reach of the tables, and that no page
in use as a table is given back to the allocator. -/
def MapEvent.Callable (s : State) : MapEvent → Prop
  | .vmmMap sp va _ _ => Mappable sp va
  | .vmmUnmap sp va => Mappable sp va
  | .spaceUnref sp => TablesHeld (vmmSpaceUnref sp s).2
  | .other t => Aside s t
  | _ => True

def mapSys : System State MapEvent where
  start := Booted
  step s e := some (e.apply s)

section Runs

variable {s s' : State} {sp va : Nat} {space : Space}

theorem vmmMap_dead (hs : s.space sp = none) (pa : Nat) (flags : BitVec 32) :
    vmmMap sp va pa flags s = (false, s) := by
  unfold vmmMap
  rw [Prog.read_bind, hs]
  rfl

theorem vmmUnmap_dead (hs : s.space sp = none) : vmmUnmap sp va s = (false, s) := by
  unfold vmmUnmap
  rw [Prog.read_bind, hs]
  rfl

theorem Tabled.step {e : MapEvent} (h : Tabled s) (hok : e.Callable s) : Tabled (e.apply s) := by
  cases e with
  | vmmCreate answer => exact (vmmCreate_tabled h answer).post
  | vmmMap sp va pa flags =>
    change Tabled (Mem.vmmMap sp va pa flags s).2
    cases hs : s.space sp with
    | none => rw [vmmMap_dead hs]; exact h
    | some space =>
      have hpost := (vmmMap_tabled h hs hok pa flags).post
      split at hpost
      · exact hpost.2.2.2.1
      · exact hpost.tabled
  | vmmUnmap sp va =>
    change Tabled (Mem.vmmUnmap sp va s).2
    cases hs : s.space sp with
    | none => rw [vmmUnmap_dead hs]; exact h
    | some space =>
      have hpost := (vmmUnmap_tabled h hs hok).post
      split at hpost
      · exact hpost.2.2.2.1
      · rw [hpost.1]; exact h
  | spaceRef sp => exact (vmmSpaceRef_tabled h sp).post
  | spaceUnref sp => exact (vmmSpaceUnref_tabled h sp).post hok
  | other t =>
    exact h.transfer (t := t) (by decide) (fun _ => by rw [hok.space]) hok.nextSpace
      (Nat.le_trans (Nat.le_of_eq hok.total) h.total) (fun hn _ => hok.tables hn) hok.held

theorem Tabled.reached (h : Reach mapSys MapEvent.Callable s) : Tabled s := by
  refine h.invariant (fun _ hb => hb.layout.tabled) fun s e s' hs hok hstep => ?_
  cases hstep
  exact hs.step hok

/-! ## The map -/

/-- Flags made of the `VM_*` bits. -/
def VmFlags (flags : BitVec 32) : Prop :=
  flags &&& (vmPresent ||| vmWrite ||| vmUser ||| vmNocache) = flags
  deriving Decidable

theorem pteToFlags_pteFor (pa : Nat) {flags : BitVec 32} (h : VmFlags flags) :
    pteToFlags (pteFor pa (flagsToPte flags)) = flags := by
  have hbit : ∀ {b : Word}, pteAddrMask &&& b = 0#64 →
      pteFor pa (flagsToPte flags) &&& b = flagsToPte flags &&& b := by
    intro b hb
    rw [pteFor, Lib.or_and_mask, BitVec.and_assoc, hb, BitVec.and_zero, BitVec.zero_or]
  have hlt : flags.toNat < 16 := by
    rw [← h, BitVec.toNat_and]
    exact Nat.lt_of_le_of_lt Nat.and_le_right (by decide)
  have hall : ∀ k : Fin 16, pteToFlags (flagsToPte (BitVec.ofNat 32 k)) = BitVec.ofNat 32 k := by
    decide
  have hk := hall ⟨flags.toNat, hlt⟩
  rw [BitVec.ofNat_toNat, BitVec.setWidth_eq] at hk
  rw [pteToFlags, hbit (by decide), hbit (by decide), hbit (by decide), hbit (by decide)]
  exact hk

/-- The same answer for every other page of the space and every user page of the others. -/
def OthersSame (s s' : State) (sp va : Nat) : Prop :=
  ∀ sp' va', va' % 4096 = 0 → va' < 2 ^ 48 → (sp' = sp → va' ≠ va) →
    (sp' ≠ sp → userVaBase ≤ va') → s'.vmmQuery sp' va' = s.vmmQuery sp' va'

theorem Mappable.lt (h : Mappable sp va) : va < 2 ^ 48 := by
  unfold Mappable at h
  split at h
  · exact Nat.lt_trans h (by decide)
  · exact h

theorem SetsWord.vmmQuery_other {e : Word} (hset : SetsWord s s' sp va e) (h : Tabled s)
    (h' : Tabled s') (hspace : s'.space = s.space) (halign : va % 4096 = 0) (hva : va < 2 ^ 48)
    {sp' va' : Nat} (hva' : va' < 2 ^ 48) (hne : home sp' va' = sp → va' ≠ va) :
    s'.vmmQuery sp' va' = s.vmmQuery sp' va' := by
  cases hs : s.space sp' with
  | none => rw [vmmQuery_dead hs, vmmQuery_dead (hspace ▸ hs)]
  | some space =>
    rw [h.vmmQuery_eq hs, h'.vmmQuery_eq (hspace ▸ hs)]
    by_cases halign' : va' % 4096 = 0
    · rw [State.wordAt, hset _ _ _ (vaTable_length va'), if_neg (c := _ ∧ _)]
      rintro ⟨hr, htab, hidx⟩
      -- the indices of a walk determine the address
      refine hne hr ?_
      rw [← vaAt_vaPath halign' hva', ← vaAt_vaPath halign hva]
      simp only [vaTable, List.cons.injEq, and_true] at htab
      rw [htab.1, htab.2.1, htab.2.2, hidx]
    · rw [if_pos halign', if_pos halign']

theorem SetsWord.othersSame {e : Word} (hset : SetsWord s s' sp va e) (h : Tabled s)
    (h' : Tabled s') (hspace : s'.space = s.space) (halign : va % 4096 = 0) (hva : va < 2 ^ 48) :
    OthersSame s s' sp va := by
  intro sp' va' _ hva' hown hother
  refine hset.vmmQuery_other h h' hspace halign hva hva' fun hr => hown ?_
  by_contra hsp
  have huser : UserVa va' := ⟨hother hsp, hva'⟩
  exact hsp ((huser.home sp').symm.trans hr)

/-- **Page tables are a map** from the pages of the spaces to physical pages with
flags: `vmm_map` enters a page that is not in it, `vmm_unmap` removes one that
is, and a call that fails changes no answer. -/
theorem page_tables_are_a_map (h : Reach mapSys MapEvent.Callable s) (hs : s.space sp = some space)
    (halign : va % 4096 = 0) (hlow : lowerBound space ≤ va) (hva : Mappable sp va) :
    (∀ pa flags, pa < 2 ^ 52 → VmFlags flags → ∀ ok s', vmmMap sp va pa flags s = (ok, s') →
      (ok = true → s.vmmQuery sp va = none ∧ s'.vmmQuery sp va = some (pa, flags)) ∧
      (ok = false → ∀ sp' va', s'.vmmQuery sp' va' = s.vmmQuery sp' va') ∧
      OthersSame s s' sp va) ∧
    (∀ ok s', vmmUnmap sp va s = (ok, s') →
      (ok = true ↔ (s.vmmQuery sp va).isSome) ∧
      (ok = true → s'.vmmQuery sp va = none) ∧
      (ok = false → ∀ sp' va', s'.vmmQuery sp' va' = s.vmmQuery sp' va') ∧
      OthersSame s s' sp va) := by
  have ht := Tabled.reached h
  have hhome := hva.home_eq (ht.kind hs) hlow
  -- the answer for the page itself
  have hself : ∀ {t : State}, Tabled t → t.space = s.space →
      t.vmmQuery sp va = entryView (t.wordAt sp va) := by
    intro t ht' hsp
    rw [ht'.vmmQuery_eq (hsp ▸ hs), if_neg (not_not.mpr halign), hhome]
  have hset : ∀ {t e}, SetsWord s t sp va e → t.wordAt sp va = e := fun hset =>
    (hset _ _ _ (vaTable_length va)).trans (if_pos ⟨rfl, rfl, rfl⟩)
  constructor
  · intro pa flags hpa hflags ok s' hcall
    have hpost := (vmmMap_tabled ht hs hva pa flags).post
    rw [hcall] at hpost
    cases ok with
    | true =>
      obtain ⟨hpa', hpres, hvac, ht', hsp', _, hset'⟩ := hpost
      have hbits := flagsToPte_lowBits hpres
      have haddr : pteAddr (pteFor pa (flagsToPte flags)) = pa := by
        rw [← Nat.div_mul_cancel (Nat.dvd_of_mod_eq_zero hpa')]
        exact pteAddr_pteFor (by omega) hbits
      refine ⟨fun _ => ⟨?_, ?_⟩, fun h0 => absurd h0 (by decide),
        hset'.othersSame ht ht' hsp' halign hva.lt⟩
      · rw [hself ht rfl, entryView, hvac]
        rfl
      · rw [hself ht' hsp', hset hset', entryView, present_pteFor hbits, haddr,
          pteToFlags_pteFor pa hflags]
        rfl
    | false =>
      have hgrown : Grown s s' := hpost
      have hsame := hgrown.words.vmmQuery ht hgrown.tabled hgrown.space
      exact ⟨fun h0 => absurd h0 (by decide), fun _ => hsame, fun sp' va' _ _ _ _ => hsame sp' va'⟩
  · intro ok s' hcall
    have hpost := (vmmUnmap_tabled ht hs hva).post
    rw [hcall] at hpost
    cases ok with
    | true =>
      obtain ⟨_, _, hpres, ht', hsp', _, hset'⟩ := hpost
      refine ⟨⟨fun _ => ?_, fun _ => rfl⟩, fun _ => ?_, fun h0 => absurd h0 (by decide),
        hset'.othersSame ht ht' hsp' halign hva.lt⟩
      · rw [hself ht rfl, entryView, hpres]
        rfl
      · rw [hself ht' hsp', hset hset']
        rfl
    | false =>
      obtain ⟨hsame, habs⟩ := hpost
      subst hsame
      refine ⟨⟨fun h0 => absurd h0 (by decide), fun hq => ?_⟩, fun h0 => absurd h0 (by decide), fun _ _ _ => rfl,
        fun _ _ _ _ _ _ => rfl⟩
      rw [hself ht rfl, entryView, habs halign hlow] at hq
      cases hq

/-- In the first space of a small machine, the last page below `2 ^ 52`, which is no
memory, is mapped with all flags. -/
theorem page_tables_are_a_map_tiny : ∃ s s', Reach mapSys MapEvent.Callable s ∧
    vmmMap 1 userVaBase 0xFFFFFFFFFF000 15#32 s = (true, s') ∧
    s.vmmQuery 1 userVaBase = none ∧
    s'.vmmQuery 1 userVaBase = some (0xFFFFFFFFFF000, 15#32) := by
  obtain ⟨pmm, hpmm, ⟨space, hs, hkind⟩, hok⟩ : ∃ pmm ∈ Pmm.pmmInit BootMap.tiny.regions,
      let s := (Mem.vmmCreate .fits (BootMap.tiny.state pmm fun _ _ => 0#64)).2
      (∃ space ∈ s.space 1, space.isKernel = false) ∧
        (vmmMap 1 userVaBase 0xFFFFFFFFFF000 15#32 s).1 = true := by decide +kernel
  have hreach : Reach mapSys MapEvent.Callable
      (Mem.vmmCreate .fits (BootMap.tiny.state pmm fun _ _ => 0#64)).2 :=
    .step (e := .vmmCreate .fits) (.start ⟨_, _, _, hpmm, rfl⟩) trivial rfl
  have hlow : lowerBound space ≤ userVaBase := by rw [lowerBound, hkind]; exact Nat.le_refl _
  have hmap := (page_tables_are_a_map hreach hs (by decide) hlow (by decide)).1
    0xFFFFFFFFFF000 15#32 (by decide) (by decide) true _ (Prod.ext hok rfl)
  obtain ⟨hbefore, hafter⟩ := hmap.1 rfl
  exact ⟨_, _, hreach, Prod.ext hok rfl, hbefore, hafter⟩

end Runs

end Exyde.Mem
