import Exyde.Mem.Teardown

/-! # Mapping calls, all or nothing

What `sys_unmap` does to the tables and to the allocator, page by page. -/

namespace Exyde.Mem

open Exyde.Lib (Prog Reachable)

variable {s s' : State} {sp va : Nat} {space : Space}

/-- `s'` is `s` with the first `n` of the pages at `vas` unmapped and given back. -/
structure Emptied (s s' : State) (sp : Nat) (vas : Nat → Nat) (n : Nat) : Prop where
  layout : Layout s'
  space : s'.space = s.space
  gone : ∀ i < n, s'.vmmQuery sp (vas i) = none
  free : ∀ g, s'.pmm.Free g ↔
    s.pmm.Free g ∨ ∃ i < n, ∃ flags, s.vmmQuery sp (vas i) = some (g * 4096, flags)
  others : ∀ {sp' va}, va < 2 ^ 48 → (sp' = sp → ∀ i < n, va ≠ vas i) →
    s'.vmmQuery sp' va = s.vmmQuery sp' va

theorem unmapFree_emptied (h : Layout s) (hs : s.space sp = some space) (hr : sp ≠ 0)
    (hva : UserVa va) {f : Nat} {flags : BitVec 32} (hq : s.vmmQuery sp va = some (f * 4096, flags)) :
    Layout (unmapFree sp va s).2 ∧ (unmapFree sp va s).2.space = s.space ∧
      (unmapFree sp va s).2.vmmQuery sp va = none ∧
      (∀ g, (unmapFree sp va s).2.pmm.Free g ↔ s.pmm.Free g ∨ g = f) ∧
      ∀ {sp' va'}, va' < 2 ^ 48 → (sp' = sp → va' ≠ va) →
        (unmapFree sp va s).2.vmmQuery sp' va' = s.vmmQuery sp' va' := by
  obtain ⟨hl, hspace, _⟩ := (unmapFree_spec h hs hr hva).post
  obtain ⟨halign, hnode⟩ := h.query_place hq
  rw [hva.home] at hnode
  obtain ⟨m, hm, hrel⟩ := (h.taken hr hnode).accepted h.wf
  have ht := h.tabled
  have hself : ∀ {t : State}, Tabled t → t.space = s.space →
      t.vmmQuery sp va = entryView (t.wordAt sp va) := by
    intro t ht' hsp
    rw [ht'.vmmQuery_eq (hsp ▸ hs), if_neg (not_not.mpr halign), hva.home]
  have hpost := (vmmUnmap_tabled ht hs (.user hr hva.2)).post
  obtain ⟨ok, s1, hcall⟩ : ∃ ok s1, vmmUnmap sp va s = (ok, s1) := ⟨_, _, rfl⟩
  rw [hcall] at hpost
  cases ok with
  | false =>
    -- the page is mapped, so its word is present
    have habs := hpost.2 halign ((h.lowerBound_user hs hr).symm ▸ hva.1)
    rw [hself ht rfl, entryView, habs] at hq
    cases hq
  | true =>
    obtain ⟨_, _, _, ht1, hsp1, hpmm, hset⟩ := hpost
    have hrun : (unmapFree sp va s).2 = s1.setPmm m := by
      rw [unmapFree, Prog.read_bind, hq]
      change (vmmUnmap sp va s).2.setPmm ((vmmUnmap sp va s).2.pmm.pmmFreePages (f * 4096) 1).2 = _
      rw [hcall, hpmm, hm]
    rw [hrun] at hl hspace ⊢
    refine ⟨hl, hspace, ?_, hrel.free_iff, fun {sp' va'} hva' hne => ?_⟩
    · change s1.vmmQuery sp va = none
      rw [hself ht1 hsp1, State.wordAt, hset _ _ _ (vaTable_length va), if_pos ⟨rfl, rfl, rfl⟩]
      rfl
    · refine hset.vmmQuery_other ht ht1 hsp1 halign hva.2 hva' fun hhome heq => ?_
      subst heq
      exact hne ((hva.home sp').symm.trans hhome) rfl

/-- **The loop** over mapped pages unmaps all of them. -/
theorem unmapLoop_emptied (h : Layout s) (hs : s.space sp = some space) (hr : sp ≠ 0) (vas : Nat → Nat)
    {n : Nat} (hva : ∀ i < n, UserVa (vas i)) (hinj : ∀ i < n, ∀ j < i, vas j ≠ vas i)
    (hq : ∀ i < n, s.vmmQuery sp (vas i) ≠ none) :
    Emptied s (Prog.forEach (fun i => unmapFree sp (vas i)) (List.range n) s).2 sp vas n := by
  induction n with
  | zero => exact ⟨h, rfl, by simp, fun g => by simp [Prog.forEach, pure], fun _ _ => rfl⟩
  | succ n ih =>
    have hn := ih (fun i hi => hva i (by omega)) (fun i hi => hinj i (by omega)) fun i hi => hq i (by omega)
    rw [List.range_succ, Prog.forEach_append]
    generalize (Prog.forEach _ (List.range n) s).2 = s1 at hn
    change Emptied s (unmapFree sp (vas n) s1).2 sp vas (n + 1)
    have hvn := hva n (Nat.lt_succ_self n)
    obtain ⟨⟨pa, flags⟩, hqn⟩ := Option.ne_none_iff_exists'.mp (hq n (Nat.lt_succ_self n))
    obtain ⟨_, f, _, rfl⟩ := vmmQuery_node h hs hqn
    have hq1 := (hn.others hvn.2 fun _ i hi => (hinj n (Nat.lt_succ_self n) i hi).symm).trans hqn
    obtain ⟨hl, hsp, hnone, hfree, hothers⟩ :=
      unmapFree_emptied hn.layout (hn.space ▸ hs) hr hvn hq1
    refine ⟨hl, hsp.trans hn.space, fun i hi => ?_, fun g => ?_, fun {sp' va} hlt hne => ?_⟩
    · rcases Nat.lt_succ_iff_lt_or_eq.mp hi with hi | rfl
      · exact (hothers (hva i (by omega)).2 fun _ => hinj n (Nat.lt_succ_self n) i hi).trans (hn.gone i hi)
      · exact hnone
    · rw [hfree, hn.free, or_assoc, Nat.exists_lt_succ_right, hqn]
      simp [eq_comm]
    · rw [hothers hlt fun heq => hne heq n (Nat.lt_succ_self n),
        hn.others hlt fun heq i hi => hne heq i (by omega)]

/-- `sys_unmap` refuses the call, or has come to its loop. -/
theorem sysUnmap_cases (h : Layout s) (hs : s.space sp = some space) {vaddr : Nat}
    (hva : vaddr < 2 ^ 64) (npages : Nat) : (∃ e, sysUnmap sp vaddr npages s = (.error e, s)) ∨
      userVaBase ≤ vaddr ∧ vaddr + npages * 4096 ≤ userVaTop ∧
        (∀ i < npages, s.vmmQuery sp (vaddr + i * 4096) ≠ none) ∧
        sysUnmap sp vaddr npages s = (.ok (), (Prog.forEach
          (fun i => unmapFree sp ((vaddr + i * 4096) % 2 ^ 64)) (List.range npages) s).2) := by
  rw [sysUnmap]
  split
  · exact .inl ⟨_, rfl⟩
  split
  · exact .inl ⟨_, rfl⟩
  next hlow =>
  split
  · exact .inl ⟨_, rfl⟩
  next halign =>
  dsimp only
  split
  · exact .inl ⟨_, rfl⟩
  next hstop =>
  rw [Prog.read_bind]
  split
  · exact .inl ⟨_, rfl⟩
  next hholes =>
  obtain ⟨hend, hall⟩ := unmapRange h hs hva hlow halign hstop hholes
  exact .inr ⟨Nat.le_of_not_lt hlow, hend, hall, rfl⟩

/-- **`sys_unmap` is all or nothing**, whatever the address and the number of pages: where it
succeeds, the range lies in the user window in exact arithmetic, all of its pages were mapped,
none is now, their frames are free, and no other page is mapped differently; otherwise nothing
has changed. -/
theorem sys_unmap_all_or_nothing (hreach : Reachable memSys s) (hsp : s.UserSpace sp) (vaddr npages : BitVec 64) :
    ∃ res s', sysUnmap sp vaddr.toNat npages.toNat s = (res, s') ∧ (res ≠ .ok () → s' = s) ∧
      (res = .ok () → userVaBase ≤ vaddr.toNat ∧ vaddr.toNat + npages.toNat * 4096 ≤ userVaTop ∧
        (∀ i < npages.toNat, ∃ f flags,
          s.vmmQuery sp (vaddr.toNat + i * 4096) = some (f * 4096, flags) ∧
          s'.vmmQuery sp (vaddr.toNat + i * 4096) = none ∧ s'.pmm.Free f) ∧
        ∀ sp' va, va < 2 ^ 48 → (sp' = sp → ∀ i < npages.toNat, va ≠ vaddr.toNat + i * 4096) →
          s'.vmmQuery sp' va = s.vmmQuery sp' va) := by
  have h := Layout.reachable hreach
  obtain ⟨space, hs⟩ := hsp.space
  rcases sysUnmap_cases h hs vaddr.isLt npages.toNat with ⟨e, hcall⟩ | ⟨hlow, hend, hall, hcall⟩
  · exact ⟨_, _, hcall, fun _ => rfl, fun hno => nomatch hno⟩
  generalize vaddr.toNat = vaddr, npages.toNat = npages at *
  have htop : userVaTop = 0x800000000000 := rfl
  have hmod : ∀ i < npages, (vaddr + i * 4096) % 2 ^ 64 = vaddr + i * 4096 := by omega
  have hloop := unmapLoop_emptied h hs hsp.1 (fun i => (vaddr + i * 4096) % 2 ^ 64) (n := npages)
    (fun i hi => ⟨by rw [hmod i hi]; omega, by omega⟩) (fun i hi j hj => by omega)
    fun i hi => by rw [hmod i hi]; exact hall i hi
  refine ⟨_, _, hcall, fun hno => absurd rfl hno, fun _ => ⟨hlow, hend, fun i hi => ?_, fun sp' va hlt hne => ?_⟩⟩
  · obtain ⟨⟨pa, flags⟩, hq⟩ := Option.ne_none_iff_exists'.mp (hall i hi)
    obtain ⟨_, f, _, rfl⟩ := vmmQuery_node h hs hq
    have hgone := hloop.gone i hi
    rw [hmod i hi] at hgone
    exact ⟨f, flags, hq, hgone, (hloop.free f).mpr (.inr ⟨i, hi, flags, by rw [hmod i hi]; exact hq⟩)⟩
  · exact hloop.others hlt fun heq i hi => by rw [hmod i hi]; exact hne heq i hi

theorem sys_unmap_all_or_nothing_page : ∃ s s' f, Reachable memSys s ∧
    sysUnmap 1 (userVaBase + 4096) 1 s = (.ok (), s') ∧ s'.pmm.Free f ∧
    s'.vmmQuery 1 userVaBase = s.vmmQuery 1 userVaBase := by
  obtain ⟨s, hs, hsp, hok⟩ : ∃ s ∈ BootMap.tiny.run (fun _ _ => 0#64)
      [.vmmCreate .fits, .sysMap 1 0#64 (BitVec.ofNat 64 userVaBase) 2#64 2#64],
      s.UserSpace 1 ∧ (sysUnmap 1 (userVaBase + 4096) 1 s).1 = .ok () := by decide +kernel
  have hreach := BootMap.run_reachable hs
  obtain ⟨res, s', hcall, _, hyes⟩ :=
    sys_unmap_all_or_nothing hreach hsp (BitVec.ofNat 64 (userVaBase + 4096)) 1
  change sysUnmap 1 (userVaBase + 4096) 1 s = _ at hcall
  rw [hcall] at hok
  obtain ⟨_, _, hpages, hothers⟩ := hyes hok
  obtain ⟨f, _, _, _, hfree⟩ := hpages 0 (by decide)
  exact ⟨s, s', f, hreach, hok ▸ hcall, hfree, hothers 1 userVaBase (by decide) (by decide)⟩

end Exyde.Mem
