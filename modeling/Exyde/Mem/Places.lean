import Exyde.Lib.Demand
import Exyde.Mem.PmmSpec
import Exyde.Mem.Tables

/-! # What a mapping costs

The places on the way to a page are made when it is mapped, each at the price of one
page of memory. So a fresh page can be mapped exactly if its address is vacant and there
are as many free pages as places are missing. -/

namespace Exyde.Mem

open Exyde.Lib

/-- The state between two operations, as far as allocation goes. Page 0 is not free:
the allocator answers 0 where it fails. -/
structure Ready (s : State) : Prop where
  layout : Layout s
  zero : ¬ s.pmm.Free 0

def State.placed (s : State) (r : Nat) (p : Path) : Bool := (s.node r p).isSome

def State.free (s : State) : Nat := s.pmm.freeSet.card

/-- `s'` has the places `A` of the space `r` over `s`, and a free page less for each
that is new. -/
structure Adds (s s' : State) (r : Nat) (A : Finset Path) : Prop where
  ready : Ready s'
  placed : s'.placed r = withPlaces (s.placed r) A
  paid : s'.free + price (s.placed r) A = s.free

namespace Adds

variable {s s' s'' : State} {r : Nat} {A B : Finset Path}

theorem refl (h : Ready s) (r : Nat) : Adds s s r ∅ :=
  ⟨h, (withPlaces_empty _).symm, rfl⟩

theorem trans (h : Adds s s' r A) (h' : Adds s' s'' r B) : Adds s s'' r (A ∪ B) where
  ready := h'.ready
  placed := by rw [h'.placed, h.placed, withPlaces_union]
  paid := by
    have h1 := h.paid
    have h2 := h'.paid
    rw [h.placed] at h2
    rw [price_union]
    omega

theorem affords_iff (h : Adds s s' r A) (B : Finset Path) :
    price (s.placed r) (A ∪ B) ≤ s.free ↔ price (s'.placed r) B ≤ s'.free := by
  have h1 := h.paid
  rw [price_union, ← h.placed]
  omega

end Adds

section Alloc

variable {s s' : State} {f : Nat}

structure Took (s s' : State) (f : Nat) : Prop where
  ready : Ready s'
  paid : s'.free + 1 = s.free
  pending : Pending s' f
  mem : s'.mem = s.mem
  space : s'.space = s.space

theorem Took.node (h : Took s s' f) (r : Nat) (p : Path) : s'.node r p = s.node r p :=
  State.forestTo_congr (fun _ => by rw [h.space]) (fun _ _ => by rw [h.mem]) r p

theorem pmmAllocPage_ready (h : Ready s) : Lockstep Eq pmmAllocPage s fun pa s' =>
    (pa ≠ 0 ↔ 0 < s.free) ∧ (pa ≠ 0 → ∃ f, pa = f * 4096 ∧ Took s s' f) := by
  refine .of_post ?_
  obtain ⟨hlay, -, -, hmem, hpend⟩ := (pmmAllocPage_spec h.layout).post
  rcases Pmm.pmmAllocPages_spec h.layout.wf (by decide : 0 < 1) with ⟨f, m', hm, ha⟩ | ⟨hm, hno⟩
  · have hrun : pmmAllocPage s = (f * 4096, s.setPmm m') := by rw [pmmAllocPage, hm]
    rw [hrun] at hlay hpend ⊢
    have hf : f ∈ s.pmm.freeSet := ha.lowest.inside (mem_block.mpr ⟨Nat.le_refl f, Nat.lt_succ_self f⟩)
    have hf0 : f ≠ 0 := by
      rintro rfl
      exact h.zero (Pmm.mem_freeSet.mp hf)
    have hpa : f * 4096 ≠ 0 := Nat.mul_ne_zero hf0 (by decide)
    have hpos : 0 < s.free := Finset.card_pos.mpr ⟨f, hf⟩
    obtain ⟨g, hg, -, hpending⟩ := hpend hpa
    obtain rfl : f = g := Nat.eq_of_mul_eq_mul_right (by decide) hg
    refine ⟨⟨fun _ => hpos, fun _ => hpa⟩, fun _ => ⟨f, rfl, ⟨hlay, ?_⟩, ?_, hpending, rfl, rfl⟩⟩
    · intro h0
      change m'.Free 0 at h0
      rw [← Pmm.mem_freeSet, ha.sets.freeSet_take, Finset.mem_sdiff, Pmm.mem_freeSet] at h0
      exact h.zero h0.1
    · have hcard := card_take ha.lowest.inside
      rw [← ha.sets.freeSet_take] at hcard
      change m'.freeSet.card + 1 = s.pmm.freeSet.card
      rw [hcard]
      exact Nat.succ_pred_eq_of_pos hpos
  · have hrun : pmmAllocPage s = (0, s) := by rw [pmmAllocPage, hm]; rfl
    rw [hrun]
    refine ⟨⟨fun h0 => absurd rfl h0, fun hpos => ?_⟩, fun h0 => absurd rfl h0⟩
    -- a free page is a block of one
    obtain ⟨f, hf⟩ := Finset.card_pos.mp hpos
    refine absurd (fun g hg => ?_) (hno f)
    obtain ⟨h1, h2⟩ := mem_block.mp hg
    rwa [show g = f by omega]

end Alloc

/-! ## Tables -/

section Descend

variable {s s' : State} {r : Nat} {p : Path} {i : Fin 512} {f c : Nat}

theorem placed_of_node {g : Nat} (h : s.node r p = some g) : s.placed r p = true := by
  rw [State.placed, h]
  rfl

theorem not_placed (h : s.node r p = none) : s.placed r p = false := by
  rw [State.placed, h]
  rfl

theorem hang_placed (hF : Forest.Hang s.forest s'.forest r p i f c) (hd : s.forest.Distinct) :
    s'.placed r = withPlaces (s.placed r) {i :: p} := by
  funext q
  by_cases hq : q = i :: p
  · subst hq
    rw [withPlaces, placed_of_node (hF.node_new hd)]
    simp
  · have hsame : s'.node r q = s.node r q := (hF.node_both hd r q).2 fun h => hq h.2
    rw [withPlaces, State.placed, hsame]
    simp [hq, State.placed]

theorem Adds.hang {s1 : State} (ht : Took s s1 c) (hnode : ∀ q, s1.node r q = s.node r q)
    (hF : Forest.Hang s1.forest s'.forest r p i f c) (hpmm : s'.pmm = s1.pmm) (hlay : Layout s') :
    Adds s s' r {i :: p} where
  ready := ⟨hlay, hpmm ▸ ht.ready.zero⟩
  placed := by
    have hsame : s1.placed r = s.placed r := funext fun q => congrArg Option.isSome (hnode q)
    rw [hang_placed hF ht.ready.layout.distinct, hsame]
  paid := by
    have hvac : s.node r (i :: p) = none := (hnode _).symm.trans hF.vacant_node
    rw [price_singleton_of_lacking (not_placed hvac), State.free, hpmm]
    exact ht.paid

/-- **A table on demand**: it is there, or there is a free page to make it of. -/
theorem descendOrAlloc_ready (h : Ready s) (hr : r ≠ 0) (hf : s.node r p = some f) (hp : p.length < 3)
    (hi : Opens r p i) (user : Bool) :
    Lockstep Eq (descendOrAlloc (f * 4096) i user) s fun c s' =>
      (c ≠ 0 ↔ price (s.placed r) {i :: p} ≤ s.free) ∧ (c ≠ 0 → Adds s s' r {i :: p}) := by
  have hstep := walk_step hf hp hi
  refine .bind (.look ?_)
  rw [mul_div_page]
  refine .ite (fun hpres => .ite (fun hhuge => ?_) fun hhuge => ?_) fun habs => ?_
  · rw [h.layout.noHuge hr hf (by omega) hi hpres] at hhuge
    cases hhuge
  · rw [if_neg (by simp [hpres, hhuge])] at hstep
    have hmade := placed_of_node hstep
    have hne : pteAddr (s.mem f i) ≠ 0 := by
      have h0 := h.layout.nonzero hstep
      omega
    rw [price_singleton_of_made hmade]
    refine .pure ⟨⟨fun _ => Nat.zero_le _, fun _ => hne⟩,
      fun _ => ⟨h, (withPlaces_of_made hmade).symm, ?_⟩⟩
    rw [price_singleton_of_made hmade]
    rfl
  · rw [if_pos (by simp [habs])] at hstep
    rw [price_singleton_of_lacking (not_placed hstep)]
    refine .bind ((pmmAllocPage_ready h).mono fun np s1 ⟨hiff, hnp⟩ => ?_)
    refine .ite (fun h0 => .pure ⟨?_, fun hne => absurd rfl hne⟩) fun hne => ?_
    · rw [h0] at hiff
      exact hiff
    obtain ⟨c, rfl, ht⟩ := hnp hne
    have hnode := ht.node r
    have hf1 : s1.node r p = some f := (hnode p).trans hf
    have hfc : f ≠ c := fun hfc => ht.pending.unplaced r p (hfc ▸ hf1)
    have hlt := ht.pending.lt ht.ready.layout
    have habs1 : present (s1.mem f i) = false := by rw [ht.mem]; simpa using habs
    have hh := descend_hung (s := s1) (r := r) (p := p) (i := i) user hlt hfc
    have hF := hh.forest hf1 (by omega) hi habs1 ht.pending.unplaced hlt
    have hlay := ht.ready.layout.hang hh hf1 (by omega) hi habs1 ht.pending
    rw [hangTable_prog]
    exact .of_post ⟨⟨fun _ => hiff.mp hne, fun _ => hne⟩, fun _ => .hang ht hnode hF hh.pmm hlay⟩

/-- The next table on the way to a page, for which `c` is already taken. -/
theorem Adds.descend {s1 : State} {A : Finset Path} (ha : Adds s s1 r A) (hr : r ≠ 0)
    (hc : Pending s1 c) (hf : s1.node r p = some f) (hp : p.length < 3) (hi : Opens r p i) (user : Bool) :
    Lockstep Eq (descendOrAlloc (f * 4096) i user) s1 fun t s2 =>
      (t ≠ 0 ↔ price (s.placed r) (A ∪ {i :: p}) ≤ s.free) ∧ (t ≠ 0 → ∃ g, t = g * 4096 ∧
        s2.node r (i :: p) = some g ∧ Adds s s2 r (A ∪ {i :: p}) ∧ Pending s2 c) := by
  refine ((descendOrAlloc_ready ha.ready hr hf hp hi user).both
    (descendOrAlloc_spec ha.ready.layout hf hp hi user)).mono fun t s2 hpost => ?_
  obtain ⟨⟨hiff, hadds⟩, _, hbuilds, _, htable⟩ := hpost
  rw [ha.affords_iff]
  refine ⟨hiff, fun hne => ?_⟩
  obtain ⟨g, ht, hg⟩ := htable hne
  exact ⟨g, ht, hg, ha.trans (hadds hne), hbuilds.pending hc⟩

end Descend

/-! ## Pages -/

def tablePlaces (va : Nat) : Finset Path := {[idxPml4 va], [idxPdpt va, idxPml4 va], vaTable va}

/-- The same with the page itself. -/
def vaPlaces (va : Nat) : Finset Path := insert (vaPath va) (tablePlaces va)

section Map

variable {s s' : State} {r va c : Nat} {space : Space} {flags : BitVec 32}

theorem tablePlaces_eq (va : Nat) : ∅ ∪ {[idxPml4 va]} ∪ {[idxPdpt va, idxPml4 va]} ∪
    {[idxPd va, idxPdpt va, idxPml4 va]} = tablePlaces va := by
  rw [Finset.empty_union, Finset.union_assoc]
  rfl

theorem length_of_mem_tablePlaces {p : Path} (h : p ∈ tablePlaces va) : p.length < 4 := by
  simp only [tablePlaces, Finset.mem_insert, Finset.mem_singleton] at h
  rcases h with rfl | rfl | rfl <;> simp

theorem vaPath_notMem_tablePlaces (va : Nat) : vaPath va ∉ tablePlaces va := fun hmem =>
  absurd (length_of_mem_tablePlaces hmem) (by simp)

theorem vacant_entry {f : Nat} (hf : s.node r (vaTable va) = some f)
    (hvac : s.node r (vaPath va) = none) : present (s.mem f (idxPt va)) = false := by
  rw [vaPath_eq, State.node_cons_of hf] at hvac
  by_contra hpres
  have hopen : Opens r (vaTable va) (idxPt va) := opens_cons _ _ _ _
  rw [childOf_open (by simp) hopen (by simpa using hpres) fun h3 => absurd h3 (by simp)] at hvac
  cases hvac

/-- The entry of the page itself, when the tables are there. -/
theorem Adds.setEntry {s3 : State} {f : Nat} (ha : Adds s s3 r (tablePlaces va)) (hc : Pending s3 c)
    (hf : s3.node r (vaTable va) = some f) (habs : present (s3.mem f (idxPt va)) = false)
    (hflags : hasFlag flags vmPresent = true) :
    let s' := s3.setWord f (idxPt va) (pteFor (c * 4096) (flagsToPte flags))
    Ready s' ∧ s'.free + price (s.placed r) (tablePlaces va) = s.free ∧
      s'.placed r = withPlaces (s.placed r) (vaPlaces va) := by
  have hlay := ha.ready.layout
  have hh := setWord_hung (s := s3) (r := r) (p := vaTable va) (i := idxPt va) (f := f) (c := c) _
    (flagsToPte_lowBits hflags) rfl rfl
  have hF := hh.forest hf (by simp) (opens_cons _ _ _ _) habs hc.unplaced (hc.lt hlay)
  refine ⟨⟨hlay.hang hh hf (by simp) (opens_cons _ _ _ _) habs hc, ha.ready.zero⟩, ha.paid, ?_⟩
  rw [hang_placed hF hlay.distinct, ha.placed, withPlaces_union, Finset.union_comm]
  rfl

/-- **`vmm_map`** of a page that was taken, at a vacant address: it fails exactly if
there are not enough free pages for the tables. -/
theorem vmmMap_ready (h : Ready s) (hs : s.space r = some space) (hr : r ≠ 0) (hva : UserVa va)
    (halign : va % 4096 = 0) (hvac : s.node r (vaPath va) = none) (hc : Pending s c)
    (hflags : hasFlag flags vmPresent = true) :
    Lockstep Eq (vmmMap r va (c * 4096) flags) s fun ok s' =>
      (ok = true ↔ price (s.placed r) (tablePlaces va) ≤ s.free) ∧
        (ok = true → Ready s' ∧ s'.free + price (s.placed r) (tablePlaces va) = s.free ∧
          s'.placed r = withPlaces (s.placed r) (vaPlaces va)) := by
  have hlow : lowerBound space ≤ va := by
    have hkind : space.isKernel = false := by simpa [hr] using h.layout.kind hs
    rw [lowerBound, hkind]
    exact hva.1
  -- a step that cannot be paid fails, and then neither can all of them
  have hfail : ∀ {s' : State} {A : Finset Path}, A ⊆ tablePlaces va → ¬ price (s.placed r) A ≤ s.free →
      (false = true ↔ price (s.placed r) (tablePlaces va) ≤ s.free) ∧ (false = true → Ready s' ∧
        s'.free + price (s.placed r) (tablePlaces va) = s.free ∧
        s'.placed r = withPlaces (s.placed r) (vaPlaces va)) := fun hsub hno =>
    ⟨⟨fun h0 => absurd h0 Bool.false_ne_true, fun hle => absurd ((price_mono hsub).trans hle) hno⟩,
      fun h0 => absurd h0 Bool.false_ne_true⟩
  refine .bind (.look ?_)
  rw [hs]
  refine .ite (fun hchk => ?_) fun _ => ?_
  · rw [hflags] at hchk
    exfalso
    rcases hchk with hbad | hbad | hbad | hbad
    · exact hbad halign
    · exact hbad (Nat.mul_mod_left _ _)
    · omega
    · cases hbad
  have hd1 := (Adds.refl h r).descend hr hc (State.node_root hs) (by decide)
    ((Mappable.user hr hva.2).opens (h.layout.kind hs) hlow) (hasFlag flags vmUser)
  rw [h.layout.aligned hs] at hd1
  refine .bind (hd1.mono fun pdpt s1 h1 => ?_)
  obtain ⟨hiff1, hn1⟩ := h1
  refine .ite (fun h0 => .pure (hfail ?_ (mt hiff1.mpr (not_not.mpr h0)))) fun hne => ?_
  · rw [← tablePlaces_eq]
    exact Finset.subset_union_left.trans Finset.subset_union_left
  obtain ⟨f1, rfl, hf1, ha1, hc1⟩ := hn1 hne
  refine .bind ((ha1.descend hr hc1 hf1 (by simp) (opens_cons _ _ _ _) _).mono fun pd s2 h2 => ?_)
  obtain ⟨hiff2, hn2⟩ := h2
  refine .ite (fun h0 => .pure (hfail ?_ (mt hiff2.mpr (not_not.mpr h0)))) fun hne => ?_
  · rw [← tablePlaces_eq]
    exact Finset.subset_union_left
  obtain ⟨f2, rfl, hf2, ha2, hc2⟩ := hn2 hne
  refine .bind ((ha2.descend hr hc2 hf2 (by simp) (opens_cons _ _ _ _) _).mono fun pt s3 h3 => ?_)
  obtain ⟨hiff3, hn3⟩ := h3
  rw [tablePlaces_eq] at hiff3 hn3
  refine .ite (fun h0 => .pure (hfail (Finset.Subset.refl _) (mt hiff3.mpr (not_not.mpr h0)))) fun hne => ?_
  obtain ⟨f, rfl, hf, ha, hc3⟩ := hn3 hne
  -- the tables that were made do not map the page
  have hvac3 : s3.node r (vaPath va) = none := by
    have hplaced := congrFun ha.placed (vaPath va)
    rw [withPlaces, not_placed hvac, decide_eq_false (vaPath_notMem_tablePlaces va)] at hplaced
    exact Option.not_isSome_iff_eq_none.mp (Bool.eq_false_iff.mp hplaced)
  have habs := vacant_entry hf hvac3
  refine .bind (.look ?_)
  rw [mul_div_page]
  refine .ite (fun hpres => ?_) fun _ => ?_
  · rw [habs] at hpres
    cases hpres
  refine .bind (.put (.pure ?_))
  rw [mul_div_page]
  exact ⟨⟨fun _ => hiff3.mp hne, fun _ => rfl⟩, fun _ => ha.setEntry hc3 hf habs hflags⟩

theorem price_vaPlaces (hvac : s.node r (vaPath va) = none) :
    price (s.placed r) (vaPlaces va) = price (s.placed r) (tablePlaces va) + 1 := by
  have hlack : withPlaces (s.placed r) (tablePlaces va) (vaPath va) = false := by
    rw [withPlaces, not_placed hvac, decide_eq_false (vaPath_notMem_tablePlaces va)]
    rfl
  have hunion : vaPlaces va = tablePlaces va ∪ {vaPath va} := by
    rw [vaPlaces, Finset.union_comm]
    rfl
  rw [hunion, price_union, price_singleton_of_lacking hlack]

/-- **A fresh page** can be mapped exactly if its address is vacant and there are as many
free pages as places are missing on the way to it. -/
theorem mapFresh_ready (h : Ready s) (hs : s.space r = some space) (hr : r ≠ 0) (hva : UserVa va)
    (halign : va % 4096 = 0) (hflags : hasFlag flags vmPresent = true) :
    Lockstep Eq (mapFresh r va flags) s fun ok s' =>
      (ok = true ↔ s.node r (vaPath va) = none ∧ price (s.placed r) (vaPlaces va) ≤ s.free) ∧
        (ok = true → Adds s s' r (vaPlaces va)) := by
  by_cases hvac : s.node r (vaPath va) = none
  · rw [price_vaPlaces hvac]
    have hfail : ∀ {s' : State}, ¬ price (s.placed r) (tablePlaces va) + 1 ≤ s.free →
        (false = true ↔ s.node r (vaPath va) = none ∧
          price (s.placed r) (tablePlaces va) + 1 ≤ s.free) ∧
        (false = true → Adds s s' r (vaPlaces va)) := fun hno =>
      ⟨⟨fun h0 => absurd h0 Bool.false_ne_true, fun hle => absurd hle.2 hno⟩,
        fun h0 => absurd h0 Bool.false_ne_true⟩
    refine .bind ((pmmAllocPage_ready h).mono fun pa s1 ⟨hiff, hpa⟩ => ?_)
    refine .ite (fun h0 => .pure (hfail fun hle => ?_)) fun hne => ?_
    · exact hiff.mpr (by omega) h0
    obtain ⟨c, rfl, ht⟩ := hpa hne
    have hplaced : s1.placed r = s.placed r := funext fun q => congrArg Option.isSome (ht.node r q)
    have hmap := vmmMap_ready ht.ready (ht.space ▸ hs) hr hva halign ((ht.node r _).trans hvac)
      ht.pending hflags
    have hpaid := ht.paid
    refine .bind (hmap.mono fun ok s2 ⟨hiff2, hok2⟩ => .ite (fun htrue => .pure ?_) fun hfalse => ?_)
    · obtain ⟨hready, hpaid2, hplaced2⟩ := hok2 htrue
      rw [hplaced] at hplaced2 hpaid2
      refine ⟨⟨fun _ => ⟨hvac, by omega⟩, fun _ => rfl⟩, fun _ => ⟨hready, hplaced2, ?_⟩⟩
      rw [price_vaPlaces hvac]
      omega
    · rw [hplaced] at hiff2
      refine .bind (.of_post (.pure (hfail fun hle => ?_)))
      exact hfalse (hiff2.mpr (by omega))
  · have hspec := (mapFresh_spec h.layout hs (.user hr hva.2) flags).post.2.2
    refine .of_post ?_
    cases hok : (mapFresh r va flags s).1 with
    | false =>
      exact ⟨⟨fun h0 => absurd h0 Bool.false_ne_true, fun hle => absurd hle.1 hvac⟩,
        fun h0 => absurd h0 Bool.false_ne_true⟩
    | true =>
      rw [hok] at hspec
      exact absurd hspec.vacant hvac

end Map

end Exyde.Mem
