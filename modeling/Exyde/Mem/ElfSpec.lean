import Exyde.Mem.Noninterference
import Exyde.Mem.Places
import Exyde.Mem.TableMap

/-! # When `elf_load` succeeds, and what it leaves

Which headers the loop turns down, which segments it can map, and what the pages hold
when it has come through. A segment is mapped if none of its pages is, and there is
memory for the pages and for the tables on the way to them. -/

namespace Exyde.Mem

open Exyde.Lib Finset
open Pmm (pageUp pageDown)

variable {s s' s0 : State} {r : Nat} {space : Space} {ph : Phdr} {size : Nat}

/-! ## Mapping the pages of a segment -/

def rangePlaces (base n : Nat) : Finset Path :=
  (Finset.range n).biUnion fun i => vaPlaces (base + i * 4096)

theorem rangePlaces_succ (base n : Nat) :
    rangePlaces base (n + 1) = rangePlaces base n ∪ vaPlaces (base + n * 4096) := by
  rw [rangePlaces, range_add_one, biUnion_insert, union_comm]
  rfl

theorem rangePlaces_mono (base : Nat) {m n : Nat} (h : m ≤ n) : rangePlaces base m ⊆ rangePlaces base n :=
  biUnion_subset_biUnion_of_subset_left _ (range_mono h)

theorem vaPath_mem_vaPlaces {a b : Nat} : vaPath a ∈ vaPlaces b ↔ vaPath a = vaPath b := by
  rw [vaPlaces, mem_insert]
  refine ⟨fun h => h.resolve_right fun hmem => ?_, .inl⟩
  exact absurd (length_of_mem_tablePlaces hmem) (by simp)

theorem vaPath_mem_rangePlaces {a base n : Nat} (ha : a < 2 ^ 48) (hend : base + n * 4096 ≤ 2 ^ 48)
    (halign : base % 4096 = 0) :
    vaPath a ∈ rangePlaces base n ↔ base ≤ a ∧ a < base + n * 4096 := by
  simp only [rangePlaces, mem_biUnion, mem_range, vaPath_mem_vaPlaces]
  constructor
  · rintro ⟨i, hi, hp⟩
    have hpage := vaPath_inj ha (by omega) hp
    omega
  · rintro ⟨h1, h2⟩
    exact ⟨(a - base) / 4096, by omega, vaPath_congr (by omega)⟩

def Vacant (s : State) (r base n : Nat) : Prop :=
  ∀ i < n, s.node r (vaPath (base + i * 4096)) = none

theorem placed_false {p : Path} : s.placed r p = false ↔ s.node r p = none := by
  rw [State.placed, Option.isSome_eq_false_iff, Option.isNone_iff_eq_none]

theorem Adds.vacant_next {base i : Nat} (h : Adds s s' r (rangePlaces base i))
    (hend : base + i * 4096 < 2 ^ 48) (halign : base % 4096 = 0) :
    s'.node r (vaPath (base + i * 4096)) = none ↔ s.node r (vaPath (base + i * 4096)) = none := by
  have hno : vaPath (base + i * 4096) ∉ rangePlaces base i := by
    rw [vaPath_mem_rangePlaces hend (by omega) halign]
    omega
  rw [← placed_false, ← placed_false, h.placed, withPlaces, decide_eq_false hno, Bool.or_false]

/-- **The mapping loop** comes to its end exactly if the pages are vacant and there is
memory for them. -/
theorem mapLoop_ready (h : Ready s) (hs : s.space r = some space) (hr : r ≠ 0) {base n : Nat}
    (halign : base % 4096 = 0) (hlow : userVaBase ≤ base) (hend : base + n * 4096 ≤ 2 ^ 48) :
    Lockstep Eq (Prog.upFrom (fun i => mapFresh r (base + i * 4096) vmUserPage) n 0) s fun m s' =>
      (m = n ↔ Vacant s r base n ∧ price (s.placed r) (rangePlaces base n) ≤ s.free) ∧
        (m = n → Adds s s' r (rangePlaces base n)) := by
  have hloop := Lockstep.upFrom (E := Eq) (f := fun i => mapFresh r (base + i * 4096) vmUserPage)
    (J := fun i s' => Vacant s r base i ∧ Adds s s' r (rangePlaces base i) ∧ s'.space = s.space)
    (K := fun i s' => ¬ (Vacant s r base n ∧ price (s.placed r) (rangePlaces base n) ≤ s.free)) n 0
    (fun i s1 _ hi ⟨hvac, ha, hsp⟩ => by
      have hva : UserVa (base + i * 4096) := ⟨by omega, by omega⟩
      have hmap := mapFresh_ready ha.ready (hsp ▸ hs) hr hva (by omega)
        (by decide : hasFlag vmUserPage vmPresent = true)
      have hspec := mapFresh_spec ha.ready.layout (hsp ▸ hs) (.user hr hva.2) vmUserPage
      refine (hmap.both hspec).mono fun ok s2 ⟨⟨hiff, hok⟩, _, hb, _⟩ => ?_
      rw [ha.vacant_next (by omega) halign, ← ha.affords_iff, ← rangePlaces_succ] at hiff
      split
      next hk =>
        obtain ⟨hnone, hpay⟩ := hiff.mp hk
        refine ⟨fun j hj => ?_, ?_, hb.space.trans hsp⟩
        · rcases Nat.lt_succ_iff_lt_or_eq.mp hj with hj | rfl
          · exact hvac j hj
          · exact hnone
        · rw [rangePlaces_succ]
          exact ha.trans (hok hk)
      next hk =>
        rintro ⟨hall, hpay⟩
        refine hk (hiff.mpr ⟨hall i (by omega), ?_⟩)
        exact Nat.le_trans (price_mono (rangePlaces_mono base (by omega))) hpay)
    (s := s) ⟨fun j hj => absurd hj (by omega), .refl h r, rfl⟩
  refine hloop.mono fun m s' hm => ?_
  rcases hm with ⟨hmn, hvac, ha, _⟩ | ⟨_, hlt, hno⟩
  · obtain rfl : m = n := by omega
    refine ⟨⟨fun _ => ⟨hvac, ?_⟩, fun _ => rfl⟩, fun _ => ha⟩
    rw [← ha.paid]
    exact Nat.le_add_left _ _
  · exact ⟨⟨fun hmn => by omega, fun hall => absurd hall hno⟩, fun hmn => by omega⟩

/-! ## What the tables say of the pages -/

/-- Since `s0` the pages with the addresses `N` were mapped in the space `r` as pages of a
process, and no entry of another page was written. -/
structure Shown (s0 : State) (r : Nat) (N : Nat → Prop) (s : State) : Prop where
  space : s.space = s0.space
  new : ∀ a, N a → ∃ c < 2 ^ 18, s.wordAt r a = pteFor (c * 4096) (flagsToPte vmUserPage)
  old : ∀ r' p i, p.length = 3 → (∀ a, N a → ¬ (r' = r ∧ i :: p = vaPath a)) →
    s.word r' p i = s0.word r' p i

namespace Shown

variable {N N' : Nat → Prop}

theorem refl (s : State) (r : Nat) : Shown s r (fun _ => False) s :=
  ⟨rfl, fun _ h => h.elim, fun _ _ _ _ _ => rfl⟩

section

variable (h : Shown s0 r N s)

include h

theorem congr (hN : ∀ a, N' a ↔ N a) : Shown s0 r N' s := by
  rwa [show N' = N from funext fun a => propext (hN a)]

theorem setsWord {va c : Nat} (hc : c < 2 ^ 18) (hspace : s'.space = s.space)
    (hset : SetsWord s s' r va (pteFor (c * 4096) (flagsToPte vmUserPage))) :
    Shown s0 r (fun a => N a ∨ a / 4096 = va / 4096) s' where
  space := hspace.trans h.space
  new a ha := by
    rw [State.wordAt, hset _ _ _ (vaTable_length a)]
    by_cases hp : vaTable a = vaTable va ∧ idxPt a = idxPt va
    · rw [if_pos ⟨rfl, hp⟩]
      exact ⟨c, hc, rfl⟩
    · rw [if_neg fun h0 => hp h0.2]
      refine h.new a (ha.resolve_right fun hpg => hp ?_)
      have hpath := vaPath_congr hpg
      exact ⟨(List.cons.inj hpath).2, (List.cons.inj hpath).1⟩
  old r' p i hp hno := by
    rw [hset r' p i hp, if_neg]
    · exact h.old r' p i hp fun a ha => hno a (.inl ha)
    · rintro ⟨hr, rfl, rfl⟩
      exact hno va (.inr rfl) ⟨hr, rfl⟩

theorem sameWords (hspace : s'.space = s.space) (hw : SameWords s s') :
    Shown s0 r N s' where
  space := hspace.trans h.space
  new a ha := by
    rw [State.wordAt, hw _ _ _ (vaTable_length a)]
    exact h.new a ha
  old r' p i hp hno := by
    rw [hw r' p i hp]
    exact h.old r' p i hp hno

theorem query (ht : Tabled s) (hs : s.space r = some space) {a : Nat}
    (hN : N a) (ha : UserVa a) : ∃ pa, s.vmmQuery r (pageDown a) = some (pa, vmUserPage) := by
  have hpath := vaPath_congr (pageDown_div a)
  rw [vaPath_eq, vaPath_eq] at hpath
  obtain ⟨hidx, htab⟩ := List.cons.inj hpath
  obtain ⟨c, hc, hword⟩ := h.new a hN
  rw [State.wordAt] at hword
  have hbits : LowBits (flagsToPte vmUserPage) := flagsToPte_lowBits (by decide)
  refine ⟨c * 4096, ?_⟩
  rw [ht.vmmQuery_eq hs, if_neg (not_not.mpr (Pmm.pageDown_aligned a)), ha.pageDown.home, State.wordAt,
    htab, hidx, hword, entryView, present_pteFor hbits, if_pos rfl,
    pteAddr_pteFor (Nat.lt_of_lt_of_le hc (by decide)) hbits, pteToFlags_pteFor _ (by decide)]

theorem query_other (ht0 : Tabled s0) (ht : Tabled s)
    (hr : r ≠ 0) (huser : ∀ a, N a → UserVa a)
    (hpage : ∀ a b, a / 4096 = b / 4096 → N a → N b) (r' : Nat) {a : Nat} (ha : a < 2 ^ 48)
    (hno : ¬ (r' = r ∧ N a)) : s.vmmQuery r' a = s0.vmmQuery r' a := by
  cases hs : s0.space r' with
  | none => rw [vmmQuery_dead hs, vmmQuery_dead (h.space ▸ hs)]
  | some space =>
    rw [ht.vmmQuery_eq (h.space ▸ hs), ht0.vmmQuery_eq hs, State.wordAt,
      h.old _ _ _ (vaTable_length a)]
    rintro b hb ⟨hhome, hpath⟩
    have hab := vaPath_inj ha (huser b hb).2 hpath
    -- the page has its tables in the space itself, which is not the kernel's
    have hr' : r' = r := by
      unfold home at hhome
      split at hhome
      · exact absurd hhome.symm hr
      · exact hhome
    exact hno ⟨hr', hpage b a hab.symm hb⟩

end

end Shown

theorem Twin.sameWords (ht : Twin s s') : SameWords s s' := by
  intro r p i hp
  have htab : s'.table r p = s.table r p := by
    rw [table_eq_node s' r (Nat.le_of_eq hp), table_eq_node s r (Nat.le_of_eq hp), ht.node]
  cases hf : s.table r p with
  | none => rw [word_none hf, word_none (htab.trans hf)]
  | some f =>
    rw [word_of hf, word_of (htab.trans hf), ht.tables ⟨r, p, node_of_table hf, by omega⟩]

theorem mapFresh_words (h : Tabled s) (hs : s.space r = some space) {va : Nat} (hva : Mappable r va)
    (flags : BitVec 32) : Lockstep Eq (mapFresh r va flags) s fun ok s' => Kept s s' ∧
      (ok = true → ∃ c < 2 ^ 18, SetsWord s s' r va (pteFor (c * 4096) (flagsToPte flags))) := by
  refine (mapFresh_tabled h hs hva flags).both (.bind (?_ : Lockstep Eq _ s _))
  refine (pmmAllocPage_tabled h).mono fun pa s1 ⟨hg1, _, hpa⟩ => ?_
  refine .ite (fun _ => .pure fun h0 => absurd h0 Bool.false_ne_true) fun hne => ?_
  obtain ⟨c, rfl, _, _, _, hc⟩ := hpa hne
  refine .bind ((vmmMap_tabled hg1.tabled (hg1.space ▸ hs) hva _ flags).mono fun ok s2 hok => ?_)
  refine .ite (fun htrue => .pure fun _ => ⟨c, hc, ?_⟩) fun _ => ?_
  · rw [if_pos htrue] at hok
    obtain ⟨_, _, _, _, _, _, hset⟩ := hok
    intro r' p i hp
    rw [hset r' p i hp, hg1.words r' p i hp]
  · exact .bind (.of_post (.pure fun h0 => absurd h0 Bool.false_ne_true))

theorem mapLoop_shown {N : Nat → Prop} (h : Tabled s) (hs : s.space r = some space)
    (hN : Shown s0 r N s) {base n : Nat} (hva : ∀ i < n, Mappable r (base + i * 4096)) :
    Lockstep Eq (Prog.upFrom (fun i => mapFresh r (base + i * 4096) vmUserPage) n 0) s fun m s' =>
      m = n → Shown s0 r (fun a => N a ∨ ∃ i < n, a / 4096 = (base + i * 4096) / 4096) s' := by
  have hloop := Lockstep.upFrom (E := Eq) (f := fun i => mapFresh r (base + i * 4096) vmUserPage)
    (J := fun i s' => Kept s s' ∧
      Shown s0 r (fun a => N a ∨ ∃ j < i, a / 4096 = (base + j * 4096) / 4096) s')
    (K := fun _ _ => True) n 0
    (fun i s1 _ hi ⟨hk, hsh⟩ => by
      have hmap := mapFresh_words hk.tabled (hk.space ▸ hs) (hva i (by omega)) vmUserPage
      refine hmap.mono fun ok s2 ⟨hk2, hok⟩ => ?_
      split
      next htrue =>
        obtain ⟨c, hc, hset⟩ := hok htrue
        refine ⟨hk.trans hk2, (hsh.setsWord hc hk2.space hset).congr fun a => ?_⟩
        rw [or_assoc]
        refine or_congr_right ⟨?_, ?_⟩
        · rintro ⟨j, hj, ha⟩
          rcases Nat.lt_succ_iff_lt_or_eq.mp hj with hj | rfl
          · exact .inl ⟨j, hj, ha⟩
          · exact .inr ha
        · rintro (⟨j, hj, ha⟩ | ha)
          · exact ⟨j, by omega, ha⟩
          · exact ⟨i, by omega, ha⟩
      · trivial)
    (s := s) ⟨⟨h, rfl, rfl⟩, hN.congr fun a => by simp⟩
  refine hloop.mono fun m s' hm hmn => ?_
  rcases hm with ⟨_, _, hsh⟩ | ⟨_, hlt, _⟩
  · rwa [hmn] at hsh
  · omega

/-! ## Segments -/

namespace Phdr

def pageCount (ph : Phdr) : Nat := (ph.stop - ph.start) / 4096

def places (ph : Phdr) : Finset Path := rangePlaces ph.start ph.pageCount

theorem Fits.stop_eq (h : ph.Fits size) : ph.start + ph.pageCount * 4096 = ph.stop := by
  have h1 := h.start_aligned
  have h2 := h.stop_aligned
  have h3 := h.start_le
  have h4 := h.le_stop
  unfold pageCount
  omega

theorem Fits.userVa (h : ph.Fits size) {a : Nat} (ha : ph.Pages a) : UserVa a := by
  have h1 := h.low
  have h2 := h.high
  have htop : userVaTop < 2 ^ 48 := by decide
  exact ⟨Nat.le_trans h1 ha.1, by have := ha.2; omega⟩

theorem Fits.pages_iff (h : ph.Fits size) (a : Nat) :
    ph.Pages a ↔ ∃ i < ph.pageCount, a / 4096 = (ph.start + i * 4096) / 4096 := by
  have h1 := h.start_aligned
  have h2 := h.stop_eq
  constructor
  · intro ⟨hlo, hhi⟩
    exact ⟨(a - ph.start) / 4096, by omega, by omega⟩
  · intro ⟨i, hi, ha⟩
    exact ⟨by omega, by omega⟩

theorem Fits.mem_places (h : ph.Fits size) {a : Nat} (ha : a < 2 ^ 48) :
    vaPath a ∈ ph.places ↔ ph.Pages a := by
  have hhigh := h.high
  have htop : userVaTop < 2 ^ 48 := by decide
  rw [places, vaPath_mem_rangePlaces ha (by rw [h.stop_eq]; omega) h.start_aligned, h.stop_eq]
  rfl

def Vacant (s : State) (r : Nat) (ph : Phdr) : Prop := ∀ a, ph.Pages a → s.node r (vaPath a) = none

theorem Fits.vacant_iff (h : ph.Fits size) : Mem.Vacant s r ph.start ph.pageCount ↔ ph.Vacant s r := by
  constructor
  · intro hv a ha
    obtain ⟨i, hi, hpg⟩ := (h.pages_iff a).mp ha
    rw [vaPath_congr hpg]
    exact hv i hi
  · exact fun hv i hi => hv _ ((h.pages_iff _).mpr ⟨i, hi, rfl⟩)

end Phdr

def Phdr.Mappable (s : State) (r : Nat) (ph : Phdr) : Prop :=
  ph.Vacant s r ∧ price (s.placed r) ph.places ≤ s.free

theorem mapSegment_ready (h : Ready s) (hs : s.space r = some space) (hr : r ≠ 0)
    (hfit : ph.Fits size) : Lockstep Eq (mapSegment r ph) s fun ok s' =>
      (ok = true ↔ ph.Mappable s r) ∧ (ok = true → Adds s s' r ph.places) := by
  have hhigh := hfit.high
  have htop : userVaTop < 2 ^ 48 := by decide
  have hloop := mapLoop_ready h hs hr hfit.start_aligned hfit.low
    (n := ph.pageCount) (by rw [hfit.stop_eq]; omega)
  refine .bind (hloop.mono fun m s' ⟨hiff, hadds⟩ => .pure ?_)
  rw [hfit.vacant_iff] at hiff
  rw [decide_eq_true_iff]
  exact ⟨hiff, hadds⟩

variable {N : Nat → Prop}

theorem mapSegment_shown (h : Tabled s) (hs : s.space r = some space) (hr : r ≠ 0)
    (hN : Shown s0 r N s) (hfit : ph.Fits size) : Lockstep Eq (mapSegment r ph) s fun ok s' =>
      ok = true → Shown s0 r (fun a => N a ∨ ph.Pages a) s' := by
  have hva : ∀ i < ph.pageCount, Mappable r (ph.start + i * 4096) := fun i hi =>
    .user hr (hfit.userVa ((hfit.pages_iff _).mpr ⟨i, hi, rfl⟩)).2
  refine .bind ((mapLoop_shown h hs hN hva).mono fun m s' hm => .pure fun hok => ?_)
  refine (hm (of_decide_eq_true hok)).congr fun a => ?_
  rw [hfit.pages_iff]

theorem userRangeOk_of_pages {va n : Nat}
    (h : ∀ a, va ≤ a → a < va + n → UserVa a ∧ s.userPage r (pageDown a) = true)
    (htop : va + n ≤ userVaTop) : s.userRangeOk r va n = true := by
  have hmax : userVaTop < 2 ^ 64 := by decide
  refine (userRangeOk_iff (by omega) (by omega)).mpr (or_iff_not_imp_left.mpr fun hn => ?_)
  refine ⟨(h va (Nat.le_refl _) (by omega)).1.1, htop, fun page h1 h2 h3 => ?_⟩
  -- the page is that of its first address in the range
  have hpage : pageDown (max va page) = page := by
    unfold pageDown
    omega
  rw [← hpage]
  exact (h _ (Nat.le_max_left ..) (by omega)).2

def Phdr.Served (s : State) (r : Nat) (ph : Phdr) : Prop :=
  ∀ a, ph.Pages a → s.userPage r (pageDown a) = true

theorem Phdr.Served.twin (h : ph.Served s r) (hl : Layout s) (ht : Twin s s') : ph.Served s' r := by
  intro a ha
  rw [State.userPage, ht.vmmQuery hl]
  exact h a ha

theorem Phdr.Served.copy (h : ph.Served s r) (hA : Active s r space) (hfit : ph.Fits size) (va : Nat)
    (bs : List Byte) (hlow : ph.vaddr ≤ va) (hhigh : va + bs.length ≤ ph.vaddr + ph.memsz) :
    Lockstep Eq (copyToUser r va bs) s fun ok s' => ok = true ∧ Twin s s' := by
  have h1 := hfit.high
  have h2 := hfit.le_stop
  have h3 := hfit.start_le
  have htop : userVaTop < 2 ^ 64 := by decide
  have hlen : bs.length < 2 ^ 64 := by omega
  have hva : va < 2 ^ 64 := by omega
  refine .of_post ⟨?_, (copyToUser_spec hA.layout hA.live hA.loaded hA.user hlen hva).post.1⟩
  rw [copyToUser_ok hA.layout hA.live hA.loaded hA.user hlen hva]
  refine userRangeOk_of_pages (fun a ha1 ha2 => ?_) (by omega)
  have hpage : ph.Pages a := ⟨by omega, by omega⟩
  exact ⟨hfit.userVa hpage, h a hpage⟩

theorem Phdr.Served.zeroSegment (h : ph.Served s r) (hA : Active s r space) (hfit : ph.Fits size) :
    Lockstep Eq (zeroSegment r ph) s fun ok s' => ok = true ∧ Twin s s' := by
  have hloop := Lockstep.upFrom (E := Eq)
    (f := fun i => copyToUser r (ph.vaddr + i * 4096)
      (List.replicate (min (ph.memsz - i * 4096) 4096) 0#8))
    (J := fun _ s' => Twin s s') (K := fun _ _ => False) ((ph.memsz + 4095) / 4096) 0
    (fun i s1 _ hi ht => by
      have hcopy := (h.twin hA.layout ht).copy (hA.twin ht) hfit (ph.vaddr + i * 4096)
        (List.replicate (min (ph.memsz - i * 4096) 4096) 0#8) (by omega)
        (by rw [List.length_replicate]; omega)
      refine hcopy.mono fun ok s2 ⟨hok, ht2⟩ => ?_
      rw [if_pos hok]
      exact ht.trans ht2)
    (s := s) (.refl s)
  refine .bind (hloop.mono fun m s' hm => .pure ?_)
  rcases hm with ⟨hmn, ht⟩ | ⟨_, _, hno⟩
  · exact ⟨decide_eq_true (by omega), ht⟩
  · exact hno.elim

theorem Ready.twin (h : Ready s) (ht : Twin s s') : Ready s' :=
  ⟨ht.layout h.layout, ht.pmm ▸ h.zero⟩

theorem Adds.twin {s'' : State} {A : Finset Path} (h : Adds s s' r A) (ht : Twin s' s'') :
    Adds s s'' r A where
  ready := h.ready.twin ht
  placed := by
    rw [← h.placed]
    exact funext fun p => congrArg Option.isSome (ht.node r p)
  paid := by
    rw [State.free, ht.pmm]
    exact h.paid

/-- Where the pages of a segment are mapped for the user, the rest of the loop body is
not left early. -/
theorem Phdr.Served.fill (h : ph.Served s r) (hA : Active s r space) {data : List Byte}
    (hfit : ph.Fits data.length) :
    Lockstep Eq (do
      if ← Mem.zeroSegment r ph then
        if ← copyToUser r ph.vaddr ((data.drop ph.offset).take ph.filesz) then
          pure (SegEnd.loaded ph.start ph.stop)
        else pure .failed
      else pure .failed) s fun e s' => e = .loaded ph.start ph.stop ∧ Twin s s' := by
  refine .bind ((h.zeroSegment hA hfit).mono fun ok s2 ⟨hok, ht2⟩ => .ite (fun _ => ?_)
    fun hno => absurd hok hno)
  have hlen : ((data.drop ph.offset).take ph.filesz).length ≤ ph.filesz := List.length_take_le _ _
  have hfile := hfit.filesz_le
  have hcopy := (h.twin hA.layout ht2).copy (hA.twin ht2) hfit ph.vaddr
    ((data.drop ph.offset).take ph.filesz) (Nat.le_refl _) (by omega)
  refine .bind (hcopy.mono fun ok s3 ⟨hok, ht3⟩ => .ite (fun _ => .pure ?_) fun hno => absurd hok hno)
  exact ⟨rfl, ht2.trans ht3⟩

theorem Shown.served (h : Shown s0 r (fun a => N a ∨ ph.Pages a) s) (ht : Tabled s)
    (hs : s.space r = some space) (hfit : ph.Fits size) : ph.Served s r := by
  intro a ha
  obtain ⟨pa, hq⟩ := h.query ht hs (.inr ha) (hfit.userVa ha)
  rw [State.userPage, hq]
  exact (by decide : hasFlag vmUserPage vmUser = true)

/-- **A segment**, exactly: whether it is skipped, turned down, loaded or given up. -/
theorem elfSegment_ready (hA : Active s r space) (h : Ready s) (data : List Byte) (ph : Phdr) :
    Lockstep Eq (elfSegment r data ph) s fun e s' =>
      (e = .skipped ↔ ¬ ph.Loadable) ∧ (e = .skipped → s' = s) ∧
      (e = .refused ↔ ph.Loadable ∧ ph.bad data.length) ∧
      (∀ start stop, e = .loaded start stop →
        ph.Loadable ∧ ¬ ph.bad data.length ∧ ph.Mappable s r ∧ Adds s s' r ph.places ∧
          Active s' r space) ∧
      (e = .failed ↔ ph.Loadable ∧ ¬ ph.bad data.length ∧ ¬ ph.Mappable s r) := by
  refine .ite (fun hskip => .pure ?_) fun hload => ?_
  · have hno : ¬ ph.Loadable := by
      unfold Phdr.Loadable
      omega
    simp [hno]
  have hyes : ph.Loadable := by
    unfold Phdr.Loadable
    omega
  refine .ite (fun hbad => .pure (by simp [hyes, hbad])) fun hbad => ?_
  have hfit := Phdr.fits hbad
  have hready := mapSegment_ready h hA.live hA.user hfit
  have hshown := mapSegment_shown h.layout.tabled hA.live hA.user (.refl s r) hfit
  have hactive := mapSegment_spec hA (.refl s r) hfit
  refine .bind (((hready.both hshown).both hactive).mono
    fun ok s1 ⟨⟨⟨hiff, hadds⟩, hshow⟩, hA1, _⟩ => .ite (fun hk => ?_) fun hk => .pure ?_)
  · have hm := hiff.mp hk
    have hserved := (hshow hk).served hA1.layout.tabled hA1.live hfit
    refine (hserved.fill hA1 hfit).mono fun e s2 ⟨he, ht⟩ => ?_
    have hloaded := And.intro ((hadds hk).twin ht) (hA1.twin ht)
    simp [he, hyes, hbad, hm, hloaded]
  · have hm : ¬ ph.Mappable s r := fun hm => hk (hiff.mpr hm)
    simp [hyes, hbad, hm]

theorem elfSegment_shown (hA : Active s r space) (hN : Shown s0 r N s)
    (data : List Byte) (ph : Phdr) : Lockstep Eq (elfSegment r data ph) s fun e s' =>
      (e = .skipped → Shown s0 r N s') ∧
        ∀ start stop, e = .loaded start stop → Shown s0 r (fun a => N a ∨ ph.Pages a) s' := by
  refine .ite (fun hskip => .pure ⟨fun _ => hN, fun _ _ h0 => SegEnd.noConfusion h0⟩) fun hload => ?_
  refine .ite (fun hbad => .pure ⟨fun _ => hN, fun _ _ h0 => SegEnd.noConfusion h0⟩) fun hbad => ?_
  have hfit := Phdr.fits hbad
  have hshown := mapSegment_shown hA.layout.tabled hA.live hA.user hN hfit
  have hactive := mapSegment_spec hA (.refl s r) hfit
  refine .bind ((hshown.both hactive).mono fun ok s1 ⟨hshow, hA1, _⟩ => .ite (fun hk => ?_) fun hk =>
    .pure ⟨fun h0 => SegEnd.noConfusion h0, fun _ _ h0 => SegEnd.noConfusion h0⟩)
  have hserved := (hshow hk).served hA1.layout.tabled hA1.live hfit
  refine (hserved.fill hA1 hfit).mono fun e s2 ⟨he, ht⟩ => ⟨fun h0 => ?_, fun _ _ _ => ?_⟩
  · rw [he] at h0
    cases h0
  · exact (hshow hk).sameWords ht.space ht.sameWords

/-! ## Images -/

def elfPlaces : List Phdr → Finset Path
  | [] => ∅
  | ph :: phs => (if ph.Loadable then ph.places else ∅) ∪ elfPlaces phs

/-- The segments can all be loaded: none is turned down, their pages are not mapped, and
there is memory for the pages and the tables. -/
structure Clear (s : State) (r size : Nat) (phs : List Phdr) : Prop where
  good : ∀ ph ∈ phs, ph.Loadable → ¬ ph.bad size
  vacant : ∀ ph ∈ phs, ph.Loadable → ph.Vacant s r
  apart : phs.Pairwise fun ph ph' => ph.Loadable → ph'.Loadable → ∀ a, ph.Pages a → ¬ ph'.Pages a
  room : price (s.placed r) (elfPlaces phs) ≤ s.free

namespace Clear

variable {phs : List Phdr}

theorem nil (s : State) (r size : Nat) : Clear s r size [] where
  good _ h := absurd h List.not_mem_nil
  vacant _ h := absurd h List.not_mem_nil
  apart := .nil
  room := Nat.zero_le _

theorem skip (hno : ¬ ph.Loadable) : Clear s r size (ph :: phs) ↔ Clear s r size phs := by
  have hplaces : elfPlaces (ph :: phs) = elfPlaces phs := by
    rw [elfPlaces, if_neg hno, empty_union]
  constructor
  · intro h
    refine ⟨fun q hq => h.good q (List.mem_cons_of_mem _ hq),
      fun q hq => h.vacant q (List.mem_cons_of_mem _ hq), (List.pairwise_cons.mp h.apart).2, ?_⟩
    rw [← hplaces]
    exact h.room
  · intro h
    refine ⟨List.forall_mem_cons.mpr ⟨fun hl => absurd hl hno, h.good⟩,
      List.forall_mem_cons.mpr ⟨fun hl => absurd hl hno, h.vacant⟩,
      List.pairwise_cons.mpr ⟨fun _ _ hl => absurd hl hno, h.apart⟩, ?_⟩
    rw [hplaces]
    exact h.room

/-- Where a segment has been loaded, the others can be if their pages are still vacant and
there is memory left. -/
theorem loaded (hload : ph.Loadable) (hfit : ph.Fits size) (hbad : ¬ ph.bad size)
    (hm : ph.Mappable s r) (hadds : Adds s s' r ph.places) :
    Clear s r size (ph :: phs) ↔ Clear s' r size phs := by
  have hplaces : elfPlaces (ph :: phs) = ph.places ∪ elfPlaces phs := by
    rw [elfPlaces, if_pos hload]
  have hnode : ∀ {a}, UserVa a →
      (s'.node r (vaPath a) = none ↔ s.node r (vaPath a) = none ∧ ¬ ph.Pages a) := by
    intro a ha
    rw [← placed_false, ← placed_false, hadds.placed, withPlaces, Bool.or_eq_false_iff,
      decide_eq_false_iff_not, hfit.mem_places ha.2]
  constructor
  · intro h
    obtain ⟨hap, hrest⟩ := List.pairwise_cons.mp h.apart
    have hgood := fun q hq => h.good q (List.mem_cons_of_mem _ hq)
    refine ⟨hgood, fun q hq hl a ha => ?_, hrest, ?_⟩
    · have hua := (Phdr.fits (hgood q hq hl)).userVa ha
      exact (hnode hua).mpr ⟨h.vacant q (List.mem_cons_of_mem _ hq) hl a ha,
        fun hp => hap q hq hload hl a hp ha⟩
    · rw [← hadds.affords_iff, ← hplaces]
      exact h.room
  · intro h
    have hboth : ∀ q ∈ phs, q.Loadable → ∀ a, q.Pages a →
        s.node r (vaPath a) = none ∧ ¬ ph.Pages a := fun q hq hl a ha =>
      (hnode ((Phdr.fits (h.good q hq hl)).userVa ha)).mp (h.vacant q hq hl a ha)
    refine ⟨List.forall_mem_cons.mpr ⟨fun _ => hbad, h.good⟩,
      List.forall_mem_cons.mpr ⟨fun _ => hm.1, fun q hq hl a ha => (hboth q hq hl a ha).1⟩,
      List.pairwise_cons.mpr ⟨fun q hq _ hl a hp ha => (hboth q hq hl a ha).2 hp, h.apart⟩, ?_⟩
    rw [hplaces, hadds.affords_iff]
    exact h.room

theorem head (h : Clear s r size (ph :: phs)) (hload : ph.Loadable) :
    ¬ ph.bad size ∧ ph.Mappable s r := by
  refine ⟨h.good ph List.mem_cons_self hload, h.vacant ph List.mem_cons_self hload,
    Nat.le_trans (price_mono ?_) h.room⟩
  rw [elfPlaces, if_pos hload]
  exact subset_union_left

end Clear

/-- The loop meets a header that it turns down: all before it can be loaded. -/
def Refuses (s : State) (r size : Nat) (phs : List Phdr) : Prop :=
  ∃ pre ph post, phs = pre ++ ph :: post ∧ Clear s r size pre ∧ ph.Loadable ∧ ph.bad size

namespace Refuses

variable {phs : List Phdr}

theorem not_nil : ¬ Refuses s r size [] := by
  rintro ⟨pre, ph, post, heq, _⟩
  simp at heq

theorem cons_iff : Refuses s r size (ph :: phs) ↔ (ph.Loadable ∧ ph.bad size) ∨
    ∃ pre q post, phs = pre ++ q :: post ∧ Clear s r size (ph :: pre) ∧ q.Loadable ∧ q.bad size := by
  constructor
  · rintro ⟨pre, q, post, heq, hc, hq⟩
    cases pre with
    | nil =>
      obtain ⟨rfl, rfl⟩ := List.cons.inj heq
      exact .inl hq
    | cons p pre =>
      obtain ⟨rfl, rfl⟩ := List.cons.inj heq
      exact .inr ⟨pre, q, post, rfl, hc, hq⟩
  · rintro (hq | ⟨pre, q, post, rfl, hc, hq⟩)
    · exact ⟨[], ph, phs, rfl, .nil s r size, hq⟩
    · exact ⟨ph :: pre, q, post, rfl, hc, hq⟩

end Refuses

/-- **The loop over the headers**, exactly. -/
theorem elfSegments_ready (data : List Byte) (phs : List Phdr) (lowest highest loaded : Nat)
    (hA : Active s r space) (h : Ready s) :
    Lockstep Eq (elfSegments r data phs lowest highest loaded) s fun e _ =>
      ((∃ lo hi n, e = .through lo hi n) ↔ Clear s r data.length phs) ∧
        (e = .refused ↔ Refuses s r data.length phs) := by
  have hstop : ∀ {e : LoadEnd}, e = .refused ∨ e = .failed → ¬ ∃ lo hi n, e = .through lo hi n := by
    rintro e (rfl | rfl) ⟨lo, hi, n, he⟩ <;> cases he
  induction phs generalizing s lowest highest loaded with
  | nil =>
    refine .pure ⟨⟨fun _ => .nil s r _, fun _ => ⟨_, _, _, rfl⟩⟩, ⟨fun h0 => LoadEnd.noConfusion h0, fun hr => ?_⟩⟩
    exact (Refuses.not_nil hr).elim
  | cons ph phs ih =>
    have hstep := elfSegment_ready hA h data ph
    refine .bind (hstep.mono fun e s1 ⟨hskip, hsame, href, hload, hfail⟩ => ?_)
    cases e with
    | skipped =>
      have hno := hskip.mp rfl
      obtain rfl := hsame rfl
      refine (ih lowest highest loaded hA h).mono fun e s2 ⟨hthrough, hrefused⟩ => ?_
      rw [Clear.skip hno, Refuses.cons_iff]
      refine ⟨hthrough, hrefused.trans ⟨fun ⟨pre, q, post, heq, hc, hq⟩ =>
        .inr ⟨pre, q, post, heq, (Clear.skip hno).mpr hc, hq⟩, fun hr => ?_⟩⟩
      obtain ⟨pre, q, post, heq, hc, hq⟩ := hr.resolve_left fun h0 => hno h0.1
      exact ⟨pre, q, post, heq, (Clear.skip hno).mp hc, hq⟩
    | refused =>
      obtain ⟨hl, hbad⟩ := href.mp rfl
      refine .pure ⟨⟨fun h0 => (hstop (.inl rfl) h0).elim, fun hc => absurd hbad (hc.head hl).1⟩, ?_⟩
      exact ⟨fun _ => Refuses.cons_iff.mpr (.inl ⟨hl, hbad⟩), fun _ => rfl⟩
    | failed =>
      obtain ⟨hl, hbad, hm⟩ := hfail.mp rfl
      refine .pure ⟨⟨fun h0 => (hstop (.inr rfl) h0).elim, fun hc => absurd (hc.head hl).2 hm⟩, ?_⟩
      refine ⟨fun h0 => LoadEnd.noConfusion h0, fun hr => ?_⟩
      rcases Refuses.cons_iff.mp hr with ⟨_, hb⟩ | ⟨pre, q, post, _, hc, _⟩
      · exact absurd hb hbad
      · exact absurd (hc.head hl).2 hm
    | loaded start stop =>
      obtain ⟨hl, hbad, hm, hadds, hA1⟩ := hload start stop rfl
      have hcl : ∀ pre, Clear s r data.length (ph :: pre) ↔ Clear s1 r data.length pre := fun _ =>
        Clear.loaded hl (Phdr.fits hbad) hbad hm hadds
      refine (ih _ _ _ hA1 hadds.ready).mono fun e s2 ⟨hthrough, hrefused⟩ => ?_
      rw [hcl, Refuses.cons_iff]
      refine ⟨hthrough, hrefused.trans ⟨fun ⟨pre, q, post, heq, hc, hq⟩ =>
        .inr ⟨pre, q, post, heq, (hcl pre).mpr hc, hq⟩, fun hr => ?_⟩⟩
      obtain ⟨pre, q, post, heq, hc, hq⟩ := hr.resolve_left fun h0 => hbad h0.2
      exact ⟨pre, q, post, heq, (hcl pre).mp hc, hq⟩

end Exyde.Mem
