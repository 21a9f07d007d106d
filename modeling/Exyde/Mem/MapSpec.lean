import Exyde.Mem.LoadSpec

/-! # Mapping and unmapping ranges

`map_initrd`, `sys_map` and `sys_unmap`, with their ways back out of a range that could
not be mapped to its end. -/

namespace Exyde.Mem

open State
open Exyde.Lib (Prog Lockstep)
open Pmm (pageUp pageDown)

variable {s s' : State} {r : Nat} {space : Space} {t : State}

theorem Layout.lowerBound_user (h : Layout s) (hs : s.space r = some space) (hr : r ≠ 0) :
    lowerBound space = userVaBase := by
  have hkind : space.isKernel = false := by simpa [hr] using h.kind hs
  rw [lowerBound, hkind]
  rfl

theorem unmapLoop_spec (h : Layout s) (hs : s.space r = some space) (hr : r ≠ 0) (vas : Nat → Nat)
    {l : List Nat} (hva : ∀ i ∈ l, UserVa (vas i)) :
    Lockstep Twin (Prog.forEach (fun i => unmapFree r (vas i)) l) s fun _ s' => Layout s' :=
  (Lockstep.forEach (J := fun s' => Layout s' ∧ s'.space = s.space) l
    (fun i hi _ ⟨h', hsp⟩ => (unmapFree_spec h' (hsp ▸ hs) hr (hva i hi)).mono
      fun _ _ ⟨h'', hsp', _⟩ => ⟨h'', hsp'.trans hsp⟩) ⟨h, rfl⟩).mono fun _ _ h' => h'.1

/-! ## The initrd -/

theorem initrdPage_spec (h : Active s r space) (src : List Byte) {i : Nat}
    (hva : initrdVa + i * 4096 + 4096 ≤ 2 ^ 48) :
    Lockstep Twin (initrdPage r src i) s fun _ s' => Active s' r space := by
  have huser : ∀ bs : List Byte, bs.length ≤ 4096 →
      ∀ a, initrdVa + i * 4096 ≤ a → a < initrdVa + i * 4096 + bs.length → UserVa a := by
    intro bs hlen a h1 h2
    have hbase : userVaBase ≤ initrdVa := by decide
    exact ⟨by omega, by omega⟩
  have hzero : (List.replicate 4096 0#8).length ≤ 4096 := Nat.le_of_eq List.length_replicate
  have hpart : ((src.drop (i * 4096)).take 4096).length ≤ 4096 := List.length_take_le _ _
  have hmappable : Mappable r (initrdVa + i * 4096) := .user h.user (by omega)
  refine .bind ((mapFresh_spec h.layout h.live hmappable _).mono fun ok s1 ⟨h₁, hb1, _⟩ => ?_)
  have h₁ := h.builds h₁ hb1
  refine .ite (fun _ => ?_) fun _ => .pure h₁
  refine .bind ((memcpyToUser_spec h₁.layout h₁.live h₁.loaded h₁.user (huser _ hzero)).mono
    fun _ s2 ⟨ht2, _⟩ => ?_)
  have h₂ := h₁.twin ht2
  refine .bind ((memcpyToUser_spec h₂.layout h₂.live h₂.loaded h₂.user (huser _ hpart)).mono
    fun _ s3 ⟨ht3, _⟩ => .pure (h₂.twin ht3))

/-- An object that fits into the lower half of the address space. -/
def Blob := { l : List Byte // l.length < 2 ^ 47 }

theorem mapInitrd_spec {cur : Nat} (h : Layout s) (hs : s.space r = some space) (hr : r ≠ 0)
    (hcur : cur = r → s.cr3 = space.pml4) (src : Blob) :
    Lockstep Twin (mapInitrd cur r src.val) s fun _ s' => Layout s' := by
  refine .ite (fun _ => .pure h) fun _ => ?_
  refine .bind (.read (fun t ht => ?_) (.ite (fun _ => .pure h) fun _ => ?_))
  · simp only [ht.vmmQuery h]
  refine .bind ((enter_spec h hs hr hcur (.refl s r)).mono fun _ s1 ⟨h₁, _⟩ => ?_)
  have hsize := src.property
  have hbase : initrdVa = 0x8002000000 := rfl
  have hlow : userVaBase ≤ initrdVa := by decide
  have hloop := Lockstep.upFrom (E := Twin) (f := initrdPage r src.val)
    (J := fun _ s' => Active s' r space) (K := fun _ s' => Active s' r space)
    ((src.val.length + 4095) / 4096) 0
    (fun i s2 _ hi h₂ => (initrdPage_spec h₂ src.val (by omega)).mono fun ok s3 h3 => by
      cases ok <;> exact h3) h₁
  refine .bind (hloop.mono fun m s2 hm => ?_)
  have h₂ : Active s2 r space ∧ m ≤ (src.val.length + 4095) / 4096 := by
    rcases hm with ⟨hm, h₂⟩ | ⟨_, hm, h₂⟩
    · exact ⟨h₂, by omega⟩
    · exact ⟨h₂, by omega⟩
  obtain ⟨h₂, hle⟩ := h₂
  refine .ite (fun _ => ?_) fun _ => ?_
  · refine .bind ((leave_spec _ cur).mono fun _ s3 ⟨a, hs3⟩ => .pure ?_)
    exact hs3 ▸ h₂.layout.setCr3 a
  · have hundo := unmapLoop_spec (l := List.range m) h₂.layout h₂.live hr
      (fun i => initrdVa + i * 4096) fun i hi => by
        have := List.mem_range.mp hi
        exact ⟨by omega, by omega⟩
    refine .bind (hundo.mono fun _ s3 h3 => .bind ((leave_spec _ cur).mono
      fun _ s4 ⟨a, hs4⟩ => .pure ?_))
    exact hs4 ▸ h3.setCr3 a

/-! ## sys_map -/

theorem Twin.firstMapped (ht : Twin s t) (h : Layout s) (r base n : Nat) :
    t.firstMapped r base n = s.firstMapped r base n := by
  simp only [State.firstMapped, ht.vmmQuery h]

theorem Twin.findFrom (ht : Twin s t) (h : Layout s) (r npages limit fuel cand : Nat) :
    t.findFrom r npages limit fuel cand = s.findFrom r npages limit fuel cand := by
  induction fuel generalizing cand with
  | zero => rfl
  | succ fuel ih => simp only [State.findFrom, ht.firstMapped h, ih]

theorem Twin.mapBase (ht : Twin s t) (h : Layout s) (r nextMapVa hint npages : Nat) :
    t.mapBase r nextMapVa hint npages = s.mapBase r nextMapVa hint npages := by
  simp only [State.mapBase, State.findMapVa, ht.firstMapped h, ht.findFrom h]

theorem findFrom_le (s : State) (r npages limit fuel cand : Nat) :
    s.findFrom r npages limit fuel cand ≤ limit := by
  induction fuel generalizing cand with
  | zero => exact Nat.zero_le _
  | succ fuel ih =>
    rw [findFrom]
    split
    next hle =>
      split
      · exact hle
      · exact ih _
    · exact Nat.zero_le _

/-- `npages` unmapped pages from `base` on, not below `low` and below the stack. -/
structure Fitting (s : State) (r npages low base : Nat) : Prop where
  aligned : base % 4096 = 0
  low : low ≤ base
  fits : base + npages * 4096 ≤ userStackTopInit
  free : ∀ i < npages, s.vmmQuery r (base + i * 4096) = none

theorem findFrom_least (s : State) {r npages limit fuel cand : Nat}
    (hlimit : limit + npages * 4096 = userStackTopInit) (hal : cand % 4096 = 0)
    (hfuel : limit < cand + fuel * 4096) :
    (s.findFrom r npages limit fuel cand = 0 ∧ ∀ base, ¬ Fitting s r npages cand base) ∨
      IsLeast { base | Fitting s r npages cand base } (s.findFrom r npages limit fuel cand) := by
  have htop : userStackTopInit = 0x8001000000 := rfl
  induction fuel generalizing cand with
  | zero => exact .inl ⟨rfl, fun base hb => by have := hb.low; have := hb.fits; omega⟩
  | succ fuel ih =>
    rw [findFrom]
    by_cases hle : cand ≤ limit
    · rw [if_pos hle]
      cases hfirst : s.firstMapped r cand npages with
      | none =>
        refine .inr ⟨⟨hal, Nat.le_refl _, by dsimp only; omega, fun i hi => ?_⟩, fun b hb => hb.low⟩
        have hi' := List.find?_eq_none.mp hfirst i (List.mem_range.mpr hi)
        rw [Nat.mod_eq_of_lt (by omega)] at hi'
        simpa using hi'
      | some i =>
        have hi : i < npages := List.mem_range.mp (List.mem_of_find?_eq_some hfirst)
        have hmapped := List.find?_some hfirst
        rw [Nat.mod_eq_of_lt (by omega)] at hmapped
        have hup : pageUp (cand + (i + 1) * 4096) = cand + (i + 1) * 4096 := by
          unfold pageUp
          omega
        -- a range that begins at or below the mapped page has it in it
        have hpast : ∀ base, Fitting s r npages cand base ↔
            Fitting s r npages (cand + (i + 1) * 4096) base := by
          refine fun base => ⟨fun hb => { hb with low := ?_ }, fun hb => { hb with low := ?_ }⟩
          · by_contra hlt
            obtain ⟨hmod, hlow, _, hfree⟩ := hb
            have hmem := hfree ((cand + i * 4096 - base) / 4096) (by omega)
            rw [show base + (cand + i * 4096 - base) / 4096 * 4096 = cand + i * 4096 by omega] at hmem
            simp [hmem] at hmapped
          · exact Nat.le_trans (Nat.le_add_right ..) hb.low
        simp only [hpast, hup]
        exact ih (by omega) (by omega)
    · rw [if_neg hle]
      exact .inl ⟨rfl, fun base hb => by have := hb.low; have := hb.fits; omega⟩

/-- **`find_map_va` is first fit**: it finds the lowest place for the pages, or there is none. -/
theorem findMapVa_first_fit (s : State) (r nextMapVa : Nat) {npages : Nat} (hn : npages * 4096 < 2 ^ 64) :
    (s.findMapVa r nextMapVa npages = 0 ∧ ∀ base, ¬ Fitting s r npages (pageUp nextMapVa) base) ∨
      IsLeast { base | Fitting s r npages (pageUp nextMapVa) base } (s.findMapVa r nextMapVa npages) := by
  simp only [findMapVa, Nat.mod_eq_of_lt hn]
  split
  next hlong => exact .inl ⟨rfl, fun base hb => by have := hb.fits; omega⟩
  · exact findFrom_least s (by omega) (Nat.mul_mod_left ..) (by omega)

/-- One page is mapped, at 0x8000010000. -/
def onePage : State where
  pmm := ⟨fun _ => 0, fun _ => 0, 0, 0, 0⟩
  mem f i := if f < 4 ∨ i = 16 then BitVec.ofNat 64 ((f + 1) * 4096 + 7) else 0
  space _ := some ⟨4096, 1, false⟩
  nextSpace := 2
  heapEnd := 0
  cr3 := 4096

theorem findMapVa_first_fit_past :
    IsLeast { base | Fitting onePage 1 2 (pageUp 0x8000010000) base } 0x8000011000 := by
  have hfound : onePage.findMapVa 1 0x8000010000 2 = 0x8000011000 := by decide +kernel
  have hfit := findMapVa_first_fit onePage 1 0x8000010000 (show 2 * 4096 < 2 ^ 64 by decide)
  rw [hfound] at hfit
  exact hfit.resolve_left fun hnone => absurd hnone.1 (by decide)

theorem findMapVa_high {nextMapVa npages : Nat} (hn : npages ≤ mapMaxPages)
    (hb : s.findMapVa r nextMapVa npages ≠ 0) :
    s.findMapVa r nextMapVa npages + npages * 4096 ≤ userStackTopInit := by
  have hmax : mapMaxPages = 1024 := rfl
  simp only [findMapVa, Nat.mod_eq_of_lt (show npages * 4096 < 2 ^ 64 by omega)] at hb ⊢
  split at hb
  · exact absurd rfl hb
  next hfits =>
    rw [if_neg hfits]
    have hle := findFrom_le s r npages (userStackTopInit - npages * 4096)
      ((userStackTopInit - npages * 4096) / 4096 + 2) (pageUp nextMapVa)
    omega

theorem mapBase_high {nextMapVa hint npages base : Nat} (hhint : hint < 2 ^ 64)
    (hn : npages ≤ mapMaxPages) (hb : s.mapBase r nextMapVa hint npages = .ok base) :
    base + npages * 4096 ≤ userVaTop := by
  have hstack : userStackTopInit ≤ userVaTop := by decide
  have hmax : mapMaxPages = 1024 := rfl
  simp only [mapBase] at hb
  split at hb
  · split at hb
    · cases hb
    next hfound =>
      cases hb
      exact Nat.le_trans (findMapVa_high hn hfound) hstack
  · -- an address that was asked for: each check that fails is an error
    split at hb
    · cases hb
    split at hb
    · cases hb
    split at hb
    · cases hb
    next hstop =>
      split at hb
      · cases hb
      · cases hb
        omega

def MapPages (base npages a : Nat) : Prop := base ≤ a ∧ a < base + npages * 4096

/-- **`sys_map`** keeps the layout; where it succeeds the space has got the
pages of the range, and nothing was written to them. -/
theorem sysMap_spec (h : Layout s) (hs : s.space r = some space) (hr : r ≠ 0)
    {nextMapVa hint npages : Nat} (hhint : hint < 2 ^ 64) (flags : BitVec 64) :
    Lockstep Twin (sysMap r nextMapVa hint npages flags) s fun out s' => Layout s' ∧
      ∀ base, out.1 = .ok base → 0 < npages ∧ UserVa base ∧
        Filled s r (MapPages base npages) (fun _ => none) s' := by
  refine .ite (fun _ => .pure ⟨h, fun _ hno => by cases hno⟩) fun hn => ?_
  refine .ite (fun _ => .pure ⟨h, fun _ hno => by cases hno⟩) fun _ => ?_
  refine .bind (.read (fun t ht => ht.mapBase h _ _ _ _) ?_)
  cases hbase : s.mapBase r nextMapVa hint npages with
  | error e => exact .pure ⟨h, fun _ hno => by cases hno⟩
  | ok base =>
    have hhigh := mapBase_high hhint (by omega) hbase
    have htop : userVaTop = 0x800000000000 := rfl
    have huser : ∀ i < npages, base + i * 4096 < 2 ^ 48 := by omega
    have hloop := mapLoop_spec h hs (fun i hi => .user hr (huser i hi)) (mapFlags flags)
    refine .bind (hloop.mono fun m s' ⟨h', hb, hlow, hm⟩ => ?_)
    rw [h.lowerBound_user hs hr] at hlow
    refine .ite (fun hmn => .pure ⟨h', fun base' hout => ?_⟩) fun hmn => ?_
    · cases hout
      rcases hm with ⟨_, hmaps⟩ | hlt
      · have hset : (fun a => False ∨ ∃ i < npages, a / 4096 = (base + i * 4096) / 4096) =
            MapPages base npages := by
          have halign := hmaps.aligned 0 (by omega)
          funext a
          apply propext
          unfold MapPages
          constructor
          · intro ha
            obtain ⟨i, hi, hpg⟩ := ha.resolve_left id
            omega
          · intro ⟨h1, h2⟩
            exact .inr ⟨(a - base) / 4096, by omega, by omega⟩
        have hfirst := hlow 0 (by omega)
        rw [← hset]
        exact ⟨by omega, ⟨by omega, by omega⟩, (Filled.refl s r).maps h' hb hmaps huser⟩
      · omega
    · have hundo := unmapLoop_spec (l := List.range m) h' (hb.space ▸ hs) hr
        (fun i => base + i * 4096) fun i hi => by
          have hi := List.mem_range.mp hi
          exact ⟨hlow i hi, huser i (by omega)⟩
      exact .bind (hundo.mono fun _ s2 h₂ => .pure ⟨h₂, fun _ hno => by cases hno⟩)

/-! ## sys_unmap -/

theorem vmmQuery_zero (h : Layout s) (hs : s.space r = some space) : s.vmmQuery r 0 = none := by
  obtain ⟨pd, hpd, _, hhuge⟩ := h.identity
  have hpt : s.node 0 (vaTable 0) = none := by
    rw [show vaTable 0 = [0, 0, 0] by decide, node_cons_of hpd]
    cases hc : childOf 0 [0, 0] 0 (s.mem pd 0) with
    | none => rfl
    | some c => rw [(childOf_some hc).2.2.1 (by decide)] at hhuge; cases hhuge
  have hleaf := walkLeaf_eq h.rooted hs 0
  rw [show home r 0 = 0 from if_pos (by decide), hpt] at hleaf
  simp only [vmmQuery, leafEntry, hleaf]
  rfl

/-- The range of `sys_unmap` does not wrap: one that does has a page at address 0. -/
theorem unmapRange (h : Layout s) (hs : s.space r = some space) {vaddr npages : Nat}
    (hva : vaddr < 2 ^ 64) (hlow : ¬ vaddr < userVaBase) (halign : ¬ vaddr % 4096 ≠ 0)
    (hstop : ¬ ((vaddr + npages * 4096 % 2 ^ 64) % 2 ^ 64 < vaddr ∨
      (vaddr + npages * 4096 % 2 ^ 64) % 2 ^ 64 > userVaTop))
    (hholes : ¬ ((List.range npages).any fun i =>
      (s.vmmQuery r ((vaddr + i * 4096) % 2 ^ 64)).isNone) = true) :
    vaddr + npages * 4096 ≤ userVaTop ∧ ∀ i < npages, s.vmmQuery r (vaddr + i * 4096) ≠ none := by
  have hall : ∀ i < npages, s.vmmQuery r ((vaddr + i * 4096) % 2 ^ 64) ≠ none := by
    intro i hi hnone
    exact hholes (List.any_eq_true.mpr ⟨i, List.mem_range.mpr hi, by rw [hnone]; rfl⟩)
  have hbase : userVaBase = 0x8000000000 := rfl
  have hsmall : npages * 4096 < 2 ^ 64 := by
    by_contra hbig
    apply hall ((2 ^ 64 - vaddr) / 4096) (by omega)
    rw [show (vaddr + (2 ^ 64 - vaddr) / 4096 * 4096) % 2 ^ 64 = 0 by omega]
    exact vmmQuery_zero h hs
  refine ⟨by omega, fun i hi => ?_⟩
  have hq := hall i hi
  rwa [Nat.mod_eq_of_lt (by omega)] at hq

theorem sysUnmap_spec (h : Layout s) (hs : s.space r = some space) (hr : r ≠ 0) {vaddr : Nat}
    (hva : vaddr < 2 ^ 64) (npages : Nat) :
    Lockstep Twin (sysUnmap r vaddr npages) s fun _ s' => Layout s' := by
  refine .ite (fun _ => .pure h) fun _ => .ite (fun _ => .pure h) fun hlow => ?_
  refine .ite (fun _ => .pure h) fun halign => .ite (fun _ => .pure h) fun hstop => ?_
  refine .bind (.read (fun t ht => ?_) (.ite (fun _ => .pure h) fun hholes => ?_))
  · simp only [ht.vmmQuery h]
  have hend := (unmapRange h hs hva hlow halign hstop hholes).1
  have htop : userVaTop = 0x800000000000 := rfl
  have hundo := unmapLoop_spec (l := List.range npages) h hs hr
    (fun i => (vaddr + i * 4096) % 2 ^ 64) fun i hi => by
      have := List.mem_range.mp hi
      exact ⟨by omega, by omega⟩
  exact .bind (hundo.mono fun _ s2 h₂ => .pure h₂)

end Exyde.Mem
