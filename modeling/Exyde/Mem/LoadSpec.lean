import Exyde.Mem.Fresh

/-! # What the loader and the stack builder do

For every way `elf_load` and `exec_build_initial_stack` can end the layout is kept; and
where they succeed: which pages the space has got, and which bytes of them were written.
-/

namespace Exyde.Mem

open List
open Exyde.Lib (Prog Lockstep)
open Pmm (pageUp pageDown)

variable {s s' s0 : State} {r : Nat} {space : Space} {N : Nat → Prop} {img : Image} {ph : Phdr}
  {size : Nat} {data : List Byte}

structure Active (s : State) (r : Nat) (space : Space) : Prop where
  layout : Layout s
  live : s.space r = some space
  user : r ≠ 0
  loaded : s.cr3 = space.pml4

theorem Active.twin (h : Active s r space) (ht : Twin s s') : Active s' r space :=
  ⟨ht.layout h.layout, ht.space ▸ h.live, h.user, ht.cr3.trans h.loaded⟩

theorem Active.builds (h : Active s r space) (h' : Layout s') (hb : Builds s s') :
    Active s' r space :=
  ⟨h', hb.space ▸ h.live, h.user, hb.cr3.trans h.loaded⟩

theorem Active.copy (h : Active s r space) (hF : Filled s0 r N img s) (va : Nat) {bs : List Byte}
    (hlen : bs.length < 2 ^ 64) (hva : va < 2 ^ 64) :
    Lockstep Twin (copyToUser r va bs) s fun ok s' => Active s' r space ∧
      (ok = true → Filled s0 r N (img.write va bs) s' ∧ ∀ a, va ≤ a → a < va + bs.length → UserVa a) :=
  (copyToUser_spec h.layout h.live h.loaded h.user hlen hva).mono fun _ _ ⟨htw, hok⟩ =>
    ⟨h.twin htw, fun hk => ⟨hF.wrote h.layout htw (hok hk), fun a h1 h2 =>
      ((hok hk).mapped a h1 h2).1⟩⟩

/-! ## Segments -/

def Phdr.Loadable (ph : Phdr) : Prop := ph.type = 1 ∧ ph.memsz ≠ 0
  deriving Decidable

def Phdr.Pages (ph : Phdr) (a : Nat) : Prop := ph.start ≤ a ∧ a < ph.stop

/-- What `elf_load` writes for a segment: zeros, and the bytes of the file over them. -/
def Phdr.image (ph : Phdr) (data : List Byte) (img : Image) : Image :=
  (img.write ph.vaddr (List.replicate ph.memsz 0#8)).write ph.vaddr
    ((data.drop ph.offset).take ph.filesz)

/-- The segment fills its pages: it starts and ends on a page boundary. -/
def Phdr.Whole (ph : Phdr) : Prop := ph.vaddr % 4096 = 0 ∧ (ph.vaddr + ph.memsz) % 4096 = 0

/-- The geometry of a segment that was not turned down. -/
structure Phdr.Fits (ph : Phdr) (size : Nat) : Prop where
  low : userVaBase ≤ ph.start
  start_aligned : ph.start % 4096 = 0
  start_le : ph.start ≤ ph.vaddr
  start_near : ph.vaddr < ph.start + 4096
  le_stop : ph.vaddr + ph.memsz ≤ ph.stop
  stop_near : ph.stop < ph.vaddr + ph.memsz + 4096
  stop_aligned : ph.stop % 4096 = 0
  high : ph.stop ≤ userVaTop
  filesz_le : ph.filesz ≤ ph.memsz
  inFile : ph.offset + ph.filesz ≤ size

theorem Phdr.fits (h : ¬ ph.bad size) : ph.Fits size := by
  simp only [Phdr.bad, not_or, Nat.not_lt, gt_iff_lt] at h
  obtain ⟨h1, h2, h3, h4, h5, h6, h7⟩ := h
  have hlow : ph.start = ph.vaddr / 4096 * 4096 := rfl
  have hhigh : ph.stop = (ph.vaddr + ph.memsz + 4095) % 2 ^ 64 / 4096 * 4096 := rfl
  change ph.start ≤ ph.stop at h6
  change ph.stop ≤ userVaTop at h7
  have hbase : userVaBase = 0x8000000000 := rfl
  constructor <;> omega

theorem mapSegment_spec (h : Active s r space) (hF : Filled s0 r N img s)
    (hfit : ph.Fits size) :
    Lockstep Twin (mapSegment r ph) s fun ok s' => Active s' r space ∧
      (ok = true → Filled s0 r (fun a => N a ∨ ph.Pages a) img s' ∧
        ∀ a, ph.Pages a → UserVa a ∧ ¬ N a ∧ img a = none) := by
  have htop : userVaTop = 0x800000000000 := rfl
  have huser : ∀ i < (ph.stop - ph.start) / 4096, ph.start + i * 4096 < 2 ^ 48 := by
    intro i hi
    have := hfit.high
    omega
  have hloop := mapLoop_spec h.layout h.live (fun i hi => .user h.user (huser i hi)) vmUserPage
  refine .bind (hloop.mono fun m s' ⟨h', hb, _, hm⟩ => .pure ⟨h.builds h' hb, fun hk => ?_⟩)
  have hmn := of_decide_eq_true hk
  rcases hm with ⟨_, hmaps⟩ | hlt
  · have hpages : ∀ a, (∃ i < (ph.stop - ph.start) / 4096,
        a / 4096 = (ph.start + i * 4096) / 4096) ↔ ph.Pages a := by
      intro a
      have h1 := hfit.start_aligned
      have h2 := hfit.stop_aligned
      constructor
      · intro ⟨i, hi, ha⟩
        exact ⟨by omega, by omega⟩
      · intro ⟨hlo, hhi⟩
        exact ⟨(a - ph.start) / 4096, by omega, by omega⟩
    have hfill := hF.maps h' hb hmaps huser
    simp only [hpages] at hfill
    refine ⟨hfill, fun a ha => ?_⟩
    have hua : UserVa a := by
      have h1 := hfit.low
      have h2 := hfit.high
      exact ⟨Nat.le_trans h1 ha.1, by have := ha.2; omega⟩
    -- the page was not mapped before, so neither new nor written
    obtain ⟨i, hi, hpg⟩ := (hpages a).mpr ha
    have hvac : s.node r (vaPath a) = none := by
      rw [vaPath_congr hpg]
      exact hmaps.vacant i hi
    refine ⟨hua, fun hN => ((hF.new hua).mp hN).2 hvac, ?_⟩
    by_contra hne
    exact hF.written hua hne hvac
  · omega

/-- Bytes written one after the other are bytes written at once. -/
theorem Image.write_append (img : Image) (va : Nat) (bs cs : List Byte) :
    (img.write va bs).write (va + bs.length) cs = img.write va (bs ++ cs) := by
  funext a
  simp only [Image.write, length_append, getD_eq_getElem?_getD]
  by_cases hlo : va ≤ a ∧ a < va + bs.length
  · rw [if_neg (by omega), if_pos hlo, if_pos (by omega), List.getElem?_append_left (by omega)]
  · rw [if_neg hlo]
    by_cases hhi : va + bs.length ≤ a ∧ a < va + bs.length + cs.length
    · rw [if_pos hhi, if_pos (by omega), List.getElem?_append_right (by omega), Nat.sub_sub]
    · rw [if_neg hhi, if_neg (by omega)]

theorem Image.write_append_down (img : Image) (va : Nat) (bs cs : List Byte) :
    (img.write (va + bs.length) cs).write va bs = img.write va (bs ++ cs) := by
  rw [← Image.write_append]
  funext a
  simp only [Image.write]
  by_cases hlo : va ≤ a ∧ a < va + bs.length
  · rw [if_pos hlo, if_neg (by omega)]
    rw [if_pos hlo]
  · rw [if_neg hlo, if_neg hlo]

theorem Image.write_nil (img : Image) (va : Nat) : img.write va [] = img := by
  funext a
  exact if_neg (by rw [length_nil]; omega)

theorem zeroSegment_spec (h : Active s r space) (hF : Filled s0 r N img s)
    (hfit : ph.Fits size) :
    Lockstep Twin (zeroSegment r ph) s fun ok s' => Active s' r space ∧
      (ok = true → Filled s0 r N (img.write ph.vaddr (List.replicate ph.memsz 0#8)) s') := by
  have hnext : ∀ i, i * 4096 < ph.memsz →
      min ph.memsz ((i + 1) * 4096) = i * 4096 + min (ph.memsz - i * 4096) 4096 := by omega
  have htop : userVaTop = 0x800000000000 := rfl
  have hhigh := hfit.high
  have hstop := hfit.le_stop
  have hloop := Lockstep.upFrom (E := Twin)
    (f := fun i => copyToUser r (ph.vaddr + i * 4096)
      (List.replicate (min (ph.memsz - i * 4096) 4096) 0#8))
    (J := fun i s' => Active s' r space ∧
      Filled s0 r N (img.write ph.vaddr (List.replicate (min ph.memsz (i * 4096)) 0#8)) s')
    (K := fun _ s' => Active s' r space) ((ph.memsz + 4095) / 4096) 0
    (fun i s1 _ hi ⟨h₁, hF1⟩ => by
      have hmin : min ph.memsz (i * 4096) = i * 4096 := by omega
      refine (h₁.copy hF1 _ (by rw [length_replicate]; omega) (by omega)).mono
        fun ok s2 ⟨h₂, hok⟩ => ?_
      split
      next hk =>
        refine ⟨h₂, ?_⟩
        have hF2 := (hok hk).1
        rw [hmin] at hF2
        have happ := Image.write_append img ph.vaddr (List.replicate (i * 4096) 0#8)
          (List.replicate (min (ph.memsz - i * 4096) 4096) 0#8)
        rw [length_replicate, replicate_append_replicate] at happ
        rwa [hnext i (by omega), ← happ]
      · exact h₂)
    (s := s) ⟨h, by
      rw [Nat.zero_mul, Nat.min_zero, replicate_zero, Image.write_nil]
      exact hF⟩
  refine .bind (hloop.mono fun m s' hm => .pure ?_)
  rcases hm with ⟨hmn, h', hF'⟩ | ⟨_, hlt, h'⟩
  · refine ⟨h', fun _ => ?_⟩
    rwa [hmn, show min ph.memsz ((0 + (ph.memsz + 4095) / 4096) * 4096) = ph.memsz by omega] at hF'
  · refine ⟨h', fun hk => ?_⟩
    have := of_decide_eq_true hk
    omega

structure Loads (s0 : State) (r : Nat) (N : Nat → Prop) (img : Image) (data : List Byte) (ph : Phdr)
    (s' : State) : Prop where
  fits : ph.Fits data.length
  filled : Filled s0 r (fun a => N a ∨ ph.Pages a) (ph.image data img) s'
  apart : ∀ a, ph.Pages a → UserVa a ∧ ¬ N a ∧ img a = none

theorem elfSegment_spec (h : Active s r space) (hF : Filled s0 r N img s) (data : List Byte)
    (ph : Phdr) :
    Lockstep Twin (elfSegment r data ph) s fun e s' => Active s' r space ∧
      match e with
      | .skipped => ¬ ph.Loadable ∧ Filled s0 r N img s'
      | .loaded start stop => ph.Loadable ∧ start = ph.start ∧ stop = ph.stop ∧
          Loads s0 r N img data ph s'
      | _ => True := by
  refine .ite (fun hskip => .pure ⟨h, ?_, hF⟩) fun hload => .ite (fun _ => .pure ⟨h, trivial⟩) ?_
  · unfold Phdr.Loadable
    omega
  intro hbad
  have hfit := Phdr.fits hbad
  have htop : userVaTop = 0x800000000000 := rfl
  have hhigh := hfit.high
  have hstop := hfit.le_stop
  refine .bind ((mapSegment_spec h hF hfit).mono fun ok s1 ⟨h₁, hok1⟩ => .ite (fun hk1 => ?_) fun _ =>
    .pure ⟨h₁, trivial⟩)
  obtain ⟨hF1, hapart⟩ := hok1 hk1
  refine .bind ((zeroSegment_spec h₁ hF1 hfit).mono fun ok s2 ⟨h₂, hok2⟩ => .ite (fun hk2 => ?_)
    fun _ => .pure ⟨h₂, trivial⟩)
  have hlen : ((data.drop ph.offset).take ph.filesz).length ≤ ph.filesz := length_take_le _ _
  have hfile := hfit.filesz_le
  refine .bind ((h₂.copy (hok2 hk2) _ (by omega) (by omega)).mono fun ok s3 ⟨h₃, hok3⟩ =>
    .ite (fun hk3 => .pure ⟨h₃, ?_⟩) fun _ => .pure ⟨h₃, trivial⟩)
  exact ⟨by unfold Phdr.Loadable; omega, rfl, rfl, hfit, (hok3 hk3).1, hapart⟩

/-! ## Images -/

def elfPages : List Phdr → (Nat → Prop) → Nat → Prop
  | [], N => N
  | ph :: phs, N => elfPages phs (if ph.Loadable then fun a => N a ∨ ph.Pages a else N)

def elfBytes (data : List Byte) : List Phdr → Image → Image
  | [], img => img
  | ph :: phs, img => elfBytes data phs (if ph.Loadable then ph.image data img else img)

theorem Phdr.image_ne_none (hfit : ph.Fits data.length) (a : Nat) :
    ph.image data img a ≠ none ↔ (ph.vaddr ≤ a ∧ a < ph.vaddr + ph.memsz) ∨ img a ≠ none := by
  have hlen : ((data.drop ph.offset).take ph.filesz).length ≤ ph.filesz := length_take_le _ _
  have hfile := hfit.filesz_le
  simp only [Phdr.image, Image.write, length_replicate]
  split
  · exact ⟨fun _ => .inl (by omega), fun _ => by simp⟩
  · split
    next hin => exact ⟨fun _ => .inl hin, fun _ => by simp⟩
    next hout => exact ⟨.inr, fun h => h.resolve_left hout⟩

theorem covered_segment (hfit : ph.Fits data.length)
    (hload : ph.Loadable) (hapart : ∀ a, ph.Pages a → UserVa a ∧ ¬ N a ∧ img a = none) :
    Covered (fun a => N a ∨ ph.Pages a) (ph.image data img) ↔ Covered N img ∧ ph.Whole := by
  have h1 := hfit.start_le
  have h2 := hfit.le_stop
  have h3 := hfit.start_near
  have h4 := hfit.stop_near
  have h5 := hfit.start_aligned
  have h6 := hfit.stop_aligned
  have hmem : ph.memsz ≠ 0 := hload.2
  constructor
  · intro hcov
    have hpage : ∀ a, ph.Pages a → ph.vaddr ≤ a ∧ a < ph.vaddr + ph.memsz := by
      intro a ha
      obtain ⟨hu, _, hnone⟩ := hapart a ha
      exact ((Phdr.image_ne_none hfit a).mp (hcov a hu (.inr ha))).resolve_right (by simp [hnone])
    refine ⟨fun a hu hN => ?_, ?_⟩
    · have hne := hcov a hu (.inl hN)
      rcases (Phdr.image_ne_none hfit a).mp hne with hin | hne
      · exact absurd hN (hapart a ⟨by omega, by omega⟩).2.1
      · exact hne
    · have hfirst := hpage ph.start ⟨by omega, by omega⟩
      have hlast := hpage (ph.stop - 1) ⟨by omega, by omega⟩
      exact ⟨by omega, by omega⟩
  · intro ⟨hcov, hw1, hw2⟩ a hu hN
    rw [Phdr.image_ne_none hfit]
    rcases hN with hN | ⟨ha1, ha2⟩
    · exact .inr (hcov a hu hN)
    · exact .inl ⟨by omega, by omega⟩

/-- **The segments of an image**, loaded one after the other. -/
theorem elfSegments_spec (data : List Byte) (phs : List Phdr) (lowest highest loaded : Nat)
    (h : Active s r space) (hF : Filled s0 r N img s) :
    Lockstep Twin (elfSegments r data phs lowest highest loaded) s fun e s' => Active s' r space ∧
      match e with
      | .through _ _ _ => Filled s0 r (elfPages phs N) (elfBytes data phs img) s' ∧
          (Covered (elfPages phs N) (elfBytes data phs img) ↔
            Covered N img ∧ ∀ ph ∈ phs, ph.Loadable → ph.Whole)
      | _ => True := by
  induction phs generalizing s N img lowest highest loaded with
  | nil => exact .pure ⟨h, hF, by simp [elfPages, elfBytes]⟩
  | cons ph phs ih =>
    refine .bind ((elfSegment_spec h hF data ph).mono fun e s1 ⟨h₁, he⟩ => ?_)
    cases e with
    | skipped =>
      obtain ⟨hno, hF1⟩ := he
      refine (ih lowest highest loaded h₁ hF1).mono fun e s2 ⟨h₂, he2⟩ => ⟨h₂, ?_⟩
      cases e with
      | through =>
        simp only [elfPages, elfBytes, if_neg hno, forall_mem_cons]
        exact ⟨he2.1, he2.2.trans (by simp [hno])⟩
      | refused | failed => trivial
    | refused | failed => exact .pure ⟨h₁, trivial⟩
    | loaded start stop =>
      obtain ⟨hload, _, _, hl⟩ := he
      refine (ih _ _ _ h₁ hl.filled).mono fun e s2 ⟨h₂, he2⟩ => ⟨h₂, ?_⟩
      cases e with
      | through =>
        simp only [elfPages, elfBytes, if_pos hload, forall_mem_cons]
        refine ⟨he2.1, he2.2.trans ?_⟩
        rw [covered_segment hl.fits hload hl.apart]
        simp [hload, and_assoc]
      | refused | failed => trivial

/-! ## Switching to a space and back -/

theorem vmmSwitch_spec (sp : Nat) : Lockstep Twin (vmmSwitch sp) s fun _ s' =>
    ∃ a, s' = s.setCr3 a ∧ ∀ space, s.space sp = some space → a = space.pml4 := by
  refine .bind (.read (fun t ht => ht.space ▸ rfl) ?_)
  cases hs : s.space sp with
  | none => exact .pure ⟨s.cr3, rfl, fun _ h => by cases h⟩
  | some space =>
    exact .change (fun t ht => ht.setCr3 _)
      ⟨space.pml4, rfl, fun _ h => congrArg Space.pml4 (Option.some.inj h)⟩

theorem enter_spec {cur : Nat} (h : Layout s) (hs : s.space r = some space) (hr : r ≠ 0)
    (hcur : cur = r → s.cr3 = space.pml4) (hF : Filled s0 r N img s) :
    Lockstep Twin (switchIf (decide (cur ≠ r)) r) s fun _ s' => Active s' r space ∧
      Filled s0 r N img s' := by
  refine .ite (fun _ => (vmmSwitch_spec r).mono fun _ s' ⟨a, hs', ha⟩ => ?_) fun hno => .pure ?_
  · subst hs'
    exact ⟨⟨h.setCr3 a, hs, hr, ha space hs⟩, hF.setCr3 a⟩
  · have hcr3 := hcur (by simpa using hno)
    exact ⟨⟨h, hs, hr, hcr3⟩, hF⟩

theorem leave_spec (need : Bool) (target : Nat) :
    Lockstep Twin (switchIf need target) s fun _ s' => ∃ a, s' = s.setCr3 a :=
  .ite (fun _ => (vmmSwitch_spec target).mono fun _ _ ⟨a, hs', _⟩ => ⟨a, hs'⟩)
    fun _ => .pure ⟨s.cr3, rfl⟩

/-- **`elf_load`** keeps the layout. Where it succeeds, the space has got the
pages of the loadable segments, and all of their bytes were written exactly if
every such segment fills its pages. -/
theorem elfLoad_spec {cur : Nat} (h : Layout s) (hs : s.space r = some space) (hr : r ≠ 0)
    (hcur : cur = r → s.cr3 = space.pml4) (data : List Byte) :
    Lockstep Twin (elfLoad cur r data) s fun out s' => Layout s' ∧
      (out ≠ none → ∃ entry phs, elfHeader data = some (entry, phs) ∧
        Filled s r (elfPages phs fun _ => False) (elfBytes data phs fun _ => none) s' ∧
        (Covered (elfPages phs fun _ => False) (elfBytes data phs fun _ => none) ↔
          ∀ ph ∈ phs, ph.Loadable → ph.Whole)) := by
  unfold elfLoad
  cases hhead : elfHeader data with
  | none => exact .pure ⟨h, fun hn => absurd rfl hn⟩
  | some head =>
    obtain ⟨entry, phs⟩ := head
    refine .bind ((enter_spec h hs hr hcur (.refl s r)).mono fun _ s1 ⟨h₁, hF1⟩ => ?_)
    refine .bind ((elfSegments_spec data phs _ _ _ h₁ hF1).mono fun e s2 ⟨h₂, he⟩ => ?_)
    have hback := leave_spec (s := s2) (decide (cur ≠ r)) cur
    cases e with
    | refused => exact .pure ⟨h₂.layout, fun hn => absurd rfl hn⟩
    | failed =>
      refine .bind (hback.mono fun _ s3 ⟨a, hs3⟩ => .pure ?_)
      subst hs3
      exact ⟨h₂.layout.setCr3 a, fun hn => absurd rfl hn⟩
    | through lowest highest loaded =>
      refine .bind (hback.mono fun _ s3 ⟨a, hs3⟩ => ?_)
      subst hs3
      refine .ite (fun _ => .pure ⟨h₂.layout.setCr3 a, fun hn => absurd rfl hn⟩) fun _ =>
        .pure ⟨h₂.layout.setCr3 a, fun _ => ⟨entry, phs, rfl, he.1.setCr3 a, ?_⟩⟩
      exact he.2.trans ⟨fun hc => hc.2, fun hc => ⟨fun _ _ hN => hN.elim, hc⟩⟩

end Exyde.Mem
