import Exyde.Mem.ElfSpec

/-! # The image that `elf_load` builds

What the target space holds when `elf_load` has succeeded: the bytes of the file, the
zeros after them, and nothing else that is new. -/

namespace Exyde.Mem

open Exyde.Lib
open Pmm (pageUp pageDown)
open Producer (phdrs)

variable {s s' s0 : State} {r : Nat} {space : Space} {N : Nat → Prop} {img : Image}
variable {data : List Byte} {ph : Phdr} {phs : List Phdr} {k : Nat} {lo hi n lo' hi' n' : Nat}

/-! ## Bytes -/

def Phdr.byteAt (ph : Phdr) (data : List Byte) (k : Nat) : Option Byte :=
  if k < ph.filesz then data[ph.offset + k]? else some 0#8

section

variable (hfit : ph.Fits data.length)

include hfit

theorem Phdr.Fits.byteAt_isSome (k : Nat) : (ph.byteAt data k).isSome := by
  unfold Phdr.byteAt
  split
  · have := hfit.inFile
    rw [List.getElem?_eq_getElem (by omega)]
    rfl
  · rfl

theorem Phdr.Fits.pages_at (hk : k < ph.memsz) :
    ph.Pages (ph.vaddr + k) := by
  have h1 := hfit.start_le
  have h2 := hfit.le_stop
  exact ⟨by omega, by omega⟩

theorem Phdr.image_at (hk : k < ph.memsz) :
    ph.image data img (ph.vaddr + k) = ph.byteAt data k := by
  have hin := hfit.inFile
  have hlen : ((data.drop ph.offset).take ph.filesz).length = ph.filesz := by
    rw [List.length_take, List.length_drop]
    omega
  simp only [Phdr.image, Image.write, hlen, List.length_replicate, Phdr.byteAt]
  by_cases hfile : k < ph.filesz
  · have hlt : ph.offset + k < data.length := by omega
    rw [if_pos (by omega), if_pos hfile, Nat.add_sub_cancel_left, List.getD_eq_getElem?_getD,
      List.getElem?_take_of_lt hfile, List.getElem?_drop, List.getElem?_eq_getElem hlt]
    rfl
  · rw [if_neg (by omega), if_pos (by omega), if_neg hfile, Nat.add_sub_cancel_left,
      List.getD_eq_getElem?_getD, List.getElem?_replicate_of_lt hk]
    rfl

theorem Phdr.image_other {a : Nat} (ha : ¬ ph.Pages a) :
    ph.image data img a = img a := by
  have h1 := hfit.start_le
  have h2 := hfit.le_stop
  have hfile := hfit.filesz_le
  have hlen : ((data.drop ph.offset).take ph.filesz).length ≤ ph.filesz := List.length_take_le _ _
  have hout : ¬ (ph.vaddr ≤ a ∧ a < ph.vaddr + ph.memsz) := fun hin => ha ⟨by omega, by omega⟩
  simp only [Phdr.image, Image.write, List.length_replicate]
  rw [if_neg (by omega), if_neg hout]

end

def Apart (phs : List Phdr) : Prop :=
  phs.Pairwise fun ph ph' => ph.Loadable → ph'.Loadable → ∀ a, ph.Pages a → ¬ ph'.Pages a

theorem elfBytes_other (hfit : ∀ q ∈ phs, q.Loadable → q.Fits data.length) {a : Nat}
    (ha : ∀ q ∈ phs, q.Loadable → ¬ q.Pages a) : elfBytes data phs img a = img a := by
  induction phs generalizing img with
  | nil => rfl
  | cons q phs ih =>
    obtain ⟨hq, hrest⟩ := List.forall_mem_cons.mp hfit
    obtain ⟨hqa, hresta⟩ := List.forall_mem_cons.mp ha
    rw [elfBytes, ih hrest hresta]
    split
    next hl => exact Phdr.image_other (hq hl) (hqa hl)
    · rfl

/-- A later segment writes on none of the pages of an earlier one. -/
theorem elfBytes_at (hfit : ∀ q ∈ phs, q.Loadable → q.Fits data.length) (hapart : Apart phs)
    (hmem : ph ∈ phs) (hload : ph.Loadable) (hk : k < ph.memsz) :
    elfBytes data phs img (ph.vaddr + k) = ph.byteAt data k := by
  induction phs generalizing img with
  | nil => exact absurd hmem List.not_mem_nil
  | cons q phs ih =>
    obtain ⟨hq, hrest⟩ := List.forall_mem_cons.mp hfit
    obtain ⟨hap, hap'⟩ := List.pairwise_cons.mp hapart
    rw [elfBytes]
    rcases List.mem_cons.mp hmem with rfl | hmem
    · have hin := (hq hload).pages_at hk
      rw [if_pos hload, elfBytes_other hrest fun q' hq' hl' => hap q' hq' hload hl' _ hin]
      exact Phdr.image_at (hq hload) hk
    · exact ih hrest hap' hmem

theorem mem_elfPages (phs : List Phdr) (N : Nat → Prop) (a : Nat) :
    elfPages phs N a ↔ N a ∨ ∃ ph ∈ phs, ph.Loadable ∧ ph.Pages a := by
  induction phs generalizing N with
  | nil => simp [elfPages]
  | cons q phs ih =>
    rw [elfPages, ih]
    split
    next hl => simp [hl, or_assoc]
    next hl => simp [hl]

/-! ## Files -/

def leBytes (n v : Nat) : List Byte := (List.range n).map fun k => BitVec.ofNat 8 (v / 256 ^ k)

/-- An `elf64_phdr_t` with the given fields, the others 0. -/
def Phdr.bytes (ph : Phdr) : List Byte :=
  leBytes 4 ph.type ++ leBytes 4 0 ++ leBytes 8 ph.offset ++ leBytes 8 ph.vaddr ++ leBytes 8 0 ++
    leBytes 8 ph.filesz ++ leBytes 8 ph.memsz ++ leBytes 8 0

/-- An executable: the ELF header, the program headers after it, and what comes then. -/
def elfFile (entry : Nat) (phs : List Phdr) (body : List Byte) : List Byte :=
  [0x7F#8, 0x45#8, 0x4C#8, 0x46#8, 2#8, 1#8] ++ leBytes 10 0 ++ leBytes 2 2 ++ leBytes 2 0x3E ++
    leBytes 4 1 ++ leBytes 8 entry ++ leBytes 8 64 ++ leBytes 8 0 ++ leBytes 4 0 ++ leBytes 2 64 ++
    leBytes 2 56 ++ leBytes 2 phs.length ++ leBytes 6 0 ++ phs.flatMap Phdr.bytes ++ body

/-! ## The loop -/

/-- What the loop over the headers has found out at its end. -/
structure Spans (phs : List Phdr) (lo hi n lo' hi' n' : Nat) : Prop where
  lowest_le : lo' ≤ lo
  le_highest : hi ≤ hi'
  least : ∀ ph ∈ phs, ph.Loadable → lo' ≤ ph.start
  greatest : ∀ ph ∈ phs, ph.Loadable → ph.stop ≤ hi'
  lowest : lo' = lo ∨ ∃ ph ∈ phs, ph.Loadable ∧ ph.start = lo'
  highest : hi' = hi ∨ ∃ ph ∈ phs, ph.Loadable ∧ ph.stop = hi'
  loaded : n' = n + phs.countP fun ph => decide ph.Loadable

theorem Spans.nil (lo hi n : Nat) : Spans [] lo hi n lo hi n :=
  ⟨Nat.le_refl _, Nat.le_refl _, fun _ h => absurd h List.not_mem_nil,
    fun _ h => absurd h List.not_mem_nil, .inl rfl, .inl rfl, rfl⟩

theorem Spans.skip (h : Spans phs lo hi n lo' hi' n')
    (hno : ¬ ph.Loadable) : Spans (ph :: phs) lo hi n lo' hi' n' where
  lowest_le := h.lowest_le
  le_highest := h.le_highest
  least := List.forall_mem_cons.mpr ⟨fun hl => absurd hl hno, h.least⟩
  greatest := List.forall_mem_cons.mpr ⟨fun hl => absurd hl hno, h.greatest⟩
  lowest := h.lowest.imp_right fun ⟨q, hq, hl⟩ => ⟨q, List.mem_cons_of_mem _ hq, hl⟩
  highest := h.highest.imp_right fun ⟨q, hq, hl⟩ => ⟨q, List.mem_cons_of_mem _ hq, hl⟩
  loaded := by
    rw [List.countP_cons_of_neg (by simpa using hno)]
    exact h.loaded

theorem Spans.cons
    (h : Spans phs (min lo ph.start) (max hi ph.stop) (n + 1) lo' hi' n') (hload : ph.Loadable) :
    Spans (ph :: phs) lo hi n lo' hi' n' where
  lowest_le := Nat.le_trans h.lowest_le (Nat.min_le_left ..)
  le_highest := Nat.le_trans (Nat.le_max_left ..) h.le_highest
  least := List.forall_mem_cons.mpr ⟨fun _ => Nat.le_trans h.lowest_le (Nat.min_le_right ..), h.least⟩
  greatest :=
    List.forall_mem_cons.mpr ⟨fun _ => Nat.le_trans (Nat.le_max_right ..) h.le_highest, h.greatest⟩
  lowest := by
    rcases h.lowest with hlo | ⟨q, hq, hl⟩
    · rcases Nat.le_total lo ph.start with hle | hle
      · exact .inl (hlo.trans (Nat.min_eq_left hle))
      · exact .inr ⟨ph, List.mem_cons_self, hload, (hlo.trans (Nat.min_eq_right hle)).symm⟩
    · exact .inr ⟨q, List.mem_cons_of_mem _ hq, hl⟩
  highest := by
    rcases h.highest with hhi | ⟨q, hq, hl⟩
    · rcases Nat.le_total hi ph.stop with hle | hle
      · exact .inr ⟨ph, List.mem_cons_self, hload, (hhi.trans (Nat.max_eq_right hle)).symm⟩
      · exact .inl (hhi.trans (Nat.max_eq_left hle))
    · exact .inr ⟨q, List.mem_cons_of_mem _ hq, hl⟩
  loaded := by
    rw [List.countP_cons_of_pos (by simpa using hload), h.loaded]
    omega

theorem Spans.extent {lo hi n : Nat} (h : Spans phs (2 ^ 64 - 1) 0 0 lo hi n)
    (hfit : ∀ ph ∈ phs, ph.Loadable → ph.Fits data.length) (hn : n ≠ 0) :
    IsLeast {a | ∃ ph ∈ phs, ph.Loadable ∧ ph.start = a} lo ∧
      IsGreatest {a | ∃ ph ∈ phs, ph.Loadable ∧ ph.stop = a} hi ∧ lo ≤ hi := by
  have hcount := h.loaded
  have hpos : 0 < phs.countP fun ph => decide ph.Loadable := by omega
  obtain ⟨ph, hmem, hl⟩ := List.countP_pos_iff.mp hpos
  have hload := of_decide_eq_true hl
  have hf := hfit ph hmem hload
  have h1 := h.least ph hmem hload
  have h2 := h.greatest ph hmem hload
  have h3 := hf.start_le
  have h4 := hf.le_stop
  have h5 := hf.low
  have h6 := hf.high
  have hbase : 0 < userVaBase := by decide
  have htop : userVaTop < 2 ^ 64 - 1 := by decide
  refine ⟨⟨h.lowest.resolve_left (by omega), ?_⟩, ⟨h.highest.resolve_left (by omega), ?_⟩, by omega⟩
  · rintro a ⟨q, hq, hlq, rfl⟩
    exact h.least q hq hlq
  · rintro a ⟨q, hq, hlq, rfl⟩
    exact h.greatest q hq hlq

/-- **The loop over the headers**, where it comes through. -/
theorem elfSegments_shown (data : List Byte) (phs : List Phdr) (lo hi n : Nat)
    (hA : Active s r space) (hF : Filled s0 r N img s) (hN : Shown s0 r N s) :
    Lockstep Eq (elfSegments r data phs lo hi n) s fun e s' =>
      ∀ lo' hi' n', e = .through lo' hi' n' → Shown s0 r (elfPages phs N) s' ∧
        Spans phs lo hi n lo' hi' n' ∧ Apart phs ∧
        ∀ ph ∈ phs, ph.Loadable → ph.Fits data.length ∧ ∀ a, ph.Pages a → ¬ N a := by
  induction phs generalizing s N img lo hi n with
  | nil =>
    refine .pure fun lo' hi' n' he => ?_
    cases he
    exact ⟨hN, .nil lo hi n, .nil, fun _ h => absurd h List.not_mem_nil⟩
  | cons ph phs ih =>
    have hstep := (elfSegment_spec hA hF data ph).both (elfSegment_shown hA hN data ph)
    refine .bind (hstep.mono fun e s1 ⟨⟨hA1, he⟩, hskip, hshown⟩ => ?_)
    cases e with
    | skipped =>
      obtain ⟨hno, hF1⟩ := he
      refine (ih lo hi n hA1 hF1 (hskip rfl)).mono fun e s2 he2 lo' hi' n' hthrough => ?_
      obtain ⟨hsh, hsp, hap, hfit⟩ := he2 lo' hi' n' hthrough
      rw [elfPages, if_neg hno]
      exact ⟨hsh, hsp.skip hno, List.pairwise_cons.mpr ⟨fun _ _ hl => absurd hl hno, hap⟩,
        List.forall_mem_cons.mpr ⟨fun hl => absurd hl hno, hfit⟩⟩
    | refused | failed => exact .pure fun _ _ _ h0 => LoadEnd.noConfusion h0
    | loaded start stop =>
      obtain ⟨hl, rfl, rfl, hloads⟩ := he
      refine (ih _ _ _ hA1 hloads.filled (hshown _ _ rfl)).mono fun e s2 he2 lo' hi' n' hthrough => ?_
      obtain ⟨hsh, hsp, hap, hfit⟩ := he2 lo' hi' n' hthrough
      rw [elfPages, if_pos hl]
      refine ⟨hsh, hsp.cons hl, List.pairwise_cons.mpr ⟨fun q hq _ hlq a ha hqa => ?_, hap⟩,
        List.forall_mem_cons.mpr ⟨fun _ => ⟨hloads.fits, fun a ha => (hloads.apart a ha).2.1⟩,
          fun q hq hlq => ⟨(hfit q hq hlq).1, fun a ha hNa => ?_⟩⟩⟩
      · exact (hfit q hq hlq).2 a hqa (.inr ha)
      · exact (hfit q hq hlq).2 a ha (.inl hNa)

/-! ## The image -/

def OnSegment (data : List Byte) (a : Nat) : Prop := ∃ ph ∈ phdrs data, ph.Loadable ∧ ph.Pages a

/-- What `elf_load` has done where it succeeds. -/
structure Built (s : State) (sp : Nat) (data : List Byte) (out : ElfImage) (s' : State) : Prop where
  bytes : ∀ ph ∈ phdrs data, ph.Loadable → ∀ k < ph.memsz,
    s'.userByte sp (ph.vaddr + k) = ph.byteAt data k
  mapped : ∀ a, OnSegment data a → ∃ pa, s'.vmmQuery sp (pageDown a) = some (pa, vmUserPage)
  base : IsLeast {a | ∃ ph ∈ phdrs data, ph.Loadable ∧ ph.start = a} out.loadBase
  top : IsGreatest {a | ∃ ph ∈ phdrs data, ph.Loadable ∧ ph.stop = a} (out.loadBase + out.loadSize)
  others : ∀ r a, a < 2 ^ 48 → ¬ (r = sp ∧ OnSegment data a) → s'.vmmQuery r a = s.vmmQuery r a

theorem Shown.setCr3 (h : Shown s0 r N s) (a : Nat) : Shown s0 r N (s.setCr3 a) := { h with }

theorem phdrs_eq {entry : Nat} (h : elfHeader data = some (entry, phs)) : phdrs data = phs := by
  rw [phdrs, h]
  rfl

theorem Filled.byteAt (h' : Layout s') (hs : s.space r = some space)
    (hF : Filled s r (elfPages phs fun _ => False) (elfBytes data phs fun _ => none) s')
    (hap : Apart phs) (hfit : ∀ ph ∈ phs, ph.Loadable → ph.Fits data.length) (hmem : ph ∈ phs)
    (hl : ph.Loadable) (hk : k < ph.memsz) :
    s'.userByte r (ph.vaddr + k) = ph.byteAt data k := by
  have hf := hfit ph hmem hl
  have hin := hf.pages_at hk
  have hva := hf.userVa hin
  have hN : elfPages phs (fun _ => False) (ph.vaddr + k) :=
    (mem_elfPages _ _ _).mpr (.inr ⟨ph, hmem, hl, hin⟩)
  obtain ⟨g, hg⟩ := Option.ne_none_iff_exists'.mp ((hF.new hva).mp hN).2
  obtain ⟨b, hb⟩ := Option.isSome_iff_exists.mp (hf.byteAt_isSome k)
  rw [hF.userByte h' hs hva hN hg, elfBytes_at hfit hap hmem hl hk, hb]
  rfl

theorem Built.of_loop {entry lo hi : Nat} {n : Nat} (h : Layout s) (hs : s.space r = some space)
    (hr : r ≠ 0) (hhead : elfHeader data = some (entry, phs)) (h' : Layout s')
    (hF : Filled s r (elfPages phs fun _ => False) (elfBytes data phs fun _ => none) s')
    (hsh : Shown s r (elfPages phs fun _ => False) s') (hsp : Spans phs (2 ^ 64 - 1) 0 0 lo hi n)
    (hap : Apart phs) (hfit : ∀ ph ∈ phs, ph.Loadable → ph.Fits data.length) (hn : n ≠ 0) :
    Built s r data ⟨entry, lo, hi - lo⟩ s' := by
  obtain rfl := phdrs_eq hhead
  have hon : ∀ a, elfPages (phdrs data) (fun _ => False) a ↔ OnSegment data a := by
    intro a
    rw [mem_elfPages, OnSegment]
    simp
  have huser : ∀ a, OnSegment data a → UserVa a := by
    rintro a ⟨ph, hmem, hl, ha⟩
    exact (hfit ph hmem hl).userVa ha
  obtain ⟨hleast, hgreatest, hle⟩ := hsp.extent hfit hn
  refine ⟨fun ph hmem hl k hk => hF.byteAt h' hs hap hfit hmem hl hk, fun a ha => ?_, hleast, ?_,
    fun r' a ha hno => ?_⟩
  · exact hsh.query h'.tabled (hsh.space ▸ hs) ((hon a).mpr ha) (huser a ha)
  · have hsum : lo + (hi - lo) = hi := by omega
    rwa [hsum]
  · refine hsh.query_other h.tabled h'.tabled hr (fun b hb => huser b ((hon b).mp hb)) ?_ r' ha ?_
    · intro a b hab hb
      rw [mem_elfPages] at hb ⊢
      refine hb.imp_right fun ⟨ph, hmem, hl, hp⟩ => ⟨ph, hmem, hl, ?_⟩
      rw [(hfit ph hmem hl).pages_iff] at hp ⊢
      rwa [hab] at hp
    · rwa [hon]

theorem elfLoad_built {cur : Nat} (h : Layout s) (hs : s.space r = some space) (hr : r ≠ 0)
    (hcur : cur = r → s.cr3 = space.pml4) (data : List Byte) :
    Lockstep Eq (elfLoad cur r data) s fun out s' => ∀ image, out = some image →
      Built s r data image s' := by
  have hnone : ∀ {t : State} (image : ElfImage), none = some image → Built s r data image t := by
    intro t image h0
    cases h0
  unfold elfLoad
  cases hhead : elfHeader data with
  | none => exact .pure hnone
  | some head =>
    obtain ⟨entry, phs⟩ := head
    have henter := (enter_spec h hs hr hcur (.refl s r)).both (leave_spec (s := s) (decide (cur ≠ r)) r)
    refine .bind (henter.mono fun _ s1 ⟨⟨hA1, hF1⟩, a, hs1⟩ => ?_)
    have hsh1 : Shown s r (fun _ => False) s1 := hs1 ▸ (Shown.refl s r).setCr3 a
    have hloop := (elfSegments_spec data phs (2 ^ 64 - 1) 0 0 hA1 hF1).both
      (elfSegments_shown data phs (2 ^ 64 - 1) 0 0 hA1 hF1 hsh1)
    refine .bind (hloop.mono fun e s2 ⟨⟨hA2, he⟩, hthrough⟩ => ?_)
    have hback := (leave_spec (s := s2) (decide (cur ≠ r)) cur).alone
    cases e with
    | refused => exact .pure hnone
    | failed => exact .bind (hback.mono fun _ _ _ => .pure hnone)
    | through lo hi n =>
      obtain ⟨hsh, hsp, hap, hfit⟩ := hthrough lo hi n rfl
      refine .bind (hback.mono fun _ s3 ⟨b, hs3⟩ => .ite (fun _ => .pure hnone) fun hn => .pure ?_)
      intro image hout
      cases hout
      subst hs3
      exact .of_loop h hs hr hhead (hA2.layout.setCr3 b) (he.1.setCr3 b) (hsh.setCr3 b) hsp hap
        (fun ph hmem hl => (hfit ph hmem hl).1) hn

/-- **`elf_load` builds the image that the file describes.** Where it succeeds, every byte
of every loadable segment is in place, the pages of the segments are mapped present,
writable and for the user, the bounds it answers are those of the segments, and no page
of any space is mapped differently otherwise. -/
theorem elf_image_built {cur sp : Nat} {image : ElfImage} (h : Reachable memSys s)
    (ht : s.Target cur sp) (hload : elfLoad cur sp data s = (some image, s')) :
    Built s sp data image s' := by
  obtain ⟨space, hs, hcur⟩ := ht.space
  have hpost := (elfLoad_built (Layout.reachable h) hs ht.1.1 hcur data).post
  rw [hload] at hpost
  exact hpost image rfl

/-- A segment with one byte of the file and two zeros over a page boundary, and one of a
single byte below it. -/
def twoSegments : List Byte :=
  elfFile userVaBase [⟨1, 176, userVaBase + 0x2FFE, 1, 3⟩, ⟨1, 177, userVaBase + 0x10, 1, 1⟩]
    [0xAA#8, 0xBB#8]

theorem elf_image_built_tiny : ∃ s s' image, Reachable memSys s ∧ s.Target 0 1 ∧
    elfLoad 0 1 twoSegments s = (some image, s') ∧ Built s 1 twoSegments image s' := by
  obtain ⟨s, hs, ht, hload⟩ : ∃ s ∈ BootMap.tiny.run (fun _ _ => 0#64) [.vmmCreate .fits],
      s.Target 0 1 ∧ (elfLoad 0 1 twoSegments s).1 = some ⟨userVaBase, userVaBase, 0x4000⟩ := by
    decide +kernel
  have hreach := BootMap.run_reachable hs
  obtain ⟨s', hcall⟩ : ∃ s', elfLoad 0 1 twoSegments s = (some ⟨userVaBase, userVaBase, 0x4000⟩, s') := by
    generalize elfLoad 0 1 twoSegments s = res at hload ⊢
    exact ⟨res.2, Prod.ext hload rfl⟩
  exact ⟨s, s', _, hreach, ht, hcall, elf_image_built hreach ht hcall⟩

end Exyde.Mem
