import Exyde.Lib.Bytes
import Exyde.Mem.PmmSpec

/-! # The memory map at boot

`memmap.c` and `multiboot2.c`: the boot loader's list of memory regions is read into a
table of fixed size, and `kmain` adds two reservations before `pmm_init`. A loop over
tags that do not advance never ends, so the parser has fuel. -/

namespace Exyde.Mem

open Exyde.Lib List

/-! ## `memmap.c` -/

def memmapMaxRegions : Nat := 128

def RegionType.ofCode : Nat → RegionType
  | 1 => .usable
  | 2 => .reserved
  | 3 => .acpiReclaimable
  | 4 => .acpiNvs
  | 5 => .bad
  | n => .other n

/-- `memmap_add`; `none` where it returns `false`. -/
def memmapAdd (regions : List Region) (base size : Nat) (type : RegionType) : Option (List Region) :=
  if size = 0 then none
  else if regions.length ≥ memmapMaxRegions then none
  else some (regions ++ [⟨base, size, type⟩])

def memmapReserve (regions : List Region) (base size : Nat) : Option (List Region) :=
  memmapAdd regions base size .reserved

/-- `memmap_reserve` whose answer nobody looks at. -/
def tryReserve (regions : List Region) (base size : Nat) : List Region :=
  (memmapReserve regions base size).getD regions

/-! ## `multiboot2.c` -/

inductive BootPanic
  | nullInfo
  | malformedInfo
  | badEntrySize
  | memmapOverflow
  | noMmapTag
  deriving DecidableEq, Repr

/-- How the parser ends; `stuck`: it is still running when the fuel is used up. -/
inductive Parsed
  | returns (regions : List Region)
  | panics (e : BootPanic)
  | stuck
  deriving DecidableEq, Repr

def padd (p n : Nat) : Nat := (p + n) % 2 ^ 64

/-- `next_tag`: behind the tag, rounded up to 8. -/
def nextTag (mem : Bytes) (tag : Nat) : Nat :=
  padd (padd tag (mem.load (tag + 4) 4)) 7 / 8 * 8

/-- The loop over the entries of an mmap tag. -/
def addEntries (mem : Bytes) (entrySize stop : Nat) : Nat → Nat → List Region → Parsed
  | 0, _, _ => .stuck
  | n + 1, p, regions =>
    if padd p entrySize ≤ stop then
      let len := mem.load (p + 8) 8
      if len = 0 then addEntries mem entrySize stop n (padd p entrySize) regions
      else
        match memmapAdd regions (mem.load p 8) len (.ofCode (mem.load (p + 16) 4)) with
        | none => .panics .memmapOverflow
        | some regions' => addEntries mem entrySize stop n (padd p entrySize) regions'
    else .returns regions

def parseEnd (foundMmap : Bool) (regions : List Region) : Parsed :=
  if foundMmap then .returns regions else .panics .noMmapTag

/-- The loop over the tags. -/
def parseTags (mem : Bytes) (stop : Nat) : Nat → Nat → Bool → List Region → Parsed
  | 0, _, _, _ => .stuck
  | n + 1, tag, foundMmap, regions =>
    if padd tag 8 ≤ stop then
      let type := mem.load tag 4
      if type = 0 then parseEnd foundMmap regions
      else if type = 6 then
        let entrySize := mem.load (tag + 8) 4
        if entrySize < 24 then .panics .badEntrySize
        else
          match addEntries mem entrySize (padd tag (mem.load (tag + 4) 4)) n (padd tag 16) regions with
          | .returns regions' => parseTags mem stop n (nextTag mem tag) true regions'
          | e => e
      else parseTags mem stop n (nextTag mem tag) foundMmap regions
    else parseEnd foundMmap regions

def totalSize (mem : Bytes) (raw : Nat) : Nat := mem.load raw 4

def bootinfoInit (mem : Bytes) (raw fuel : Nat) : Parsed :=
  if raw = 0 then .panics .nullInfo
  else if totalSize mem raw < 8 then .panics .malformedInfo
  else parseTags mem (padd raw (totalSize mem raw)) fuel (padd raw 8) false
    (tryReserve [] raw (totalSize mem raw))

/-! ## `kmain` -/

/-- The kernel image: linked at 1 MiB, and loaded where the boot page tables map
it. -/
structure KernelImage where
  stop : Nat
  start_le : 0x100000 ≤ stop
  mapped : stop ≤ 2 ^ 30

def KernelImage.start (_ : KernelImage) : Nat := 0x100000

/-- The regions that `pmm_init` sees. -/
def kmainRegions (image : KernelImage) (regions : List Region) : List Region :=
  tryReserve (tryReserve regions 0 0x100000) image.start (image.stop - image.start)

/-! ## What the table holds -/

section

variable {mem : Bytes} {regions regions' : List Region} {base size raw fuel f : Nat} {type : RegionType}

theorem memmapAdd_some (h : memmapAdd regions base size type = some regions') :
    regions' = regions ++ [⟨base, size, type⟩] ∧ regions.length < memmapMaxRegions := by
  unfold memmapAdd at h
  split at h
  · cases h
  · split at h
    · cases h
    next hlen => exact ⟨(Option.some.inj h).symm, Nat.lt_of_not_le hlen⟩

/-- The table grows at its end, within its size. -/
def Grows (regions regions' : List Region) : Prop :=
  regions <+: regions' ∧ (regions.length ≤ memmapMaxRegions → regions'.length ≤ memmapMaxRegions)

theorem Grows.refl (regions : List Region) : Grows regions regions := ⟨prefix_rfl, id⟩

theorem Grows.trans {regions'' : List Region} (h : Grows regions regions') (h' : Grows regions' regions'') :
    Grows regions regions'' :=
  ⟨h.1.trans h'.1, fun hlen => h'.2 (h.2 hlen)⟩

theorem Grows.add (h : memmapAdd regions base size type = some regions') : Grows regions regions' := by
  obtain ⟨rfl, hlt⟩ := memmapAdd_some h
  refine ⟨prefix_append .., fun _ => ?_⟩
  rw [length_append, length_singleton]
  exact hlt

theorem addEntries_grows {entrySize stop p : Nat}
    (h : addEntries mem entrySize stop fuel p regions = .returns regions') : Grows regions regions' := by
  induction fuel generalizing p regions with
  | zero => cases h
  | succ n ih =>
    simp only [addEntries] at h
    split at h
    · split at h
      · exact ih h
      · split at h
        · cases h
        next hadd => exact (Grows.add hadd).trans (ih h)
    · cases h
      exact .refl _

theorem parseEnd_returns {found : Bool} (h : parseEnd found regions = .returns regions') :
    regions' = regions := by
  unfold parseEnd at h
  split at h
  · exact (Parsed.returns.inj h).symm
  · cases h

theorem parseTags_grows {stop tag : Nat} {found : Bool}
    (h : parseTags mem stop fuel tag found regions = .returns regions') : Grows regions regions' := by
  induction fuel generalizing tag found regions with
  | zero => cases h
  | succ n ih =>
    simp only [parseTags] at h
    split at h
    · split at h
      · exact parseEnd_returns h ▸ .refl _
      · split at h
        · split at h
          · cases h
          · split at h
            next hentries => exact (addEntries_grows hentries).trans (ih h)
            next hnot => exact absurd h (hnot regions')
        · exact ih h
    · exact parseEnd_returns h ▸ .refl _

theorem bootinfoInit_returns (h : bootinfoInit mem raw fuel = .returns regions) :
    ⟨raw, totalSize mem raw, .reserved⟩ ∈ regions ∧ regions.length ≤ memmapMaxRegions := by
  unfold bootinfoInit at h
  split at h
  · cases h
  split at h
  · cases h
  next hsize =>
    have hne : totalSize mem raw ≠ 0 := by omega
    have hfirst : tryReserve [] raw (totalSize mem raw) = [⟨raw, totalSize mem raw, .reserved⟩] := by
      simp [tryReserve, memmapReserve, memmapAdd, hne, memmapMaxRegions]
    obtain ⟨hpre, hlen⟩ := parseTags_grows h
    rw [hfirst] at hpre hlen
    exact ⟨hpre.subset (mem_singleton_self _), hlen (by simp [memmapMaxRegions])⟩

/-! ## What a reservation does -/

/-- Page `f` meets the bytes from `a` up to `b`. -/
def Meets (f a b : Nat) : Prop := a < b ∧ f * 4096 < b ∧ a < (f + 1) * 4096
  deriving Decidable

theorem tryReserve_eq (regions : List Region) (base size : Nat) : tryReserve regions base size =
      if size = 0 ∨ memmapMaxRegions ≤ regions.length then regions
      else regions ++ [⟨base, size, .reserved⟩] := by
  unfold tryReserve memmapReserve memmapAdd
  by_cases hsize : size = 0
  · simp [hsize]
  · by_cases hlen : memmapMaxRegions ≤ regions.length <;> simp [hsize, hlen]

theorem trackedTop_append_reserved (regions : List Region) (base size : Nat) :
    Pmm.trackedTop (regions ++ [⟨base, size, .reserved⟩]) = Pmm.trackedTop regions := by
  simp [Pmm.trackedTop, Pmm.usableTop]

theorem trackedTop_le (regions : List Region) : Pmm.trackedTop regions ≤ 2 ^ 30 := Nat.min_le_right ..

theorem inReserved_iff {top : Nat} (hend : base + size + 4095 < 2 ^ 64) (hsize : size ≠ 0) :
    Pmm.inReserved ⟨base, size, type⟩ top f ↔ Meets f base (base + size) ∧ f * 4096 < top := by
  simp only [Pmm.inReserved, Pmm.pageDown, Pmm.pageUp, Meets, Nat.lt_min]
  omega

/-- A reservation takes its pages from the free ones, if there is room for it. -/
theorem frees_tryReserve (hend : base + size + 4095 < 2 ^ 64) :
    Pmm.Frees (tryReserve regions base size) f ↔ Pmm.Frees regions f ∧
      (regions.length < memmapMaxRegions → ¬ Meets f base (base + size)) := by
  rw [tryReserve_eq]
  by_cases hsize : size = 0
  · simp [hsize, Meets]
  by_cases hlen : memmapMaxRegions ≤ regions.length
  · simp [hlen, Nat.not_lt.mpr hlen]
  rw [if_neg (by simp [hsize, hlen]), Pmm.Frees, Pmm.Frees, trackedTop_append_reserved]
  have hroom : regions.length < memmapMaxRegions := Nat.lt_of_not_le hlen
  have hbelow : (∃ r, r ∈ regions ∧ r.type = .usable ∧ Pmm.inUsable r (Pmm.trackedTop regions) f) →
      f * 4096 < Pmm.trackedTop regions := by
    rintro ⟨_, _, _, _, hlt⟩
    omega
  simp only [mem_append, mem_singleton, or_and_right, exists_or, or_imp, forall_and, forall_eq,
    exists_eq_left, inReserved_iff hend hsize]
  grind

end

/-! ## Classification -/

/-- The table after these calls of `memmap_add`. -/
def memmapOf (entries : List Region) : List Region :=
  entries.foldl (fun regions e => (memmapAdd regions e.base e.size e.type).getD regions) []

theorem memmapOf_cases {entries : List Region} {r : Region} (hr : r ∈ memmapOf entries) :
    r ∈ entries ∧ r.size ≠ 0 := by
  induction entries using List.reverseRecOn with
  | nil => cases hr
  | append_singleton entries e ih =>
    rw [memmapOf, foldl_concat, ← memmapOf, memmapAdd] at hr
    have hold : r ∈ memmapOf entries → r ∈ entries ++ [e] ∧ r.size ≠ 0 := fun hr =>
      ⟨mem_append_left _ (ih hr).1, (ih hr).2⟩
    split at hr
    · exact hold hr
    next hsize =>
      split at hr
      · exact hold hr
      · rcases mem_append.mp hr with hr | hr
        · exact hold hr
        · rw [mem_singleton.mp hr]
          exact ⟨by simp, hsize⟩

theorem inUsable_iff {r : Region} {top f : Nat} (hend : r.base + r.size + 4095 < 2 ^ 64) :
    Pmm.inUsable r top f ↔ (r.base ≤ f * 4096 ∧ (f + 1) * 4096 ≤ r.base + r.size) ∧ f * 4096 < top := by
  simp only [Pmm.inUsable, Pmm.pageDown, Pmm.pageUp, Nat.lt_min]
  omega

/-- **`pmm_init` classifies every page.** On any memory map with a usable region, whatever the
order, the overlaps and the bounds of the regions, the free pages are those that lie in a usable
region as a whole and meet no other, and the reserved pages are those that meet another one. -/
theorem pmm_init_classifies {entries : List Region} (hend : ∀ r ∈ entries, r.base + r.size + 4095 < 2 ^ 64)
    (husable : ∃ r ∈ memmapOf entries, r.type = .usable) :
    ∃ m top, Pmm.pmmInit (memmapOf entries) = some m ∧
      ((∃ r ∈ memmapOf entries, r.type = .usable ∧ r.base + r.size = top) ∧
        (∀ r ∈ memmapOf entries, r.type = .usable → r.base + r.size ≤ top) ∧
        m.maxPaddr = min ((top + 4095) / 4096 * 4096) pmmMaxTrackedBytes) ∧
      (∀ f, f * 4096 < m.maxPaddr →
        (m.Free f ↔ (∃ r ∈ memmapOf entries, r.type = .usable ∧
            r.base ≤ f * 4096 ∧ (f + 1) * 4096 ≤ r.base + r.size) ∧
          ∀ r ∈ memmapOf entries, r.type ≠ .usable → ¬ Meets f r.base (r.base + r.size)) ∧
        (m.resvGet f = true ↔ ∃ r ∈ memmapOf entries, r.type ≠ .usable ∧ Meets f r.base (r.base + r.size))) ∧
      m.freePages = m.freeSet.card := by
  obtain ⟨regions, hregions⟩ : ∃ l, memmapOf entries = l := ⟨_, rfl⟩
  have hin : ∀ r ∈ regions, r.base + r.size + 4095 < 2 ^ 64 ∧ r.size ≠ 0 := fun r hr =>
    have hcases := memmapOf_cases (hregions ▸ hr)
    ⟨hend r hcases.1, hcases.2⟩
  rw [hregions] at husable ⊢
  obtain ⟨r0, hr0, hu0⟩ := husable
  have hle : ∀ r ∈ regions, r.type = .usable → r.base + r.size ≤ Pmm.highestEnd regions 0 := by
    intro r hr hu
    have hmod := (Pmm.highestEnd_le_iff.mp (Nat.le_refl (Pmm.highestEnd regions 0))).2 r hr hu
    rwa [Nat.mod_eq_of_lt (by have := (hin r hr).1; omega)] at hmod
  have hpos : 0 < Pmm.highestEnd regions 0 := by
    have h1 := hle r0 hr0 hu0
    have h2 := (hin r0 hr0).2
    omega
  obtain ⟨r, hr, hu, htop⟩ := (Pmm.highestEnd_eq regions 0).resolve_left (by omega)
  have hlt := (hin r hr).1
  rw [Nat.mod_eq_of_lt (by omega)] at htop
  have hround : Pmm.usableTop regions = (Pmm.highestEnd regions 0 + 4095) / 4096 * 4096 := by
    change (if Pmm.highestEnd regions 0 = 0 then 0 else Pmm.pageUp (Pmm.highestEnd regions 0)) = _
    rw [if_neg (by omega), Pmm.pageUp, Nat.mod_eq_of_lt (by omega)]
  obtain ⟨m, hm⟩ := @Pmm.exists_pmmInit regions (by omega)
  have hinit := Pmm.pmmInit_initial hm
  have hmeets : ∀ {f}, f * 4096 < m.maxPaddr → ∀ r ∈ regions,
      Pmm.inReserved r m.maxPaddr f ↔ Meets f r.base (r.base + r.size) := fun hf r hr =>
    (inReserved_iff (hin r hr).1 (hin r hr).2).trans (and_iff_left hf)
  refine ⟨m, Pmm.highestEnd regions 0, hm, ⟨⟨r, hr, hu, htop⟩, hle, ?_⟩, fun f hf => ⟨?_, ?_⟩, hinit.wf.count⟩
  · rw [hinit.top, Pmm.trackedTop, hround]
  · rw [Pmm.pmmInit_free hm, Pmm.Frees, ← hinit.top]
    refine and_congr (exists_congr fun r => and_congr_right fun hr => and_congr_right fun _ => ?_)
      (forall₂_congr fun r hr => imp_congr_right fun _ => not_congr (hmeets hf r hr))
    exact (inUsable_iff (hin r hr).1).trans (and_iff_left hf)
  · rw [hinit.reserved]
    exact exists_congr fun r => and_congr_right fun hr => and_congr_right fun _ => hmeets hf r hr

theorem pmm_init_classifies_small : ∃ m top,
    Pmm.pmmInit (memmapOf [⟨0, 0x3000, .usable⟩, ⟨0x1800, 0x10, .reserved⟩, ⟨0x800, 0, .reserved⟩]) = some m ∧
      m.maxPaddr = min ((top + 4095) / 4096 * 4096) pmmMaxTrackedBytes ∧ m.freePages = m.freeSet.card := by
  obtain ⟨m, top, hm, htop, _, hfree⟩ := @pmm_init_classifies
    [⟨0, 0x3000, .usable⟩, ⟨0x1800, 0x10, .reserved⟩, ⟨0x800, 0, .reserved⟩]
    (by decide) ⟨⟨0, 0x3000, .usable⟩, by decide, rfl⟩
  exact ⟨m, top, hm, htop.2.2, hfree⟩

/-! ## Boot reservations -/

/-- No page of the first MiB, of the kernel image or of the info block is free. -/
def BootProtected (mem : Bytes) (raw : Nat) (image : KernelImage) (m : Pmm) : Prop :=
  ∀ f, Meets f 0 0x100000 ∨ Meets f image.start image.stop ∨
    Meets f raw (raw + totalSize mem raw) → ¬ m.Free f

/-- The table has room for both reservations of `kmain`, or the map frees no page
of those that find no room. -/
def RoomToReserve (image : KernelImage) (regions : List Region) : Prop :=
  (memmapMaxRegions ≤ regions.length → ∀ f, Meets f 0 0x100000 → ¬ Pmm.Frees regions f) ∧
    (memmapMaxRegions ≤ regions.length + 1 → ∀ f, Meets f image.start image.stop → ¬ Pmm.Frees regions f)

section

variable {mem : Bytes} {raw fuel f : Nat} {image : KernelImage} {regions : List Region} {m : Pmm}

theorem info_not_freed (hraw : raw + totalSize mem raw ≤ 2 ^ 64)
    (h : bootinfoInit mem raw fuel = .returns regions) (hf : Meets f raw (raw + totalSize mem raw)) :
    ¬ Pmm.Frees regions f := by
  intro hfree
  obtain ⟨⟨r, -, -, -, hlt⟩, hout⟩ := hfree
  have htop := trackedTop_le regions
  have hsize : totalSize mem raw < 256 ^ 4 := mem.load_lt raw 4
  obtain ⟨hpos, hbelow, habove⟩ := hf
  refine hout _ (bootinfoInit_returns h).1 (by simp) ((inReserved_iff ?_ (by omega)).mpr ⟨?_, by omega⟩)
  · omega
  · exact ⟨hpos, hbelow, habove⟩

theorem frees_kmainRegions : Pmm.Frees (kmainRegions image regions) f ↔ Pmm.Frees regions f ∧
    (regions.length < memmapMaxRegions → ¬ Meets f 0 0x100000) ∧
    (regions.length + 1 < memmapMaxRegions → ¬ Meets f image.start image.stop) := by
  have himage : image.start + (image.stop - image.start) = image.stop := Nat.add_sub_cancel' image.start_le
  have hmapped := image.mapped
  have hlen : (tryReserve regions 0 0x100000).length < memmapMaxRegions ↔
      regions.length + 1 < memmapMaxRegions := by
    rw [tryReserve_eq]
    by_cases hfull : memmapMaxRegions ≤ regions.length
    · rw [if_pos (.inr hfull)]
      omega
    · rw [if_neg (by omega), length_append, length_singleton]
  rw [kmainRegions, frees_tryReserve (by omega), frees_tryReserve (by decide), himage, hlen, and_assoc]

/-- **Boot reservations.** No page of the first MiB, of the kernel image or of the
info block is free after `pmm_init`, exactly if the table had room for the two
reservations of `kmain` or nothing depended on them. -/
theorem boot_reservations (hraw : raw + totalSize mem raw ≤ 2 ^ 64)
    (hinfo : bootinfoInit mem raw fuel = .returns regions)
    (hm : Pmm.pmmInit (kmainRegions image regions) = some m) :
    BootProtected mem raw image m ↔ RoomToReserve image regions := by
  have hfree : ∀ f, m.Free f ↔ _ := fun f => (Pmm.pmmInit_free hm).trans frees_kmainRegions
  constructor
  · intro h
    refine ⟨fun hfull f hf hfrees => ?_, fun hfull f hf hfrees => ?_⟩
    · exact h f (.inl hf) ((hfree f).mpr ⟨hfrees, by omega, by omega⟩)
    · -- the image begins where the first MiB ends
      have hlow : ¬ Meets f 0 0x100000 := by
        obtain ⟨-, -, habove⟩ := hf
        simp only [KernelImage.start] at habove
        simp only [Meets]
        omega
      exact h f (.inr (.inl hf)) ((hfree f).mpr ⟨hfrees, fun _ => hlow, by omega⟩)
  · intro ⟨hlow, himage⟩ f hf hfr
    obtain ⟨hfrees, hnl, hni⟩ := (hfree f).mp hfr
    rcases hf with hf | hf | hf
    · by_cases hfull : memmapMaxRegions ≤ regions.length
      · exact hlow hfull f hf hfrees
      · exact hnl (by omega) hf
    · by_cases hfull : memmapMaxRegions ≤ regions.length + 1
      · exact himage hfull f hf hfrees
      · exact hni (by omega) hf
    · exact info_not_freed hraw hinfo hf hfrees

end

/-- An info block at 64 KiB: one mmap tag that has the first 4 MiB usable, the `n`
entries behind it all reserve the page that follows. -/
def infoBlock (n : Nat) : Bytes := fun x =>
  let o := x - 0x10000
  let byte (v k : Nat) : BitVec 8 := BitVec.ofNat 8 (v / 256 ^ k)
  if o < 4 then byte (24 * n + 56) o
  else if o < 8 then 0
  else if o < 12 then byte 6 (o - 8)
  else if o < 16 then byte (24 * n + 40) (o - 12)
  else if o < 20 then byte 24 (o - 16)
  else if o < 24 then 0
  else
    let entry := (o - 24) / 24
    let k := (o - 24) % 24
    if n < entry then 0
    else if k < 8 then byte (if entry = 0 then 0 else 0x400000) k
    else if k < 16 then byte (if entry = 0 then 0x400000 else 0x1000) (k - 8)
    else if k < 20 then byte (if entry = 0 then 1 else 2) (k - 16)
    else 0

def infoRegions (n : Nat) : List Region :=
  ⟨0x10000, 24 * n + 56, .reserved⟩ :: ⟨0, 0x400000, .usable⟩ ::
    List.replicate n ⟨0x400000, 0x1000, .reserved⟩

def smallImage : KernelImage := ⟨0x200000, by decide, by decide⟩

theorem boot_reservations_small :
    ∃ regions m, bootinfoInit (infoBlock 2) 0x10000 10 = .returns regions ∧
      Pmm.pmmInit (kmainRegions smallImage regions) = some m ∧
      BootProtected (infoBlock 2) 0x10000 smallImage m := by
  have hinfo : bootinfoInit (infoBlock 2) 0x10000 10 = .returns (infoRegions 2) := by decide +kernel
  have husable : Pmm.usableTop (kmainRegions smallImage (infoRegions 2)) ≠ 0 := by decide
  obtain ⟨m, hm⟩ := Pmm.exists_pmmInit husable
  refine ⟨_, m, hinfo, hm, (boot_reservations (by decide +kernel) hinfo hm).mpr ⟨?_, ?_⟩⟩
  · exact fun hfull => absurd hfull (by decide)
  · exact fun hfull => absurd hfull (by decide)

/-- With 126 entries the table is full after the first reservation, and the page
at 1 MiB, where the kernel is, is free. -/
theorem kernel_image_freed :
    ∃ regions m, bootinfoInit (infoBlock 125) 0x10000 130 = .returns regions ∧
      (∀ r ∈ regions, r.base + r.size ≤ 2 ^ 64) ∧
      Pmm.pmmInit (kmainRegions smallImage regions) = some m ∧ Meets 256 smallImage.start smallImage.stop ∧
      m.Free 256 ∧ ¬ BootProtected (infoBlock 125) 0x10000 smallImage m := by
  have hinfo : bootinfoInit (infoBlock 125) 0x10000 130 = .returns (infoRegions 125) := by decide +kernel
  have husable : Pmm.usableTop (kmainRegions smallImage (infoRegions 125)) ≠ 0 := by decide +kernel
  obtain ⟨m, hm⟩ := Pmm.exists_pmmInit husable
  have hmeets : Meets 256 smallImage.start smallImage.stop := by decide
  have hfrees : Pmm.Frees (infoRegions 125) 256 := by
    refine ⟨⟨⟨0, 0x400000, .usable⟩, by simp [infoRegions], rfl, by decide⟩, fun r hr ht => ?_⟩
    simp only [infoRegions, mem_cons, mem_replicate] at hr
    rcases hr with rfl | rfl | ⟨-, rfl⟩
    · decide
    · exact absurd rfl ht
    · decide
  have hfree : m.Free 256 :=
    (Pmm.pmmInit_free hm).mpr (frees_kmainRegions.mpr ⟨hfrees, fun _ => by decide, by decide +kernel⟩)
  refine ⟨_, m, hinfo, by decide +kernel, hm, hmeets, hfree, fun h => h 256 (.inr (.inl hmeets)) hfree⟩

end Exyde.Mem
