import Mathlib.Algebra.Ring.Nat
import Mathlib.Data.List.Basic
import Exyde.Lib.Words

/-! # The physical page allocator

`pmm.c`: two bitmaps over the tracked pages and a cached count of the free ones. Sums
that the C code computes in 64 bits are taken modulo `2 ^ 64`. A page number is called a
frame. -/

namespace Exyde.Mem

open Exyde.Lib (testBit setBit clearBit)

def pmmMaxTrackedBytes : Nat := 2 ^ 30

/-- The types of a memory region; `other` stands for the codes without a name. -/
inductive RegionType
  | usable | reserved | acpiReclaimable | acpiNvs | bad
  | other (code : Nat)
  deriving DecidableEq, Repr

structure Region where
  base : Nat
  size : Nat
  type : RegionType
  deriving DecidableEq, Repr

/-- The page lies in the region, which the boot code addresses in 32 bits. -/
def Region.Holds (r : Region) (f : Nat) : Prop :=
  r.base ≤ f * 4096 ∧ (f + 1) * 4096 ≤ r.base + r.size ∧ r.base + r.size ≤ 2 ^ 32
  deriving Decidable

structure Pmm where
  usedBitmap : Nat → BitVec 64
  resvBitmap : Nat → BitVec 64
  totalPages : Nat
  freePages : Nat
  maxPaddr : Nat

namespace Pmm

/-! ## Bits -/

def usedSet (m : Pmm) (page : Nat) : Pmm := { m with usedBitmap := setBit m.usedBitmap page }
def usedClear (m : Pmm) (page : Nat) : Pmm := { m with usedBitmap := clearBit m.usedBitmap page }
def usedGet (m : Pmm) (page : Nat) : Bool := testBit m.usedBitmap page
def resvSet (m : Pmm) (page : Nat) : Pmm := { m with resvBitmap := setBit m.resvBitmap page }
def resvGet (m : Pmm) (page : Nat) : Bool := testBit m.resvBitmap page

section

variable (m : Pmm)

/-- A tracked page whose used bit is clear. -/
def Free (f : Nat) : Prop := f < m.totalPages ∧ m.usedGet f = false
  deriving Decidable

@[simp] theorem usedGet_usedSet (f g : Nat) :
    (m.usedSet f).usedGet g = (decide (g = f) || m.usedGet g) :=
  Lib.testBit_setBit _ _ _

@[simp] theorem usedGet_usedClear (f g : Nat) :
    (m.usedClear f).usedGet g = (!decide (g = f) && m.usedGet g) :=
  Lib.testBit_clearBit _ _ _

/-! ## Initialisation -/

def pageUp (x : Nat) : Nat := (x + 4095) % 2 ^ 64 / 4096 * 4096

def pageDown (x : Nat) : Nat := x / 4096 * 4096

/-- The loop `for (a = start; a < end; a += PAGE_SIZE)` over a marking of pages. -/
def eachPage (mark : Pmm → Nat → Pmm) (m : Pmm) (start stop : Nat) : Pmm :=
  (List.range ((stop - start + 4095) / 4096)).foldl (fun m i => mark m (start / 4096 + i)) m

def markUsable (base size : Nat) : Pmm :=
  let start := pageUp base
  let stop := min (pageDown ((base + size) % 2 ^ 64)) m.maxPaddr
  if start ≥ stop then m else m.eachPage usedClear start stop

def markReserved (base size : Nat) : Pmm :=
  let start := pageDown base
  let stop := min (pageUp ((base + size) % 2 ^ 64)) m.maxPaddr
  if start ≥ stop then m else m.eachPage (fun m p => (m.usedSet p).resvSet p) start stop

def usableTop (regions : List Region) : Nat :=
  let top := regions.foldl (fun top r =>
    if r.type = .usable then max top ((r.base + r.size) % 2 ^ 64) else top) 0
  if top = 0 then 0 else pageUp top

/-- `pmm_init` on the regions of the memory map; `none` where it panics. -/
def pmmInit (regions : List Region) : Option Pmm :=
  let top := usableTop regions
  if top = 0 then none
  else
    let maxPaddr := min top pmmMaxTrackedBytes
    let totalPages := maxPaddr / 4096
    let words := (totalPages + 63) / 64
    let m0 : Pmm :=
      { usedBitmap := fun i => if i < words then BitVec.allOnes 64 else 0#64
        resvBitmap := fun _ => 0#64
        totalPages, maxPaddr, freePages := 0 }
    let m1 := regions.foldl (fun m r =>
      if r.type = .usable then m.markUsable r.base r.size else m) m0
    let m2 := regions.foldl (fun m r =>
      if r.type = .usable then m else m.markReserved r.base r.size) m1
    some { m2 with freePages := ((List.range totalPages).filter fun i => !m2.usedGet i).length }

/-! ## Allocation and release -/

/-- The scan of `pmm_alloc_pages`: `n` pages left to look at, the next one is
`i`, and the `run` pages before it are free. -/
def allocScan (m : Pmm) (count : Nat) : Nat → Nat → Nat → Option Nat
  | 0, _, _ => none
  | n + 1, i, run =>
    if m.usedGet i then m.allocScan count n (i + 1) 0
    else if run + 1 = count then some (i + 1 - count)
    else m.allocScan count n (i + 1) (run + 1)

/-- `pmm_alloc_pages`: the address of the first page, 0 on failure. -/
def pmmAllocPages (count : Nat) : Nat × Pmm :=
  if count = 0 ∨ count > m.freePages then (0, m)
  else
    match m.allocScan count m.totalPages 0 0 with
    | none => (0, m)
    | some start =>
      let m' := (List.range count).foldl (fun m j => m.usedSet (start + j)) m
      (start * 4096, { m' with freePages := m.freePages - count })

def pmmFreePages (page count : Nat) : Bool × Pmm :=
  if count = 0 then (false, m)
  else if page % 4096 ≠ 0 then (false, m)
  else if page ≥ m.maxPaddr then (false, m)
  else if (page + count * 4096 % 2 ^ 64) % 2 ^ 64 > m.maxPaddr then (false, m)
  else
    let start := page / 4096
    if (List.range count).any fun i => m.resvGet (start + i) || !m.usedGet (start + i) then (false, m)
    else
      let m' := (List.range count).foldl (fun m j => m.usedClear (start + j)) m
      (true, { m' with freePages := m.freePages + count })

/-! ## What the operations do to the free pages -/

theorem allocScan_free {m : Pmm} {count start : Nat} (n i run : Nat) (hle : run ≤ i)
    (hrun : ∀ j, i ≤ j + run → j < i → m.usedGet j = false)
    (h : m.allocScan count n i run = some start) :
    start + count ≤ i + n ∧ ∀ j < count, m.usedGet (start + j) = false := by
  induction n generalizing i run with
  | zero => cases h
  | succ n ih =>
    simp only [allocScan] at h
    split at h
    · have hres := ih (i + 1) 0 (by omega) (fun j h1 h2 => absurd h1 (by omega)) h
      exact ⟨by omega, hres.2⟩
    next hused =>
      have hfree : ∀ j, i + 1 ≤ j + (run + 1) → j < i + 1 → m.usedGet j = false := by
        intro j h1 h2
        by_cases hj : j = i
        · subst hj; simpa using hused
        · exact hrun j (by omega) (by omega)
      split at h
      · cases h
        exact ⟨by omega, fun j hj => hfree _ (by omega) (by omega)⟩
      · have hres := ih (i + 1) (run + 1) (by omega) hfree h
        exact ⟨by omega, hres.2⟩

structure Takes (m m' : Pmm) (f : Nat) : Prop where
  free : m.Free f
  total : m'.totalPages = m.totalPages
  rest : ∀ g, m'.Free g ↔ m.Free g ∧ g ≠ f

/-- `pmm_alloc_page` leaves the allocator as it is and fails, or takes a free
page; where that is page 0 the caller sees a failure. -/
theorem pmmAllocPages_one :
    m.pmmAllocPages 1 = (0, m) ∨ ∃ f m', m.pmmAllocPages 1 = (f * 4096, m') ∧ m.Takes m' f := by
  unfold pmmAllocPages
  split
  · exact .inl rfl
  cases hscan : m.allocScan 1 m.totalPages 0 0 with
  | none => exact .inl rfl
  | some f =>
    obtain ⟨hlt, hfree⟩ := allocScan_free m.totalPages 0 0 (Nat.le_refl 0) (by simp) hscan
    refine .inr ⟨f, _, rfl, ⟨by omega, hfree 0 (by decide)⟩, rfl, fun g => ?_⟩
    change g < m.totalPages ∧ (m.usedSet f).usedGet g = false ↔ _
    rw [usedGet_usedSet, Bool.or_eq_false_iff, decide_eq_false_iff_not, Free]
    exact ⟨fun h => ⟨⟨h.1, h.2.2⟩, h.2.1⟩, fun h => ⟨h.1.1, h.2, h.1.2⟩⟩

structure Gives (m m' : Pmm) (f : Nat) : Prop where
  total : m'.totalPages = m.totalPages
  rest : ∀ g, m'.Free g → m.Free g ∨ g = f

theorem pmmFreePages_one (page : Nat) : m.pmmFreePages page 1 = (false, m) ∨
      ∃ m', m.pmmFreePages page 1 = (true, m') ∧ m.Gives m' (page / 4096) := by
  unfold pmmFreePages
  split
  · exact .inl rfl
  split
  · exact .inl rfl
  split
  · exact .inl rfl
  split
  · exact .inl rfl
  extract_lets start
  split
  · exact .inl rfl
  refine .inr ⟨_, rfl, rfl, fun g hg => ?_⟩
  obtain ⟨hlt, hused⟩ : g < m.totalPages ∧ (m.usedClear (page / 4096)).usedGet g = false := hg
  by_cases hf : g = page / 4096
  · exact .inr hf
  · exact .inl ⟨hlt, by simpa [hf] using hused⟩

/-! ## The tracked range -/

def span : Nat × Nat := (m.totalPages, m.maxPaddr)

theorem eachPage_span {mark : Pmm → Nat → Pmm} (hmark : ∀ m p, (mark m p).span = m.span) (m : Pmm)
    (start stop : Nat) : (m.eachPage mark start stop).span = m.span := by
  unfold eachPage
  generalize (stop - start + 4095) / 4096 = n
  induction n with
  | zero => rfl
  | succ n ih => rw [List.range_succ, List.foldl_concat, hmark, ih]

theorem markUsable_span (base size : Nat) : (m.markUsable base size).span = m.span := by
  simp only [markUsable]
  split
  · rfl
  · apply eachPage_span; exact fun _ _ => rfl

theorem markReserved_span (base size : Nat) : (m.markReserved base size).span = m.span := by
  simp only [markReserved]
  split
  · rfl
  · apply eachPage_span; exact fun _ _ => rfl

theorem foldl_span {g : Pmm → Region → Pmm} (hg : ∀ m r, (g m r).span = m.span)
    (regions : List Region) (m : Pmm) : (regions.foldl g m).span = m.span := by
  induction regions generalizing m with
  | nil => rfl
  | cons r rs ih => rw [List.foldl_cons, ih, hg]

/-- What `pmm_init` leaves: the second pass over the regions, on an allocator
that spans no more than 1 GiB. -/
theorem pmmInit_passes {regions : List Region} {m : Pmm} (h : pmmInit regions = some m) :
    ∃ m1 : Pmm, m1.totalPages = m1.maxPaddr / 4096 ∧ m1.maxPaddr ≤ pmmMaxTrackedBytes ∧
      m.span = m1.span ∧ m.usedBitmap = (regions.foldl (fun m r =>
        if r.type = .usable then m else m.markReserved r.base r.size) m1).usedBitmap := by
  obtain ⟨_, h⟩ := Option.ite_none_left_eq_some.mp h
  generalize hm1 : List.foldl
    (fun m r => if r.type = .usable then markUsable m r.base r.size else m) _ regions = m1 at h
  cases h
  have hspan : m1.span =
      (min (usableTop regions) pmmMaxTrackedBytes / 4096,
        min (usableTop regions) pmmMaxTrackedBytes) := by
    rw [← hm1, foldl_span]
    · rfl
    intro m r
    split
    · exact markUsable_span _ _ _
    · rfl
  obtain ⟨htotal, hmax⟩ := Prod.mk.inj hspan
  refine ⟨m1, ?_, ?_, ?_, rfl⟩
  · rw [htotal, hmax]
  · rw [hmax]; exact Nat.min_le_right _ _
  · apply foldl_span
    intro m r
    split
    · rfl
    · exact markReserved_span _ _ _

/-! ## Reserved regions -/

theorem usedGet_eachPage (start stop g : Nat) :
    (m.eachPage (fun m p => (m.usedSet p).resvSet p) start stop).usedGet g = true ↔
      m.usedGet g = true ∨
        (start / 4096 ≤ g ∧ g < start / 4096 + (stop - start + 4095) / 4096) := by
  unfold eachPage
  generalize (stop - start + 4095) / 4096 = n
  induction n with
  | zero => exact ⟨.inl, fun h => h.resolve_right (by omega)⟩
  | succ n ih =>
    rw [List.range_succ, List.foldl_concat]
    change (usedSet _ _).usedGet g = true ↔ _
    rw [usedGet_usedSet, Bool.or_eq_true, decide_eq_true_eq, ih]
    constructor
    · intro h
      rcases h with h | h | h
      · exact .inr (by omega)
      · exact .inl h
      · exact .inr (by omega)
    · intro h
      rcases h with h | h
      · exact .inr (.inl h)
      · by_cases hlast : g = start / 4096 + n
        · exact .inl hlast
        · exact .inr (.inr (by omega))

end

theorem markReserved_used {m : Pmm} {r : Region} {g : Nat}
    (h : m.usedGet g = true ∨ (r.Holds g ∧ g < m.maxPaddr / 4096)) :
    (m.markReserved r.base r.size).usedGet g = true := by
  simp only [markReserved]
  split
  next hempty =>
    refine h.resolve_right fun ⟨⟨h1, h2, h3⟩, hg⟩ => ?_
    simp only [pageDown, pageUp] at hempty
    omega
  · rw [usedGet_eachPage]
    refine h.imp_right fun ⟨⟨h1, h2, h3⟩, hg⟩ => ?_
    simp only [pageDown, pageUp]
    omega

theorem pmmInit_reserved {regions : List Region} {m : Pmm} {r : Region} {f : Nat}
    (h : pmmInit regions = some m) (hr : r ∈ regions) (htype : r.type ≠ .usable)
    (hf : r.Holds f) : ¬ m.Free f := by
  obtain ⟨m1, htotal, _, hspan, hbits⟩ := pmmInit_passes h
  intro ⟨hlt, hfree⟩
  rw [(Prod.mk.inj hspan).1, htotal] at hlt
  -- the pass marks the page at the region, and keeps it marked
  have hpass : ∀ (rs : List Region) (m1 : Pmm), f < m1.maxPaddr / 4096 →
      m1.usedGet f = true ∨ r ∈ rs →
      (rs.foldl (fun m r => if r.type = .usable then m else m.markReserved r.base r.size)
        m1).usedGet f = true := by
    intro rs
    induction rs with
    | nil => exact fun _ _ h => h.resolve_right (by simp)
    | cons r' rs ih =>
      intro m1 hlt h
      rw [List.foldl_cons]
      by_cases hu : r'.type = .usable
      · rw [if_pos hu]
        refine ih m1 hlt (h.imp_right fun hmem => ?_)
        exact (List.mem_cons.mp hmem).resolve_left fun heq => htype (heq ▸ hu)
      rw [if_neg hu]
      have hmax := (Prod.mk.inj (markReserved_span m1 r'.base r'.size)).2
      refine ih _ (hmax ▸ hlt) ?_
      rcases h with h | h
      · exact .inl (markReserved_used (.inl h))
      · rcases List.mem_cons.mp h with heq | h
        · exact .inl (markReserved_used (.inr ⟨heq ▸ hf, hlt⟩))
        · exact .inr h
  have hused := hpass regions m1 hlt (.inr hr)
  rw [usedGet, ← hbits] at hused
  rw [usedGet, hused] at hfree
  cases hfree

end Pmm

end Exyde.Mem
