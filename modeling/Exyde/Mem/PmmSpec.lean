import Mathlib.Data.Finset.Filter
import Exyde.Lib.Extents
import Exyde.Mem.Pmm

/-! # What the page allocator keeps

`pmm_init`, `pmm_alloc_pages` and `pmm_free_pages` in terms of the set of free pages:
the cached count is its size, and an allocation takes the lowest block inside it. -/

namespace Exyde.Mem

open Exyde.Lib List

namespace Pmm

def freeSet (m : Pmm) : Finset Nat := (Finset.range m.totalPages).filter fun f => m.usedGet f = false

@[simp] theorem mem_freeSet {m : Pmm} {f : Nat} : f ∈ m.freeSet ↔ m.Free f := by
  simp [freeSet, Free]

/-- What holds between any two calls. The bitmap has 64 pages a word, so its last
word may reach beyond the tracked pages; nothing is set past it. -/
structure Wf (m : Pmm) : Prop where
  span : m.maxPaddr = m.totalPages * 4096
  small : m.totalPages ≤ 2 ^ 18
  count : m.freePages = m.freeSet.card
  resv_used : ∀ f, m.resvGet f = true → m.usedGet f = true
  beyond : ∀ f, m.usedGet f = true → f < (m.totalPages + 63) / 64 * 64

structure Sets (m m' : Pmm) (b : Bool) (start count : Nat) : Prop where
  used : ∀ f, m'.usedGet f = if f ∈ block start count then b else m.usedGet f
  resv : m'.resvBitmap = m.resvBitmap
  total : m'.totalPages = m.totalPages
  max : m'.maxPaddr = m.maxPaddr

/-! ## Marking a block -/

section

variable {m m' : Pmm} {start count : Nat} {b : Bool}

theorem foldl_sets {mark : Pmm → Nat → Pmm} (hmark : ∀ m f, Sets m (mark m f) b f 1) (m : Pmm)
    (start count : Nat) :
    Sets m ((List.range count).foldl (fun m j => mark m (start + j)) m) b start count := by
  induction count with
  | zero => exact ⟨fun f => by simp, rfl, rfl, rfl⟩
  | succ n ih =>
    rw [range_succ, foldl_concat]
    generalize (List.range n).foldl (fun m j => mark m (start + j)) m = m1 at ih ⊢
    have hlast := hmark m1 (start + n)
    refine ⟨fun f => ?_, hlast.resv.trans ih.resv, hlast.total.trans ih.total, hlast.max.trans ih.max⟩
    rw [hlast.used, ih.used]
    simp only [mem_block]
    by_cases hf : f = start + n
    · subst hf; simp
    · have h1 : ¬ (start + n ≤ f ∧ f < start + n + 1) := by omega
      have h2 : (start ≤ f ∧ f < start + (n + 1)) ↔ (start ≤ f ∧ f < start + n) := by omega
      simp only [h1, h2, if_false]

theorem mem_block_one {f g : Nat} : g ∈ block f 1 ↔ g = f := by
  rw [mem_block]
  omega

theorem usedSet_sets (m : Pmm) (f : Nat) : Sets m (m.usedSet f) true f 1 := by
  refine ⟨fun g => ?_, rfl, rfl, rfl⟩
  simp only [mem_block_one]
  by_cases hg : g = f <;> simp [hg]

theorem usedClear_sets (m : Pmm) (f : Nat) : Sets m (m.usedClear f) false f 1 := by
  refine ⟨fun g => ?_, rfl, rfl, rfl⟩
  simp only [mem_block_one]
  by_cases hg : g = f <;> simp [hg]

theorem Sets.resvGet (h : Sets m m' b start count) (f : Nat) : m'.resvGet f = m.resvGet f := by
  rw [Pmm.resvGet, h.resv, Pmm.resvGet]

theorem Sets.freeSet_take (h : Sets m m' true start count) : m'.freeSet = m.freeSet \ block start count := by
  ext f
  rw [Finset.mem_sdiff, mem_freeSet, mem_freeSet, Free, Free, h.used, h.total]
  by_cases hf : f ∈ block start count <;> simp [hf]

theorem Sets.freeSet_give (h : Sets m m' false start count) (hle : start + count ≤ m.totalPages) :
    m'.freeSet = m.freeSet ∪ block start count := by
  ext f
  rw [Finset.mem_union, mem_freeSet, mem_freeSet, Free, Free, h.used, h.total]
  by_cases hf : f ∈ block start count
  · have hlt : f < m.totalPages := by rw [mem_block] at hf; omega
    simp [hf, hlt]
  · simp [hf]

end

/-! ## Allocation -/

section

variable {m : Pmm} {count : Nat}

theorem block_free {s : Nat} (h : block s count ⊆ m.freeSet) {f : Nat} (h1 : s ≤ f) (h2 : f < s + count) :
    f < m.totalPages ∧ m.usedGet f = false :=
  mem_freeSet.mp (h (mem_block.mpr ⟨h1, h2⟩))

/-- The scan, with `run` free pages behind it and no earlier block possible. -/
theorem allocScan_spec (n i run : Nat) (hrun : run < count) (hle : run ≤ i) (htotal : i + n = m.totalPages)
    (hfree : ∀ j, i ≤ j + run → j < i → m.usedGet j = false)
    (hmin : ∀ s, block s count ⊆ m.freeSet → i ≤ s + run) :
    (∃ start, m.allocScan count n i run = some start ∧ Lowest m.freeSet count start) ∨
      m.allocScan count n i run = none ∧ ∀ s, ¬ block s count ⊆ m.freeSet := by
  induction n generalizing i run with
  | zero =>
    refine .inr ⟨rfl, fun s hs => ?_⟩
    have hi := hmin s hs
    have hlast := (block_free hs (f := s + count - 1) (by omega) (by omega)).1
    omega
  | succ n ih =>
    simp only [allocScan]
    split
    next hused =>
      refine ih (i + 1) 0 (by omega) (by omega) (by omega) (fun j h1 h2 => by omega) fun s hs => ?_
      -- a block that is not behind page `i` would contain it
      have hi := hmin s hs
      by_contra hlt
      have := (block_free hs (f := i) (by omega) (by omega)).2
      rw [hused] at this
      cases this
    next hused =>
      have hfree' : ∀ j, i + 1 ≤ j + (run + 1) → j < i + 1 → m.usedGet j = false := by
        intro j h1 h2
        by_cases hj : j = i
        · subst hj; simpa using hused
        · exact hfree j (by omega) (by omega)
      split
      next heq =>
        refine .inl ⟨i + 1 - count, rfl, fun f hf => ?_, fun s hs => ?_⟩
        · rw [mem_block] at hf
          exact mem_freeSet.mpr ⟨by omega, hfree' f (by omega) (by omega)⟩
        · have := hmin s hs
          omega
      · refine ih (i + 1) (run + 1) (by omega) (by omega) (by omega) hfree' fun s hs => ?_
        have := hmin s hs
        omega

/-- `pmm_alloc_pages` takes the lowest free block of that length. -/
structure Allocates (m m' : Pmm) (start count : Nat) : Prop where
  lowest : Lowest m.freeSet count start
  sets : Sets m m' true start count
  count : m'.freePages = m.freePages - count

/-- **Allocation.** The lowest free block is taken, or there is none and nothing
changes. -/
theorem pmmAllocPages_spec (h : m.Wf) (hc : 0 < count) :
    (∃ start m', m.pmmAllocPages count = (start * 4096, m') ∧ m.Allocates m' start count) ∨
      m.pmmAllocPages count = (0, m) ∧ ∀ s, ¬ block s count ⊆ m.freeSet := by
  have hscan := @allocScan_spec m count m.totalPages 0 0 hc (Nat.le_refl 0) (by omega)
    (fun j _ h2 => by omega) (fun s _ => by omega)
  unfold pmmAllocPages
  rcases hscan with ⟨start, hsome, hlow⟩ | ⟨hnone, hno⟩
  · have hle := count_le_card hlow.inside
    rw [← h.count] at hle
    rw [if_neg (by omega), hsome]
    have hsets := foldl_sets usedSet_sets m start count
    exact .inl ⟨start, _, rfl, hlow, ⟨hsets.used, hsets.resv, hsets.total, hsets.max⟩, rfl⟩
  · refine .inr ⟨?_, hno⟩
    rw [hnone]
    split <;> rfl

theorem Allocates.wf {m' : Pmm} {start : Nat} (ha : m.Allocates m' start count) (h : m.Wf) : m'.Wf where
  span := by rw [ha.sets.max, ha.sets.total, h.span]
  small := by rw [ha.sets.total]; exact h.small
  count := by rw [ha.count, ha.sets.freeSet_take, card_take ha.lowest.inside, h.count]
  resv_used f hf := by
    rw [ha.sets.resvGet] at hf
    rw [ha.sets.used, h.resv_used f hf]
    simp
  beyond f hf := by
    rw [ha.sets.total]
    rw [ha.sets.used] at hf
    split at hf
    next hb =>
      have := (mem_freeSet.mp (ha.lowest.inside hb)).1
      omega
    · exact h.beyond f hf

end

/-! ## Release -/

section

variable {m : Pmm} {page count : Nat}

/-- `pmm_free_pages` accepted the call: the block is tracked, used and not
reserved, and is given back. -/
structure Releases (m m' : Pmm) (page count : Nat) : Prop where
  aligned : page = page / 4096 * 4096
  pos : 0 < count
  tracked : page / 4096 + count ≤ m.totalPages
  used : ∀ f, f ∈ block (page / 4096) count → m.usedGet f = true ∧ m.resvGet f = false
  sets : Sets m m' false (page / 4096) count
  count : m'.freePages = m.freePages + count

/-- **Release.** The call fails and changes nothing, or it is accepted. A count
whose product wraps round passes the checks, and then meets a page past the last
word of the bitmap. -/
theorem pmmFreePages_spec (h : m.Wf) (page count : Nat) : m.pmmFreePages page count = (false, m) ∨
      ∃ m', m.pmmFreePages page count = (true, m') ∧ m.Releases m' page count := by
  unfold pmmFreePages
  split
  · exact .inl rfl
  split
  · exact .inl rfl
  split
  · exact .inl rfl
  split
  · exact .inl rfl
  extract_lets start
  split
  · exact .inl rfl
  next hc hal hpage hend hall =>
  have hused : ∀ i < count, m.usedGet (start + i) = true ∧ m.resvGet (start + i) = false := by
    intro i hi
    simp only [any_eq_true, mem_range, not_exists, not_and, Bool.not_eq_true,
      Bool.or_eq_false_iff, Bool.not_eq_false'] at hall
    exact ⟨(hall i hi).2, (hall i hi).1⟩
  have htracked : start + count ≤ m.totalPages := by
    have hspan := h.span
    have hsmall := h.small
    -- otherwise the product wraps and the block goes on past the bitmap
    by_contra hgt
    have hlast := h.beyond (start + (2 ^ 18 + 64)) (hused (2 ^ 18 + 64) (by omega)).1
    omega
  refine .inr ⟨_, rfl, by omega, by omega, htracked, fun f hf => ?_, ?_, rfl⟩
  · rw [mem_block] at hf
    have := hused (f - start) (by omega)
    rwa [show start + (f - start) = f by omega] at this
  · have hsets := foldl_sets usedClear_sets m start count
    exact ⟨hsets.used, hsets.resv, hsets.total, hsets.max⟩

theorem Releases.wf {m' : Pmm} (hr : m.Releases m' page count) (h : m.Wf) : m'.Wf where
  span := by rw [hr.sets.max, hr.sets.total, h.span]
  small := by rw [hr.sets.total]; exact h.small
  count := by
    have hdis : Disjoint m.freeSet (block (page / 4096) count) := by
      rw [Finset.disjoint_left]
      intro f hf hb
      have := (mem_freeSet.mp hf).2
      rw [(hr.used f hb).1] at this
      cases this
    rw [hr.count, hr.sets.freeSet_give hr.tracked, card_give hdis, h.count]
  resv_used f hf := by
    rw [hr.sets.resvGet] at hf
    rw [hr.sets.used, h.resv_used f hf]
    split
    next hb => rw [(hr.used f hb).2] at hf; cases hf
    · rfl
  beyond f hf := by
    rw [hr.sets.total]
    rw [hr.sets.used] at hf
    split at hf
    · cases hf
    · exact h.beyond f hf

end

/-! ## The pages it works on -/

section

variable {m m' : Pmm} {f : Nat}

structure Same (m m' : Pmm) : Prop where
  total : m'.totalPages = m.totalPages
  resv : m'.resvBitmap = m.resvBitmap

def Fit (m : Pmm) (f : Nat) : Prop := f < m.totalPages ∧ m.resvGet f = false

theorem Same.trans {m'' : Pmm} (h : m.Same m') (h' : m'.Same m'') : m.Same m'' :=
  ⟨h'.total.trans h.total, h'.resv.trans h.resv⟩

theorem Same.fit (h : m.Same m') (hf : m.Fit f) : m'.Fit f := by
  rw [Fit, h.total, resvGet, h.resv]
  exact hf

theorem Wf.fit (h : m.Wf) (hf : m.Free f) : m.Fit f := by
  refine ⟨hf.1, Bool.eq_false_iff.mpr fun hresv => ?_⟩
  have hused := h.resv_used f hresv
  rw [hf.2] at hused
  cases hused

theorem Wf.alloc (h : m.Wf) : (m.pmmAllocPages 1).2.Wf ∧ m.Same (m.pmmAllocPages 1).2 := by
  rcases pmmAllocPages_spec h (by decide : 0 < 1) with ⟨start, m', heq, ha⟩ | ⟨heq, _⟩
  · rw [heq]
    exact ⟨ha.wf h, ha.sets.total, ha.sets.resv⟩
  · rw [heq]
    exact ⟨h, rfl, rfl⟩

theorem Wf.give (h : m.Wf) (page : Nat) :
    (m.pmmFreePages page 1).2.Wf ∧ m.Same (m.pmmFreePages page 1).2 := by
  rcases pmmFreePages_spec h page 1 with heq | ⟨m', heq, hr⟩
  · rw [heq]
    exact ⟨h, rfl, rfl⟩
  · rw [heq]
    exact ⟨hr.wf h, hr.sets.total, hr.sets.resv⟩

end

/-! ## Initialisation -/

/-- Page `f` is one that `mark_usable` clears. -/
def inUsable (r : Region) (max f : Nat) : Prop :=
  pageUp r.base ≤ f * 4096 ∧ f * 4096 < min (pageDown ((r.base + r.size) % 2 ^ 64)) max
  deriving Decidable

/-- Page `f` is one that `mark_reserved` sets. -/
def inReserved (r : Region) (max f : Nat) : Prop :=
  pageDown r.base ≤ f * 4096 ∧ f * 4096 < min (pageUp ((r.base + r.size) % 2 ^ 64)) max
  deriving Decidable

section

variable {mark : Pmm → Nat → Pmm} {m m' : Pmm} {r : Region} {regions : List Region} {f : Nat}

theorem eachPage_frame {α : Type} (obs : Pmm → α) (hmark : ∀ m p, obs (mark m p) = obs m) (m : Pmm)
    (start stop : Nat) : obs (m.eachPage mark start stop) = obs m := by
  unfold eachPage
  generalize (stop - start + 4095) / 4096 = n
  induction n with
  | zero => rfl
  | succ n ih => rw [range_succ, foldl_concat, hmark, ih]

theorem eachPage_bit (bit : Pmm → Nat → Bool) {b : Bool}
    (hmark : ∀ m p g, bit (mark m p) g = if g = p then b else bit m g) (m : Pmm) {start stop : Nat}
    (hstart : start % 4096 = 0) (hlt : start < stop) (g : Nat) :
    bit (m.eachPage mark start stop) g = if start ≤ g * 4096 ∧ g * 4096 < stop then b else bit m g := by
  have hrange : (start ≤ g * 4096 ∧ g * 4096 < stop) ↔
      (start / 4096 ≤ g ∧ g < start / 4096 + (stop - start + 4095) / 4096) := by omega
  simp only [hrange, eachPage]
  generalize (stop - start + 4095) / 4096 = n
  induction n with
  | zero => rw [if_neg (by omega)]; rfl
  | succ n ih =>
    rw [range_succ, foldl_concat, hmark, ih]
    by_cases hg : g = start / 4096 + n
    · rw [if_pos hg, if_pos (by omega)]
    · rw [if_neg hg]
      have hiff : (start / 4096 ≤ g ∧ g < start / 4096 + n) ↔
          (start / 4096 ≤ g ∧ g < start / 4096 + (n + 1)) := by omega
      simp only [hiff]

theorem pageUp_aligned (x : Nat) : pageUp x % 4096 = 0 := Nat.mul_mod_left ..

theorem pageDown_aligned (x : Nat) : pageDown x % 4096 = 0 := Nat.mul_mod_left ..

theorem markUsable_usedGet (m : Pmm) (r : Region) (f : Nat) :
    (m.markUsable r.base r.size).usedGet f = if inUsable r m.maxPaddr f then false else m.usedGet f := by
  simp only [markUsable]
  split
  next hempty =>
    rw [if_neg]
    intro hin
    obtain ⟨h1, h2⟩ := hin
    omega
  next hlt =>
    refine eachPage_bit usedGet (fun m p g => ?_) m (pageUp_aligned _) (Nat.lt_of_not_le hlt) f
    by_cases hg : g = p <;> simp [hg]

theorem markUsable_resv (m : Pmm) (r : Region) :
    (m.markUsable r.base r.size).resvBitmap = m.resvBitmap := by
  simp only [markUsable]
  split
  · rfl
  · have hmark : ∀ m p, (usedClear m p).resvBitmap = m.resvBitmap := fun _ _ => rfl
    exact eachPage_frame Pmm.resvBitmap hmark ..

theorem markReserved_bit (bit : Pmm → Nat → Bool)
    (hmark : ∀ m p g, bit ((usedSet m p).resvSet p) g = if g = p then true else bit m g) (m : Pmm)
    (r : Region) (f : Nat) :
    bit (m.markReserved r.base r.size) f = if inReserved r m.maxPaddr f then true else bit m f := by
  simp only [markReserved]
  split
  next hempty =>
    rw [if_neg]
    intro hin
    obtain ⟨h1, h2⟩ := hin
    omega
  next hlt => exact eachPage_bit bit hmark m (pageDown_aligned _) (Nat.lt_of_not_le hlt) f

theorem markReserved_usedGet (m : Pmm) (r : Region) (f : Nat) :
    (m.markReserved r.base r.size).usedGet f = if inReserved r m.maxPaddr f then true else m.usedGet f := by
  refine markReserved_bit usedGet (fun m p g => ?_) m r f
  change (m.usedSet p).usedGet g = _
  by_cases hg : g = p <;> simp [hg]

theorem markReserved_resvGet (m : Pmm) (r : Region) (f : Nat) :
    (m.markReserved r.base r.size).resvGet f = if inReserved r m.maxPaddr f then true else m.resvGet f := by
  refine markReserved_bit resvGet (fun m p g => ?_) m r f
  change testBit (setBit m.resvBitmap p) g = _
  by_cases hg : g = p <;> simp [hg, resvGet]

section

variable (regions : List Region)

def usablePass (m : Pmm) : Pmm :=
  regions.foldl (fun m r => if r.type = .usable then m.markUsable r.base r.size else m) m

def reservedPass (m : Pmm) : Pmm :=
  regions.foldl (fun m r => if r.type = .usable then m else m.markReserved r.base r.size) m

theorem usablePass_cons (r : Region) (regions : List Region) (m : Pmm) :
    usablePass (r :: regions) m =
      usablePass regions (if r.type = .usable then m.markUsable r.base r.size else m) := rfl

theorem reservedPass_cons (r : Region) (regions : List Region) (m : Pmm) :
    reservedPass (r :: regions) m =
      reservedPass regions (if r.type = .usable then m else m.markReserved r.base r.size) := rfl

theorem usablePass_span (m : Pmm) : (usablePass regions m).span = m.span := by
  refine foldl_span (fun m r => ?_) regions m
  split
  · exact markUsable_span ..
  · rfl

theorem reservedPass_span (m : Pmm) : (reservedPass regions m).span = m.span := by
  refine foldl_span (fun m r => ?_) regions m
  split
  · rfl
  · exact markReserved_span ..

theorem max_of_span (h : m'.span = m.span) : m'.maxPaddr = m.maxPaddr := (Prod.mk.inj h).2

theorem usablePass_bits (m : Pmm) (f : Nat) :
    ((usablePass regions m).usedGet f = false ↔ m.usedGet f = false ∨
      ∃ r, r ∈ regions ∧ r.type = .usable ∧ inUsable r m.maxPaddr f) ∧
    (usablePass regions m).resvGet f = m.resvGet f := by
  induction regions generalizing m with
  | nil => simp [usablePass]
  | cons r regions ih =>
    rw [usablePass_cons]
    by_cases hu : r.type = .usable
    · rw [if_pos hu]
      obtain ⟨hused, hresv⟩ := ih (m.markUsable r.base r.size)
      rw [markUsable_usedGet, max_of_span (markUsable_span ..)] at hused
      refine ⟨hused.trans ?_, hresv.trans (by rw [resvGet, markUsable_resv, resvGet])⟩
      by_cases hin : inUsable r m.maxPaddr f <;> simp [hu, hin]
    · simpa [hu] using ih m

theorem reservedPass_bits (m : Pmm) (f : Nat) :
    ((reservedPass regions m).usedGet f = true ↔ m.usedGet f = true ∨
      ∃ r, r ∈ regions ∧ r.type ≠ .usable ∧ inReserved r m.maxPaddr f) ∧
    ((reservedPass regions m).resvGet f = true ↔ m.resvGet f = true ∨
      ∃ r, r ∈ regions ∧ r.type ≠ .usable ∧ inReserved r m.maxPaddr f) := by
  induction regions generalizing m with
  | nil => simp [reservedPass]
  | cons r regions ih =>
    rw [reservedPass_cons]
    by_cases hu : r.type = .usable
    · simpa [hu] using ih m
    · have hrec := ih (m.markReserved r.base r.size)
      rw [markReserved_usedGet, markReserved_resvGet, max_of_span (markReserved_span ..)] at hrec
      by_cases hin : inReserved r m.maxPaddr f
      · simpa [hu, hin] using hrec
      · simpa [hu, hin] using hrec

def blank (max : Nat) : Pmm where
  usedBitmap := fun i => if i < (max / 4096 + 63) / 64 then BitVec.allOnes 64 else 0#64
  resvBitmap := fun _ => 0#64
  totalPages := max / 4096
  maxPaddr := max
  freePages := 0

theorem blank_usedGet (max f : Nat) :
    (blank max).usedGet f = decide (f < (max / 4096 + 63) / 64 * 64) := by
  rw [usedGet, testBit_eq]
  change (if f / 64 < (max / 4096 + 63) / 64 then BitVec.allOnes 64 else 0#64).getLsbD (f % 64) = _
  have hlt : f % 64 < 64 := Nat.mod_lt _ (by decide)
  by_cases hf : f < (max / 4096 + 63) / 64 * 64
  · rw [if_pos (by omega), BitVec.getLsbD_allOnes, decide_eq_true hf, decide_eq_true hlt]
  · rw [if_neg (by omega), BitVec.getLsbD_zero, decide_eq_false hf]

theorem blank_resvGet (max f : Nat) : (blank max).resvGet f = false := by
  rw [resvGet, testBit_eq, blank, BitVec.getLsbD_zero]

theorem usableTop_aligned : usableTop regions % 4096 = 0 := by
  simp only [usableTop]
  split
  · rfl
  · exact pageUp_aligned _

def highestEnd (top : Nat) : Nat :=
  regions.foldl (fun top r =>
    if r.type = .usable then max top ((r.base + r.size) % 2 ^ 64) else top) top

theorem highestEnd_cons (r : Region) (regions : List Region) (top : Nat) :
    highestEnd (r :: regions) top =
      highestEnd regions (if r.type = .usable then max top ((r.base + r.size) % 2 ^ 64) else top) := rfl

theorem highestEnd_le_iff {regions : List Region} {top b : Nat} : highestEnd regions top ≤ b ↔
    top ≤ b ∧ ∀ r ∈ regions, r.type = .usable → (r.base + r.size) % 2 ^ 64 ≤ b := by
  induction regions generalizing top with
  | nil => simp [highestEnd]
  | cons r regions ih =>
    rw [highestEnd_cons, ih, forall_mem_cons]
    by_cases hu : r.type = .usable <;> simp [hu, and_assoc]

theorem highestEnd_eq (top : Nat) : highestEnd regions top = top ∨
    ∃ r ∈ regions, r.type = .usable ∧ (r.base + r.size) % 2 ^ 64 = highestEnd regions top := by
  induction regions generalizing top with
  | nil => exact .inl rfl
  | cons r regions ih =>
    rw [highestEnd_cons]
    rcases ih (if r.type = .usable then max top ((r.base + r.size) % 2 ^ 64) else top) with heq | ⟨q, hq, hu, heq⟩
    · rw [heq]
      split
      next hu =>
        rcases Nat.le_total top ((r.base + r.size) % 2 ^ 64) with hle | hle
        · exact .inr ⟨r, mem_cons_self .., hu, (Nat.max_eq_right hle).symm⟩
        · exact .inl (Nat.max_eq_left hle)
      · exact .inl rfl
    · exact .inr ⟨q, mem_cons_of_mem _ hq, hu, heq⟩

end

/-- A usable region that ends in the last page of the address space makes the top
round up to 0, and `pmm_init` finds no usable memory. -/
theorem usableTop_end (h : usableTop regions ≠ 0) (hr : r ∈ regions) (hu : r.type = .usable) :
    (r.base + r.size) % 2 ^ 64 + 4095 < 2 ^ 64 := by
  have hle := (highestEnd_le_iff.mp (Nat.le_refl (highestEnd regions 0))).2 r hr hu
  have hlt : highestEnd regions 0 ≤ 2 ^ 64 - 1 := highestEnd_le_iff.mpr
    ⟨Nat.zero_le _, fun r _ _ => Nat.le_pred_of_lt (Nat.mod_lt _ (by decide))⟩
  change (if highestEnd regions 0 = 0 then 0 else pageUp (highestEnd regions 0)) ≠ 0 at h
  split at h
  · exact absurd rfl h
  · simp only [pageUp] at h
    omega

theorem pmmInit_eq (h : pmmInit regions = some m) :
    usableTop regions ≠ 0 ∧ ∃ max, max = min (usableTop regions) pmmMaxTrackedBytes ∧
      max % 4096 = 0 ∧ 0 < max ∧ max ≤ pmmMaxTrackedBytes ∧ m = { reservedPass regions (usablePass regions (blank max)) with
        freePages := ((List.range (max / 4096)).filter fun i =>
          !(reservedPass regions (usablePass regions (blank max))).usedGet i).length } := by
  obtain ⟨htop, h⟩ := Option.ite_none_left_eq_some.mp h
  have hal := usableTop_aligned regions
  refine ⟨htop, min (usableTop regions) pmmMaxTrackedBytes, rfl, ?_, ?_, Nat.min_le_right ..,
    (Option.some.inj h).symm⟩
  · rw [Nat.min_def]
    split
    · exact hal
    · decide
  · exact Nat.lt_min.mpr ⟨Nat.pos_of_ne_zero htop, by decide⟩

theorem exists_pmmInit (h : usableTop regions ≠ 0) : ∃ m, pmmInit regions = some m := ⟨_, if_neg h⟩

def trackedTop (regions : List Region) : Nat := min (usableTop regions) pmmMaxTrackedBytes

structure Initial (regions : List Region) (m : Pmm) : Prop where
  wf : m.Wf
  pos : 0 < m.totalPages
  top : m.maxPaddr = trackedTop regions
  usable : ∀ f, m.Free f → ∃ r, r ∈ regions ∧ r.type = .usable ∧ inUsable r m.maxPaddr f
  reserved : ∀ f, m.resvGet f = true ↔ ∃ r, r ∈ regions ∧ r.type ≠ .usable ∧ inReserved r m.maxPaddr f
  ends : ∀ r, r ∈ regions → r.type = .usable → (r.base + r.size) % 2 ^ 64 + 4095 < 2 ^ 64

theorem length_filter_range (n : Nat) (p : Nat → Bool) :
    ((List.range n).filter p).length = ((Finset.range n).filter fun i => p i = true).card := by
  rw [← toFinset_range, ← toFinset_filter, toFinset_card_of_nodup]
  exact nodup_range.filter _

/-- The bits after both passes: a page is not used if it lies in a usable region,
or behind the bitmap, and in no other region, and reserved if it lies in one. -/
theorem passes_bits (regions : List Region) (max f : Nat) :
    let m := reservedPass regions (usablePass regions (blank max))
    (m.usedGet f = false ↔ (f < (max / 4096 + 63) / 64 * 64 →
      ∃ r, r ∈ regions ∧ r.type = .usable ∧ inUsable r max f) ∧
        ∀ r, r ∈ regions → r.type ≠ .usable → ¬ inReserved r max f) ∧
    (m.resvGet f = true ↔ ∃ r, r ∈ regions ∧ r.type ≠ .usable ∧ inReserved r max f) := by
  obtain ⟨hused, hresv⟩ := reservedPass_bits regions (usablePass regions (blank max)) f
  obtain ⟨hfree, hnone⟩ := usablePass_bits regions (blank max) f
  rw [max_of_span (usablePass_span regions (blank max))] at hused hresv
  change _ ↔ _ ∨ ∃ r, _ ∧ _ ∧ inReserved r max f at hused hresv
  change _ ↔ _ ∨ ∃ r, _ ∧ _ ∧ inUsable r max f at hfree
  rw [blank_usedGet, decide_eq_false_iff_not, ← imp_iff_not_or] at hfree
  rw [hnone, blank_resvGet] at hresv
  refine ⟨?_, hresv.trans (or_iff_right (by simp))⟩
  rw [← Bool.not_eq_true, hused, not_or, Bool.not_eq_true, hfree]
  simp only [not_exists, not_and]

/-- **Initialisation**, whatever the memory map. -/
theorem pmmInit_initial (h : pmmInit regions = some m) : Initial regions m := by
  obtain ⟨htop, max, hdef, hal, hpos, hmax, rfl⟩ := pmmInit_eq h
  have hspan1 := usablePass_span regions (blank max)
  have hspan2 := reservedPass_span regions (usablePass regions (blank max))
  obtain ⟨htotal, hmaxp⟩ := Prod.mk.inj (hspan2.trans hspan1)
  have hb := passes_bits regions max
  change _ = max at hmaxp
  change _ = max / 4096 at htotal
  generalize hm2 : reservedPass regions (usablePass regions (blank max)) = m2 at *
  simp only [pmmMaxTrackedBytes] at hmax
  refine ⟨⟨?_, ?_, ?_, fun f hf => ?_, fun f hf => ?_⟩, ?_, hmaxp.trans hdef, fun f hf => ?_, fun f => ?_,
    fun r hr hu => usableTop_end htop hr hu⟩
  · show m2.maxPaddr = m2.totalPages * 4096
    omega
  · show m2.totalPages ≤ 2 ^ 18
    omega
  · show _ = ((Finset.range m2.totalPages).filter fun f => m2.usedGet f = false).card
    rw [length_filter_range, htotal]
    simp only [Bool.not_eq_true']
  · obtain ⟨r, hr, ht, hin⟩ := (hb f).2.mp hf
    show m2.usedGet f = true
    by_contra hno
    exact ((hb f).1.mp (by simpa using hno)).2 r hr ht hin
  · rw [htotal]
    by_contra hbeyond
    have hused : m2.usedGet f = true := hf
    refine absurd hused (Bool.eq_false_iff.mp ((hb f).1.mpr ⟨fun hlt => absurd hlt hbeyond, fun r _ _ hin => ?_⟩))
    obtain ⟨-, hlt⟩ := hin
    omega
  · show 0 < m2.totalPages
    omega
  · obtain ⟨hlt, hf⟩ : f < m2.totalPages ∧ m2.usedGet f = false := hf
    rw [show m2.maxPaddr = max from hmaxp]
    exact ((hb f).1.mp hf).1 (by omega)
  · rw [show m2.maxPaddr = max from hmaxp]
    exact (hb f).2

/-- The memory map makes page `f` free: it lies in a usable region, and in no
other one. -/
def Frees (regions : List Region) (f : Nat) : Prop :=
  (∃ r, r ∈ regions ∧ r.type = .usable ∧ inUsable r (trackedTop regions) f) ∧
    ∀ r, r ∈ regions → r.type ≠ .usable → ¬ inReserved r (trackedTop regions) f

/-- **The free pages after `pmm_init`** are those that the memory map frees. -/
theorem pmmInit_free (h : pmmInit regions = some m) : m.Free f ↔ Frees regions f := by
  obtain ⟨-, max, hdef, hal, -, -, rfl⟩ := pmmInit_eq h
  obtain ⟨htotal, -⟩ := Prod.mk.inj ((reservedPass_span regions (usablePass regions (blank max))).trans
    (usablePass_span regions (blank max)))
  obtain ⟨hb, -⟩ := passes_bits regions max f
  rw [Frees, show trackedTop regions = max from hdef.symm]
  change f < (reservedPass regions (usablePass regions (blank max))).totalPages ∧
    (reservedPass regions (usablePass regions (blank max))).usedGet f = false ↔ _
  rw [htotal, hb]
  change f < max / 4096 ∧ _ ↔ _
  constructor
  · exact fun ⟨hlt, hin, hout⟩ => ⟨hin (by omega), hout⟩
  · intro hfree
    obtain ⟨r, -, -, hin⟩ := hfree.1
    exact ⟨by obtain ⟨-, hlt⟩ := hin; omega, fun _ => hfree.1, hfree.2⟩

end

end Pmm

end Exyde.Mem
