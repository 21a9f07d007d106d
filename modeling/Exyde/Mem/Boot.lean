import Exyde.Mem.Layout

/-! # The machine after boot

The bootstrap tables of `boot.asm` (an identity map of the first GiB in huge pages), the
allocator after `pmm_init`, and the kernel's address space as the only one. The rest of
the memory is arbitrary. -/

namespace Exyde.Mem

/-- The memory map at `pmm_init`, with the kernel image reserved, and the frames
of the bootstrap tables in it. -/
structure BootMap where
  regions : List Region
  kernel : Region
  pml4 : Nat
  pdpt : Nat
  pd : Nat
  listed : kernel ∈ regions
  reserved : kernel.type ≠ .usable
  inside : kernel.Holds pml4 ∧ kernel.Holds pdpt ∧ kernel.Holds pd
  distinct : pml4 ≠ pdpt ∧ pml4 ≠ pd ∧ pdpt ≠ pd
  nonzero : pml4 ≠ 0 ∧ pdpt ≠ 0 ∧ pd ≠ 0

def bootEntry (f : Nat) : Word := BitVec.ofNat 64 (f * 4096) ||| (ptePresent ||| pteWrite)

def bootHuge (i : Fin 512) : Word := BitVec.ofNat 64 (0x83 + i.val * 0x200000)

/-- `__boot_pml4`, `__boot_pdpt` and `__boot_pd` as `boot.asm` fills them. -/
def BootMap.table (b : BootMap) (f : Nat) : Option (Fin 512 → Word) :=
  if f = b.pml4 then some fun i => if i = 0 then bootEntry b.pdpt else 0#64
  else if f = b.pdpt then some fun i => if i = 0 then bootEntry b.pd else 0#64
  else if f = b.pd then some bootHuge
  else none

/-- The machine at the end of `heap_init`, on the given memory contents. -/
def BootMap.state (b : BootMap) (pmm : Pmm) (mem : Nat → Fin 512 → Word) : State where
  pmm := pmm
  mem f := (b.table f).getD (mem f)
  space := Function.update (fun _ => none) vmmKernelSpace (some ⟨b.pml4 * 4096, 0xFFFFFFFF, true⟩)
  nextSpace := 1
  heapEnd := kernelHeapBase
  cr3 := b.pml4 * 4096

def Booted (s : State) : Prop :=
  ∃ (b : BootMap) (pmm : Pmm) (mem : Nat → Fin 512 → Word),
    Pmm.pmmInit b.regions = some pmm ∧ s = b.state pmm mem

namespace BootMap

variable {b : BootMap} {pmm : Pmm} {mem : Nat → Fin 512 → Word} {f : Nat}

theorem lowBits_boot : LowBits (ptePresent ||| pteWrite) := ⟨by decide, by decide, by decide⟩

theorem bootEntry_eq (hf : f < 2 ^ 40) :
    bootEntry f = pteFor (f * 4096) (ptePresent ||| pteWrite) := by
  rw [bootEntry, pteFor, ofNat_and_pteAddrMask hf]

theorem bootHuge_bits (i : Fin 512) : present (bootHuge i) = true ∧ huge (bootHuge i) = true := by
  revert i
  decide +kernel

theorem small {r : Region} (h : r.Holds f) : f < 2 ^ 40 := by
  obtain ⟨_, h2, h3⟩ := h
  omega

@[simp] theorem mem_pml4 (i : Fin 512) :
    (b.state pmm mem).mem b.pml4 i = if i = 0 then bootEntry b.pdpt else 0#64 := by
  simp [state, table]

@[simp] theorem mem_pdpt (i : Fin 512) :
    (b.state pmm mem).mem b.pdpt i = if i = 0 then bootEntry b.pd else 0#64 := by
  simp [state, table, b.distinct.1.symm]

@[simp] theorem mem_pd (i : Fin 512) : (b.state pmm mem).mem b.pd i = bootHuge i := by
  simp [state, table, b.distinct.2.1.symm, b.distinct.2.2.symm]

theorem space_kernel : (b.state pmm mem).space 0 = some ⟨b.pml4 * 4096, 0xFFFFFFFF, true⟩ := by
  simp [state, vmmKernelSpace]

theorem space_other {r : Nat} (hr : r ≠ 0) : (b.state pmm mem).space r = none := by
  simp [state, vmmKernelSpace, hr]

theorem node_pml4 : (b.state pmm mem).node 0 [] = some b.pml4 := by
  rw [State.node_root space_kernel, Nat.mul_div_cancel _ (by decide)]

theorem node_pdpt : (b.state pmm mem).node 0 [0] = some b.pdpt := by
  rw [State.node_cons_of node_pml4, mem_pml4, if_pos rfl, bootEntry_eq (small b.inside.2.1)]
  exact childOf_pteFor (by decide) (fun _ => by simp) (small b.inside.2.1) lowBits_boot

theorem node_pd : (b.state pmm mem).node 0 [0, 0] = some b.pd := by
  rw [State.node_cons_of node_pdpt, mem_pdpt, if_pos rfl, bootEntry_eq (small b.inside.2.2)]
  exact childOf_pteFor (by decide) (fun h => by cases h) (small b.inside.2.2) lowBits_boot

theorem node_cases {r : Nat} {p : Path} (h : (b.state pmm mem).node r p = some f) :
    r = 0 ∧ (p = [] ∧ f = b.pml4 ∨ p = [0] ∧ f = b.pdpt ∨ p = [0, 0] ∧ f = b.pd) := by
  -- entries other than 0 of the upper tables are zero, those of the last one are huge
  have hzero : ∀ {q : Path} {i : Fin 512} {c e}, i ≠ 0 →
      childOf r q i (if i = 0 then e else 0#64) = some c → False := by
    intro q i c e hi hc
    rw [if_neg hi, childOf_absent (by decide)] at hc
    cases hc
  by_cases hr : r = 0
  · subst hr
    refine ⟨rfl, ?_⟩
    induction p generalizing f with
    | nil => exact .inl ⟨rfl, Option.some.inj (h.symm.trans node_pml4)⟩
    | cons i p ih =>
      obtain ⟨g, hg, hc⟩ := State.node_cons_some h
      rcases ih hg with ⟨rfl, rfl⟩ | ⟨rfl, rfl⟩ | ⟨rfl, rfl⟩
      · by_cases hi : i = 0
        · subst hi
          exact .inr (.inl ⟨rfl, Option.some.inj (h.symm.trans node_pdpt)⟩)
        · rw [mem_pml4] at hc
          exact (hzero hi hc).elim
      · by_cases hi : i = 0
        · subst hi
          exact .inr (.inr ⟨rfl, Option.some.inj (h.symm.trans node_pd)⟩)
        · rw [mem_pdpt] at hc
          exact (hzero hi hc).elim
      · rw [mem_pd] at hc
        have hsmall := (childOf_some hc).2.2.1 (by decide)
        rw [(bootHuge_bits i).2] at hsmall
        cases hsmall
  · have hroot : (b.state pmm mem).forest.root r = none := by
      change ((b.state pmm mem).space r).map _ = none
      rw [space_other hr, Option.map_none]
    exact absurd (h.symm.trans (Lib.Forest.node_of_root_none hroot p)) (by simp)

theorem kroot_state : (b.state pmm mem).kroot = b.pml4 := by
  exact Nat.mul_div_cancel _ (by decide)

/-- **The layout after boot.** -/
theorem layout (hpmm : Pmm.pmmInit b.regions = some pmm) : Layout (b.state pmm mem) where
  kernel := ⟨_, space_kernel⟩
  shared h := by
    obtain ⟨rfl, hp⟩ := node_cases h
    rw [kroot_state, Option.some.inj (h.symm.trans node_pml4)]
  kernelTop hi := by
    rw [kroot_state, mem_pml4, if_neg hi]
    rfl
  entered := by
    rw [kroot_state, mem_pml4, if_pos rfl, bootEntry_eq (small b.inside.2.1)]
    exact present_pteFor lowBits_boot
  distinct := by
    intro r p r' p' f h h'
    obtain ⟨rfl, hp⟩ := node_cases h
    obtain ⟨rfl, hp'⟩ := node_cases h'
    have hd := b.distinct
    refine ⟨rfl, ?_⟩
    rcases hp with ⟨rfl, rfl⟩ | ⟨rfl, rfl⟩ | ⟨rfl, rfl⟩ <;>
      rcases hp' with ⟨rfl, hf⟩ | ⟨rfl, hf⟩ | ⟨rfl, hf⟩ <;> first | rfl | (exfalso; omega)
  held h := by
    obtain ⟨_, hp⟩ := node_cases h
    have hres := fun f => Pmm.pmmInit_reserved (f := f) hpmm b.listed b.reserved
    rcases hp with ⟨_, rfl⟩ | ⟨_, rfl⟩ | ⟨_, rfl⟩
    · exact hres _ b.inside.1
    · exact hres _ b.inside.2.1
    · exact hres _ b.inside.2.2
  nonzero h := by
    obtain ⟨_, hp⟩ := node_cases h
    have hn := b.nonzero
    omega
  total := (Pmm.pmmInit_initial hpmm).wf.small
  wf := (Pmm.pmmInit_initial hpmm).wf
  drawn hr h := absurd (node_cases h).1 hr
  aligned {r space} h := by
    by_cases hr : r = 0
    · subst hr
      cases space_kernel.symm.trans h
      exact congrArg (· * 4096) (Nat.mul_div_cancel _ (by decide))
    · rw [space_other hr] at h; cases h
  kind {r space} h := by
    by_cases hr : r = 0
    · subst hr
      cases space_kernel.symm.trans h
      simp
    · rw [space_other hr] at h; cases h
  numbered hr := space_other (Nat.ne_of_gt hr)
  identity := ⟨b.pd, node_pd, by rw [mem_pd]; exact bootHuge_bits 0⟩
  noHuge hr h := absurd (node_cases h).1 hr

end BootMap

theorem Booted.layout {s : State} (h : Booted s) : Layout s := by
  obtain ⟨b, pmm, mem, hpmm, rfl⟩ := h
  exact BootMap.layout hpmm

end Exyde.Mem
