import Mathlib.Data.List.FinRange
import Exyde.Mem.State

/-! # Address spaces

`vmm.c`, and `heap_grow`, which maps pages in the kernel's address space. The free list
of the heap is not part of the state: `HeapAnswer` tells how it served an allocation.
TLB flushes have no effect here. -/

namespace Exyde.Mem

open Exyde.Lib (Prog)

/-! ## Table walks -/

/-- `(va >> 39) & 0x1FF`, and so on for the lower levels. -/
def idxPml4 (va : Nat) : Fin 512 := Fin.ofNat 512 (va >>> 39)
def idxPdpt (va : Nat) : Fin 512 := Fin.ofNat 512 (va >>> 30)
def idxPd (va : Nat) : Fin 512 := Fin.ofNat 512 (va >>> 21)
def idxPt (va : Nat) : Fin 512 := Fin.ofNat 512 (va >>> 12)

def descendOrAlloc (table : Nat) (idx : Fin 512) (childUser : Bool) : MM Nat := do
  let e ← load table idx
  if present e then
    if huge e then pure 0 else pure (pteAddr e)
  else
    let np ← pmmAllocPage
    if np = 0 then pure 0
    else
      zeroPage np
      store table idx
        (BitVec.ofNat 64 np ||| (ptePresent ||| pteWrite ||| if childUser then pteUser else 0#64))
      pure np

/-- The page table (last level) for `va` under a root, 0 if there is none. -/
def State.walkFrom (s : State) (pml4 va : Nat) : Nat :=
  let e := s.mem (pml4 / 4096) (idxPml4 va)
  if !present e || huge e then 0
  else
    let e := s.mem (pteAddr e / 4096) (idxPdpt va)
    if !present e || huge e then 0
    else
      let e := s.mem (pteAddr e / 4096) (idxPd va)
      if !present e || huge e then 0 else pteAddr e

def State.walkLeaf (s : State) (sp va : Nat) : Nat :=
  match s.space sp with
  | none => 0
  | some space => s.walkFrom space.pml4 va

def vmmKernelSpace : Nat := 0

def lowerBound (space : Space) : Nat := if space.isKernel then kernelVaBase else userVaBase

/-- The entry of `va` that a walk from the tables of `sp` ends in, if it is present. -/
def State.leafEntry (s : State) (sp va : Nat) : Option Word :=
  let pt := s.walkLeaf sp va
  if pt = 0 then none
  else
    let e := s.mem (pt / 4096) (idxPt va)
    if present e then some e else none

def State.vmmQuery (s : State) (sp va : Nat) : Option (Nat × BitVec 32) :=
  if va % 4096 ≠ 0 then none
  else (s.leafEntry sp va).map fun e => (pteAddr e, pteToFlags e)

/-! ## Mapping -/

def vmmMap (sp va pa : Nat) (flags : BitVec 32) : MM Bool := do
  match ← Prog.read (·.space sp) with
  | none => pure false
  | some space =>
    if va % 4096 ≠ 0 ∨ pa % 4096 ≠ 0 ∨ va < lowerBound space ∨ hasFlag flags vmPresent = false then
      pure false
    else
      let user := hasFlag flags vmUser
      let pdpt ← descendOrAlloc space.pml4 (idxPml4 va) user
      if pdpt = 0 then pure false
      else
        let pd ← descendOrAlloc pdpt (idxPdpt va) user
        if pd = 0 then pure false
        else
          let pt ← descendOrAlloc pd (idxPd va) user
          if pt = 0 then pure false
          else
            let e ← load pt (idxPt va)
            if present e then pure false
            else
              store pt (idxPt va) (pteFor pa (flagsToPte flags))
              pure true

def vmmUnmap (sp va : Nat) : MM Bool := do
  match ← Prog.read (·.space sp) with
  | none => pure false
  | some space =>
    if va % 4096 ≠ 0 ∨ va < lowerBound space then pure false
    else
      let pt ← Prog.read (·.walkLeaf sp va)
      if pt = 0 then pure false
      else
        let e ← load pt (idxPt va)
        if present e then
          store pt (idxPt va) 0#64
          pure true
        else pure false

/-- What every caller of `vmm_map` does for a fresh page: take it, map it at
`va`, give it back if that fails. -/
def mapFresh (sp va : Nat) (flags : BitVec 32) : MM Bool := do
  let pa ← pmmAllocPage
  if pa = 0 then pure false
  else if ← vmmMap sp va pa flags then pure true
  else
    let _ ← pmmFreePage pa
    pure false

/-- What every caller of `vmm_unmap` does for a mapped page: look it up, unmap
it, give it back. -/
def unmapFree (sp va : Nat) : MM Unit := do
  match ← Prog.read (·.vmmQuery sp va) with
  | none => pure ()
  | some (pa, _) =>
    let _ ← vmmUnmap sp va
    let _ ← pmmFreePage pa
    pure ()

/-! ## Kernel heap -/

def kernelHeapBase : Nat := kernelVaBase + 0x00100000
def kernelHeapMax : Nat := kernelVaBase + 0x10000000

def growPage (base i : Nat) : MM Bool :=
  if base + i * 4096 + 4096 > kernelHeapMax then pure false
  else mapFresh vmmKernelSpace (base + i * 4096) (vmPresent ||| vmWrite)

def State.setHeapEnd (s : State) (a : Nat) : State := { s with heapEnd := a }

/-- `heap_grow`, without the block header it writes into the new pages. -/
def heapGrow (needPayload : Nat) : MM Bool := do
  let pages := ((needPayload + 32) % 2 ^ 64 + 4095) % 2 ^ 64 / 4096
  let pages := if pages = 0 then 1 else pages
  let base ← Prog.read (·.heapEnd)
  let mapped ← Prog.upFrom (growPage base) pages 0
  if mapped = 0 then pure false
  else
    Prog.change (·.setHeapEnd (base + mapped * 4096))
    pure true

/-- How the free list served an allocation: a block fits, or none does; after
the heap has grown it fits or not. -/
inductive HeapAnswer
  | fits
  | grows (fitsThen : Bool)
  deriving DecidableEq, Repr

/-- `exy_malloc` (and `exy_zalloc`): whether there is a block of `size` bytes. -/
def exyMalloc (size : Nat) (answer : HeapAnswer) : MM Bool :=
  if size = 0 then pure false
  else
    let need := max ((size + 15) % 2 ^ 64 / 16 * 16) 16
    match answer with
    | .fits => pure true
    | .grows fitsThen => do
      if ← heapGrow need then pure fitsThen else pure false

/-! ## Spaces -/

def State.setSpace (s : State) (sp : Nat) (o : Option Space) : State :=
  { s with space := Function.update s.space sp o }

def State.copyPage (s : State) (dst src : Nat) : State :=
  { s with mem := Function.update s.mem dst (s.mem src) }

def State.addSpace (s : State) (pml4 : Nat) : State :=
  { s with
    space := Function.update s.space s.nextSpace (some ⟨pml4, 1, false⟩)
    nextSpace := s.nextSpace + 1 }

def State.pml4Of (s : State) (sp : Nat) : Nat := ((s.space sp).map Space.pml4).getD 0

def vmmCreate (answer : HeapAnswer) : MM (Option Nat) := do
  if ← exyMalloc 16 answer then
    let np ← pmmAllocPage
    if np = 0 then pure none
    else
      zeroPage np
      let kpml4 ← Prog.read (·.pml4Of vmmKernelSpace)
      Prog.change (·.copyPage (np / 4096) (kpml4 / 4096))
      let sp ← Prog.read (·.nextSpace)
      Prog.change (·.addSpace np)
      pure (some sp)
  else pure none

/-- What the three levels of the teardown share: for each of the given entries
of a table that is present, do `below`, or free the page itself if the entry
is huge. -/
def freeEntries (table : Nat) (idxs : List (Fin 512)) (below : Nat → MM Unit) : MM Unit :=
  Prog.forEach (fun i => do
    let e ← load table i
    if !present e then pure ()
    else if huge e then
      let _ ← pmmFreePage (pteAddr e)
      pure ()
    else below (pteAddr e)) idxs

/-- `free_pt`; a huge bit at this level makes it skip the entry. -/
def freePt (pt : Nat) : MM Unit := do
  Prog.forEach (fun i => do
    let e ← load pt i
    if !present e then pure ()
    else if huge e then pure ()
    else
      let _ ← pmmFreePage (pteAddr e)
      pure ()) (List.finRange 512)
  let _ ← pmmFreePage pt
  pure ()

def freePd (pd : Nat) : MM Unit := do
  freeEntries pd (List.finRange 512) freePt
  let _ ← pmmFreePage pd
  pure ()

def freePdpt (pdpt : Nat) : MM Unit := do
  freeEntries pdpt (List.finRange 512) freePd
  let _ ← pmmFreePage pdpt
  pure ()

/-- `destroy_space`: everything below `PML4[1..511]`, the root, the record. -/
def destroySpace (sp : Nat) : MM Unit := do
  let pml4 ← Prog.read (·.pml4Of sp)
  freeEntries pml4 ((List.finRange 511).map Fin.succ) freePdpt
  let _ ← pmmFreePage pml4
  Prog.change (·.setSpace sp none)

def vmmSpaceRef (sp : Nat) : MM Unit := do
  match ← Prog.read (·.space sp) with
  | none => pure ()
  | some space =>
    if space.isKernel then pure ()
    else Prog.change (·.setSpace sp (some { space with refcount := (space.refcount + 1) % 2 ^ 32 }))

def vmmSpaceUnref (sp : Nat) : MM Unit := do
  match ← Prog.read (·.space sp) with
  | none => pure ()
  | some space =>
    if space.isKernel then pure ()
    else if space.refcount = 0 then pure ()
    else
      Prog.change (·.setSpace sp (some { space with refcount := space.refcount - 1 }))
      if space.refcount - 1 = 0 then destroySpace sp else pure ()

def State.setCr3 (s : State) (a : Nat) : State := { s with cr3 := a }

def vmmSwitch (sp : Nat) : MM Unit := do
  match ← Prog.read (·.space sp) with
  | none => pure ()
  | some space => Prog.change (·.setCr3 space.pml4)

end Exyde.Mem
