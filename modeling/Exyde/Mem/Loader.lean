import Exyde.Mem.Vmm

/-! # Building the memory of a process

`uaccess.c`, `elf.c`, the stack and initrd part of `exec.c`, and the `SYS_MAP` and
`SYS_UNMAP` calls. Copies go through the page tables that are loaded, not through those
of the space they are checked against; `cur` is the space of the running thread. -/

namespace Exyde.Mem

open Exyde.Lib (Prog)
open Pmm (pageUp pageDown)

/-! ## Copies to user memory -/

/-- `[va, va + n)` is in the user window and does not wrap. -/
def rangeInUserHalf (va n : Nat) : Bool :=
  if n = 0 then true
  else
    let stop := (va + n) % 2 ^ 64
    !(stop < va) && !(va < userVaBase) && !(stop > userVaTop)

def State.userPage (s : State) (sp va : Nat) : Bool :=
  match s.vmmQuery sp va with
  | none => false
  | some (_, flags) => hasFlag flags vmUser

/-- `user_range_ok`: every page of the range is mapped for the user. -/
def State.userRangeOk (s : State) (sp va n : Nat) : Bool :=
  if n = 0 then true
  else if !rangeInUserHalf va n then false
  else
    let page := pageDown va
    (List.range ((va + n - page + 4095) / 4096)).all fun i => s.userPage sp (page + i * 4096)

/-- The frame that the loaded page tables translate `va` to. -/
def State.translate (s : State) (va : Nat) : Option Nat :=
  let pt := s.walkFrom s.cr3 va
  if pt = 0 then none
  else
    let e := s.mem (pt / 4096) (idxPt va)
    if present e then some (pteAddr e / 4096) else none

/-- `uaccess_memcpy_to_user`: byte after byte, until a page fault. -/
def memcpyToUser : Nat → List Byte → MM Bool
  | _, [] => pure true
  | va, b :: bs => do
    match ← Prog.read (·.translate va) with
    | none => pure false
    | some f =>
      Prog.change (·.setByte f (va % 4096) b)
      memcpyToUser (va + 1) bs

def copyToUser (sp va : Nat) (src : List Byte) : MM Bool := do
  if ← Prog.read (·.userRangeOk sp va src.length) then memcpyToUser va src else pure false

/-! ## ELF images -/

def leAt (data : List Byte) (off n : Nat) : Nat :=
  (List.range n).foldr (fun k acc => (data.getD (off + k) 0).toNat + 256 * acc) 0

/-- The fields of `elf64_phdr_t` that the loader reads. -/
structure Phdr where
  type : Nat
  offset : Nat
  vaddr : Nat
  filesz : Nat
  memsz : Nat
  deriving DecidableEq, Repr

def phdrAt (data : List Byte) (off : Nat) : Phdr :=
  ⟨leAt data off 4, leAt data (off + 8) 8, leAt data (off + 16) 8, leAt data (off + 32) 8,
    leAt data (off + 40) 8⟩

/-- The checks `elf_load` makes on the ELF header: the entry point and the
program headers, or `none` where it returns false. -/
def elfHeader (data : List Byte) : Option (Nat × List Phdr) :=
  let size := data.length
  let phoff := leAt data 32 8
  let phnum := leAt data 56 2
  if size < 64 then none
  else if data.take 4 ≠ [0x7F#8, 0x45#8, 0x4C#8, 0x46#8] then none
  else if data.getD 4 0 ≠ 2#8 then none
  else if data.getD 5 0 ≠ 1#8 then none
  else if leAt data 16 2 ≠ 2 then none
  else if leAt data 18 2 ≠ 0x3E then none
  else if leAt data 54 2 ≠ 56 then none
  else if phnum = 0 then none
  else if phoff > size then none
  else if phnum * 56 > size - phoff then none
  else if leAt data 24 8 < userVaBase then none
  else some (leAt data 24 8, (List.range phnum).map fun i => phdrAt data (phoff + i * 56))

/-- How the loop body of `elf_load` leaves a program header. -/
inductive SegEnd
  /-- `continue` -/
  | skipped
  /-- `return false`: the page tables are not switched back -/
  | refused
  /-- `goto done` -/
  | failed
  | loaded (start stop : Nat)
  deriving DecidableEq, Repr

def vmUserPage : BitVec 32 := vmPresent ||| vmWrite ||| vmUser

/-- The fields of a program header that `elf_load` turns down. -/
def Phdr.bad (ph : Phdr) (size : Nat) : Prop :=
  ph.filesz > ph.memsz ∨ ph.offset > size ∨ ph.filesz > size - ph.offset ∨
    ph.vaddr < userVaBase ∨ ph.memsz > 2 ^ 64 - 1 - ph.vaddr ∨
    pageUp (ph.vaddr + ph.memsz) < pageDown ph.vaddr ∨ pageUp (ph.vaddr + ph.memsz) > userVaTop

instance (ph : Phdr) (size : Nat) : Decidable (ph.bad size) := by
  unfold Phdr.bad; infer_instance

/-- The first page of a segment, and the end of its last. -/
def Phdr.start (ph : Phdr) : Nat := pageDown ph.vaddr
def Phdr.stop (ph : Phdr) : Nat := pageUp (ph.vaddr + ph.memsz)

/-- The pages of a segment, mapped one after the other. -/
def mapSegment (sp : Nat) (ph : Phdr) : MM Bool := do
  let n := (ph.stop - ph.start) / 4096
  let m ← Prog.upFrom (fun i => mapFresh sp (ph.start + i * 4096) vmUserPage) n 0
  pure (decide (m = n))

/-- The loop that zeroes `memsz` bytes, a page size at a time. -/
def zeroSegment (sp : Nat) (ph : Phdr) : MM Bool := do
  let n := (ph.memsz + 4095) / 4096
  let m ← Prog.upFrom (fun i =>
    copyToUser sp (ph.vaddr + i * 4096)
      (List.replicate (min (ph.memsz - i * 4096) 4096) 0#8)) n 0
  pure (decide (m = n))

def elfSegment (sp : Nat) (data : List Byte) (ph : Phdr) : MM SegEnd :=
  if ph.type ≠ 1 ∨ ph.memsz = 0 then pure .skipped
  else if ph.bad data.length then pure .refused
  else do
    if ← mapSegment sp ph then
      if ← zeroSegment sp ph then
        if ← copyToUser sp ph.vaddr ((data.drop ph.offset).take ph.filesz) then
          pure (.loaded ph.start ph.stop)
        else pure .failed
      else pure .failed
    else pure .failed

structure ElfImage where
  entry : Nat
  loadBase : Nat
  loadSize : Nat
  deriving DecidableEq, Repr

/-- How the loop of `elf_load` ends: `return false`, `goto done`, or through
all headers, with the lowest start, the highest end and the segments loaded. -/
inductive LoadEnd
  | refused
  | failed
  | through (lowest highest loaded : Nat)
  deriving DecidableEq, Repr

def elfSegments (sp : Nat) (data : List Byte) : List Phdr → Nat → Nat → Nat → MM LoadEnd
  | [], lowest, highest, loaded => pure (.through lowest highest loaded)
  | ph :: phs, lowest, highest, loaded => do
    match ← elfSegment sp data ph with
    | .skipped => elfSegments sp data phs lowest highest loaded
    | .refused => pure .refused
    | .failed => pure .failed
    | .loaded start stop =>
      elfSegments sp data phs (min lowest start) (max highest stop) (loaded + 1)

def switchIf (need : Bool) (target : Nat) : MM Unit := if need then vmmSwitch target else pure ()

def elfLoad (cur sp : Nat) (data : List Byte) : MM (Option ElfImage) :=
  match elfHeader data with
  | none => pure none
  | some (entry, phs) => do
    let needSwitch := decide (cur ≠ sp)
    switchIf needSwitch sp
    match ← elfSegments sp data phs (2 ^ 64 - 1) 0 0 with
    | .refused => pure none
    | .failed =>
      switchIf needSwitch cur
      pure none
    | .through lowest highest loaded =>
      switchIf needSwitch cur
      if loaded = 0 then pure none else pure (some ⟨entry, lowest, highest - lowest⟩)

/-! ## The initial stack and the initrd -/

/-- `EXEC_MAX_ARGS`, `EXEC_MAX_ENVS`, `EXEC_STACK_PAGES`. -/
def execMaxArgs : Nat := 16
def execMaxEnvs : Nat := 16
def execStackPages : Nat := 4

def userStackTopInit : Nat := userVaBase + 0x01000000
def initrdVa : Nat := userVaBase + 0x02000000

/-- A C string: the bytes before its NUL, in an object of the address space. -/
def CString := { l : List Byte // 0#8 ∉ l ∧ l.length < 2 ^ 63 }

def CString.bytes (c : CString) : List Byte := c.val ++ [0#8]

def sub64 (a b : Nat) : Nat := (a + 2 ^ 64 - b % 2 ^ 64) % 2 ^ 64

def mapUserStack (sp stackTop pages : Nat) : MM Bool := do
  let m ← Prog.upFrom (fun i => mapFresh sp (sub64 stackTop ((i + 1) * 4096)) vmUserPage) pages 0
  pure (decide (m = pages))

def u64Bytes (v : Nat) : List Byte := (List.range 8).map fun k => Lib.getByte (BitVec.ofNat 64 v) k

/-- `push_u64` and `push_string`: the bytes below `rsp`, which moves down; `none` on a fault. -/
def pushBytes (sp rsp : Nat) (bs : List Byte) : MM (Option Nat) := do
  if ← copyToUser sp (sub64 rsp bs.length) bs then pure (some (sub64 rsp bs.length)) else pure none

/-- The loop that pushes strings, the last one first; their addresses in order. -/
def pushStrings (sp : Nat) : Nat → List CString → MM (Option (Nat × List Nat))
  | rsp, [] => pure (some (rsp, []))
  | rsp, str :: rest => do
    match ← pushStrings sp rsp rest with
    | none => pure none
    | some (rsp, vas) =>
      match ← pushBytes sp rsp str.bytes with
      | none => pure none
      | some rsp => pure (some (rsp, rsp :: vas))

def pushWords (sp : Nat) : Nat → List Nat → MM (Option Nat)
  | rsp, [] => pure (some rsp)
  | rsp, v :: rest => do
    match ← pushWords sp rsp rest with
    | none => pure none
    | some rsp => pushBytes sp rsp (u64Bytes v)

/-- The words of the frame from low to high, the pad at its top included. -/
def frameWords (argvVa envpVa : List Nat) : List Nat :=
  [argvVa.length] ++ argvVa ++ [0] ++ envpVa ++ [0] ++
    if (argvVa.length + envpVa.length + 3) % 2 = 1 then [0] else []

/-- The pushes of `exec_build_initial_stack`; 0 on a fault. -/
def pushFrame (sp stackTop : Nat) (argv envp : List CString) : MM Nat := do
  match ← pushStrings sp stackTop envp with
  | none => pure 0
  | some (rsp, envpVa) =>
    match ← pushStrings sp rsp argv with
    | none => pure 0
    | some (rsp, argvVa) =>
      match ← pushWords sp (rsp / 16 * 16) (frameWords argvVa envpVa) with
      | none => pure 0
      | some rsp => pure rsp

/-- `exec_build_initial_stack`: the initial stack pointer, 0 on failure. -/
def execBuildInitialStack (cur sp stackTop : Nat) (argv envp : List CString) : MM Nat :=
  if argv.length > execMaxArgs ∨ envp.length > execMaxEnvs then pure 0
  else do
    let needSwitch := decide (cur ≠ sp)
    switchIf needSwitch sp
    let rsp ← pushFrame sp stackTop argv envp
    switchIf needSwitch cur
    pure rsp

/-- One pass of the loop of `map_initrd`. The page was mapped a line before, so
the stores, which are not guarded against faults, cannot fault. -/
def initrdPage (sp : Nat) (src : List Byte) (i : Nat) : MM Bool := do
  if ← mapFresh sp (initrdVa + i * 4096) (vmPresent ||| vmUser) then
    let _ ← memcpyToUser (initrdVa + i * 4096) (List.replicate 4096 0#8)
    let _ ← memcpyToUser (initrdVa + i * 4096) ((src.drop (i * 4096)).take 4096)
    pure true
  else pure false

def mapInitrd (cur sp : Nat) (src : List Byte) : MM Bool :=
  if src.length = 0 then pure true
  else do
    let pages := (src.length + 4095) / 4096
    let taken ← Prog.read fun s =>
      (List.range pages).any fun i => (s.vmmQuery sp (initrdVa + i * 4096)).isSome
    if taken then pure false
    else
      let needSwitch := decide (cur ≠ sp)
      switchIf needSwitch sp
      let mapped ← Prog.upFrom (initrdPage sp src) pages 0
      if mapped = pages then
        switchIf needSwitch cur
        pure true
      else
        Prog.forEach (fun i => unmapFree sp (initrdVa + i * 4096)) (List.range mapped)
        switchIf needSwitch cur
        pure false

/-! ## SYS_MAP and SYS_UNMAP -/

def mapMaxPages : Nat := 1024

inductive Errno
  | ENOENT | ENOMEM | EFAULT | EEXIST | EINVAL | ENAMETOOLONG
  deriving DecidableEq, Repr

/-- The first of `n` pages from `base` on that is mapped, as its index. -/
def State.firstMapped (s : State) (sp base n : Nat) : Option Nat :=
  (List.range n).find? fun i => (s.vmmQuery sp ((base + i * 4096) % 2 ^ 64)).isSome

/-- The loop of `find_map_va`: `cand` moves up, past a mapped page each time. -/
def State.findFrom (s : State) (sp npages limit : Nat) : Nat → Nat → Nat
  | 0, _ => 0
  | fuel + 1, cand =>
    if cand ≤ limit then
      match s.firstMapped sp cand npages with
      | none => cand
      | some i => s.findFrom sp npages limit fuel (pageUp (cand + (i + 1) * 4096))
    else 0

/-- `find_map_va`: an address for `npages` unmapped pages below the stack, 0 if
there is none. The candidate grows by a page at least, so the fuel lasts. -/
def State.findMapVa (s : State) (sp nextMapVa npages : Nat) : Nat :=
  let bytes := npages * 4096 % 2 ^ 64
  if bytes > userStackTopInit then 0
  else
    let limit := userStackTopInit - bytes
    s.findFrom sp npages limit (limit / 4096 + 2) (pageUp nextMapVa)

/-- The checks of `sys_map` on its arguments and the range it will fill. -/
def State.mapBase (s : State) (sp nextMapVa hint npages : Nat) : Except Errno Nat :=
  if hint = 0 then
    let base := s.findMapVa sp nextMapVa npages
    if base = 0 then .error .ENOMEM else .ok base
  else if hint < userVaBase then .error .EINVAL
  else if hint % 4096 ≠ 0 then .error .EINVAL
  else
    let stop := (hint + npages * 4096) % 2 ^ 64
    if stop < hint ∨ stop > userVaTop then .error .EINVAL
    else if (s.firstMapped sp hint npages).isSome then .error .EEXIST
    else .ok hint

def mapFlags (flags : BitVec 64) : BitVec 32 :=
  vmPresent ||| vmUser ||| if flags &&& 2#64 != 0#64 then vmWrite else 0#32

/-- `sys_map` for a process with space `sp` and the given `next_map_va`: the
base address or an error, and the new `next_map_va`. -/
def sysMap (sp nextMapVa hint npages : Nat) (flags : BitVec 64) : MM (Except Errno Nat × Nat) := do
  if npages = 0 ∨ npages > mapMaxPages then pure (.error .EINVAL, nextMapVa)
  else if flags &&& ~~~2#64 ≠ 0#64 then pure (.error .EINVAL, nextMapVa)
  else
    match ← Prog.read (·.mapBase sp nextMapVa hint npages) with
    | .error e => pure (.error e, nextMapVa)
    | .ok base =>
      let mapped ← Prog.upFrom (fun i => mapFresh sp (base + i * 4096) (mapFlags flags)) npages 0
      if mapped = npages then
        pure (.ok base, if hint = 0 then base + npages * 4096 else nextMapVa)
      else
        Prog.forEach (fun i => unmapFree sp (base + i * 4096)) (List.range mapped)
        pure (.error .ENOMEM, nextMapVa)

def sysUnmap (sp vaddr npages : Nat) : MM (Except Errno Unit) := do
  if npages = 0 then pure (.error .EINVAL)
  else if vaddr < userVaBase then pure (.error .EINVAL)
  else if vaddr % 4096 ≠ 0 then pure (.error .EINVAL)
  else
    let stop := (vaddr + npages * 4096 % 2 ^ 64) % 2 ^ 64
    if stop < vaddr ∨ stop > userVaTop then pure (.error .EINVAL)
    else
      let holes ← Prog.read fun s =>
        (List.range npages).any fun i => (s.vmmQuery sp ((vaddr + i * 4096) % 2 ^ 64)).isNone
      if holes then pure (.error .ENOENT)
      else
        Prog.forEach (fun i => unmapFree sp ((vaddr + i * 4096) % 2 ^ 64)) (List.range npages)
        pure (.ok ())

end Exyde.Mem
