import Exyde.Lib.Bytes

/-! # The kernel heap

`heap.c`: blocks with a header of 32 bytes, the free ones linked through their headers,
which live in the memory that is given out. A loop over the free list gets a fuel no
list in the heap uses up. Bytes that are not mapped yet are what the page mapped there
will hold. -/

namespace Exyde.Heap

open Exyde.Lib (Bytes Record)

def heapBase : Nat := 0x40100000

def heapMax : Nat := 0x50000000

def pageSize : Nat := 4096
def heapAlign : Nat := 16
def heapMinPayload : Nat := 16
def heapHeader : Nat := 32

def blkFree : Nat := 1

/-- The fields of a block header that are read or written. -/
inductive Field
  | size | nextFree | flags
  deriving DecidableEq, Repr

/-- `heap_block_t`. -/
def heapBlock : Record Field where
  offset
    | .size => 0
    | .nextFree => 8
    | .flags => 16
  width
    | .size | .nextFree => 8
    | .flags => 4
  size := heapHeader
  fits f := by cases f <;> decide
  apart f g _ := by cases f <;> cases g <;> simp_all

structure State where
  mem : Bytes
  heapStart : Nat
  heapEnd : Nat
  freeHead : Nat
  livePayload : Nat

namespace State

def get (s : State) (b : Nat) (f : Field) : Nat := heapBlock.get s.mem b f

section

variable (s : State)

def setMem (m : Bytes) : State := { s with mem := m }

def set (s : State) (b : Nat) (f : Field) (v : Nat) : State := s.setMem (heapBlock.set s.mem b f v)

def blockIsFree (b : Nat) : Bool := s.get b .flags &&& blkFree != 0

def blockEnd (b : Nat) : Nat := (b + heapHeader + s.get b .size) % 2 ^ 64

/-- More steps than a list of blocks in the heap has. -/
def fuel : Nat := s.heapEnd - s.heapStart + 1

/-- `if (prev) prev->next_free = b; else heap_free_head = b;` -/
def link (prev b : Nat) : State :=
  if prev = 0 then { s with freeHead := b } else s.set prev .nextFree b

/-! ## Giving a block back -/

/-- The loop of `free_list_insert`: `prev` and `cur` where it stops. -/
def findSlot (s : State) (blk : Nat) : Nat → Nat → Nat → Option (Nat × Nat)
  | 0, _, _ => none
  | n + 1, prev, cur =>
    if cur ≠ 0 ∧ cur < blk then findSlot s blk n cur (s.get cur .nextFree) else some (prev, cur)

def absorb (b c : Nat) : State :=
  let s := s.set b .size (s.get b .size + (heapHeader + s.get c .size))
  s.set b .nextFree (s.get c .nextFree)

/-- `free_list_insert` behind its loop. -/
def insertAt (blk prev cur : Nat) : State :=
  let s := s.set blk .nextFree cur
  let s := s.link prev blk
  let s := if cur ≠ 0 ∧ s.blockEnd blk = cur then s.absorb blk cur else s
  if prev ≠ 0 ∧ s.blockEnd prev = blk then s.absorb prev blk else s

def markFree (blk : Nat) : State :=
  let s := s.set blk .flags (s.get blk .flags ||| blkFree)
  s.set blk .nextFree 0

def freeListInsert (blk : Nat) : Option State :=
  let s := s.markFree blk
  (s.findSlot blk s.fuel 0 s.freeHead).map fun (prev, cur) => s.insertAt blk prev cur

/-! ## Taking a block -/

/-- The loop of `alloc_from_list`: the first block that is large enough, or
null, and the block before it. -/
def firstFit (s : State) (need : Nat) : Nat → Nat → Nat → Option (Nat × Nat)
  | 0, _, _ => none
  | n + 1, prev, cur =>
    if cur = 0 ∨ need ≤ s.get cur .size then some (prev, cur)
    else firstFit s need n cur (s.get cur .nextFree)

/-- The rear of a block becomes a free block of its own. -/
def splitOff (cur need : Nat) : State :=
  let rem := cur + heapHeader + need
  let s := s.set rem .size (s.get cur .size - need - heapHeader)
  let s := s.set rem .flags blkFree
  let s := s.set rem .nextFree (s.get cur .nextFree)
  s.set cur .size need

def carve (prev cur need : Nat) : State :=
  if heapHeader + heapMinPayload ≤ s.get cur .size - need then
    (s.splitOff cur need).link prev (cur + heapHeader + need)
  else s.link prev (s.get cur .nextFree)

/-- `0xFFFFFFFE` is `~BLK_FREE`. -/
def markUsed (blk : Nat) : State :=
  let s := s.set blk .flags (s.get blk .flags &&& 0xFFFFFFFE)
  s.set blk .nextFree 0

def take (prev cur need : Nat) : State :=
  let s := (s.carve prev cur need).markUsed cur
  { s with livePayload := (s.livePayload + s.get cur .size) % 2 ^ 64 }

def allocFromList (need : Nat) : Option (Nat × State) :=
  (s.firstFit need s.fuel 0 s.freeHead).map fun (prev, cur) =>
    if cur = 0 then (0, s) else (cur + heapHeader, s.take prev cur need)

end

end State

/-! ## Growing -/

/-- What becomes of one page: `pmm_alloc_page` has none, `vmm_map` fails, or it
is mapped. -/
inductive PageAnswer
  | noPage | notMapped | mapped
  deriving DecidableEq, Repr

/-- The loop of `heap_grow`: how many pages are mapped behind `base`, of which
`i` are already. -/
def mapPages (answer : Nat → PageAnswer) (base : Nat) : Nat → Nat → Nat
  | 0, i => i
  | n + 1, i =>
    if heapMax < base + i * pageSize + pageSize then i
    else match answer i with
      | .mapped => mapPages answer base n (i + 1)
      | .noPage | .notMapped => i

def pagesFor (needPayload : Nat) : Nat :=
  let needBytes := (needPayload + heapHeader) % 2 ^ 64
  let pages := (needBytes + (pageSize - 1)) % 2 ^ 64 / pageSize
  if pages = 0 then 1 else pages

namespace State

def addPages (s : State) (mapped : Nat) : State :=
  let blk := s.heapEnd
  let s := { s with heapEnd := s.heapEnd + mapped * pageSize }
  let s := s.set blk .size (mapped * pageSize - heapHeader)
  let s := s.set blk .flags 0
  s.set blk .nextFree 0

def heapGrow (s : State) (answer : Nat → PageAnswer) (needPayload : Nat) : Option (Bool × State) :=
  let mapped := mapPages answer s.heapEnd (pagesFor needPayload) 0
  if mapped = 0 then some (false, s)
  else ((s.addPages mapped).freeListInsert s.heapEnd).map fun s => (true, s)

def sumFree (s : State) : Nat → Nat → Nat → Option Nat
  | 0, _, _ => none
  | n + 1, b, sum =>
    if b = 0 then some sum
    else sumFree s n (s.get b .nextFree) ((sum + s.get b .size) % 2 ^ 64)

def heapUsedBytes (s : State) : Nat := s.livePayload
def heapFreeBytes (s : State) : Option Nat := s.sumFree s.fuel s.freeHead 0
def heapTotalBytes (s : State) : Nat := s.heapEnd - s.heapStart

end State

/-! ## The interface -/

def roundUp (n : Nat) : Nat := (n + (heapAlign - 1)) % 2 ^ 64 / heapAlign * heapAlign

/-- The payload asked of the list for a request of `size` bytes. -/
def payloadFor (size : Nat) : Nat := max (roundUp size) heapMinPayload

/-- Why a call does not return: `panic`, a page fault, or a loop without end. -/
inductive Halt
  | panic (text : String)
  | fault
  | hang
  deriving DecidableEq, Repr

inductive Outcome
  | returned (value : Nat) (s : State)
  | halted (why : Halt) (s : State)

namespace Outcome

def state : Outcome → State
  | returned _ s | halted _ s => s

def ofOption (s : State) : Option (Nat × State) → Outcome
  | some (v, s) => .returned v s
  | none => .halted .hang s

end Outcome

namespace State

def heapInit (mem : Bytes) : State := ⟨mem, heapBase, heapBase, 0, 0⟩

section

variable (s : State) (answer : Nat → PageAnswer)

def exyMalloc (size : Nat) : Option (Nat × State) :=
  if size = 0 then some (0, s)
  else do
    let need := payloadFor size
    let (p, s) ← s.allocFromList need
    if p ≠ 0 then return (p, s)
    let (grown, s) ← s.heapGrow answer need
    if grown then s.allocFromList need else return (0, s)

def Mapped (a : Nat) : Prop := s.heapStart ≤ a ∧ a < s.heapEnd
  deriving Decidable

/-- `for (i = 0; i < n; ++i) dst[i] = …`, from index `i` on; `val` is `none`
where the right hand side cannot be read. The flag tells whether it went through
without a page fault. -/
def writeLoop (val : State → Nat → Option (BitVec 8)) (dst : Nat) : Nat → Nat → State → Bool × State
  | 0, _, s => (true, s)
  | n + 1, i, s =>
    match val s i with
    | none => (false, s)
    | some v =>
      if s.Mapped (dst + i) then
        writeLoop val dst n (i + 1) (s.setMem (Function.update s.mem (dst + i) v))
      else (false, s)

def zeroBytes (dst n : Nat) : Bool × State := writeLoop (fun _ _ => some 0) dst n 0 s

def copyBytes (dst src n : Nat) : Bool × State :=
  writeLoop (fun s i => if s.Mapped (src + i) then some (s.mem (src + i)) else none) dst n 0 s

def exyZalloc (size : Nat) : Outcome :=
  match s.exyMalloc answer size with
  | none => .halted .hang s
  | some (p, s) =>
    if p = 0 then .returned 0 s
    else
      let (through, s) := s.zeroBytes p size
      if through then .returned p s else .halted .fault s

def exyFree (ptr : Nat) : Outcome :=
  if ptr = 0 then .returned 0 s
  else if ptr < s.heapStart ∨ s.heapEnd ≤ ptr then
    .halted (.panic "exy_free: pointer outside heap") s
  else
    let blk := ptr - heapHeader
    if s.blockIsFree blk then .halted (.panic "exy_free: double free") s
    else
      let s := { s with livePayload := (s.livePayload + (2 ^ 64 - s.get blk .size)) % 2 ^ 64 }
      .ofOption s ((s.freeListInsert blk).map fun s => (0, s))

/-- The end of `exy_realloc`: a new block, the old contents copied, the old
block given back. -/
def moveTo (ptr oldSize newSize : Nat) : Outcome :=
  match s.exyMalloc answer newSize with
  | none => .halted .hang s
  | some (np, s) =>
    if np = 0 then .returned 0 s
    else
      let (through, s) := s.copyBytes np ptr oldSize
      if through then
        match s.exyFree ptr with
        | .returned _ s => .returned np s
        | .halted why s => .halted why s
      else .halted .fault s

def exyRealloc (ptr newSize : Nat) : Outcome :=
  if ptr = 0 then .ofOption s (s.exyMalloc answer newSize)
  else if newSize = 0 then s.exyFree ptr
  else if ptr < s.heapStart ∨ s.heapEnd ≤ ptr then
    .halted (.panic "exy_realloc: pointer outside heap") s
  else
    let blk := ptr - heapHeader
    if s.blockIsFree blk then .halted (.panic "exy_realloc: pointer already freed") s
    else if payloadFor newSize ≤ s.get blk .size then .returned ptr s
    else s.moveTo answer ptr (s.get blk .size) newSize

def heapReserve (bytes : Nat) : Option (Bool × State) :=
  if bytes = 0 then some (true, s)
  else do
    let free ← s.heapFreeBytes
    if bytes ≤ free then return (true, s)
    s.heapGrow answer (bytes - free)

end

end State

end Exyde.Heap
