import Mathlib.Algebra.Ring.Nat
import Exyde.Lib.Trap

/-! # RAMFS nodes and their bytes

The file operations of `ramfs.c` on one node. A block of the allocator is the list of
its bytes, so that an access beyond its end is a trap; the null pointer is the empty
list. The libc allocator rounds a size up in 64 bits, takes blocks from one arena of 4
MiB, and does not clear them. -/

namespace Exyde.Vfs

open Exyde.Lib (Trap)

inductive Errno
  | ENOENT | EBADF | ENOMEM | EEXIST | ENODEV | ENOTDIR | EISDIR | EINVAL | EMFILE | ERANGE
  | ENAMETOOLONG | ENOSYS | ENOTEMPTY
  deriving DecidableEq, Repr

def Errno.code : Errno → Nat
  | ENOENT => 2
  | EBADF => 9
  | ENOMEM => 12
  | EEXIST => 17
  | ENODEV => 19
  | ENOTDIR => 20
  | EISDIR => 21
  | EINVAL => 22
  | EMFILE => 24
  | ERANGE => 34
  | ENAMETOOLONG => 36
  | ENOSYS => 38
  | ENOTEMPTY => 39

/-! ## The allocator -/

def arenaSize : Nat := 4 * 1024 * 1024

def headerSize : Nat := 16

def alignUp (n : Nat) : Nat := (n + 15) % 2 ^ 64 / 16 * 16

/-- What the allocator answers during one call of the file system: whether it
finds room for a node, for a `file_t` and for a block of bytes, and what a new
block of bytes holds. -/
structure Alloc where
  node : Bool
  file : Bool
  block : Bool
  fresh : Nat → UInt8

def malloc (a : Alloc) (size : Nat) : Option (List UInt8) :=
  let need := max 16 (alignUp size)
  if size ≠ 0 ∧ a.block = true ∧ headerSize + need ≤ arenaSize then
    some ((List.range need).map a.fresh)
  else none

/-! ## Loops over bytes -/

/-- `for (i = 0; i < n; ++i) dst[off + i] = src[i]`, where `n` is all of `src`. -/
def copyTo (dst : List UInt8) (off : Nat) (src : List UInt8) : Option (List UInt8) :=
  if src = [] ∨ off + src.length ≤ dst.length then
    some (dst.take off ++ src ++ dst.drop (off + src.length))
  else none

/-- The bytes that `for (i = 0; i < n; ++i) … = src[off + i]` reads. -/
def slice (src : List UInt8) (off n : Nat) : Option (List UInt8) :=
  if n = 0 ∨ off + n ≤ src.length then some ((src.drop off).take n) else none

/-- `calloc(1, size)`: the outer answer is the block, the inner one a trap of its `memset`. -/
def calloc (a : Alloc) (size : Nat) : Option (Option (List UInt8)) :=
  (malloc a size).map fun p => copyTo p 0 (List.replicate size 0)

/-! ## Nodes -/

abbrev NodeId := Nat

/-- The bytes of a C string before its null. -/
abbrev Name := List UInt8

inductive VType
  | reg
  | dir
  deriving DecidableEq, Repr

/-- A `ramfs_node_t` with the `vnode_t` in it. -/
structure Vnode where
  type : VType
  refcount : Nat
  size : Nat
  parent : Option NodeId
  name : Name
  data : List UInt8
  capacity : Nat
  /-- the list `children`, linked through `next` -/
  children : List NodeId
  deriving DecidableEq, Repr

def Vnode.new (type : VType) : Vnode := ⟨type, 1, 0, none, [], [], 0, []⟩

def ramfsRead (n off : Nat) : Trap Vnode (Except Errno (List UInt8)) := fun vn =>
  if vn.type ≠ .reg then some (.error .EISDIR, vn)
  else if vn.size ≤ off then some (.ok [], vn)
  else do
    let bytes ← slice vn.data off (min n (vn.size - off))
    some (.ok bytes, vn)

def doubleUntil (need : Nat) : Nat → Nat → Option Nat
  | 0, _ => none
  | fuel + 1, newcap =>
    if need ≤ newcap then some newcap
    else if 2 ^ 62 < newcap then none
    else doubleUntil need fuel (newcap * 2)

/-- The end of `ramfs_write`: the bytes go into the block, and the size grows. -/
def putBytes (buf : List UInt8) (off : Nat) : Trap Vnode (Except Errno Nat) := fun vn => do
  let data ← copyTo vn.data off buf
  let size := if vn.size < off + buf.length then off + buf.length else vn.size
  some (.ok buf.length, { vn with data := data, size := size })

/-- The new block `nd` takes over the contents, with zeros up to `off`. -/
def Vnode.moveTo (vn : Vnode) (nd : List UInt8) (newcap off : Nat) : Option Vnode := do
  let old ← slice vn.data 0 vn.size
  let nd ← copyTo nd 0 old
  let nd ← copyTo nd vn.size (List.replicate (min off newcap - vn.size) 0)
  some { vn with data := nd, capacity := newcap }

def ramfsWrite (a : Alloc) (buf : List UInt8) (off : Nat) : Trap Vnode (Except Errno Nat) :=
  fun vn =>
  if vn.type ≠ .reg then some (.error .EISDIR, vn)
  else if buf.length = 0 then some (.ok 0, vn)
  else
    let need := (off + buf.length) % 2 ^ 64
    if need < off then some (.error .EINVAL, vn)
    else if vn.capacity < need then
      -- 64 rounds are enough: the capacity is at least 1, and past 2 ^ 62 the loop returns
      match doubleUntil need 64 (if vn.capacity ≠ 0 then vn.capacity else 64) with
      | none => some (.error .ENOMEM, vn)
      | some newcap =>
        match malloc a newcap with
        | none => some (.error .ENOMEM, vn)
        | some nd => do
          let vn ← vn.moveTo nd newcap off
          putBytes buf off vn
    else putBytes buf off vn

def ramfsTruncate (a : Alloc) (size : Nat) : Trap Vnode (Except Errno Unit) := fun vn =>
  if vn.type ≠ .reg then some (.error .EISDIR, vn)
  else if size = vn.size then some (.ok (), vn)
  else if size ≤ vn.capacity then do
    let data ← copyTo vn.data vn.size (List.replicate (size - vn.size) 0)
    some (.ok (), { vn with data := data, size := size })
  else
    match calloc a size with
    | none => some (.error .ENOMEM, vn)
    | some zeroed => do
      let nd ← zeroed
      let old ← slice vn.data 0 (min vn.size size)
      let nd ← copyTo nd 0 old
      some (.ok (), { vn with data := nd, capacity := size, size := size })

end Exyde.Vfs
