import Mathlib.Data.Finset.Card
import Mathlib.Data.Finset.Range
import Exyde.Vfs.Ramfs

/-! # The file system of the VFS server

`vfs.c` and the directory operations of `ramfs.c`, with every reference taken and
dropped where the source does it. Numbers of nodes and open files are not used again; to
use one that has been freed is a trap. All nodes are of RAMFS. -/

namespace Exyde.Vfs

open Exyde.Lib (Trap)

abbrev FileId := Nat

def nameMax : Nat := 255
def pathMax : Nat := 1024

def slash : UInt8 := 47
def dot : UInt8 := 46

def O_RDONLY : UInt32 := 0x0001
def O_WRONLY : UInt32 := 0x0002
def O_RDWR : UInt32 := 0x0003
def O_CREAT : UInt32 := 0x0100
def O_EXCL : UInt32 := 0x0200
def O_TRUNC : UInt32 := 0x0400
def O_APPEND : UInt32 := 0x0800

structure File where
  vn : NodeId
  offset : Nat
  flags : UInt32
  refcount : Nat
  deriving DecidableEq, Repr

structure Fs where
  /-- `vfs_root` -/
  root : Option NodeId
  nodes : NodeId → Option Vnode
  nextNode : NodeId
  files : FileId → Option File
  nextFile : FileId

abbrev FM := Trap Fs

namespace Fs

def empty : Fs := ⟨none, fun _ => none, 0, fun _ => none, 0⟩

def setNode (s : Fs) (v : NodeId) (n : Option Vnode) : Fs :=
  { s with nodes := Function.update s.nodes v n }

def setFile (s : Fs) (f : FileId) (x : Option File) : Fs :=
  { s with files := Function.update s.files f x }

def bumpNode (s : Fs) : Fs := { s with nextNode := s.nextNode + 1 }

def liveFiles (s : Fs) : Finset FileId := (Finset.range s.nextFile).filter fun f => s.files f ≠ none

end Fs

def node (v : NodeId) : FM Vnode := .read fun s => s.nodes v

def putNode (v : NodeId) (n : Vnode) : FM Unit := .change fun s => s.setNode v (some n)

def file (f : FileId) : FM File := .read fun s => s.files f

def putFile (f : FileId) (x : File) : FM Unit := .change fun s => s.setFile f (some x)

def onNode {α : Type} (v : NodeId) (p : Trap Vnode α) : FM α := do
  let n ← node v
  match p n with
  | none => .trap
  | some (r, n) => do
    putNode v n
    pure r

/-! ## References -/

def vnodeRef (v : NodeId) : FM Unit := do
  let n ← node v
  putNode v { n with refcount := (n.refcount + 1) % 2 ^ 32 }

/-- `ramfs_destroy`, given the `vnode_unref` it calls for the children. -/
def ramfsDestroy (unref : NodeId → FM Unit) (v : NodeId) : FM Unit := do
  let n ← node v
  Trap.forEach unref n.children
  .change fun s => s.setNode v none

/-- `vnode_unref`, with a bound on how deep it may destroy. -/
def unrefTo : Nat → NodeId → FM Unit
  | 0, _ => .trap
  | depth + 1, v => do
    let n ← node v
    if n.refcount = 0 then pure ()
    else do
      putNode v { n with refcount := n.refcount - 1 }
      if n.refcount - 1 = 0 then ramfsDestroy (unrefTo depth) v else pure ()

/-- No path is longer than there are nodes. -/
def vnodeUnref (v : NodeId) : FM Unit := fun s => unrefTo (s.nextNode + 1) v s

/-! ## Directories -/

def findIn (name : Name) : List NodeId → FM (Option NodeId)
  | [] => pure none
  | c :: rest => do
    let n ← node c
    if n.name = name then pure (some c) else findIn name rest

def ramfsFind (dir : NodeId) (name : Name) : FM (Option NodeId) := do
  let d ← node dir
  findIn name d.children

def ramfsLookup (dir : NodeId) (name : Name) : FM (Except Errno NodeId) := do
  match ← ramfsFind dir name with
  | none => pure (.error .ENOENT)
  | some c => do
    vnodeRef c
    pure (.ok c)

section

variable (a : Alloc)

def ramfsNewNode (type : VType) : FM (Option NodeId) := fun s =>
  if a.node then some (some s.nextNode, (s.setNode s.nextNode (some (.new type))).bumpNode)
  else some (none, s)

/-- What `ramfs_create` and `ramfs_mkdir` share. -/
def ramfsAdd (type : VType) (dir : NodeId) (name : Name) : FM (Except Errno NodeId) := do
  if (← ramfsFind dir name).isSome then pure (.error .EEXIST)
  else
    match ← ramfsNewNode a type with
    | none => pure (.error .ENOMEM)
    | some nv => do
      let nn ← node nv
      putNode nv { nn with name := name.take nameMax, parent := some dir }
      let d ← node dir
      putNode dir { d with children := nv :: d.children }
      pure (.ok nv)

def ramfsCreate (dir : NodeId) (name : Name) : FM (Except Errno NodeId) := do
  match ← ramfsAdd a .reg dir name with
  | .error e => pure (.error e)
  | .ok nv => do
    -- the child list holds one reference, the caller gets another
    vnodeRef nv
    pure (.ok nv)

def ramfsMkdir (dir : NodeId) (name : Name) : FM (Except Errno Unit) := do
  match ← ramfsAdd a .dir dir name with
  | .error e => pure (.error e)
  | .ok _ => pure (.ok ())

/-- What `ramfs_unlink` and `ramfs_rmdir` share: `refuse` says why an entry may not go. -/
def ramfsRemove (refuse : Vnode → Option Errno) (dir : NodeId) (name : Name) :
    FM (Except Errno Unit) := do
  match ← ramfsFind dir name with
  | none => pure (.error .ENOENT)
  | some c => do
    let n ← node c
    match refuse n with
    | some e => pure (.error e)
    | none => do
      let d ← node dir
      putNode dir { d with children := d.children.erase c }
      vnodeUnref c
      pure (.ok ())

def ramfsUnlink : NodeId → Name → FM (Except Errno Unit) :=
  ramfsRemove fun c => if c.type = .dir then some .EISDIR else none

def ramfsRmdir : NodeId → Name → FM (Except Errno Unit) :=
  ramfsRemove fun c =>
    if c.type ≠ .dir then some .ENOTDIR else if c.children ≠ [] then some .ENOTEMPTY else none

/-- `ramfs_readdir` into a buffer of `n` bytes. -/
def ramfsReaddir (dir : NodeId) (index n : Nat) : FM (Except Errno Name) := do
  let d ← node dir
  match d.children[index]? with
  | none => pure (.error .ENOENT)
  | some c => do
    let c ← node c
    if n < c.name.length + 1 then pure (.error .ERANGE) else pure (.ok c.name)

def ramfsCreateRoot : FM (Option NodeId) := do
  match ← ramfsNewNode a .dir with
  | none => pure none
  | some v => do
    let n ← node v
    putNode v { n with parent := some v }
    pure (some v)

/-! ## Paths -/

def vfsMountRoot (root : NodeId) : FM Unit := do
  match ← Trap.read fun s : Fs => some s.root with
  | none => pure ()
  | some old => vnodeUnref old
  let n ← node root
  .change fun s => { s.setNode root (some { n with parent := some root }) with root := some root }

/-- The loop of `resolve_from`, which holds a reference to `cur`. -/
def resolveLoop : Nat → NodeId → List UInt8 → FM (Except Errno NodeId)
  | 0, _, _ => .trap
  | fuel + 1, cur, path =>
    let p := path.dropWhile (· == slash)
    if p = [] then pure (.ok cur)
    else
      let name := p.takeWhile (· != slash)
      let rest := p.dropWhile (· != slash)
      if nameMax < name.length then do
        vnodeUnref cur
        pure (.error .ENAMETOOLONG)
      else if name = [dot] then resolveLoop fuel cur rest
      else if name = [dot, dot] then do
        let n ← node cur
        let par := n.parent.getD cur
        if par ≠ cur then do
          vnodeRef par
          vnodeUnref cur
          resolveLoop fuel par rest
        else resolveLoop fuel cur rest
      else do
        let n ← node cur
        if n.type ≠ .dir then do
          vnodeUnref cur
          pure (.error .ENOTDIR)
        else
          match ← ramfsLookup cur name with
          | .error e => do
            vnodeUnref cur
            pure (.error e)
          | .ok next => do
            vnodeUnref cur
            resolveLoop fuel next rest

/-- Every round of the loop uses up a byte of the path. -/
def resolveFrom (start : NodeId) (path : List UInt8) : FM (Except Errno NodeId) := do
  vnodeRef start
  resolveLoop (path.length + 1) start path

section

variable (path : List UInt8)

def vfsResolve : FM (Except Errno NodeId) := do
  match ← Trap.read fun s : Fs => some s.root with
  | none => pure (.error .ENODEV)
  | some root => if path.head? ≠ some slash then pure (.error .EINVAL) else resolveFrom root path

/-- The loop of `split_parent` that looks for the last slash, from `i` down. -/
def nameStart (path : List UInt8) : Nat → Nat
  | 0 => 0
  | i + 1 => if path[i]? ≠ some slash then nameStart path i else i + 1

/-- The two strings of `split_parent`: the path of the directory, and the name. -/
def splitPath : Except Errno (List UInt8 × Name) :=
  let len := path.length
  if len = 0 ∨ pathMax < len then .error .ENAMETOOLONG
  else
    let i := nameStart path len
    if len ≤ i then .error .EINVAL
    else if len - i = 0 ∨ nameMax < len - i then .error .ENAMETOOLONG
    else .ok (if i = 0 then [slash] else path.take i, path.drop i)

def splitParent : FM (Except Errno (NodeId × Name)) :=
  match splitPath path with
  | .error e => pure (.error e)
  | .ok (dirpath, name) => do
    match ← vfsResolve dirpath with
    | .error e => pure (.error e)
    | .ok parent => pure (.ok (parent, name))

/-- What `vfs_mkdir`, `vfs_unlink`, `vfs_rmdir` and the creating part of `vfs_open`
share: resolve the parent, act in it, drop it. -/
def inParent {α : Type} (path : List UInt8) (act : NodeId → Name → FM (Except Errno α)) :
    FM (Except Errno α) := do
  match ← splitParent path with
  | .error e => pure (.error e)
  | .ok (parent, name) => do
    let n ← node parent
    if n.type ≠ .dir then do
      vnodeUnref parent
      pure (.error .ENOTDIR)
    else do
      let r ← act parent name
      vnodeUnref parent
      pure r

def vfsMkdir : FM (Except Errno Unit) := inParent path (ramfsMkdir a)

def vfsUnlink : FM (Except Errno Unit) := inParent path ramfsUnlink

def vfsRmdir : FM (Except Errno Unit) := inParent path ramfsRmdir

/-! ## Open files -/

def accRead (flags : UInt32) : Bool := flags &&& O_RDWR != O_WRONLY

def accWrite (flags : UInt32) : Bool := flags &&& O_RDWR != O_RDONLY

/-- Bytes of the arena that a `file_t` takes, with its header. -/
def fileBlock : Nat := 48

/-- `calloc` of a `file_t`, filled in. It fails at the latest when `file_t`s fill the arena. -/
def newFile (x : File) : FM (Option FileId) := fun s =>
  if a.file = true ∧ (s.liveFiles.card + 1) * fileBlock ≤ arenaSize then
    some (some s.nextFile, { s.setFile s.nextFile (some x) with nextFile := s.nextFile + 1 })
  else some (none, s)

def openNode (flags : UInt32) : FM (Except Errno NodeId) := do
  match ← vfsResolve path with
  | .error e =>
    if e = .ENOENT ∧ flags &&& O_CREAT ≠ 0 then inParent path (ramfsCreate a)
    else pure (.error e)
  | .ok vn =>
    if flags &&& (O_CREAT ||| O_EXCL) = O_CREAT ||| O_EXCL then do
      vnodeUnref vn
      pure (.error .EEXIST)
    else pure (.ok vn)

def openTruncate (vn : NodeId) (flags : UInt32) : FM (Except Errno Unit) := do
  if flags &&& O_TRUNC ≠ 0 ∧ accWrite flags = true then do
    let n ← node vn
    if n.type = .reg then onNode vn (ramfsTruncate a 0) else pure (.ok ())
  else pure (.ok ())

def vfsOpen (flags : UInt32) : FM (Except Errno FileId) := do
  match ← openNode a path flags with
  | .error e => pure (.error e)
  | .ok vn => do
    match ← openTruncate a vn flags with
    | .error e => do
      vnodeUnref vn
      pure (.error e)
    | .ok _ => do
      match ← newFile a ⟨vn, 0, flags, 1⟩ with
      | none => do
        vnodeUnref vn
        pure (.error .ENOMEM)
      | some f => pure (.ok f)

end

def vfsClose (f : FileId) : FM Unit := do
  let x ← file f
  if 1 < x.refcount then putFile f { x with refcount := x.refcount - 1 }
  else do
    vnodeUnref x.vn
    .change fun s => s.setFile f none

def vfsRead (f : FileId) (n : Nat) : FM (Except Errno (List UInt8)) := do
  let x ← file f
  if accRead x.flags = false then pure (.error .EBADF)
  else do
    let r ← onNode x.vn (ramfsRead n x.offset)
    match r with
    | .error e => pure (.error e)
    | .ok bytes => do
      if 0 < bytes.length then putFile f { x with offset := (x.offset + bytes.length) % 2 ^ 64 }
      else pure ()
      pure (.ok bytes)

def vfsWrite (f : FileId) (buf : List UInt8) : FM (Except Errno Nat) := do
  let x ← file f
  if accWrite x.flags = false then pure (.error .EBADF)
  else do
    let n ← node x.vn
    let off := if x.flags &&& O_APPEND ≠ 0 then n.size else x.offset
    let r ← onNode x.vn (ramfsWrite a buf off)
    match r with
    | .error e => pure (.error e)
    | .ok k => do
      if 0 < k then putFile f { x with offset := (off + k) % 2 ^ 64 } else pure ()
      pure (.ok k)

end

def toI64 (n : Nat) : Int := (BitVec.ofNat 64 n).toInt

def seekBase (x : File) (whence : Int) : FM (Option Int) :=
  if whence = 0 then pure (some 0)
  else if whence = 1 then pure (some (toI64 x.offset))
  else if whence = 2 then do
    let n ← node x.vn
    pure (some (toI64 n.size))
  else pure none

/-- `vfs_seek`; the sum wraps around. -/
def vfsSeek (f : FileId) (off : Int) (whence : Int) : FM (Except Errno Nat) := do
  let x ← file f
  let base ← seekBase x whence
  match base with
  | none => pure (.error .EINVAL)
  | some base =>
    let newOff := (BitVec.ofInt 64 (base + off)).toInt
    if newOff < 0 then pure (.error .EINVAL)
    else do
      putFile f { x with offset := newOff.toNat }
      pure (.ok newOff.toNat)

end Exyde.Vfs
