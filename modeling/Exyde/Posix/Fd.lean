import Exyde.Lib.Script
import Exyde.Vfs.Rpc

/-! # POSIX descriptors over the file server

`vfs_fdtab.c`, the five calls of `vfs_client.c` that work on open files, and `open`,
`close`, `read`, `write` and `lseek` of `unistd.c`, as scripts that talk to the server.
In `posixSys` the others and the server go on between any two messages of a call. -/

namespace Exyde.Posix

open Exyde.Lib Exyde.Vfs

/-! ## The local table -/

def localMax : Nat := 64

instance neZeroLocalMax : NeZero localMax := ⟨by decide⟩

def firstFd : Nat := 3

structure FdEntry where
  serverFd : UInt32
  inUse : Bool
  deriving DecidableEq, Repr

abbrev LocalTable := Fin localMax → FdEntry

namespace LocalTable

def init : LocalTable := fun _ => ⟨0, false⟩

def set (tab : LocalTable) (i : Fin localMax) (e : FdEntry) : LocalTable := Function.update tab i e

def free (tab : LocalTable) : Option (Fin localMax) :=
  (List.finRange localMax).find? fun i => decide (firstFd ≤ i.val) && !(tab i).inUse

/-- The slot of a descriptor in use: the check of `vfs_fdtab_get` and `vfs_fdtab_free`. -/
def used (tab : LocalTable) (fd : Int) : Option (Fin localMax) :=
  if h : fd < firstFd ∨ localMax ≤ fd then none
  else
    have hlt : fd.toNat < localMax := by
      unfold firstFd at h
      omega
    if (tab ⟨fd.toNat, hlt⟩).inUse then some ⟨fd.toNat, hlt⟩ else none

end LocalTable

/-- What the process has in memory; `ready` says that `rpc_req` and `rpc_resp` are set. -/
structure Local where
  tab : LocalTable
  errno : Int
  ready : Bool

abbrev PM := Client Local Req Rsp

def EIO : Int := 5
def ESPIPE : Int := 29

def setErrno (e : Int) : PM Unit := modifyGet fun l => ((), { l with errno := e })

def fdtabAlloc (serverFd : UInt32) : PM Int := do
  let l ← get
  match l.tab.free with
  | some i => do
    set { l with tab := l.tab.set i ⟨serverFd, true⟩ }
    pure i.val
  | none => do
    setErrno Errno.EMFILE.code
    pure (-1)

def fdtabGet (fd : Int) : PM (Option UInt32) := do
  let l ← get
  match l.tab.used fd with
  | some i => pure (some (l.tab i).serverFd)
  | none => do
    setErrno Errno.EBADF.code
    pure none

def fdtabFree (fd : Int) : PM Int := do
  let l ← get
  match l.tab.used fd with
  | some i => do
    set { l with tab := l.tab.set i ⟨0, false⟩ }
    pure 0
  | none => do
    setErrno Errno.EBADF.code
    pure (-1)

/-! ## The client library -/

def ensureInit : PM Bool := do
  let l ← get
  if l.ready then pure true
  else do
    setErrno Errno.ENOSYS.code
    pure false

/-- The reply to a request, or nothing and `errno`. -/
def rpc (q : Req) : PM (Option Rsp) := do
  let r ← Client.ask q
  if r.ret < 0 then do
    setErrno (-r.ret)
    pure none
  else pure (some r)

def openReq (path : List UInt8) (flags mode : UInt32) : Req :=
  { Req.zero with op := OP_OPEN, arg0 := flags.toUInt64, arg1 := mode.toUInt64 }.setPath path

def vfsClientOpen (path : List UInt8) (flags mode : UInt32) : PM Int32 := do
  if ← ensureInit then
    match ← rpc (openReq path flags mode) with
    | none => pure (-1)
    | some r => pure r.aux.toUInt32.toInt32
  else pure (-1)

section

variable (fd : Int32)

def closeReq : Req := { Req.zero with op := OP_CLOSE, fd := fd.toUInt32 }

def vfsClientClose : PM Int := do
  if ← ensureInit then
    match ← rpc (closeReq fd) with
    | none => pure (-1)
    | some _ => pure 0
  else pure (-1)

def readReq (len : Nat) : Req :=
  { Req.zero with op := OP_READ, fd := fd.toUInt32, arg0 := len.toUInt64 }

/-- What is returned, and what is put into the buffer. -/
def vfsClientRead (len : Nat) : PM (Int × List UInt8) := do
  if ← ensureInit then
    if len = 0 ∨ rpcDataMax < len then do
      setErrno Errno.EINVAL.code
      pure (-1, [])
    else do
      match ← rpc (readReq fd len) with
      | none => pure (-1, [])
      | some r =>
        if len < r.data.length then do
          setErrno EIO
          pure (-1, [])
        else pure (r.data.length, r.data)
  else pure (-1, [])

def writeReq (buf : List UInt8) (total : Nat) : Req :=
  let piece := (buf.drop total).take rpcDataMax
  { Req.zero with
    op := OP_WRITE
    fd := fd.toUInt32
    dataLen := piece.length.toUInt32
    data := fun k => piece.getD k 0 }

/-- The loop of `vfs_client_write`. Every round adds to `total`, so that it has
ended after as many rounds as there are bytes. -/
def writeLoop (fd : Int32) (buf : List UInt8) : Nat → Nat → PM Int
  | 0, total => pure total
  | rounds + 1, total =>
    if total < buf.length then do
      match ← rpc (writeReq fd buf total) with
      | none => pure (-1)
      | some r =>
        if r.ret ≤ 0 then do
          setErrno EIO
          pure (-1)
        else writeLoop fd buf rounds (total + r.ret.toNat)
    else pure total

def vfsClientWrite (buf : List UInt8) : PM Int := do
  if ← ensureInit then
    if buf.length = 0 then pure 0 else writeLoop fd buf buf.length 0
  else pure (-1)

def seekReq (off whence : Int) : Req :=
  { Req.zero with
    op := OP_SEEK
    fd := fd.toUInt32
    arg0 := (Int64.ofInt off).toUInt64
    arg1 := (Int64.ofInt whence).toUInt64 }

def vfsClientSeek (off whence : Int) : PM Int := do
  if ← ensureInit then
    match ← rpc (seekReq fd off whence) with
    | none => pure (-1)
    | some r => pure r.aux.toUInt64.toInt64.toInt
  else pure (-1)

end

/-! ## `unistd.c` -/

/-- What the console, by whatever way, does with a `read` or a `write`. -/
structure Console where
  ret : Int
  errno : Option Int
  data : List UInt8

/-- The call goes to the console, which knows nothing of files. -/
def Console.serve (x : Console) : PM (Int × List UInt8) := fun l =>
  .done ((x.ret, x.data), { l with errno := x.errno.getD l.errno })

def isConsole (fd : Int) : Prop := 0 ≤ fd ∧ fd < firstFd

instance decidableIsConsole (fd : Int) : Decidable (isConsole fd) :=
  inferInstanceAs (Decidable (0 ≤ fd ∧ fd < firstFd))

def read (fd : Int) (count : Nat) (tty : Console) : PM (Int × List UInt8) :=
  if isConsole fd then
    if fd = 0 then tty.serve
    else do
      setErrno Errno.EBADF.code
      pure (-1, [])
  else do
    match ← fdtabGet fd with
    | none => pure (-1, [])
    | some sf => vfsClientRead sf.toInt32 count

def write (fd : Int) (buf : List UInt8) (tty : Console) : PM (Int × List UInt8) :=
  if isConsole fd then
    if fd = 1 ∨ fd = 2 then tty.serve
    else do
      setErrno Errno.EBADF.code
      pure (-1, [])
  else do
    match ← fdtabGet fd with
    | none => pure (-1, [])
    | some sf => do
      let n ← vfsClientWrite sf.toInt32 buf
      pure (n, [])

def openPath (path : List UInt8) (flags : UInt32) : PM Int := do
  let sf ← vfsClientOpen path flags 0
  if sf < 0 then pure (-1) else fdtabAlloc sf.toUInt32

def close (fd : Int) : PM Int :=
  if isConsole fd then pure 0
  else do
    match ← fdtabGet fd with
    | none => pure (-1)
    | some sf => do
      let r ← vfsClientClose sf.toInt32
      if r ≠ 0 then pure (-1) else fdtabFree fd

def lseek (fd off whence : Int) : PM Int :=
  if isConsole fd then do
    setErrno ESPIPE
    pure (-1)
  else do
    match ← fdtabGet fd with
    | none => pure (-1)
    | some sf => vfsClientSeek sf.toInt32 off whence

/-- A call of the process; `tty` is what the console does with it, if it goes there. -/
inductive Call
  | openPath (path : List UInt8) (flags : UInt32)
  | close (fd : Int)
  | read (fd : Int) (count : Nat) (tty : Console)
  | write (fd : Int) (buf : List UInt8) (tty : Console)
  | lseek (fd off whence : Int)

def Call.run : Call → PM (Int × List UInt8)
  | .openPath path flags => do pure (← Posix.openPath path flags, [])
  | .close fd => do pure (← Posix.close fd, [])
  | .read fd count tty => Posix.read fd count tty
  | .write fd buf tty => Posix.write fd buf tty
  | .lseek fd off whence => do pure (← Posix.lseek fd off whence, [])

/-! ## The process among the other clients -/

abbrev Rest := Rsp → Script Req Rsp ((Int × List UInt8) × Local)

/-- Where the process is in a call: it is in none, or about to send a request, or
waits for the reply to it. -/
inductive Doing
  | idle
  | sending (q : Req) (k : Rest)
  | waiting (q : Req) (k : Rest)

def Doing.isIdle : Doing → Bool
  | .idle => true
  | _ => false

/-- A call that was made: the tables before it, and what it has returned. -/
structure Made where
  call : Call
  tab : LocalTable
  fds : Fin fdMax → Bool
  ret : Option Int

end Exyde.Posix

namespace Exyde.Vfs

/-- The descriptors that the server has open for a client. -/
def Net.opened {N : Nat} (n : Net N) (c : Fin N) : Fin fdMax → Bool := fun fd =>
  (List.finRange maxClients).any fun i =>
    (n.server.clients i).inUse && ((n.server.clients i).chResp == some c.val) &&
      ((n.server.clients i).fdtab fd).isSome

end Exyde.Vfs

namespace Exyde.Posix

open Exyde.Lib Exyde.Vfs

structure World (N : Nat) where
  net : Net N
  tab : LocalTable
  errno : Int
  doing : Doing
  /-- the requests of the call so far, with their replies -/
  talk : List (Req × Rsp)
  last : Option Made

inductive PosixEvent (N : Nat)
  | net (e : Event N)
  | call (k : Call)
  | send
  | receive

namespace World

variable {N : Nat}

def start (n : Net N) : World N := ⟨n, .init, 0, .idle, [], none⟩

def proceed (x : World N) : Script Req Rsp ((Int × List UInt8) × Local) → World N
  | .done r => { x with
      tab := r.2.tab
      errno := r.2.errno
      doing := .idle
      last := x.last.map fun m => { m with ret := some r.1.1 } }
  | .ask q k => { x with doing := .sending q k }

/-- What happens outside the calls of the process, which is client `c`: it may attach,
and does nothing else. -/
def outside (c : Fin N) (x : World N) : Event N → Bool
  | .request c' _ => c' != c
  | .receive c' => c' != c || x.net.phase c == .attaching
  | _ => true

def step (c : Fin N) (x : World N) : PosixEvent N → Option (World N)
  | .net e => if x.outside c e then (x.net.step e).map fun n => { x with net := n } else none
  | .call k =>
    if x.doing.isIdle ∧ x.net.phase c ≠ .attaching then
      some ({ x with talk := [], last := some ⟨k, x.tab, x.net.opened c, none⟩ }.proceed
        (k.run ⟨x.tab, x.errno, (x.net.phase c).idle.isSome⟩))
    else none
  | .send =>
    match x.doing with
    | .sending q k => (x.net.step (.request c q)).map fun n =>
        { x with net := n, doing := .waiting q k }
    | _ => none
  | .receive =>
    match x.doing with
    | .waiting q k => (x.net.inbox c).head?.bind fun r =>
        (x.net.step (.receive c)).map fun n =>
          { x with net := n, talk := x.talk ++ [(q, r)] }.proceed (k r)
    | _ => none

end World

/-- A process that opens, closes, reads, writes and seeks, among other clients. -/
def posixSys (N : Nat) (c : Fin N) : System (World N) (PosixEvent N) where
  start x := ∃ n, (rpcSys N).start n ∧ x = .start n
  step := World.step c

end Exyde.Posix
