import Mathlib.Data.List.FinRange
import Exyde.Vfs.Fs

/-! # The VFS server

`fd_table.c` and `main.c`: one message of the request channel at a time, the replies it
sends and the client slots it keeps. What is sent on a reply channel stands in `sent`,
in order. -/

namespace Exyde.Vfs

open Exyde.Lib (Trap)

/-! ## Descriptor tables -/

def fdMax : Nat := 64

instance neZeroFdMax : NeZero fdMax := ⟨by decide⟩

abbrev FdTable := Fin fdMax → Option FileId

def FdTable.init : FdTable := fun _ => none

namespace FdTable

def set (t : FdTable) (fd : Fin fdMax) (f : Option FileId) : FdTable := Function.update t fd f

/-- `vfs_fd_alloc`: the first empty slot. -/
def alloc (t : FdTable) (f : FileId) : Except Errno (Fin fdMax × FdTable) :=
  match (List.finRange fdMax).find? fun fd => (t fd).isNone with
  | some fd => .ok (fd, t.set fd (some f))
  | none => .error .EMFILE

/-- The slot that a descriptor of a request means; as an `int` it may be negative. -/
def slot (fd : UInt32) : Option (Fin fdMax) :=
  if h : fd.toNat < fdMax then some ⟨fd.toNat, h⟩ else none

def get (t : FdTable) (fd : UInt32) : Option FileId := (slot fd).bind t

def close (t : FdTable) (fd : UInt32) : FM (Except Errno FdTable) :=
  match slot fd with
  | none => pure (.error .EBADF)
  | some i =>
    match t i with
    | none => pure (.error .EBADF)
    | some f => do
      vfsClose f
      pure (.ok (t.set i none))

end FdTable

/-! ## Messages -/

def rpcPathMax : Nat := 256
def rpcDataMax : Nat := 512

structure Req where
  op : UInt32
  fd : UInt32
  arg0 : UInt64
  arg1 : UInt64
  dataLen : UInt32
  clientId : UInt32
  path : Fin rpcPathMax → UInt8
  data : Fin rpcDataMax → UInt8

/-- The path up to its null, if it has one. -/
def Req.pathString (q : Req) : List UInt8 := (List.ofFn q.path).takeWhile (· != 0)

/-- `struct vfs_rsp`, with the first `data_len` bytes of its data. -/
structure Rsp where
  ret : Int
  aux : Nat
  data : List UInt8
  deriving DecidableEq, Repr

def OP_ATTACH : UInt32 := 0
def OP_OPEN : UInt32 := 1
def OP_CLOSE : UInt32 := 2
def OP_READ : UInt32 := 3
def OP_WRITE : UInt32 := 4
def OP_SEEK : UInt32 := 5
def OP_MKDIR : UInt32 := 6
def OP_UNLINK : UInt32 := 7
def OP_RMDIR : UInt32 := 8
def OP_READDIR : UInt32 := 9
def OP_SHUTDOWN : UInt32 := 10

abbrev Chan := Nat

/-! ## Client slots -/

def maxClients : Nat := 8

instance neZeroMaxClients : NeZero maxClients := ⟨by decide⟩

structure Client where
  inUse : Bool
  id : UInt32
  chResp : Option Chan
  fdtab : FdTable

structure Server where
  fs : Fs
  clients : Fin maxClients → Client
  nextClientId : UInt32
  /-- what has been sent, with the channel it went to -/
  sent : List (Chan × Rsp)
  exited : Bool

abbrev SM := Trap Server

def onFs {α : Type} (p : FM α) : SM α := Trap.within Server.fs (fun s fs => { s with fs := fs }) p

def client (i : Fin maxClients) : SM Client := .read fun s => some (s.clients i)

def putClient (i : Fin maxClients) (c : Client) : SM Unit :=
  .change fun s => { s with clients := Function.update s.clients i c }

namespace Server

def find (s : Server) (id : UInt32) : Option (Fin maxClients) :=
  (List.finRange maxClients).find? fun i => (s.clients i).inUse && (s.clients i).id == id

def clientFind (s : Server) (id : UInt32) : Option (Fin maxClients) := if id = 0 then none else s.find id

/-- `clients_any_alive`. -/
def anyAlive (s : Server) : Bool := (List.finRange maxClients).any fun i => (s.clients i).inUse

def freeSlot (s : Server) : Option (Fin maxClients) :=
  (List.finRange maxClients).find? fun i => !(s.clients i).inUse

end Server

def clientAttach (ch : Chan) : SM (Option (Fin maxClients)) := fun s =>
  match s.freeSlot with
  | none => some (none, s)
  | some i =>
    some (some i, { s with
      clients := Function.update s.clients i ⟨true, s.nextClientId, some ch, .init⟩
      nextClientId := s.nextClientId + 1 })

section

variable (i : Fin maxClients)

/-- One round of the loop of `client_detach`. -/
def detachFd (fd : Fin fdMax) : SM Unit := do
  let c ← client i
  match c.fdtab fd with
  | none => pure ()
  | some f => do
    onFs (vfsClose f)
    putClient i { c with fdtab := c.fdtab.set fd none }

def clientDetach : SM Unit := do
  Trap.forEach (detachFd i) (List.finRange fdMax)
  let c ← client i
  putClient i { c with chResp := none, inUse := false }

/-! ## Replies -/

/-- `exyde_ipc_send` of a reply; on a handle that is closed it fails. On a channel that is
full and that nobody reads the call blocks: the server then takes no further message,
and its run ends with the messages before. -/
def send (ch : Option Chan) (r : Rsp) : SM Unit := .change fun s =>
  { s with sent := s.sent ++ (ch.map fun ch => (ch, r)).toList }

def replyOk (ret : Int) (aux : Nat) (data : List UInt8) : SM Unit := do
  let c ← client i
  send c.chResp ⟨ret, aux, data⟩

def replyErr (e : Errno) : SM Unit := do
  let c ← client i
  send c.chResp ⟨-e.code, 0, []⟩

/-! ## Requests -/

def opOpen (a : Alloc) (i : Fin maxClients) (q : Req) : SM (Except Errno (Fin fdMax)) := do
  match ← onFs (vfsOpen a q.pathString q.arg0.toUInt32) with
  | .error e => pure (.error e)
  | .ok f => do
    let c ← client i
    match c.fdtab.alloc f with
    | .error e => do
      onFs (vfsClose f)
      pure (.error e)
    | .ok (fd, t) => do
      putClient i { c with fdtab := t }
      pure (.ok fd)

/-- The requests that end in a plain success or an error. -/
def replyUnit : Except Errno Unit → SM Unit
  | .error e => replyErr i e
  | .ok _ => replyOk i 0 0 []

def handleOpen (a : Alloc) (i : Fin maxClients) (q : Req) : SM Unit := do
  match ← opOpen a i q with
  | .error e => replyErr i e
  | .ok fd => replyOk i 0 fd []

def handleClose (q : Req) : SM Unit := do
  let c ← client i
  match ← onFs (c.fdtab.close q.fd) with
  | .error e => replyErr i e
  | .ok t => do
    putClient i { c with fdtab := t }
    replyOk i 0 0 []

def handleRead (q : Req) : SM Unit := do
  let c ← client i
  match c.fdtab.get q.fd with
  | none => replyErr i .EBADF
  | some f =>
    if q.arg0.toNat = 0 ∨ rpcDataMax < q.arg0.toNat then replyErr i .EINVAL
    else do
      match ← onFs (vfsRead f q.arg0.toNat) with
      | .error e => replyErr i e
      | .ok bytes => replyOk i bytes.length 0 bytes

def handleWrite (a : Alloc) (i : Fin maxClients) (q : Req) : SM Unit := do
  let c ← client i
  match c.fdtab.get q.fd with
  | none => replyErr i .EBADF
  | some f =>
    if q.dataLen.toNat = 0 ∨ rpcDataMax < q.dataLen.toNat then replyErr i .EINVAL
    else do
      match ← onFs (vfsWrite a f ((List.ofFn q.data).take q.dataLen.toNat)) with
      | .error e => replyErr i e
      | .ok n => replyOk i n 0 []

def handleSeek (q : Req) : SM Unit := do
  let c ← client i
  match c.fdtab.get q.fd with
  | none => replyErr i .EBADF
  | some f => do
    match ← onFs (vfsSeek f q.arg0.toInt64.toInt q.arg1.toUInt32.toInt32.toInt) with
    | .error e => replyErr i e
    | .ok n => replyOk i n n []

def handleReaddir (q : Req) : SM Unit := do
  let c ← client i
  match c.fdtab.get q.fd with
  | none => replyErr i .EBADF
  | some f => do
    let x ← onFs (file f)
    let n ← onFs (node x.vn)
    if n.type ≠ .dir then replyErr i .ENOTDIR
    else do
      match ← onFs (ramfsReaddir x.vn q.arg0.toUInt32.toNat rpcDataMax) with
      | .error e => replyErr i e
      | .ok name => replyOk i 0 0 (name ++ [0])

end

def handle (a : Alloc) (i : Fin maxClients) (q : Req) : SM Unit :=
  if q.op = OP_OPEN then handleOpen a i q
  else if q.op = OP_CLOSE then handleClose i q
  else if q.op = OP_READ then handleRead i q
  else if q.op = OP_WRITE then handleWrite a i q
  else if q.op = OP_SEEK then handleSeek i q
  else if q.op = OP_MKDIR then do replyUnit i (← onFs (vfsMkdir a q.pathString))
  else if q.op = OP_UNLINK then do replyUnit i (← onFs (vfsUnlink q.pathString))
  else if q.op = OP_RMDIR then do replyUnit i (← onFs (vfsRmdir q.pathString))
  else if q.op = OP_READDIR then handleReaddir i q
  else replyErr i .ENOSYS

/-- `check_path`: there is a null in the path. -/
def Req.pathOk (q : Req) : Bool := (List.ofFn q.path).any (· == 0)

def Req.needPath (q : Req) : Bool :=
  q.op == OP_OPEN || q.op == OP_MKDIR || q.op == OP_UNLINK || q.op == OP_RMDIR

/-- A message on the request channel: the request, and the channel it carries. -/
structure Msg where
  req : Req
  cap : Option Chan

def serveAttach (cap : Option Chan) : SM Unit :=
  match cap with
  | none => pure ()
  | some ch => do
    match ← clientAttach ch with
    | none => send (some ch) ⟨-Errno.EMFILE.code, 0, []⟩
    | some i => do
      let c ← client i
      send c.chResp ⟨0, c.id.toNat, []⟩

def serveClient (a : Alloc) (i : Fin maxClients) (q : Req) : SM Unit :=
  if q.op = OP_SHUTDOWN then do
    replyOk i 0 0 []
    clientDetach i
    .change fun s => if s.anyAlive then s else { s with exited := true }
  else if q.needPath && !q.pathOk then replyErr i .EINVAL
  else handle a i q

/-- One round of the loop of `main`. A channel that comes with any other message
than ATTACH is closed. -/
def serve (a : Alloc) (m : Msg) : SM Unit := fun s =>
  if m.req.op = OP_ATTACH then serveAttach m.cap s
  else
    match s.clientFind m.req.clientId with
    | none => some ((), s)
    | some i => serveClient a i m.req s

/-- The server before its first message. -/
def boot (a : Alloc) : Option Server :=
  match (do
    match ← ramfsCreateRoot a with
    | none => pure false
    | some root => do
      vfsMountRoot root
      pure true : FM Bool) Fs.empty with
  | some (true, fs) => some ⟨fs, fun _ => ⟨false, 0, none, .init⟩, 1, [], false⟩
  | _ => none

end Exyde.Vfs
