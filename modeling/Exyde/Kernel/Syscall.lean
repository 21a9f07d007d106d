import Exyde.Lib.Runs
import Exyde.Kernel.State

/-! # The system calls

`syscall.c` and the spawn path of `exec.c`, as far as they touch processes, handles,
channels and threads. What the rest of the machine answers is part of the event, so
every answer is possible. Threads are switched at blocking points, at a yield, and by
the timer in user code and in the idle loop. -/

namespace Exyde.Kernel

open Function Exyde.Lib Exyde.Ipc

def EPERM : Int := 1
def ENOENT : Int := 2
def EBADF : Int := 9
def EAGAIN : Int := 11
def ENOMEM : Int := 12
def EFAULT : Int := 14
def EINVAL : Int := 22
def ENFILE : Int := 23
def EMFILE : Int := 24
def ENOSYS : Int := 38

def ipcMsgSizeMax : UInt64 := 1024
def ipcCapacityMax : UInt64 := 64
def spawnElfMax : UInt64 := 0x400000

/-- `cap_h == (u64)HANDLE_INVALID`. -/
def noHandle : UInt64 := handleInvalid.toUInt64

/-- How `process_spawn` ends: with a process, before it has one, or after
destroying the one it made. -/
inductive SpawnResult where
  | spawned
  | noProcess
  | noThread
  deriving DecidableEq, Repr

/-- The answers `sys_spawn_elf` gets: the error of `strncpy_from_user`, the
bounce buffer, the copy of the image, and `process_spawn`; and the `e_entry` of
the image, of which `elf_load` asks only that it is not below `USER_VA_BASE`. -/
structure SpawnEnv where
  nameError : Option Int
  buffer : Bool
  copied : Bool
  spawn : SpawnResult
  entry : UInt64

/-- The system calls that touch none of the objects modelled here. -/
inductive PlainCall where
  | map
  | unmap
  | exyPuts
  | exyGets
  | procList
  deriving DecidableEq, Repr

/-- The entries of `syscall_table` with their arguments. A message is the result
of `copy_from_user`; the flags of a receive say whether the copies to the
caller's buffers succeed. -/
inductive Syscall where
  | ping (a0 : UInt64)
  | exit (code : UInt64)
  | handleCreate (kind rights object : UInt64)
  | handleClose (h : UInt64)
  | handleQuery (h required : UInt64)
  | getpid
  | ipcCreate (msgSize capacity : UInt64) (allocOk : Bool)
  | ipcSend (h len : UInt64) (msg : Option (Nat → UInt8))
  | ipcTrySend (h len : UInt64) (msg : Option (Nat → UInt8))
  | ipcRecv (h maxLen : UInt64) (copyOut : Bool)
  | ipcTryRecv (h maxLen : UInt64) (copyOut : Bool)
  | ipcSendCap (h len : UInt64) (msg : Option (Nat → UInt8)) (capH action : UInt64)
  | ipcRecvCap (h maxLen : UInt64) (copyOut : Bool)
  | ipcTryRecvCap (h maxLen : UInt64) (copyOut : Bool)
  | spawnElf (elfSize capH flags : UInt64) (env : SpawnEnv)
  | wait (procH : UInt64)
  | getBootstrap
  | yield
  | plain (call : PlainCall) (result : Int)
  | undefined

def lookupChannel (tbl : HandleTable) (h required : UInt32) : Option ObjId :=
  match tbl.handleLookupFull h required with
  | none => none
  | some e => if e.kind = kindChannel then some e.object else none

/-- `handle_disown`, then `handle_close`, which therefore releases nothing. -/
def disownAndClose (tbl : HandleTable) (h : UInt32) : HandleTable :=
  match (tbl.handleDisown h).entryOf h with
  | none => tbl.handleDisown h
  | some (i, _) => (tbl.handleDisown h).clear i

namespace State

variable (s : State)

/-- `current_process`, and the access through it. -/
def withProc (f : ObjId → Process → State) : State :=
  match s.process s.cur with
  | none => s.ret (-EPERM)
  | some p =>
    match s.procs p with
    | none => s.fail .dangling
    | some P => f p P

/-- `lookup_channel`, and the access through its result. -/
def withChannel (P : Process) (h : UInt64) (required : UInt32) (f : ObjId → Channel → State) :
    State :=
  match lookupChannel P.handles h.toUInt32 required with
  | none => s.ret (-EBADF)
  | some x =>
    match s.chans x with
    | none => s.fail .dangling
    | some c => f x c

/-! ## Sending -/

section

variable (p : ObjId) (P : Process)

/-- The end of `sys_ipc_send_cap`: a TRANSFER takes the handle away. -/
def finishSend : Option Grant → State
  | none => s.ret 0
  | some g =>
    match g.action with
    | .duplicate => s.ret 0
    | .transfer => (s.setTable p P (disownAndClose P.handles g.handle)).ret 0

def sendPass (x : ObjId) (c : Channel) (msg : Nat → UInt8) (grant : Option Grant) : State :=
  let pass := channelSendCap c s.cur msg (grant.map Grant.cap)
  match pass.ret with
  | none => (s.setChan x pass.chan).block (.send x msg grant)
  | some _ => ((s.setChan x pass.chan).wake pass.wake).finishSend p P grant

def sysIpcSend (h len : UInt64) (msg : Option (Nat → UInt8)) : State :=
  s.withProc fun p P => s.withChannel P h rightWrite fun x c =>
    if len.toNat ≠ c.msgSize then s.ret (-EINVAL)
    else match msg with
      | none => s.ret (-EFAULT)
      | some m => s.sendPass p P x c m none

def sysIpcTrySend (h len : UInt64) (msg : Option (Nat → UInt8)) : State :=
  s.withProc fun _ P => s.withChannel P h rightWrite fun x c =>
    if len.toNat ≠ c.msgSize then s.ret (-EINVAL)
    else match msg with
      | none => s.ret (-EFAULT)
      | some m =>
        match (channelTrySend c m).ret with
        | some .full => s.ret (-EAGAIN)
        | _ => ((s.setChan x (channelTrySend c m).chan).wake (channelTrySend c m).wake).ret 0

/-- `IPC_CAP_TRANSFER` and `IPC_CAP_DUPLICATE`; any other code is refused. -/
def action? (a : UInt64) : Option Action :=
  if a = 1 then some .transfer else if a = 2 then some .duplicate else none

def sysIpcSendCap (h len : UInt64) (msg : Option (Nat → UInt8)) (capH action : UInt64) : State :=
  s.withProc fun p P => s.withChannel P h rightWrite fun x c =>
    if len.toNat ≠ c.msgSize then s.ret (-EINVAL)
    else match msg with
      | none => s.ret (-EFAULT)
      | some m =>
        if capH = noHandle then s.sendPass p P x c m none
        else match action? action with
          | none => s.ret (-EINVAL)
          | some act =>
            match P.handles.handleLookupFull capH.toUInt32 rightTransfer with
            | none => s.ret (-EPERM)
            | some e =>
              s.sendPass p P x c m (some ⟨capH.toUInt32, act, e.kind, e.rights, e.object⟩)

/-! ## Receiving -/

def install : Option Cap → State
  | none => s
  | some cap => s.setTable p P (P.handles.handleCreateEx cap.kind cap.rights cap.object cap.owns).1

/-- The part of a receive after a pass on the channel: park at `park`, fail, or
take the message. -/
def finishRecv (x : ObjId) (pass : Pass) (park : Ctl) (refusal : Int) (copyOut : Bool) : State :=
  match pass.ret with
  | none => (s.setChan x pass.chan).block park
  | some (.received item) =>
    (((s.setChan x pass.chan).wake pass.wake).install p P item.2).ret
      (if copyOut then pass.chan.msgSize else -EFAULT)
  | some .refused => s.ret (-refusal)
  | some _ => s.ret (-EAGAIN)

def recvPass (x : ObjId) (c : Channel) (copyOut : Bool) : State :=
  s.finishRecv p P x (sysIpcRecv c s.cur) (.recv x) EINVAL copyOut

def recvCapPass (x : ObjId) (c : Channel) (copyOut : Bool) : State :=
  s.finishRecv p P x (sysIpcRecvCap P.handles c s.cur) (.recvCap x) ENFILE copyOut

section

variable (h maxLen : UInt64)

/-- The argument checks every receive makes. -/
def withReceive (f : ObjId → Process → ObjId → Channel → State) : State :=
  s.withProc fun p P => s.withChannel P h rightRead fun x c =>
    if maxLen.toNat < c.msgSize then s.ret (-EINVAL) else f p P x c

def sysRecv (copyOut : Bool) : State :=
  s.withReceive h maxLen fun p P x c => s.recvPass p P x c copyOut

def sysTryRecv (copyOut : Bool) : State :=
  s.withReceive h maxLen fun p P x c =>
    s.finishRecv p P x (sysIpcTryRecv c) (.recv x) EINVAL copyOut

def sysRecvCap (copyOut : Bool) : State :=
  s.withReceive h maxLen fun p P x c => s.recvCapPass p P x c copyOut

def sysTryRecvCap (copyOut : Bool) : State :=
  s.withReceive h maxLen fun p P x c =>
    s.finishRecv p P x (sysIpcTryRecvCap P.handles c) (.recvCap x) ENFILE copyOut

end

/-! ## Handles and channels -/

def sysHandleCreate (kind rights object : UInt64) : State :=
  s.withProc fun p P =>
    match P.handles.handleCreate kind.toUInt32 rights.toUInt32 object.toNat with
    | (_, none) => s.ret (-EMFILE)
    | (tbl, some i) => (s.setTable p P tbl).ret i.val

def sysHandleClose (h : UInt64) : State :=
  s.withProc fun p P =>
    match P.handles.entryOf h.toUInt32 with
    | none => s.ret (-EBADF)
    | some (i, e) => (s.ret 0).closeEntry p i e [.close p i] []

def sysHandleQuery (h required : UInt64) : State :=
  s.withProc fun _ P =>
    match P.handles.handleLookupFull h.toUInt32 required.toUInt32 with
    | none => s.ret (-EPERM)
    | some _ => s.ret 1

/-- `sys_ipc_create`; the new channel is freed again if it gets no handle. -/
def sysIpcCreate (msgSize capacity : UInt64) (allocOk : Bool) : State :=
  s.withProc fun p P =>
    if msgSize = 0 ∨ ipcMsgSizeMax < msgSize then s.ret (-EINVAL)
    else if capacity = 0 ∨ ipcCapacityMax < capacity then s.ret (-EINVAL)
    else match channelCreate allocOk capacity.toNat msgSize.toNat with
      | none => s.ret (-ENOMEM)
      | some c =>
        match P.handles.handleCreate kindChannel chanRights s.nextObj with
        | (_, none) => s.ret (-EMFILE)
        | (tbl, some i) => ((s.setTable p P tbl).addChannel c).ret i.val

/-! ## Processes -/

/-- `process_spawn`: the new process with its READY main thread; the thread and
the process each hold a reference to the address space. -/
def processSpawn : State :=
  let q := s.nextObj
  let t := s.nextTid
  { s with
    procs := update s.procs q (some ⟨s.nextPid, 1, 0, false, none, .init, [], t⟩)
    procList := q :: s.procList
    spaces := update s.spaces q (some 2)
    sched := s.sched.threadCreate t
    ctl := update s.ctl t .fresh
    process := update s.process t (some q)
    nextPid := s.nextPid + 1
    nextObj := q + 1
    nextTid := t + 1 }

/-- The end of `spawn_with_elf`: hand the parent a handle on the child. -/
def holdChild (p q : ObjId) : State :=
  let s1 := s.processRef q
  match s1.procs p with
  | none => s1.fail .dangling
  | some P =>
    match P.handles.handleCreate kindProcess rightRead q with
    | (_, none) => ((s1.processUnref q).processUnref q).ret (-EMFILE)
    | (tbl, some i) =>
      ({ s1.setTable p P tbl with
          created := update s1.created q (some (kindProcess, rightRead)) }).ret i.val

def copyBootstrap (p q : ObjId) (e : HandleEntry) : State :=
  match s.procs q with
  | none => s.fail .dangling
  | some Q =>
    match Q.handles.handleCreateEx e.kind e.rights e.object false with
    | (_, none) => (s.processUnref q).ret (-EMFILE)
    | (tbl, some j) =>
      (s.setProc q { Q with handles := tbl, bootstrapHandle := some j }).holdChild p q

def spawnWithElf (capH : UInt64) (spawn : SpawnResult) : State :=
  let bootstrap := P.handles.handleLookupFull capH.toUInt32 rightTransfer
  if capH ≠ noHandle ∧ bootstrap = none then s.ret (-EPERM)
  else if !P.handles.handleTableHasFreeSlot then s.ret (-EMFILE)
  else match spawn with
    | .noProcess => s.ret (-ENOMEM)
    | .noThread => ({ s with nextPid := s.nextPid + 1 }).ret (-ENOMEM)
    | .spawned =>
      if capH = noHandle then s.processSpawn.holdChild p s.nextObj
      else match bootstrap with
        | none => (s.processSpawn.processUnref s.nextObj).ret (-EPERM)
        | some e => s.processSpawn.copyBootstrap p s.nextObj e

def sysSpawnElf (elfSize capH flags : UInt64) (env : SpawnEnv) : State :=
  s.withProc fun p P =>
    if flags ≠ 0 then s.ret (-EINVAL)
    else if elfSize = 0 ∨ spawnElfMax < elfSize then s.ret (-EINVAL)
    else match env.nameError with
      | some e => s.ret (-e)
      | none =>
        if !env.buffer then s.ret (-ENOMEM)
        else if !env.copied then s.ret (-EFAULT)
        else s.spawnWithElf p P capH env.spawn

def waitPass (q : ObjId) : State :=
  match s.procs q with
  | none => s.fail .dangling
  | some Q =>
    if Q.exited then s.ret Q.exitCode
    else (s.setProc q { Q with waiters := waitqPush Q.waiters s.cur }).block (.wait q)

def sysWait (procH : UInt64) : State :=
  s.withProc fun _ P =>
    match P.handles.handleLookupFull procH.toUInt32 rightRead with
    | none => s.ret (-EBADF)
    | some e => if e.kind ≠ kindProcess then s.ret (-EINVAL) else s.waitPass e.object

def sysGetBootstrap : State :=
  s.withProc fun _ P =>
    match P.bootstrapHandle with
    | none => s.ret (-ENOENT)
    | some i => s.ret i.val

/-- `process_exit`: the first call sets the code and unblocks every waiter. -/
def processExit (code : Int) : State :=
  if P.exited then s
  else
    (s.setProc p { P with exitCode := code, exited := true, waiters := [] }).setSched
      (P.waiters.foldl Sched.schedUnblock s.sched)

end

def threadExit : State := (s.goto .dead).schedule s.sched.threadExit

def sysExit (code : UInt64) : State :=
  match s.process s.cur with
  | none => s.threadExit
  | some p =>
    match s.procs p with
    | none => s.fail .dangling
    | some P => (s.processExit p P code.toUInt32.toBitVec.toInt).threadExit

/-! ## The system -/

def syscall : Syscall → State
  | .ping a0 => s.ret (0xDEADBEEFCAFE0000 ^^^ a0).toBitVec.toInt
  | .exit code => s.sysExit code
  | .handleCreate kind rights object => s.sysHandleCreate kind rights object
  | .handleClose h => s.sysHandleClose h
  | .handleQuery h required => s.sysHandleQuery h required
  | .getpid => s.withProc fun _ P => s.ret P.pid
  | .ipcCreate msgSize capacity allocOk => s.sysIpcCreate msgSize capacity allocOk
  | .ipcSend h len msg => s.sysIpcSend h len msg
  | .ipcTrySend h len msg => s.sysIpcTrySend h len msg
  | .ipcRecv h maxLen copyOut => s.sysRecv h maxLen copyOut
  | .ipcTryRecv h maxLen copyOut => s.sysTryRecv h maxLen copyOut
  | .ipcSendCap h len msg capH action => s.sysIpcSendCap h len msg capH action
  | .ipcRecvCap h maxLen copyOut => s.sysRecvCap h maxLen copyOut
  | .ipcTryRecvCap h maxLen copyOut => s.sysTryRecvCap h maxLen copyOut
  | .spawnElf elfSize capH flags env => s.sysSpawnElf elfSize capH flags env
  | .wait procH => s.sysWait procH
  | .getBootstrap => s.sysGetBootstrap
  | .yield => (s.ret 0).schedule s.sched.schedYield
  | .plain _ result => s.withProc fun _ _ => s.ret result
  | .undefined => s.ret (-ENOSYS)

def resume (copyOut : Bool) : Ctl → Option State
  | .send x msg grant => some (s.withProc fun p P =>
      match s.chans x with
      | none => s.fail .dangling
      | some c => s.sendPass p P x c msg grant)
  | .recv x => some (s.withProc fun p P =>
      match s.chans x with
      | none => s.fail .dangling
      | some c => s.recvPass p P x c copyOut)
  | .recvCap x => some (s.withProc fun p P =>
      match s.chans x with
      | none => s.fail .dangling
      | some c => s.recvCapPass p P x c copyOut)
  | .wait q => some (s.waitPass q)
  | _ => none

end State

/-- `unwind`: one step of the release in progress. `enter`: a fresh thread enters
ring 3. `spawnInit`: the boot thread calls `process_spawn_init`. `idle`: its idle
loop yields. -/
inductive Event where
  | unwind
  | enter
  | syscall (call : Syscall)
  | resume (copyOut : Bool)
  | timer
  | spawnInit
  | idle

/-- What the running thread does; nothing else happens while a release is in
progress or after a fault. -/
def State.step (s : State) (e : Event) : Option State :=
  if s.fault.isSome then none
  else match s.work, e with
    | f :: w, .unwind => some (s.unwind f w)
    | _ :: _, _ => none
    | [], .unwind => none
    | [], .resume copyOut => s.resume copyOut (s.ctl s.cur)
    | [], .enter =>
      match s.ctl s.cur with
      | .fresh => some (s.goto .user)
      | _ => none
    | [], .syscall call =>
      match s.ctl s.cur with
      | .user => some (s.syscall call)
      | _ => none
    | [], .timer =>
      match s.ctl s.cur with
      | .user | .idle => some s.timer
      | _ => none
    | [], .spawnInit =>
      match s.ctl s.cur with
      | .idle => some s.processSpawn
      | _ => none
    | [], .idle =>
      match s.ctl s.cur with
      | .idle => some (s.schedule s.sched.schedYield)
      | _ => none

def kernelSystem : System State Event where
  start s := s = State.boot
  step := State.step

end Exyde.Kernel
