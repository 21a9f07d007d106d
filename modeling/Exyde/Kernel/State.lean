import Mathlib.Tactic.Simps.Basic
import Exyde.Sched.Core
import Exyde.Ipc.Channel
import Exyde.Kernel.Authority

/-! # The kernel's objects

Processes, channels, threads and what a suspended thread will do when it runs again.
Addresses are never used twice; the use of a pointer to a freed object is the fault
`dangling`. The recursion of `handle_release`, `process_unref` and `process_destroy` is
a stack of activation records. -/

namespace Exyde.Kernel

open Function Exyde.Ipc

/-- `IPC_CAP_TRANSFER` and `IPC_CAP_DUPLICATE`. -/
inductive Action where
  | transfer
  | duplicate
  deriving DecidableEq, Repr

/-- The locals of `sys_ipc_send_cap` that describe the capability it sends. -/
structure Grant where
  handle : UInt32
  action : Action
  kind : UInt32
  rights : UInt32
  object : ObjId
  deriving DecidableEq, Repr

def Grant.cap (g : Grant) : Cap := ⟨g.kind, g.rights, g.object, g.action = .transfer⟩

/-- Where a thread goes on when it runs: in ring 3, at its first entry to ring 3,
in a blocking loop of a system call, or in the idle loop of the boot thread. -/
inductive Ctl where
  | idle
  | fresh
  | user
  | send (x : ObjId) (msg : Nat → UInt8) (grant : Option Grant)
  | recv (x : ObjId)
  | recvCap (x : ObjId)
  | wait (q : ObjId)
  | dead

def Ctl.isFresh : Ctl → Bool
  | .fresh => true
  | _ => false

def Ctl.isDead : Ctl → Bool
  | .dead => true
  | _ => false

/-- The channel of the operation the thread is inside. -/
def Ctl.channel? : Ctl → Option ObjId
  | .send x _ _ | .recv x | .recvCap x => some x
  | _ => none

/-- `process_t`; the address space has the name of the process. -/
structure Process where
  pid : Nat
  refcount : Nat
  exitCode : Int
  exited : Bool
  bootstrapHandle : Option (Fin handleMax)
  handles : HandleTable
  waiters : List Tid
  mainThread : Tid

/-- An activation record of a release in progress. `sweep p i`: in
`handle_table_destroy` of `p`, at entry `i`. `swept p i`: the same, to go on when
the release of entry `i` returns. `close p i`: in `handle_close` of entry `i`.
`reap`: in `reap_zombies`, with the thread `free_thread` is working on. -/
inductive Frame where
  | sweep (p : ObjId) (i : Nat)
  | swept (p : ObjId) (i : Fin handleMax)
  | close (p : ObjId) (i : Fin handleMax)
  | reap (dying : Option Tid) (rest : List Tid)
  deriving DecidableEq, Repr

/-- What ends a run. What a use of a freed object leads to (corruption, or a
panic of `exy_free`) is not modelled. -/
inductive Fault where
  | panic (p : Panic)
  | dangling
  deriving DecidableEq, Repr

/-- The kernel. `created` and `destroys` record what `sys_ipc_create` and
`sys_spawn_elf` made and what `channel_destroy` freed. -/
structure State where
  sched : Sched
  ctl : Tid → Ctl
  process : Tid → Option ObjId
  rax : Tid → Int
  procs : ObjId → Option Process
  procList : List ObjId
  chans : ObjId → Option Channel
  spaces : ObjId → Option Nat
  nextPid : Nat
  nextObj : ObjId
  nextTid : Tid
  work : List Frame
  fault : Option Fault
  created : ObjId → Option (UInt32 × UInt32)
  destroys : List ObjId

namespace State

/-- The boot thread in its idle loop, before `init` is spawned. -/
def boot : State where
  sched := schedInit
  ctl := fun _ => .idle
  process := fun _ => none
  rax := fun _ => 0
  procs := fun _ => none
  procList := []
  chans := fun _ => none
  spaces := fun _ => none
  nextPid := 1
  nextObj := 0
  nextTid := 1
  work := []
  fault := none
  created := fun _ => none
  destroys := []

variable (s : State)

@[simps]
def fail (f : Fault) : State := { s with fault := some f }

def cur : Tid := s.sched.current

@[simps]
def setProc (p : ObjId) (P : Process) : State :=
  { s with procs := update s.procs p (some P) }

@[simps]
def setChan (x : ObjId) (c : Channel) : State :=
  { s with chans := update s.chans x (some c) }

def setTable (p : ObjId) (P : Process) (tbl : HandleTable) : State :=
  s.setProc p { P with handles := tbl }

@[simps]
def setSched (sch : Sched) : State := { s with sched := sch }

@[simps]
def setWork (w : List Frame) : State := { s with work := w }

@[simps]
def goto (k : Ctl) : State := { s with ctl := update s.ctl s.cur k }

@[simps!]
def ret (r : Int) : State := { s.goto .user with rax := update s.rax s.cur r }

def addChannel (c : Channel) : State :=
  { s with
    chans := update s.chans s.nextObj (some c)
    created := update s.created s.nextObj (some (kindChannel, chanRights))
    nextObj := s.nextObj + 1 }

/-! ## Threads -/

/-- Go on with the result of a scheduler call. A thread that was switched away
inside `sched_schedule` frees the zombies when it is resumed; a fresh thread
starts in its trampoline and does not. The ready list never holds the current
thread, so a switch always changes it. -/
def schedule : Except Panic Sched → State
  | .error e => s.fail (.panic e)
  | .ok sch =>
    if sch.current = s.cur ∨ (s.ctl sch.current).isFresh then s.setSched sch
    else (s.setSched { sch with zombies := [] }).setWork [.reap none sch.zombies]

def block (k : Ctl) : State := (s.goto k).schedule s.sched.schedBlock

/-- `sched_unblock` on a thread popped from a wait queue. -/
def wake : Option Tid → State
  | none => s
  | some w => s.setSched (s.sched.schedUnblock w)

/-- The timer interrupt: `sched_tick`, then `sched_preempt_point`. -/
def timer : State := s.schedule s.sched.schedTick.schedPreemptPoint

/-! ## Releasing objects -/

def channelDestroy (x : ObjId) : Except Fault State :=
  match s.chans x with
  | none => .error .dangling
  | some c =>
    if c.senders ≠ [] then .error (.panic .destroySendersWaiting)
    else if c.receivers ≠ [] then .error (.panic .destroyReceiversWaiting)
    else .ok { s with chans := update s.chans x none, destroys := x :: s.destroys }

def processRef (q : ObjId) : State :=
  match s.procs q with
  | none => s.fail .dangling
  | some Q => s.setProc q { Q with refcount := Q.refcount + 1 }

/-- `process_unref`; the last reference starts `process_destroy`, which first
takes the process off the global list. -/
def processUnref (q : ObjId) : State :=
  match s.procs q with
  | none => s.fail .dangling
  | some Q =>
    if Q.refcount = 0 then s
    else if Q.refcount = 1 then
      { (s.setProc q { Q with refcount := 0 }).setWork (.sweep q 0 :: s.work) with
        procList := s.procList.erase q }
    else s.setProc q { Q with refcount := Q.refcount - 1 }

def spaceUnref (q : ObjId) : State :=
  match s.spaces q with
  | none => s.fail .dangling
  | some n =>
    if n = 0 then s
    else if n = 1 then { s with spaces := update s.spaces q none }
    else { s with spaces := update s.spaces q (some (n - 1)) }

def clearEntry (p : ObjId) (i : Fin handleMax) : State :=
  match s.procs p with
  | none => s.fail .dangling
  | some P => s.setTable p P (P.handles.clear i)

/-- Release the object of entry `i`, if the entry owns it, and clear the entry.
The frames in `waiting` come back after a nested `process_destroy`, those in
`next` go on after the entry is cleared. -/
def closeEntry (p : ObjId) (i : Fin handleMax) (e : HandleEntry) (waiting next : List Frame) :
    State :=
  if e.ownsObject = true ∧ e.kind = kindChannel then
    match s.channelDestroy e.object with
    | .error f => s.fail f
    | .ok s' => (s'.clearEntry p i).setWork next
  else if e.ownsObject = true ∧ e.kind = kindProcess then
    (s.setWork waiting).processUnref e.object
  else (s.clearEntry p i).setWork next

/-- `free_thread`, up to its `process_unref`. -/
def freeThread (t : Tid) : State :=
  match s.process t with
  | none => s
  | some p =>
    match s.procs p with
    | none => s.fail .dangling
    | some P => if P.mainThread = t then s.processUnref p else s

def freeThreadMem (t : Tid) : State :=
  let s' := match s.process t with
    | none => s
    | some q => s.spaceUnref q
  s'.setSched { s'.sched with state := update s'.sched.state t none }

def unwind : Frame → List Frame → State
  | .sweep p i, w =>
    match s.procs p with
    | none => s.fail .dangling
    | some P =>
      if h : i < handleMax then
        if (P.handles.entries ⟨i, h⟩).inUse then
          s.closeEntry p ⟨i, h⟩ (P.handles.entries ⟨i, h⟩) (.swept p ⟨i, h⟩ :: w)
            (.sweep p (i + 1) :: w)
        else s.setWork (.sweep p (i + 1) :: w)
      else { (s.spaceUnref p).setWork w with procs := update s.procs p none }
  | .swept p i, w => (s.clearEntry p i).setWork (.sweep p (i.val + 1) :: w)
  | .close p i, w => (s.clearEntry p i).setWork w
  | .reap none [], w => s.setWork w
  | .reap none (t :: rest), w => (s.setWork (.reap (some t) rest :: w)).freeThread t
  | .reap (some t) rest, w => (s.freeThreadMem t).setWork (.reap none rest :: w)

end State

end Exyde.Kernel
