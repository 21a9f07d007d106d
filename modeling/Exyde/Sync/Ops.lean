import Mathlib.Algebra.Ring.Nat
import Exyde.Sched.Core

/-! # The blocking primitives

`mutex.c`, `semaphore.c`, `condvar.c`, and the waiting loops of `channel.c`, `sys_wait`
and `process_exit`. What a pass asks of the wait queues and of the scheduler is an
action, so that the primitives are written once for every model of the queues. -/

namespace Exyde.Sync

open Function

/-- The wait queues: of a mutex, a condition variable and a semaphore, the two
of a channel, and the `waiters` of a process. -/
inductive Queue where
  | mutex (m : Nat)
  | cond (c : Nat)
  | sem (k : Nat)
  | senders (x : Nat)
  | receivers (x : Nat)
  | process (p : Nat)
  deriving DecidableEq, Repr

/-- Where a blocked thread goes on. `waiting`: in `cond_wait`, on the queue of
the condition variable; `relock`: in `cond_wait`, on the queue of the mutex. -/
inductive Point where
  | lock (m : Nat)
  | waiting (c m : Nat)
  | relock (m : Nat)
  | semWait (k : Nat)
  | send (x : Nat)
  | recv (x : Nat)
  | procWait (p : Nat)
  deriving DecidableEq, Repr

/-- The queue a thread is on while it is blocked at a point. -/
def Point.queue : Point → Queue
  | .lock m | .relock m => .mutex m
  | .waiting c _ => .cond c
  | .semWait k => .sem k
  | .send x => .senders x
  | .recv x => .receivers x
  | .procWait p => .process p

structure Mutex where
  locked : Bool
  owner : Option Tid
  deriving DecidableEq, Repr

/-- What the waiting loops of a channel look at. -/
structure Ring where
  count : Nat
  capacity : Nat
  deriving DecidableEq, Repr

/-- The primitives, without their queues. A semaphore is its `count`, a process
its flag `exited`. -/
structure Objects where
  mutex : Nat → Mutex
  sem : Nat → Int
  ring : Nat → Ring
  exited : Nat → Bool

inductive SyncPanic where
  | unlockUnlocked
  | unlockNonOwner
  deriving DecidableEq, Repr

/-- What the end of a pass does to the queues. `wake`: `waitq_pop` and
`sched_unblock`; `wakeAll`: the same until the queue is empty; `block`:
`waitq_push` and `sched_block`; `swap`: `waitq_push`, a `wake` of another queue,
and `sched_block`; `panic`: possibly after a `waitq_push`. -/
inductive Act where
  | proceed
  | wake (q : Queue)
  | wakeAll (q : Queue)
  | block (p : Point)
  | swap (p : Point) (q : Queue)
  | panic (pushed : Option Queue) (e : SyncPanic)
  deriving DecidableEq, Repr

/-- What a pass has achieved, for the record. -/
inductive Note where
  | nothing
  | acquired (m : Nat)
  | released (m : Nat)
  | took (k : Nat)
  | posted (k : Nat)
  deriving DecidableEq, Repr

structure Pass where
  objects : Objects
  act : Act
  note : Note

/-- The value an `int` holds. -/
def toInt32 (n : Int) : Int := n.bmod (2 ^ 32)

namespace Objects

variable (o : Objects)

def setMutex (m : Nat) (v : Mutex) : Objects := { o with mutex := update o.mutex m v }

def setSem (k : Nat) (v : Int) : Objects := { o with sem := update o.sem k (toInt32 v) }

def setCount (x : Nat) (n : Nat) : Objects :=
  { o with ring := update o.ring x ⟨n, (o.ring x).capacity⟩ }

/-- A pass of `mutex_lock_irqoff`; a thread that has to wait goes on at `again`. -/
def mutexLock (t : Tid) (m : Nat) (again : Point) : Pass :=
  if (o.mutex m).locked then ⟨o, .block again, .nothing⟩
  else ⟨o.setMutex m ⟨true, some t⟩, .proceed, .acquired m⟩

def mutexTrylock (t : Tid) (m : Nat) : Pass :=
  if (o.mutex m).locked then ⟨o, .proceed, .nothing⟩
  else ⟨o.setMutex m ⟨true, some t⟩, .proceed, .acquired m⟩

/-- `mutex_unlock_irqoff` up to `waitq_pop`. -/
def mutexUnlock (t : Tid) (m : Nat) : Except SyncPanic Objects :=
  if !(o.mutex m).locked then .error .unlockUnlocked
  else if (o.mutex m).owner ≠ some t then .error .unlockNonOwner
  else .ok (o.setMutex m ⟨false, none⟩)

/-- `cond_wait` up to its `sched_block`. -/
def condWait (t : Tid) (c m : Nat) : Pass :=
  match o.mutexUnlock t m with
  | .error e => ⟨o, .panic (some (.cond c)) e, .nothing⟩
  | .ok o' => ⟨o', .swap (.waiting c m) (.mutex m), .released m⟩

def semWait (k : Nat) : Pass :=
  if o.sem k ≤ 0 then ⟨o, .block (.semWait k), .nothing⟩
  else ⟨o.setSem k (o.sem k - 1), .proceed, .took k⟩

def semTrywait (k : Nat) : Pass :=
  if o.sem k ≤ 0 then ⟨o, .proceed, .nothing⟩ else ⟨o.setSem k (o.sem k - 1), .proceed, .took k⟩

def semPost (k : Nat) : Pass := ⟨o.setSem k (o.sem k + 1), .wake (.sem k), .posted k⟩

def put (x : Nat) : Pass := ⟨o.setCount x ((o.ring x).count + 1), .wake (.receivers x), .nothing⟩

def send (x : Nat) : Pass :=
  if (o.ring x).count = (o.ring x).capacity then ⟨o, .block (.send x), .nothing⟩ else o.put x

def trySend (x : Nat) : Pass :=
  if (o.ring x).count = (o.ring x).capacity then ⟨o, .proceed, .nothing⟩ else o.put x

/-- `channel_commit`, unless the message is refused and left where it is. -/
def take (x : Nat) (refuse : Bool) : Pass :=
  if refuse then ⟨o, .proceed, .nothing⟩
  else ⟨o.setCount x ((o.ring x).count - 1), .wake (.senders x), .nothing⟩

/-- A pass of a receive that starts with `channel_peek_blocking`. -/
def recv (x : Nat) (refuse : Bool) : Pass :=
  if (o.ring x).count = 0 then ⟨o, .block (.recv x), .nothing⟩ else o.take x refuse

def tryRecv (x : Nat) (refuse : Bool) : Pass :=
  if (o.ring x).count = 0 then ⟨o, .proceed, .nothing⟩ else o.take x refuse

def procWait (p : Nat) : Pass :=
  if o.exited p then ⟨o, .proceed, .nothing⟩ else ⟨o, .block (.procWait p), .nothing⟩

def procExit (p : Nat) : Pass :=
  if o.exited p then ⟨o, .proceed, .nothing⟩
  else ⟨{ o with exited := update o.exited p true }, .wakeAll (.process p), .nothing⟩

end Objects

inductive Call where
  | lock (m : Nat)
  | trylock (m : Nat)
  | unlock (m : Nat)
  | condWait (c m : Nat)
  | signal (c : Nat)
  | broadcast (c : Nat)
  | semWait (k : Nat)
  | semTrywait (k : Nat)
  | semPost (k : Nat)
  | send (x : Nat)
  | trySend (x : Nat)
  | recv (x : Nat)
  | tryRecv (x : Nat)
  | procWait (p : Nat)
  | procExit (p : Nat)
  deriving DecidableEq, Repr

/-- The first pass of a call; `refuse` says whether a receive turns down the
message it finds. -/
def Call.pass (o : Objects) (t : Tid) (refuse : Bool) : Call → Pass
  | .lock m => o.mutexLock t m (.lock m)
  | .trylock m => o.mutexTrylock t m
  | .unlock m =>
    match o.mutexUnlock t m with
    | .error e => ⟨o, .panic none e, .nothing⟩
    | .ok o' => ⟨o', .wake (.mutex m), .released m⟩
  | .condWait c m => o.condWait t c m
  | .signal c => ⟨o, .wake (.cond c), .nothing⟩
  | .broadcast c => ⟨o, .wakeAll (.cond c), .nothing⟩
  | .semWait k => o.semWait k
  | .semTrywait k => o.semTrywait k
  | .semPost k => o.semPost k
  | .send x => o.send x
  | .trySend x => o.trySend x
  | .recv x => o.recv x refuse
  | .tryRecv x => o.tryRecv x refuse
  | .procWait p => o.procWait p
  | .procExit p => o.procExit p

/-- The pass a thread runs when `sched_block` returns. -/
def Point.pass (o : Objects) (t : Tid) (refuse : Bool) : Point → Pass
  | .lock m => o.mutexLock t m (.lock m)
  | .waiting _ m | .relock m => o.mutexLock t m (.relock m)
  | .semWait k => o.semWait k
  | .send x => o.send x
  | .recv x => o.recv x refuse
  | .procWait p => o.procWait p

end Exyde.Sync
