import Exyde.Lib.Refcount
import Exyde.Kernel.Syscall

/-! # What the kernel state means

The authority a state confers, who holds references to processes and address spaces, and
how the primitive updates change these. -/

namespace Exyde.Kernel

open Function Exyde.Lib Exyde.Ipc State

def entryCap (e : HandleEntry) : Option Cap :=
  if e.inUse then some ⟨e.kind, e.rights, e.object, e.ownsObject⟩ else none

inductive Holder where
  | thread (t : Tid)
  | entry (p : ObjId) (i : Fin handleMax)
  deriving DecidableEq

inductive SpaceHolder where
  | process (p : ObjId)
  | thread (t : Tid)
  deriving DecidableEq

/-- The process a frame is destroying. -/
def Frame.sweeping? : Frame → Option ObjId
  | .sweep p _ | .swept p _ => some p
  | _ => none

/-- The process a frame is destroying, and how many entries of its table it has
cleared. -/
def Frame.progress? : Frame → Option (ObjId × Nat)
  | .sweep p i => some (p, i)
  | .swept p i => some (p, i.val)
  | _ => none

/-- The thread whose process reference `free_thread` has dropped. -/
def Frame.dying? : Frame → Option Tid
  | .reap d _ => d
  | _ => none

/-- The threads a frame will free. -/
def Frame.doomed : Frame → List Tid
  | .reap d rest => d.toList ++ rest
  | _ => []

namespace State

variable (s : State)

def capAt : Place → Option Cap
  | .entry p i => (s.procs p).bind fun P => entryCap (P.handles.entries i)
  | .slot x k => (s.chans x).bind fun c => (c.caps k).cap?

/-- The process has a main thread that has not exited. -/
def activeProc (p : ObjId) : Bool := (s.procs p).any fun P => !(s.ctl P.mainThread).isDead

def authority : Authority where
  cap := s.capAt
  live x := (s.chans x).isSome
  created := s.created
  active := s.activeProc
  inside t := (s.ctl t).channel?
  destroys := s.destroys

def procOf (p : ObjId) (i : Fin handleMax) : Option ObjId :=
  (s.capAt (.entry p i)).bind fun c => if c.kind = kindProcess then some c.object else none

/-- The entry's object has been released, the entry not yet cleared. -/
def clearing (p : ObjId) (i : Fin handleMax) : Prop := .swept p i ∈ s.work ∨ .close p i ∈ s.work
  deriving Decidable

def dying (t : Tid) : Prop := some t ∈ s.work.map Frame.dying?
  deriving Decidable

/-- A process is referred to by its main thread until that is freed, and by the
handles on it. -/
def procRefs : Refs ObjId Holder where
  count p := (s.procs p).map Process.refcount
  holds
    | .thread t => if (s.sched.state t).isSome ∧ ¬ s.dying t then s.process t else none
    | .entry p i => if s.clearing p i then none else s.procOf p i

/-- An address space is referred to by its process and by the thread in it. -/
def spaceRefs : Refs ObjId SpaceHolder where
  count := s.spaces
  holds
    | .process p => if (s.procs p).isSome then some p else none
    | .thread t => if (s.sched.state t).isSome then s.process t else none

/-- The threads that have exited and wait to be freed. -/
def doomed : List Tid := s.sched.zombies ++ s.work.flatMap Frame.doomed

end State

section

variable {s : State} {p x : ObjId} {P P' : Process} {c c' : Channel} {i : Fin handleMax}
  {e : HandleEntry}

/-! ## Capabilities -/

theorem capAt_setProc (hp : s.procs p = some P) (hh : P'.handles = P.handles) :
    (s.setProc p P').capAt = s.capAt := by
  funext pl
  cases pl with
  | slot x k => rfl
  | entry q j =>
    by_cases hq : q = p
    · subst hq; simp [capAt, setProc, hp, hh]
    · simp [capAt, setProc, update_of_ne hq]

theorem capAt_setProc_entry (hp : s.procs p = some P)
    (ht : P'.handles.entries = update P.handles.entries i e) :
    (s.setProc p P').capAt = update s.capAt (.entry p i) (entryCap e) := by
  funext pl
  cases pl with
  | slot x k => rfl
  | entry q j =>
    by_cases hq : q = p
    · subst hq
      by_cases hj : j = i
      · subst hj; simp [capAt, setProc, ht]
      · simp [capAt, setProc, ht, hp, hj]
    · simp [capAt, setProc, hq]

theorem capAt_setChan_same (hx : s.chans x = some c) (hc : c'.caps = c.caps) :
    (s.setChan x c').capAt = s.capAt := by
  funext pl
  cases pl with
  | entry q j => rfl
  | slot y k =>
    by_cases hy : y = x
    · subst hy; simp [capAt, setChan, hx, hc]
    · simp [capAt, setChan, hy]

theorem capAt_setChan {k : Nat} {cs : ChanCap} (hx : s.chans x = some c)
    (hc : c'.caps = update c.caps k cs) :
    (s.setChan x c').capAt = update s.capAt (.slot x k) cs.cap? := by
  funext pl
  cases pl with
  | entry q j => rfl
  | slot y j =>
    by_cases hy : y = x
    · subst hy
      by_cases hj : j = k
      · subst hj; simp [capAt, setChan, hc]
      · simp [capAt, setChan, hc, hx, hj]
    · simp [capAt, setChan, hy]

theorem capAt_entry (hp : s.procs p = some P) (he : P.handles.entries i = e)
    (hu : e.inUse = true) :
    s.capAt (.entry p i) = some ⟨e.kind, e.rights, e.object, e.ownsObject⟩ := by
  simp [capAt, hp, he, entryCap, hu]

theorem capAt_entry_none (hp : s.procs p = some P) (hu : (P.handles.entries i).inUse = false) :
    s.capAt (.entry p i) = none := by
  simp [capAt, hp, entryCap, hu]

/-! ## Authority -/

@[simp] theorem authority_schedule (r : Except Panic Sched) :
    (s.schedule r).authority = s.authority := by
  cases r with
  | error e => rfl
  | ok sch => simp only [schedule]; split <;> rfl

@[simp] theorem authority_wake (w : Option Tid) : (s.wake w).authority = s.authority := by
  cases w <;> rfl

theorem authority_goto {k : Ctl} (hcur : (s.ctl s.cur).isDead = false) (hk : k.isDead = false) :
    (s.goto k).authority =
      { s.authority with inside := update s.authority.inside s.cur k.channel? } := by
  have hactive : (s.goto k).activeProc = s.activeProc := by
    funext q
    simp only [activeProc, goto]
    congr 1
    funext Q
    by_cases hm : Q.mainThread = s.cur
    · rw [hm, update_self, hcur, hk]
    · rw [update_of_ne hm]
  have hinside : (fun t => ((s.goto k).ctl t).channel?) =
      update (fun t => (s.ctl t).channel?) s.cur k.channel? := by
    funext t
    by_cases ht : t = s.cur
    · subst ht; simp [goto]
    · simp [goto, update_of_ne ht]
  simp only [authority, hactive, hinside]
  rfl

theorem activeProc_setProc (hp : s.procs p = some P) (hm : P'.mainThread = P.mainThread) :
    (s.setProc p P').activeProc = s.activeProc := by
  funext q
  by_cases hq : q = p
  · subst hq; simp [activeProc, setProc, hp, hm]
  · simp [activeProc, setProc, hq]

theorem authority_setProc (hp : s.procs p = some P) (hm : P'.mainThread = P.mainThread)
    (hh : P'.handles = P.handles) : (s.setProc p P').authority = s.authority := by
  simp only [authority, capAt_setProc hp hh, activeProc_setProc hp hm]
  rfl

theorem authority_setProc_entry (hp : s.procs p = some P)
    (hm : P'.mainThread = P.mainThread)
    (ht : P'.handles.entries = update P.handles.entries i e) :
    (s.setProc p P').authority =
      { s.authority with cap := update s.authority.cap (.entry p i) (entryCap e) } := by
  simp only [authority, capAt_setProc_entry hp ht, activeProc_setProc hp hm]
  rfl

theorem live_setChan (hx : s.chans x = some c) :
    (fun y => ((s.setChan x c').chans y).isSome) = fun y => (s.chans y).isSome := by
  funext y
  by_cases hy : y = x
  · subst hy; simp [setChan, hx]
  · simp [setChan, hy]

theorem authority_setChan_same (hx : s.chans x = some c) (hc : c'.caps = c.caps) :
    (s.setChan x c').authority = s.authority := by
  simp only [authority, capAt_setChan_same hx hc, live_setChan hx]
  rfl

theorem authority_setChan {k : Nat} {cs : ChanCap} (hx : s.chans x = some c)
    (hc : c'.caps = update c.caps k cs) :
    (s.setChan x c').authority =
      { s.authority with cap := update s.authority.cap (.slot x k) cs.cap? } := by
  simp only [authority, capAt_setChan hx hc, live_setChan hx]
  rfl

end

end Exyde.Kernel
