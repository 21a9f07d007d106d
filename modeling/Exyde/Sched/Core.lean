import Mathlib.Tactic.Simps.Basic
import Exyde.Lib.Runs

/-! # The scheduler

`sched.c` with its two intrusive lists read as lists of threads. A thread is named by
the address of its `thread_t`; `state t = none` means that no thread lives there. What a
resumed thread does next belongs to the machines that embed the scheduler. -/

namespace Exyde

open Function

abbrev Tid := Nat

inductive ThreadState where
  | ready
  | running
  | blocked
  | dead
  deriving DecidableEq, Repr

/-- The panics of the kernel core that a scheduling or release path can hit. -/
inductive Panic where
  | noRunnableThread
  | destroySendersWaiting
  | destroyReceiversWaiting
  deriving DecidableEq, Repr

/-- The statically allocated boot thread, which becomes the idle loop. -/
def bootThread : Tid := 0

def quantumTicks : Nat := 5

structure Sched where
  state : Tid → Option ThreadState
  ticksUsed : Tid → Nat
  current : Tid
  ready : List Tid
  zombies : List Tid
  needResched : Bool

def schedInit : Sched where
  state := update (fun _ => none) bootThread (some .running)
  ticksUsed := fun _ => 0
  current := bootThread
  ready := []
  zombies := []
  needResched := false

namespace Sched

section

variable (s : Sched)

@[simps] def setState (t : Tid) (st : ThreadState) : Sched :=
  { s with state := update s.state t (some st) }

@[simps] def schedEnqueue (t : Tid) : Sched := { s with ready := s.ready ++ [t] }

/-- `thread_create`: the new thread is READY and last in the ready list. -/
def threadCreate (t : Tid) : Sched :=
  schedEnqueue { s.setState t .ready with ticksUsed := update s.ticksUsed t 0 } t

/-- `sched_schedule` up to `thread_switch`. The current thread goes to the
tail of the ready list if it is still RUNNING; with nothing to switch to it
keeps the CPU, or the kernel panics if it can not run on. -/
def schedSchedule : Except Panic Sched :=
  match s.ready with
  | [] =>
    if s.state s.current = some .running then .ok s else .error .noRunnableThread
  | next :: rest =>
    let s1 := { s with ready := rest }
    let s2 := if s.state s.current = some .running then
        (s1.setState s.current .ready).schedEnqueue s.current
      else s1
    .ok { s2.setState next .running with
      ticksUsed := update s2.ticksUsed next 0
      current := next }

def schedYield : Except Panic Sched :=
  if s.ready = [] then .ok s else s.schedSchedule

/-- `sched_tick`: every fifth tick of a thread asks for a switch, if some
other thread is ready. -/
def schedTick : Sched :=
  let n := s.ticksUsed s.current + 1
  if quantumTicks ≤ n then
    { s with
      ticksUsed := update s.ticksUsed s.current 0
      needResched := if s.ready = [] then s.needResched else true }
  else { s with ticksUsed := update s.ticksUsed s.current n }

def schedPreemptPoint : Except Panic Sched :=
  if s.needResched then schedSchedule { s with needResched := false } else .ok s

/-- `sched_block`; the caller has put the current thread on a wait queue. -/
def schedBlock : Except Panic Sched :=
  (s.setState s.current .blocked).schedSchedule

/-- `sched_unblock`: a no-op unless the thread is BLOCKED. -/
def schedUnblock (t : Tid) : Sched :=
  if s.state t = some .blocked then (s.setState t .ready).schedEnqueue t else s

/-- `thread_exit` up to the switch away from the dead thread. -/
def threadExit : Except Panic Sched :=
  ({ s.setState s.current .dead with zombies := s.zombies ++ [s.current] }).schedSchedule

/-! ## Who runs next -/

theorem schedSchedule_nil {s : Sched} (h : s.ready = []) : s.schedSchedule =
      if s.state s.current = some .running then .ok s else .error .noRunnableThread := by
  simp [schedSchedule, h]

theorem schedSchedule_current {s s' : Sched} (h : s.schedSchedule = .ok s') :
    s'.current = s.current ∨ s.ready.head? = some s'.current := by
  unfold schedSchedule at h
  split at h
  · split at h
    · cases h; exact Or.inl rfl
    · cases h
  next next rest hr => cases h; exact Or.inr (by rw [hr]; rfl)

theorem schedYield_current {s s' : Sched} (h : s.schedYield = .ok s') :
    s'.current = s.current ∨ (s.ready ≠ [] ∧ s.ready.head? = some s'.current) := by
  unfold schedYield at h
  split at h
  · cases h; exact Or.inl rfl
  next hne => exact (schedSchedule_current h).imp_right fun hh => ⟨hne, hh⟩

theorem schedTick_ready : s.schedTick.ready = s.ready := by
  simp only [schedTick]; split <;> rfl

theorem schedTick_current : s.schedTick.current = s.current := by
  simp only [schedTick]; split <;> rfl

theorem schedPreemptPoint_current {s s' : Sched} (h : s.schedPreemptPoint = .ok s') :
    s'.current = s.current ∨ (s.needResched = true ∧ s.ready.head? = some s'.current) := by
  unfold schedPreemptPoint at h
  split at h
  next hn => exact (schedSchedule_current h).imp_right fun hh => ⟨hn, hh⟩
  · cases h; exact Or.inl rfl

theorem schedUnblock_current (t : Tid) : (s.schedUnblock t).current = s.current := by
  unfold schedUnblock; split <;> rfl

end

end Sched

end Exyde
