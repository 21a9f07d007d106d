import Exyde.Kernel.Processes

/-! # The kernel on the CPU

What stops the kernel besides its own panics: a CPU exception in user mode, which goes to
the handler that a boot self-test has left in place; a return to an address that is not
canonical, which the CPU answers with a fault in ring 0; and a switch of threads inside
kernel code, where the heap is not ready for it. A process ends with `sys_exit` or with
an exception. Without exceptions its end is always observed. -/

namespace Exyde.Kernel

open Exyde.Lib Exyde.Ipc State

/-- The kernel; the address where each thread goes on in user mode; whether an
exception has panicked; and whether a thread has been switched away inside kernel
code, from where on nothing is known. -/
structure Machine where
  kernel : State
  rip : Tid → UInt64
  panicked : Bool
  cut : Bool

/-- A step of the kernel; user code that comes to a system call, behind which `rip`
is; a CPU exception in user mode; the timer in the middle of a step of the kernel,
which runs with interrupts on. -/
inductive MachineEvent where
  | kernel (e : Event)
  | user (rip : UInt64)
  | exception (vector : Fin 32)
  | preempt (e : Event)

def canonical (a : UInt64) : Bool := a < 0x800000000000 || 0xFFFF800000000000 ≤ a

/-- Where a thread starts that the step makes. -/
def Event.entry : Event → UInt64
  | .syscall (.spawnElf _ _ _ env) => env.entry
  | _ => userVaBase

def Ctl.isUser : Ctl → Bool
  | .user => true
  | _ => false

def State.InUser (s : State) : Prop := s.fault = none ∧ s.work = [] ∧ (s.ctl s.cur).isUser = true
  deriving Decidable

/-- `user_fault_handler`, which does not return to `isr_dispatch`. -/
def Machine.userFaultHandler (u : Machine) (intNo : Fin 32) : Machine :=
  if intNo = 3 then { u with kernel := u.kernel.threadExit } else { u with panicked := true }

/-- The machine when step `e` of the kernel has led to `s`. On the way back to user
mode `iretq` and `sysret` fault in ring 0 if the address is not canonical. -/
def Machine.after (u : Machine) (e : Event) (s : State) : Machine :=
  let rip := Function.update u.rip u.kernel.nextTid e.entry
  { u with
    kernel := s
    rip := rip
    panicked := (s.ctl u.kernel.cur).isUser && !canonical (rip u.kernel.cur) }

/-- `isr_dispatch` on an exception from user mode, and the rest of the kernel. -/
def Machine.step (u : Machine) (e : MachineEvent) : Option Machine :=
  if u.panicked || u.cut then none
  else match e with
    | .kernel e => (u.kernel.step e).map (u.after e)
    | .user rip =>
      if u.kernel.InUser then some { u with rip := Function.update u.rip u.kernel.cur rip } else none
    | .exception vector => if u.kernel.InUser then some (u.userFaultHandler vector) else none
    | .preempt e => (u.kernel.step e).map fun _ => { u with cut := true }

def Machine.boot : Machine := ⟨State.boot, fun _ => userVaBase, false, false⟩

def machineSystem : System Machine MachineEvent where
  start u := u = .boot
  step := Machine.step

def MachineEvent.ends : MachineEvent → Bool
  | .kernel (.syscall (.exit _)) => true
  | .exception _ => true
  | _ => false

/-- No exception in user mode, no switch inside kernel code, and only canonical
addresses to return to; no forged handle, and no channel destroyed that somebody
else can reach. -/
def Calm (u : Machine) : MachineEvent → Prop
  | .kernel e => (NoForge e ∧ ReleasesAlone u.kernel e) ∧ canonical e.entry = true
  | .user rip => canonical rip = true
  | .exception _ | .preempt _ => False

instance (u : Machine) (e : MachineEvent) : Decidable (Calm u e) := by
  unfold Calm
  split <;> infer_instance

/-- After the step from `s` to `u` the end of process `p` is observed, and nothing
else has stopped. -/
structure DeathObserved (s : State) (u : Machine) (p : ObjId) (P : Process) : Prop where
  exited : ∃ P', u.kernel.procs p = some P' ∧ P'.exited = true ∧ P'.waiters = []
  woken : ∀ t, t ∈ P.waiters → u.kernel.sched.Runnable t
  others : ∀ t, t ≠ P.mainThread →
    u.kernel.ctl t = s.ctl t ∧ (s.sched.Runnable t → u.kernel.sched.Runnable t)
  going : u.panicked = false ∧ u.kernel.fault = none

section

variable {s s' : State} {u u' : Machine} {p : ObjId} {P : Process} {Q : Cap → Prop}

theorem schedule_ok (s : State) (sch : Sched) :
    (s.schedule (.ok sch)).procs = s.procs ∧ (s.schedule (.ok sch)).ctl = s.ctl ∧
      (s.schedule (.ok sch)).sched.state = sch.state := by
  simp only [schedule]
  split <;> exact ⟨rfl, rfl, rfl⟩

theorem threadExit_threads (hb : Base Q s) (hc : s.cur ≠ bootThread) :
    s.threadExit.procs = s.procs ∧ ∀ t, t ≠ s.cur →
      s.threadExit.ctl t = s.ctl t ∧ (s.sched.Runnable t → s.threadExit.sched.Runnable t) := by
  obtain ⟨sch', hs, -⟩ := Sched.threadExit_switched hb.sched hc
  obtain ⟨hprocs, hctl, hstate⟩ := schedule_ok (s.goto .dead) sch'
  rw [threadExit, hs]
  refine ⟨hprocs, fun t ht => ⟨?_, fun hrun => ?_⟩⟩
  · rw [hctl]
    exact Function.update_of_ne ht ..
  · rw [Sched.Runnable, hstate]
    exact hrun.threadExit ht hs

/-- What a calm machine keeps. -/
structure Undisrupted (u : Machine) : Prop where
  going : u.panicked = false ∧ u.cut = false
  canonical : ∀ t, canonical (u.rip t) = true
  kernel : Reach kernelSystem (fun s e => NoForge e ∧ ReleasesAlone s e) u.kernel

theorem Undisrupted.after (h : Undisrupted u) {e : Event} (hok : Calm u (.kernel e))
    (hs : u.kernel.step e = some s) : Undisrupted (u.after e s) := by
  have hrip : ∀ t, Kernel.canonical ((u.after e s).rip t) = true := by
    intro t
    simp only [Machine.after, Function.update_apply]
    split
    · exact hok.2
    · exact h.canonical t
  exact ⟨⟨by simpa [Machine.after] using fun _ => hrip u.kernel.cur, h.going.2⟩, hrip,
    .step h.kernel hok.1 hs⟩

def childStrays : List Event :=
  startInit ++ [.syscall (.spawnElf 64 noHandle 0 { spawnOk with entry := 0x800000000000 }),
    .syscall .yield, .unwind, .idle, .enter]

/-- So does an image whose entry lies in the hole of the address space. -/
theorem stray_entry_panics :
    ∃ u, Reachable machineSystem u ∧ u.kernel.fault = none ∧ u.panicked = true := by
  obtain ⟨u, hu, hpanic⟩ : ∃ u ∈ machineSystem.run .boot (childStrays.map .kernel),
      u.kernel.fault = none ∧ u.panicked = true := by decide +kernel
  exact ⟨u, Reachable.run hu (.start rfl), hpanic⟩

theorem State.InUser.ctl (h : s.InUser) : s.ctl s.cur = .user := by
  have hu := h.2.2
  cases hk : s.ctl s.cur with
  | user => rfl
  | _ => rw [hk] at hu; cases hu

theorem State.InUser.step (h : s.InUser) (call : Syscall) :
    s.step (.syscall call) = some (s.syscall call) := by
  simp [State.step, h.1, h.2.1, h.ctl]

/-- No exception is observed as the end of the process that raises it. -/
theorem exception_unobserved {vector : Fin 32} (hP : u.kernel.procs p = some P)
    (he : P.exited = false) (hb : Base Q u.kernel)
    (hs : u.step (.exception vector) = some u') : ¬ DeathObserved u.kernel u' p P := by
  intro hobs
  unfold Machine.step at hs
  split at hs
  · cases hs
  obtain ⟨huser, hs⟩ := Option.ite_none_right_eq_some.mp hs
  cases hs
  unfold Machine.userFaultHandler at hobs
  split at hobs
  · obtain ⟨P', hP', hexited, -⟩ := hobs.exited
    have hc := hb.cur_ne_boot (by rw [huser.ctl]; simp)
    rw [(threadExit_threads hb hc).1, hP] at hP'
    cases hP'
    rw [he] at hexited
    cases hexited
  · cases hobs.going.1

end

end Exyde.Kernel
