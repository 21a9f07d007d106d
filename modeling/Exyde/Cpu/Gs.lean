import Exyde.Sched.Core

/-! # The GS-base protocol

`syscall_entry` relies on MSR_KERNEL_GS_BASE holding `&syscall_state` whenever a thread
runs in ring 3. The machine follows the instructions that touch the two MSRs
(`syscall.asm`, `enter_user.asm`) and the paths on which a thread loses the CPU; the
timer's stub (`isr_stubs.asm`) executes no `swapgs`. -/

namespace Exyde.Cpu.Gs

open Function Exyde Exyde.Lib Sched

/-! ## The machine -/

/-- Where a thread stands in the code that touches the GS bases. -/
inductive Pc where
  | ring3
  | sysEntry    -- `syscall_entry` after its first `swapgs`, interrupts off
  | inSyscall   -- inside `syscall_dispatch`, after `sti`
  | sysExit     -- after the `cli` that follows `syscall_dispatch`
  | trampoline  -- a new user thread, before `arch_enter_user_mode` loads GS
  | gsLoaded    -- after `mov gs, ax`
  | msrLoaded   -- after the `wrmsr`, before `iretq`
  | kernel      -- a kernel thread
  deriving DecidableEq, Repr

def Pc.interruptible : Pc → Bool
  | .sysEntry | .sysExit => false
  | _ => true

/-- `irq`: the thread was interrupted at `pc` and is still in the handler. -/
structure Ctx where
  pc : Pc
  irq : Bool
  deriving DecidableEq, Repr

structure Machine where
  gsBase : Nat
  kernelGsBase : Nat
  ctx : Tid → Ctx
  sched : Sched

/-- What can happen next: an instruction of the current thread, a call it
makes into the scheduler, or a timer interrupt. -/
inductive Event where
  | syscall
  | dispatch
  | block
  | yield
  | exit
  | fault
  | unblock (t : Tid)
  | spawn (t : Tid) (user : Bool)
  | leave
  | sysret
  | movGs
  | wrmsr
  | iretq
  | timer
  | irqRet
  deriving DecidableEq, Repr

namespace Machine

def cur (m : Machine) : Ctx := m.ctx m.sched.current

def goto (m : Machine) (c : Ctx) : Machine :=
  { m with ctx := update m.ctx m.sched.current c }

def swapgs (m : Machine) : Machine :=
  { m with gsBase := m.kernelGsBase, kernelGsBase := m.gsBase }

def resched (m : Machine) : Except Panic Sched → Option Machine
  | .ok s => some { m with sched := s }
  | .error _ => none

/-- The current thread is in kernel code that may call the scheduler. -/
def inKernel (m : Machine) : Bool :=
  !m.cur.irq && (m.cur.pc == .inSyscall || m.cur.pc == .kernel)

/-- One event; `S` is the address of `syscall_state`. -/
def step (S : Nat) (m : Machine) : Event → Option Machine
  | .syscall => if m.cur = ⟨.ring3, false⟩ then some (m.swapgs.goto ⟨.sysEntry, false⟩) else none
  | .dispatch => if m.cur = ⟨.sysEntry, false⟩ then some (m.goto ⟨.inSyscall, false⟩) else none
  | .block => if m.inKernel then m.resched m.sched.schedBlock else none
  | .yield => if m.inKernel then m.resched m.sched.schedYield else none
  | .exit => if m.inKernel then m.resched m.sched.threadExit else none
  | .fault =>
    -- an exception in ring 3 whose handler ends the thread
    if m.cur = ⟨.ring3, false⟩ then m.resched m.sched.threadExit else none
  | .unblock t => if m.inKernel then some { m with sched := m.sched.schedUnblock t } else none
  | .spawn t user =>
    if m.inKernel ∧ m.sched.state t = none then
      some { m with
        ctx := update m.ctx t ⟨if user then .trampoline else .kernel, false⟩
        sched := m.sched.threadCreate t }
    else none
  | .leave => if m.cur = ⟨.inSyscall, false⟩ then some (m.goto ⟨.sysExit, false⟩) else none
  | .sysret => if m.cur = ⟨.sysExit, false⟩ then some (m.swapgs.goto ⟨.ring3, false⟩) else none
  | .movGs =>
    if m.cur = ⟨.trampoline, false⟩ then some ({ m with gsBase := 0 }.goto ⟨.gsLoaded, false⟩)
    else none
  | .wrmsr =>
    if m.cur = ⟨.gsLoaded, false⟩ then
      some ({ m with kernelGsBase := S }.goto ⟨.msrLoaded, false⟩)
    else none
  | .iretq => if m.cur = ⟨.msrLoaded, false⟩ then some (m.goto ⟨.ring3, false⟩) else none
  | .timer =>
    -- `isr_common`, `irq_dispatch`, `timer_tick`, then `sched_preempt_point`
    if m.cur.irq = false ∧ m.cur.pc.interruptible then
      (m.goto ⟨m.cur.pc, true⟩).resched m.sched.schedTick.schedPreemptPoint
    else none
  | .irqRet => if m.cur.irq then some (m.goto ⟨m.cur.pc, false⟩) else none

end Machine

/-- After `syscall_arch_init`: only the boot thread, GS unswapped. -/
def boot (S : Nat) : Machine where
  gsBase := 0
  kernelGsBase := S
  ctx := fun _ => ⟨.kernel, false⟩
  sched := schedInit

def system (S : Nat) : System Machine Event where
  start m := m = boot S
  step := Machine.step S

/-! ## The protocol -/

/-- In ring 3 the pair is `(0, &syscall_state)`, and the stack pointer that
`syscall_entry` loads from `[gs:0]` is the one in `syscall_state`. -/
def GsInvariant (S : Nat) (m : Machine) : Prop :=
  (m.cur = ⟨.ring3, false⟩ → m.kernelGsBase = S ∧ m.gsBase = 0) ∧
    (m.cur = ⟨.sysEntry, false⟩ → m.gsBase = S)

/-- The two bases a thread standing at `pc` needs in order to go on. New user
threads load both, kernel threads use neither. -/
def Pc.Fits (S gs kgs : Nat) : Pc → Prop
  | .ring3 | .msrLoaded => gs = 0 ∧ kgs = S
  | .sysEntry | .inSyscall | .sysExit => gs = S ∧ kgs = 0
  | .gsLoaded => gs = 0
  | .trampoline | .kernel => True

instance (S gs kgs : Nat) : (pc : Pc) → Decidable (pc.Fits S gs kgs)
  | .ring3 | .msrLoaded | .sysEntry | .inSyscall | .sysExit =>
    inferInstanceAs (Decidable (_ ∧ _))
  | .gsLoaded => inferInstanceAs (Decidable (gs = 0))
  | .trampoline | .kernel => inferInstanceAs (Decidable True)

def switches (m : Machine) : Event → Bool
  | .block | .exit | .fault => true
  | .yield => m.sched.ready ≠ []
  | .timer => m.sched.schedTick.needResched
  | _ => false

/-- A switch hands the CPU only to a thread that was suspended in the swapgs
phase the CPU is in. -/
def SwitchFits (S : Nat) (m : Machine) (e : Event) : Prop :=
  switches m e = true → ∀ next, m.sched.ready.head? = some next →
    (m.ctx next).pc.Fits S m.gsBase m.kernelGsBase

instance (S : Nat) (m : Machine) (e : Event) : Decidable (SwitchFits S m e) :=
  match h : m.sched.ready.head? with
  | none => isTrue fun _ _ hn => by rw [h] at hn; cases hn
  | some next =>
    if hs : switches m e = true → (m.ctx next).pc.Fits S m.gsBase m.kernelGsBase then
      isTrue fun h1 n hn => by rw [h] at hn; cases hn; exact hs h1
    else isFalse fun h1 => hs fun h2 => h1 h2 next h

/-! ## Runs in which every switch fits -/

section

variable {S : Nat} {m m' : Machine} {e : Event}

/-- The invariant that carries the protocol: the bases fit the running thread. -/
def CurFits (S : Nat) (m : Machine) : Prop := m.cur.pc.Fits S m.gsBase m.kernelGsBase

@[simp] theorem goto_cur (m : Machine) (c : Ctx) : (m.goto c).cur = c := by
  simp [Machine.cur, Machine.goto]

@[simp] theorem goto_gsBase (m : Machine) (c : Ctx) : (m.goto c).gsBase = m.gsBase := rfl

@[simp] theorem goto_kernelGsBase (m : Machine) (c : Ctx) :
    (m.goto c).kernelGsBase = m.kernelGsBase := rfl

/-- A call into the scheduler keeps the bases; the thread that runs afterwards
fits if it is the old one or the head of the ready list fits. -/
theorem CurFits.resched {r : Except Panic Sched} (h : CurFits S m)
    (hr : m.resched r = some m')
    (hcur : ∀ s, r = .ok s → s.current = m.sched.current ∨
      (m.ctx s.current).pc.Fits S m.gsBase m.kernelGsBase) : CurFits S m' := by
  cases r with
  | error p => cases hr
  | ok s =>
    cases hr
    rcases hcur s rfl with he | hf
    · simpa only [CurFits, Machine.cur, he] using h
    · exact hf

/-- The three ways into `sched_schedule`, at a state of the scheduler with the
machine's ready list and current thread. -/
theorem CurFits.switch {s : Sched} (h : CurFits S m) (hrd : s.ready = m.sched.ready)
    (hc : s.current = m.sched.current)
    (hfit : ∀ next, m.sched.ready.head? = some next →
      (m.ctx next).pc.Fits S m.gsBase m.kernelGsBase)
    (hr : m.resched s.schedSchedule = some m') : CurFits S m' := by
  refine h.resched hr fun s' hs' => ?_
  rcases schedSchedule_current hs' with he | hn
  · exact Or.inl (he.trans hc)
  · exact Or.inr (hfit _ (hrd ▸ hn))

theorem curFits_timer (h : CurFits S m) (hok : SwitchFits S m .timer)
    (hs : Machine.step S m .timer = some m') : CurFits S m' := by
  obtain ⟨_, hs⟩ := Option.ite_none_right_eq_some.mp hs
  -- the handler keeps the interrupted position, so the bases still fit it
  have hg : CurFits S (m.goto ⟨m.cur.pc, true⟩) := by
    simpa [CurFits] using h
  refine hg.resched hs fun s' hs' => ?_
  rcases schedPreemptPoint_current hs' with he | ⟨hn, hh⟩
  · exact Or.inl (he.trans (schedTick_current _))
  · right
    rw [schedTick_ready] at hh
    have hf := hok hn _ hh
    by_cases hcur : s'.current = m.sched.current
    · rw [hcur] at hf ⊢
      simpa [Machine.goto, Machine.cur] using hf
    · simpa [Machine.goto, update_of_ne hcur] using hf

theorem step_curFits (h : CurFits S m) (hok : SwitchFits S m e)
    (hs : Machine.step S m e = some m') : CurFits S m' := by
  cases e with
  | timer => exact curFits_timer h hok hs
  | block =>
    simp only [Machine.step] at hs
    split at hs
    · exact h.switch (s := m.sched.setState m.sched.current .blocked) rfl rfl (hok rfl) hs
    · cases hs
  | exit | fault =>
    simp only [Machine.step] at hs
    split at hs
    · exact h.switch (s := { m.sched.setState m.sched.current .dead with
        zombies := m.sched.zombies ++ [m.sched.current] }) rfl rfl (hok rfl) hs
    · cases hs
  | yield =>
    simp only [Machine.step] at hs
    split at hs
    · refine h.resched hs fun s' hs' => ?_
      rcases schedYield_current hs' with he | ⟨hne, hh⟩
      · exact Or.inl he
      · exact Or.inr (hok (by simpa [switches] using hne) _ hh)
    · cases hs
  | unblock t =>
    simp only [Machine.step] at hs
    split at hs
    · cases hs
      simpa only [CurFits, Machine.cur, schedUnblock_current] using h
    · cases hs
  | spawn t user =>
    obtain ⟨_, hs⟩ := Option.ite_none_right_eq_some.mp hs
    cases hs
    simp only [CurFits, Machine.cur] at h ⊢
    by_cases ht : m.sched.current = t
    · cases user <;> simp [threadCreate, schedEnqueue, setState, ht, Pc.Fits]
    · simpa [threadCreate, schedEnqueue, setState,
        update_of_ne ht] using h
  | syscall | dispatch | leave | sysret | movGs | wrmsr | iretq =>
    obtain ⟨hc, hs⟩ := Option.ite_none_right_eq_some.mp hs
    cases hs
    simp_all [CurFits, Machine.swapgs, Machine.goto, Machine.cur, Pc.Fits]
  | irqRet =>
    simp only [Machine.step] at hs
    split at hs
    · cases hs
      simpa [CurFits] using h
    · cases hs

theorem reach_curFits (h : Reach (system S) (SwitchFits S) m) : CurFits S m := by
  refine h.invariant ?_ fun s e s' hi hok hs => step_curFits hi hok hs
  intro s heq
  subst heq
  exact trivial

/-- **The GS-base protocol, for runs in which every switch fits.** -/
theorem gsInvariant_of_switchFits (h : Reach (system S) (SwitchFits S) m) : GsInvariant S m := by
  have hf := reach_curFits h
  refine ⟨fun hc => ?_, fun hc => ?_⟩ <;> rw [CurFits, hc] at hf
  · exact ⟨hf.2, hf.1⟩
  · exact hf.1

theorem gsInvariant_after_yield : ∃ m : Machine, m.cur = ⟨.ring3, false⟩ ∧
    m.kernelGsBase = 0x200000 ∧ m.gsBase = 0 := by
  obtain ⟨m, hm, hcur⟩ : ∃ m ∈ (system 0x200000).runOk (SwitchFits 0x200000) (boot 0x200000)
      [.spawn 1 true, .yield, .movGs, .wrmsr, .iretq, .syscall, .dispatch, .yield, .yield, .leave,
        .sysret], m.cur = ⟨.ring3, false⟩ := by decide +kernel
  exact ⟨m, hcur, (gsInvariant_of_switchFits (Reach.runOk hm (.start rfl))).1 hcur⟩

/-! ## The condition is exact -/

/-- What a thread at `pc` executes until it is in ring 3. -/
def toRing3 : Pc → List Event
  | .ring3 | .kernel => []
  | .sysEntry => [.dispatch, .leave, .sysret]
  | .inSyscall => [.leave, .sysret]
  | .sysExit => [.sysret]
  | .trampoline => [.movGs, .wrmsr, .iretq]
  | .gsLoaded => [.wrmsr, .iretq]
  | .msrLoaded => [.iretq]

/-- A thread that runs on bases that do not fit it breaks the protocol by its
own next instructions, without any further switch. -/
theorem misfit_breaks (hirq : m.cur.irq = false) (h : ¬ CurFits S m) :
    ∃ m', (system S).run m (toRing3 m.cur.pc) = some m' ∧ ¬ GsInvariant S m' := by
  cases hcur : m.cur with
  | mk pc irq =>
    rw [CurFits, hcur] at h
    cases pc with
    | trampoline | kernel => exact absurd trivial h
    | ring3 | msrLoaded =>
      simp_all [toRing3, system, System.run, Machine.step, GsInvariant, Pc.Fits, Machine.goto,
        Machine.cur]
      exact fun hk hg => h hg hk
    | sysEntry | inSyscall | sysExit | gsLoaded =>
      simp_all [toRing3, system, System.run, Machine.step, GsInvariant, Pc.Fits, Machine.swapgs,
        Machine.goto, Machine.cur]

end

/-! ## A switch that does not fit -/

/-- Thread 1 is preempted in ring 3, thread 2 yields inside a system call, and
the idle loop hands the CPU back to thread 1, which returns from its interrupt
with the bases still swapped. -/
def lostGs : List Event :=
  [.spawn 1 true, .spawn 2 true, .yield, .movGs, .wrmsr, .iretq,
    .timer, .irqRet, .timer, .irqRet, .timer, .irqRet, .timer, .irqRet, .timer,
    .movGs, .wrmsr, .iretq, .syscall, .dispatch, .yield, .yield, .irqRet]

theorem gsInvariant_fails : ¬ ∀ m, Reachable (system 0x200000) m → GsInvariant 0x200000 m := by
  intro hall
  obtain ⟨m, hm, hcur, hk⟩ : ∃ m ∈ (system 0x200000).run (boot 0x200000) lostGs,
      m.cur = ⟨.ring3, false⟩ ∧ m.kernelGsBase = 0 := by decide +kernel
  have hbad := ((hall m (Reachable.run hm (.start rfl))).1 hcur).1
  rw [hk] at hbad
  cases hbad

end Exyde.Cpu.Gs
