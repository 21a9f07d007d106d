import Exyde.Sched.Partition
import Exyde.Sync.System

/-! # One CPU

The thread that has the CPU runs a pass of a primitive, yields, exits, creates a thread,
or is interrupted by the timer. `thread_create` does not turn interrupts off, so a timer
interrupt can come between two writes of its `sched_enqueue`. -/

namespace Exyde.Sync

open Function Exyde.Lib

inductive KernelPanic where
  | sched (e : Panic)
  | sync (e : SyncPanic)
  deriving DecidableEq, Repr

/-- Where a thread goes on when it gets the CPU. `fresh`: at `thread_trampoline`;
`blocked`: at the return of `sched_block`; `enqueue`: inside `sched_enqueue`, the
given writes still to be made. All but a fresh thread come out of
`thread_switch` and reap first. -/
inductive Ctl where
  | fresh
  | run
  | blocked (p : Point)
  | enqueue (ws : List EnqWrite)
  deriving DecidableEq, Repr

/-- `created`: all threads there ever were. -/
structure Machine where
  links : Linked Queue
  objects : Objects
  ctl : Tid → Ctl
  created : List Tid
  panic : Option KernelPanic

/-- What the thread on the CPU does. `create t cut`: `thread_create` finds memory
at `t`; with `cut = some k` a timer interrupt comes after `k` writes of
`sched_enqueue`. -/
inductive MachineEvent where
  | call (c : Call) (refuse : Bool)
  | resume (refuse : Bool)
  | start
  | yield
  | timer
  | exit
  | create (t : Tid) (cut : Option Nat)
  | finish
  deriving DecidableEq, Repr

namespace Machine

variable (m : Machine)

abbrev cur : Tid := m.links.current

/-- `sched_schedule` from the pointers `l`, with the reaping on the other side of
`thread_switch`. -/
def schedSchedule (l : Linked Queue) : Machine :=
  match l.schedSchedule with
  | .error e => { m with links := l, panic := some (.sched e) }
  | .ok l' =>
    -- without a thread to switch to it returns before `thread_switch`
    if l.ready.head = none ∨ m.ctl l'.current = .fresh then { m with links := l' }
    else { m with links := l'.reapZombies }

def schedYield : Machine :=
  if m.links.ready.head = none then m else m.schedSchedule m.links

def schedPreemptPoint : Machine :=
  if m.links.needResched then m.schedSchedule { m.links with needResched := false } else m

def timer : Machine := schedPreemptPoint { m with links := m.links.schedTick }

def schedBlock : Machine := m.schedSchedule (m.links.setState m.cur .blocked)

def threadExit : Machine :=
  m.schedSchedule ((m.links.setState m.cur .dead).zombiePush m.cur)

def threadCreate (t : Tid) : Option Nat → Machine
  | none =>
    { m with
      links := m.links.threadCreate t
      ctl := update m.ctl t .fresh
      created := t :: m.created }
  | some k =>
    let l := m.links.threadAlloc t
    let ws := l.enqueueWrites t
    timer
      { m with
        links := l.writes (ws.take k)
        ctl := update (update m.ctl t .fresh) m.cur (.enqueue (ws.drop k))
        created := t :: m.created }

def goesOn (a : Act) : Ctl :=
  match a.point? with
  | some p => .blocked p
  | none => .run

def act (m : Machine) : Act → Machine
  | .proceed => m
  | .wake q => { m with links := m.links.wake q }
  | .wakeAll q => { m with links := m.links.wakeAll q }
  | .block p => schedBlock { m with links := m.links.waitqPush p.queue m.cur }
  | .swap p q => schedBlock { m with links := (m.links.waitqPush p.queue m.cur).wake q }
  | .panic none e => { m with panic := some (.sync e) }
  | .panic (some q) e => { m with links := m.links.waitqPush q m.cur, panic := some (.sync e) }

def perform (p : Pass) : Machine :=
  act { m with objects := p.objects, ctl := update m.ctl m.cur (goesOn p.act) } p.act

def step (e : MachineEvent) : Option Machine :=
  if m.panic.isSome then none
  else
    match e, m.ctl m.cur with
    | .call c refuse, .run => some (m.perform (c.pass m.objects m.cur refuse))
    | .resume refuse, .blocked p => some (m.perform (p.pass m.objects m.cur refuse))
    | .start, .fresh => some { m with ctl := update m.ctl m.cur .run }
    | .yield, .run => some m.schedYield
    | .timer, .run => some m.timer
    | .exit, .run => some m.threadExit
    | .create t cut, .run => if m.links.state t = none then some (m.threadCreate t cut) else none
    | .finish, .enqueue ws =>
      some { m with links := m.links.writes ws, ctl := update m.ctl m.cur .run }
    | _, _ => none

def init (o : Objects) : Machine where
  links := .init
  objects := o
  ctl := fun _ => .run
  created := [bootThread]
  panic := none

end Machine

def machineSystem : System Machine MachineEvent where
  start m := ∃ o, m = Machine.init o
  step := Machine.step

/-- No timer interrupt comes while `thread_create` is in `sched_enqueue`. -/
def Uncut (_ : Machine) : MachineEvent → Prop
  | .create _ cut => cut = none
  | _ => True

instance (m : Machine) (e : MachineEvent) : Decidable (Uncut m e) := by
  cases e <;> simp only [Uncut] <;> infer_instance

/-! ## What a step does to the threads -/

/-- The thread objects `zs` are freed, none of them on the CPU. -/
structure Frees (l l' : Linked Queue) (zs : List Tid) : Prop where
  freed : l'.freed = l.freed ++ zs
  threads : (zs ++ l'.threads).Perm l.threads
  other : ∀ z, z ∈ zs → z ≠ l'.current

def Running (l : Linked Queue) : Prop :=
  ∃ sch qs, Good l sch qs ∧ sch.state sch.current = some .running

/-- A piece of kernel code ends with the current thread running and `qs` on the
wait queues, and nobody is gone who was alive. -/
structure Leaves (l l' : Linked Queue) (qs : Queue → List Tid) : Prop where
  runs : ∃ sch, Good l' sch qs ∧ sch.state sch.current = some .running
  alive : ∀ t, l.Alive t → l'.Alive t

theorem Leaves.running {l l' : Linked Queue} {qs : Queue → List Tid} (h : Leaves l l' qs) : Running l' := by
  obtain ⟨sch, hgood, hrun⟩ := h.runs
  exact ⟨sch, qs, hgood, hrun⟩

/-- From the pointers `l` the code of `m` ends in `m'`, with `qs` on the wait queues. -/
structure Does (m : Machine) (l : Linked Queue) (m' : Machine) (qs : Queue → List Tid) : Prop where
  created : m'.created = m.created
  frees : ∃ zs, Frees l m'.links zs
  leaves : m'.panic = none → Leaves l m'.links qs

/-- A thread is created, or some are freed. -/
inductive Accounts (m m' : Machine) : Prop
  | freed (zs : List Tid) : Frees m.links m'.links zs → m'.created = m.created → Accounts m m'
  | created (t : Tid) : t ∉ m.links.threads → m'.links.threads = t :: m.links.threads →
      m'.links.freed = m.links.freed → m'.created = t :: m.created → Accounts m m'

structure Keeps (m m' : Machine) : Prop where
  running : m'.panic = none → Running m'.links
  accounts : Accounts m m'

section

variable {l l' : Linked Queue} {m m' : Machine} {sch : Sched} {qs : Queue → List Tid} {q : Queue}
  {e : MachineEvent}

theorem Frees.nobody (hf : l'.freed = l.freed) (ht : l'.threads = l.threads) : Frees l l' [] :=
  ⟨by simpa using hf, by rw [List.nil_append, ht], by simp⟩

theorem Frees.congr {l1 : Linked Queue} {zs : List Tid} (h : Frees l1 l' zs) (hf : l1.freed = l.freed)
    (ht : l1.threads = l.threads) : Frees l l' zs :=
  ⟨hf ▸ h.freed, ht ▸ h.threads, h.other⟩

theorem Does.keeps (h : Does m m.links m' qs) : Keeps m m' := by
  obtain ⟨zs, hz⟩ := h.frees
  exact ⟨fun hp => (h.leaves hp).running, .freed zs hz h.created⟩

theorem Keeps.quiet (hrun : Running m'.links) (hl : m'.links = m.links) (hc : m'.created = m.created) :
    Keeps m m' :=
  ⟨fun _ => hrun, .freed [] (.nobody (by rw [hl]) (by rw [hl])) hc⟩

/-- **A switch.** Everybody is in place on the other side, and the thread that
has the CPU there is not among those it frees. -/
theorem schedSchedule_does (h : Good l sch qs) : Does m l (m.schedSchedule l) qs := by
  unfold Machine.schedSchedule
  cases hl : l.schedSchedule with
  | error e => exact ⟨rfl, ⟨[], .nobody rfl rfl⟩, nofun⟩
  | ok l' =>
    obtain ⟨sch', hgood, hrun, hz, hfreed, hthreads⟩ := h.schedule hl
    have halive : ∀ t, l.Alive t → l'.Alive t := by
      intro t ht
      rw [hgood.alive, hthreads, hz]
      exact h.alive.mp ht
    simp only
    split
    · exact ⟨rfl, ⟨[], .nobody hfreed hthreads⟩, fun _ => ⟨⟨sch', hgood, hrun⟩, halive⟩⟩
    obtain ⟨hreap, hout, hperm⟩ := hgood.reap
    have hcur : sch'.current ∉ sch'.zombies :=
      (hgood.places.off (by simp [hrun]) (by simp [hrun])).2
    refine ⟨rfl, ⟨sch'.zombies, ⟨hout.trans (by rw [hfreed]), hperm.trans (by rw [hthreads]), ?_⟩⟩,
      fun _ => ⟨⟨_, hreap, ?_⟩, fun t ht => hreap.alive.mpr ⟨(hreap.threads t).mpr ?_, by simp [Sched.reaped]⟩⟩⟩
    · intro z hmem heq
      rw [hreap.rep.current] at heq
      exact hcur (heq ▸ hmem)
    · simp only [Sched.reaped, if_neg hcur, hrun]
    · obtain ⟨hmem, hnz⟩ := hgood.alive.mp (halive t ht)
      simpa [Sched.reaped, hnz] using (hgood.threads t).mp hmem

theorem schedYield_keeps (h : Running m.links) : Keeps m m.schedYield := by
  unfold Machine.schedYield
  split
  · exact .quiet h rfl rfl
  · obtain ⟨sch, qs, hgood, -⟩ := h
    exact (schedSchedule_does hgood).keeps

theorem schedTick_same (l : Linked Queue) : l.schedTick.freed = l.freed ∧ l.schedTick.threads = l.threads ∧
    l.schedTick.state = l.state := by
  unfold Linked.schedTick
  simp only
  split <;> exact ⟨rfl, rfl, rfl⟩

theorem timer_does (h : Good m.links sch qs) (hrun : sch.state sch.current = some .running) :
    Does m m.links m.timer qs := by
  obtain ⟨hf, ht, hstate⟩ := schedTick_same m.links
  have htick : ∀ t, m.links.Alive t → m.links.schedTick.Alive t := by
    intro t ht
    rw [Linked.Alive, hstate]
    exact ht
  unfold Machine.timer Machine.schedPreemptPoint
  split
  · have hd := schedSchedule_does (m := { m with links := m.links.schedTick }) h.tick.clearResched
    refine ⟨hd.created, hd.frees.imp fun zs hz => hz.congr hf ht, fun hp => ?_⟩
    exact ⟨(hd.leaves hp).runs, fun t ht => (hd.leaves hp).alive t (htick t ht)⟩
  · refine ⟨rfl, ⟨[], .nobody hf ht⟩, fun _ => ⟨⟨_, h.tick, ?_⟩, htick⟩⟩
    simp only [Sched.schedTick]
    split <;> exact hrun

theorem threadExit_keeps (h : Running m.links) : Keeps m m.threadExit := by
  obtain ⟨sch, qs, hgood, hrun⟩ := h
  have hd := schedSchedule_does (m := m) (hgood.exit hrun)
  obtain ⟨zs, hz⟩ := hd.frees
  exact ⟨fun hp => (hd.leaves hp).running, .freed zs (hz.congr rfl rfl) hd.created⟩

theorem threadCreate_keeps (h : Running m.links) {t : Tid} (ht : m.links.state t = none) :
    Keeps m (m.threadCreate t none) := by
  obtain ⟨sch, qs, hgood, hrun⟩ := h
  have hnone : sch.state t = none := by rw [← hgood.rep.state]; exact ht
  have hcur : sch.current ≠ t := by
    intro heq
    rw [heq, hnone] at hrun
    cases hrun
  refine ⟨fun _ => ⟨_, qs, hgood.create ht, ?_⟩, .created t ?_ ?_ ?_ rfl⟩
  · simp [Sched.threadCreate, hcur, hrun]
  · intro hmem
    exact (hgood.threads t).mp hmem hnone
  · exact schedEnqueue_threads.1
  · exact schedEnqueue_threads.2

/-! ### Passes -/

/-- `cond_wait` is the only pass that pushes onto one queue and pops another. -/
def Act.Apart : Act → Prop
  | .swap p q => q ≠ p.queue
  | _ => True

theorem condWait_apart (o : Objects) (t : Tid) (c mx : Nat) : (o.condWait t c mx).act.Apart := by
  unfold Objects.condWait
  split
  · trivial
  · exact fun heq => nomatch heq

theorem Call.pass_apart (o : Objects) (t : Tid) (refuse : Bool) (c : Call) :
    (c.pass o t refuse).act.Apart := by
  cases c with
  | condWait c mx => exact condWait_apart o t c mx
  | _ =>
    simp only [Call.pass, Objects.mutexLock, Objects.mutexTrylock, Objects.semWait, Objects.semTrywait,
      Objects.semPost, Objects.send, Objects.trySend, Objects.put, Objects.recv, Objects.tryRecv,
      Objects.take, Objects.procWait, Objects.procExit]
    repeat' split
    all_goals trivial

theorem Point.pass_apart (o : Objects) (t : Tid) (refuse : Bool) (p : Point) :
    (p.pass o t refuse).act.Apart := by
  cases p <;>
    simp only [Point.pass, Objects.mutexLock, Objects.semWait, Objects.send, Objects.put, Objects.recv,
      Objects.take, Objects.procWait] <;>
    repeat' split
  all_goals trivial

/-- The thread that `cond_wait` blocks is the one that has the CPU. -/
theorem act_swap (m : Machine) (p : Point) (q : Queue) : m.act (.swap p q) =
      Machine.schedSchedule { m with links := (m.links.waitqPush p.queue m.cur).wake q }
        (((m.links.waitqPush p.queue m.cur).wake q).setState m.cur .blocked) :=
  congrArg (fun t => Machine.schedSchedule _ (Linked.setState _ t .blocked)) (wake_current q)

theorem wake_queue (w : Waiters Queue Tid) (q : Queue) :
    (w.wake q).queue = update w.queue q (w.queue q).tail := by
  cases hq : w.queue q with
  | nil => rw [Waiters.wake_of_nil hq, List.tail_nil, ← hq, update_eq_self]
  | cons t rest => simp [Waiters.wake, hq]

/-- **An action does to the pointers what it does to the queues.** -/
theorem act_does {w : Waiters Queue Tid} (h : Good m.links sch w.queue)
    (hrun : sch.state sch.current = some .running) {a : Act} (ha : a.Apart) :
    Does m m.links (m.act a) (a.apply m.cur w).queue := by
  have hcur : m.cur = sch.current := h.rep.current
  cases a with
  | proceed => exact ⟨rfl, ⟨[], .nobody rfl rfl⟩, fun _ => ⟨⟨sch, h, hrun⟩, fun _ ht => ht⟩⟩
  | wake q =>
    obtain ⟨hthreads, hfreed⟩ := wake_threads (l := m.links) q
    refine ⟨rfl, ⟨[], .nobody hfreed hthreads⟩,
      fun _ => ⟨⟨_, wake_queue w q ▸ h.wake q, ?_⟩, fun _ ht => ht.wake q⟩⟩
    cases (w.queue q).head? with
    | none => exact hrun
    | some t => exact Sched.schedUnblock_running hrun
  | wakeAll q =>
    obtain ⟨hall, hthreads, hfreed⟩ := h.wakeAll q
    exact ⟨rfl, ⟨[], .nobody hfreed hthreads⟩, fun _ =>
      ⟨⟨_, hall, Sched.foldl_schedUnblock_running hrun (w.queue q)⟩, fun _ ht => ht.wakeAll q⟩⟩
  | block p =>
    have hpush := h.push hrun p.queue
    rw [← hcur] at hpush
    have hd := schedSchedule_does (m := { m with links := m.links.waitqPush p.queue m.cur }) hpush
    refine ⟨hd.created, hd.frees.imp fun zs hz => hz.congr rfl rfl, fun hp => ?_⟩
    exact ⟨(hd.leaves hp).runs, fun t ht => (hd.leaves hp).alive t (Linked.Alive.setState ht (by simp))⟩
  | swap p q =>
    obtain ⟨sch', hswap⟩ := h.swap hrun ha
    obtain ⟨hthreads, hfreed⟩ := wake_threads (l := m.links.waitqPush p.queue m.cur) q
    rw [act_swap]
    rw [← hcur] at hswap
    have hd := schedSchedule_does (m := { m with links := (m.links.waitqPush p.queue m.cur).wake q }) hswap
    refine ⟨hd.created, hd.frees.imp fun zs hz => hz.congr hfreed hthreads, fun hp => ⟨?_, fun t ht => ?_⟩⟩
    · have hother : (w.park m.cur p.queue).queue q = w.queue q := update_of_ne ha ..
      rw [Act.apply, wake_queue, hother]
      exact (hd.leaves hp).runs
    · have hpushed : (m.links.waitqPush p.queue m.cur).Alive t := ht
      exact (hd.leaves hp).alive t ((hpushed.wake q).setState (by simp))
  | panic pushed e => cases pushed <;> exact ⟨rfl, ⟨[], .nobody rfl rfl⟩, fun hp => by cases hp⟩

theorem perform_keeps (h : Running m.links) {p : Pass} (ha : p.act.Apart) : Keeps m (m.perform p) := by
  obtain ⟨sch, qs, hgood, hrun⟩ := h
  have hd := act_does (m := ⟨m.links, p.objects, update m.ctl m.cur (Machine.goesOn p.act),
    m.created, m.panic⟩) (w := ⟨fun _ => none, qs, []⟩) hgood hrun ha
  exact Does.keeps { hd with }

/-! ### Runs -/

/-- Nobody has been interrupted inside `sched_enqueue`. -/
def Whole (m : Machine) : Prop := ∀ t ws, m.ctl t ≠ .enqueue ws

theorem schedSchedule_ctl (m : Machine) (l : Linked Queue) : (m.schedSchedule l).ctl = m.ctl := by
  unfold Machine.schedSchedule
  split
  · rfl
  · split <;> rfl

theorem act_ctl (m : Machine) (a : Act) : (m.act a).ctl = m.ctl := by
  cases a with
  | block p | swap p q => exact schedSchedule_ctl ..
  | proceed | wake q | wakeAll q => rfl
  | panic pushed e => cases pushed <;> rfl

theorem Whole.set (h : Whole m) {t : Tid} {c : Ctl} (hc : ∀ ws, c ≠ .enqueue ws)
    (hm : m'.ctl = update m.ctl t c) : Whole m' := by
  intro u ws
  rw [hm]
  by_cases hu : u = t
  · subst hu; simpa using hc ws
  · simpa [hu] using h u ws

theorem Whole.same (h : Whole m) (hm : m'.ctl = m.ctl) : Whole m' := by
  intro u ws
  rw [hm]
  exact h u ws

theorem Whole.perform (h : Whole m) (p : Pass) : Whole (m.perform p) := by
  refine h.set (c := Machine.goesOn p.act) (t := m.cur) ?_ (act_ctl ..)
  intro ws
  unfold Machine.goesOn
  split <;> simp

theorem Whole.timer (h : Whole m) : Whole m.timer := by
  refine h.same ?_
  unfold Machine.timer Machine.schedPreemptPoint
  split
  · exact schedSchedule_ctl ..
  · rfl

theorem step_panic (hs : m.step e = some m') : m.panic = none := by
  unfold Machine.step at hs
  split at hs
  · cases hs
  next hp => simpa using hp

/-- **A step keeps everybody in place**, unless it is cut. -/
theorem step_keeps (h : Running m.links) (hw : Whole m) (hok : Uncut m e)
    (hs : m.step e = some m') : Keeps m m' ∧ Whole m' := by
  unfold Machine.step at hs
  split at hs
  · cases hs
  split at hs
  · cases hs; exact ⟨perform_keeps h (Call.pass_apart ..), hw.perform _⟩
  · cases hs; exact ⟨perform_keeps h (Point.pass_apart ..), hw.perform _⟩
  · cases hs; exact ⟨.quiet h rfl rfl, hw.set (by simp) rfl⟩
  · cases hs
    refine ⟨schedYield_keeps h, hw.same ?_⟩
    unfold Machine.schedYield
    split
    · rfl
    · exact schedSchedule_ctl ..
  · cases hs
    obtain ⟨sch, qs, hgood, hrun⟩ := h
    exact ⟨(timer_does hgood hrun).keeps, hw.timer⟩
  · cases hs; exact ⟨threadExit_keeps h, hw.same (schedSchedule_ctl ..)⟩
  next t cut _ =>
    split at hs
    next ht =>
      cases hs
      have hcut : cut = none := hok
      subst hcut
      exact ⟨threadCreate_keeps h ht, hw.set (by simp) rfl⟩
    · cases hs
  next ws hc => exact absurd hc (hw m.cur ws)
  · cases hs

/-- The threads created are those freed and those that exist, each once. -/
def Ledger (m : Machine) : Prop := m.created.Perm (m.links.freed ++ m.links.threads)

theorem Ledger.step (h : Ledger m) (ha : Accounts m m') : Ledger m' := by
  unfold Ledger at h ⊢
  cases ha with
  | freed zs hz hc =>
    rw [hc, hz.freed, List.append_assoc]
    exact h.trans (hz.threads.symm.append_left _)
  | created t _ hthreads hfreed hc =>
    rw [hc, hthreads, hfreed]
    exact (h.cons t).trans List.perm_middle.symm

theorem init_good : Good (.init : Linked Queue) schedInit fun _ => [] := by
  refine ⟨⟨rfl, rfl, rfl, rfl, .empty, rfl, .empty, ?_, fun _ => .empty, ?_⟩,
    fun t => ?_, fun t => ?_, List.nodup_singleton _⟩
  · exact List.disjoint_nil_left _
  · exact fun _ _ _ => List.disjoint_nil_left _
  · by_cases ht : t = bootThread
    · subst ht; refine ⟨fun _ => rfl, ?_, ?_, ?_⟩ <;> simp [schedInit]
    · refine ⟨?_, ?_, ?_, ?_⟩ <;> simp [schedInit, ht]
  · by_cases ht : t = bootThread
    · subst ht; simp [Linked.init, schedInit]
    · simp [Linked.init, schedInit, ht]

theorem reach_running (h : Reach machineSystem Uncut m) :
    (m.panic = none → Running m.links) ∧ Whole m ∧ Ledger m := by
  refine h.invariant (I := fun m => (m.panic = none → Running m.links) ∧ Whole m ∧ Ledger m) ?_ ?_
  · intro m ⟨o, hm⟩
    subst hm
    exact ⟨fun _ => ⟨schedInit, _, init_good, rfl⟩, fun t ws => by simp [Machine.init], List.Perm.refl _⟩
  · intro m e m' ⟨hrun, hw, hl⟩ hok hs
    obtain ⟨hk, hw'⟩ := step_keeps (hrun (step_panic hs)) hw hok hs
    exact ⟨hk.running, hw', hl.step hk.accounts⟩

end

/-! ## Every thread is in one place -/

/-- The threads freed by a step existed until then, each is freed once, and none
has the CPU. -/
def FreesOthers (m m' : Machine) : Prop :=
  ∃ zs, m'.links.freed = m.links.freed ++ zs ∧ zs.Nodup ∧
    ∀ z, z ∈ zs → z ∈ m.links.threads ∧ z ∉ m'.links.threads ∧ z ≠ m'.links.current

theorem Accounts.freesOthers {m m' : Machine} (h : Accounts m m') (hnodup : m.links.threads.Nodup) :
    FreesOthers m m' := by
  cases h with
  | freed zs hz _ =>
    have happ := (hz.threads.nodup_iff).mpr hnodup
    refine ⟨zs, hz.freed, (List.nodup_append.mp happ).1, fun z hmem => ⟨?_, ?_, hz.other z hmem⟩⟩
    · exact hz.threads.subset (List.mem_append_left _ hmem)
    · exact fun hm => List.disjoint_of_nodup_append happ hmem hm
  | created t _ _ hfreed _ => exact ⟨[], by simpa using hfreed, List.nodup_nil, by simp⟩

/-- **The scheduler's partition.** As long as no timer interrupt comes inside
`sched_enqueue`, every thread is in one place in every state the machine reaches,
the threads created are those freed and those that exist, and no step frees the
thread on the CPU. -/
theorem threads_partitioned {m : Machine} (h : Reach machineSystem Uncut m) (hp : m.panic = none) :
    (∃ ls, Partition m.links ls) ∧ m.created.Perm (m.links.freed ++ m.links.threads) ∧
      ∀ e m', Uncut m e → m.step e = some m' → FreesOthers m m' := by
  obtain ⟨hrun, hw, hledger⟩ := reach_running h
  obtain ⟨sch, qs, hgood, hcur⟩ := hrun hp
  refine ⟨⟨_, hgood.partition hcur⟩, hledger, fun e m' hok hs => ?_⟩
  exact (step_keeps ⟨sch, qs, hgood, hcur⟩ hw hok hs).1.accounts.freesOthers hgood.threads_nodup

def idleObjects : Objects := ⟨fun _ => ⟨false, none⟩, fun _ => 0, fun _ => ⟨0, 1⟩, fun _ => false⟩

/-- Thread 1 waits for a semaphore, thread 2 exits, and the boot thread frees it. -/
theorem threads_partitioned_reaped :
    ∃ m, Reach machineSystem Uncut m ∧ m.panic = none ∧ m.links.freed = [2] ∧
      m.links.state 1 = some .blocked ∧ (∃ ls, Partition m.links ls) ∧
      m.created.Perm (m.links.freed ++ m.links.threads) := by
  obtain ⟨m, hm, hp, hfreed, hstate⟩ : ∃ m ∈ machineSystem.runOk Uncut (.init idleObjects)
      [.create 1 none, .create 2 none, .yield, .start, .call (.semWait 0) false, .start, .exit],
      m.panic = none ∧ m.links.freed = [2] ∧ m.links.state 1 = some .blocked := by decide +kernel
  have hreach := Reach.runOk hm (.start ⟨idleObjects, rfl⟩)
  obtain ⟨hpart, hledger, -⟩ := threads_partitioned hreach hp
  exact ⟨m, hreach, hp, hfreed, hstate, hpart, hledger⟩

/-- The boot thread creates thread 1 and then thread 2. At the fifth tick of its
quantum it has linked thread 2 to the tail and not yet moved the tail. Thread 1
gets the CPU, the boot thread is linked behind it, and the list is thread 2 alone
while its tail says the boot thread. -/
theorem threads_lost :
    ∃ m, Reachable machineSystem m ∧ m.panic = none ∧ m.links.state bootThread = some .ready ∧
      ¬ ∃ ls, Partition m.links ls := by
  obtain ⟨m, hm, hp, hstate, hhead, htail, hnext⟩ : ∃ m ∈ machineSystem.run (.init idleObjects)
      [.create 1 none, .timer, .timer, .timer, .timer, .create 2 (some 2)],
      m.panic = none ∧ m.links.state bootThread = some .ready ∧ m.links.ready.head = some 2 ∧
        m.links.ready.tail = some bootThread ∧ m.links.next 2 = none := by decide +kernel
  refine ⟨m, Reachable.run hm (.start ⟨idleObjects, rfl⟩), hp, hstate, fun ⟨ls, hpart⟩ => ?_⟩
  have hchain := hpart.ready.chain
  have hlast := hpart.ready.tail
  rw [hhead] at hchain
  rw [htail] at hlast
  cases hls : ls.ready with
  | nil => rw [hls] at hchain; cases hchain
  | cons a rest =>
    rw [hls] at hchain hlast
    obtain ⟨ha, hrest⟩ := hchain
    cases ha
    rw [hnext] at hrest
    cases rest with
    | nil => cases hlast
    | cons b rest => cases hrest.1

end Exyde.Sync
