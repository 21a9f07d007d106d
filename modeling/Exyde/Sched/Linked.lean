import Exyde.Lib.Fifo
import Exyde.Sched.Core

/-! # The scheduler's lists

`sched.c`, `thread_create` and `waitq.h` with their pointers: the ready list and the
zombie list are linked through `next`, all wait queues through `wait_next`. Every
function does to the pointers what its counterpart does to the lists, as long as nobody
is put on two lists that share a link. -/

namespace Exyde

open Function Exyde.Lib List

/-- `threads`: the thread objects that exist. `freed`: those given to `exy_free`,
in order. -/
structure Linked (κ : Type) where
  threads : List Tid
  freed : List Tid
  state : Tid → Option ThreadState
  ticksUsed : Tid → Nat
  next : Tid → Option Tid
  waitNext : Tid → Option Tid
  current : Tid
  ready : Fifo Tid
  readyCount : Nat
  zombie : Fifo Tid
  needResched : Bool
  queue : κ → Fifo Tid

inductive EnqWrite where
  | clearNext (t : Tid)
  | linkTail (t : Tid)
  | setTail (t : Tid)
  | setHead (t : Tid)
  | count
  deriving DecidableEq, Repr

namespace Linked

variable {κ : Type} (l : Linked κ)

def init : Linked κ where
  threads := [bootThread]
  freed := []
  state := update (fun _ => none) bootThread (some .running)
  ticksUsed := fun _ => 0
  next := fun _ => none
  waitNext := fun _ => none
  current := bootThread
  ready := .empty
  readyCount := 0
  zombie := .empty
  needResched := false
  queue := fun _ => .empty

section

variable (t : Tid)

def setState (st : ThreadState) : Linked κ :=
  { l with state := update l.state t (some st) }

def write : EnqWrite → Linked κ
  | .clearNext t => { l with next := update l.next t none }
  | .linkTail t =>
    match l.ready.tail with
    | some u => { l with next := update l.next u (some t) }
    | none => l
  | .setTail t => { l with ready := ⟨l.ready.head, some t⟩ }
  | .setHead t => { l with ready := ⟨some t, l.ready.tail⟩ }
  | .count => { l with readyCount := l.readyCount + 1 }

/-- What `sched_enqueue` writes, by the test of `ready_tail` it makes. -/
def enqueueWrites : List EnqWrite :=
  match l.ready.tail with
  | some _ => [.clearNext t, .linkTail t, .setTail t, .count]
  | none => [.clearNext t, .setTail t, .setHead t, .count]

def writes (ws : List EnqWrite) : Linked κ := ws.foldl write l

def schedEnqueue : Linked κ := l.writes (l.enqueueWrites t)

def readyDequeue : Option Tid × Linked κ :=
  match l.ready.head with
  | none => (none, l)
  | some t =>
    (some t,
      { l with
        ready := l.ready.pop l.next t
        next := update l.next t none
        readyCount := l.readyCount - 1 })

def zombiePush : Linked κ :=
  { l with next := l.zombie.pushLink l.next t, zombie := l.zombie.push t }

/-- `free_thread`, as far as the thread itself goes. -/
def freeThread : Linked κ :=
  { l with
    state := update l.state t none
    threads := l.threads.erase t
    freed := l.freed ++ [t] }

/-- The loop of `reap_zombies`. -/
def reapFrom (l : Linked κ) : Nat → Option Tid → Linked κ
  | 0, _ | _, none => l
  | n + 1, some z =>
    reapFrom (freeThread { l with next := update l.next z none } z) n (l.next z)

/-- `reap_zombies`; there are no more turns than threads. -/
def reapZombies : Linked κ :=
  reapFrom { l with zombie := .empty } l.threads.length l.zombie.head

def schedSchedule : Except Panic (Linked κ) :=
  match l.readyDequeue with
  | (none, _) =>
    if l.state l.current = some .running then .ok l else .error .noRunnableThread
  | (some next, l1) =>
    let l2 := if l.state l.current = some .running then
        (l1.setState l.current .ready).schedEnqueue l.current
      else l1
    .ok { l2.setState next .running with
      ticksUsed := update l2.ticksUsed next 0
      current := next }

def schedTick : Linked κ :=
  let n := l.ticksUsed l.current + 1
  if quantumTicks ≤ n then
    { l with
      ticksUsed := update l.ticksUsed l.current 0
      needResched := if l.ready.head = none then l.needResched else true }
  else { l with ticksUsed := update l.ticksUsed l.current n }

def schedUnblock : Linked κ :=
  if l.state t = some .blocked then (l.setState t .ready).schedEnqueue t else l

/-- `thread_create` up to `sched_enqueue`: a new object, READY. -/
def threadAlloc : Linked κ :=
  { l.setState t .ready with
    threads := t :: l.threads
    ticksUsed := update l.ticksUsed t 0
    next := update l.next t none
    waitNext := update l.waitNext t none }

def threadCreate : Linked κ := (l.threadAlloc t).schedEnqueue t

def waitqPush [DecidableEq κ] (q : κ) (t : Tid) : Linked κ :=
  { l with
    waitNext := (l.queue q).pushLink l.waitNext t
    queue := update l.queue q ((l.queue q).push t) }

def waitqPop [DecidableEq κ] (q : κ) : Option Tid × Linked κ :=
  match (l.queue q).head with
  | none => (none, l)
  | some t =>
    (some t,
      { l with
        queue := update l.queue q ((l.queue q).pop l.waitNext t)
        waitNext := update l.waitNext t none })

/-- `waitq_pop`, and `sched_unblock` if it finds somebody. -/
def wake [DecidableEq κ] (q : κ) : Linked κ :=
  match l.waitqPop q with
  | (none, _) => l
  | (some t, l1) => l1.schedUnblock t

/-- The loop of `cond_broadcast` and `process_exit`. -/
def wakeAllFrom [DecidableEq κ] (l : Linked κ) (q : κ) : Nat → Linked κ
  | 0 => l
  | n + 1 => wakeAllFrom (l.wake q) q n

/-- There are no more turns than threads; further turns find the queue empty. -/
def wakeAll [DecidableEq κ] (q : κ) : Linked κ := l.wakeAllFrom q l.threads.length

theorem schedEnqueue_eq : l.schedEnqueue t =
      { l with
        next := l.ready.pushLink l.next t
        ready := l.ready.push t
        readyCount := l.readyCount + 1 } := by
  cases h : l.ready.tail <;>
    simp [schedEnqueue, writes, enqueueWrites, write, Fifo.push, Fifo.pushLink, h]

end

end Linked

/-! ## The lists behind the pointers -/

/-- The pointers of `l` stand for the lists of `sch` and `qs`. -/
structure Rep {κ : Type} (l : Linked κ) (sch : Sched) (qs : κ → List Tid) : Prop where
  state : l.state = sch.state
  ticks : l.ticksUsed = sch.ticksUsed
  current : l.current = sch.current
  needResched : l.needResched = sch.needResched
  ready : l.ready.Holds l.next sch.ready
  count : l.readyCount = sch.ready.length
  zombies : l.zombie.Holds l.next sch.zombies
  apart : List.Disjoint sch.ready sch.zombies
  queues : ∀ q, (l.queue q).Holds l.waitNext (qs q)
  queues_apart : ∀ q q', q ≠ q' → List.Disjoint (qs q) (qs q')

/-- Both end in related states, or in the same panic. -/
inductive Agree {κ : Type} (qs : κ → List Tid) : Except Panic (Linked κ) → Except Panic Sched → Prop
  | ok {l : Linked κ} {sch : Sched} : Rep l sch qs → Agree qs (.ok l) (.ok sch)
  | error (e : Panic) : Agree qs (.error e) (.error e)

section

variable {κ : Type} {l : Linked κ} {sch : Sched} {qs : κ → List Tid} {t : Tid} {q : κ}
  {rest : List Tid}

theorem Rep.setState (h : Rep l sch qs) (t : Tid) (st : ThreadState) :
    Rep (l.setState t st) (sch.setState t st) qs :=
  { h with state := by simp only [Linked.setState, Sched.setState, h.state] }

theorem Rep.schedEnqueue (h : Rep l sch qs) (hr : t ∉ sch.ready) (hz : t ∉ sch.zombies) :
    Rep (l.schedEnqueue t) (sch.schedEnqueue t) qs := by
  rw [Linked.schedEnqueue_eq]
  exact
    { h with
      ready := h.ready.push hr
      count := by simp [h.count]
      zombies := h.zombies.frame_push h.ready (disjoint_symm h.apart) hz
      apart := by
        simp only [Sched.schedEnqueue, disjoint_append_left]
        exact ⟨h.apart, singleton_disjoint.mpr hz⟩ }

theorem Rep.zombiePush (h : Rep l sch qs) (hr : t ∉ sch.ready) (hz : t ∉ sch.zombies) :
    Rep (l.zombiePush t) { sch with zombies := sch.zombies ++ [t] } qs :=
  { h with
    ready := h.ready.frame_push h.zombies h.apart hr
    zombies := h.zombies.push hz
    apart := disjoint_append_right.mpr ⟨h.apart, disjoint_singleton.mpr hr⟩ }

theorem Rep.readyDequeue {next : Tid} (h : Rep l sch qs)
    (hr : sch.ready = next :: rest) :
    ∃ l1, l.readyDequeue = (some next, l1) ∧ Rep l1 { sch with ready := rest } qs := by
  have hold := h.ready
  rw [hr] at hold
  have hhead : l.ready.head = some next := hold.head
  have hnz : next ∉ sch.zombies := h.apart (by rw [hr]; exact mem_cons_self ..)
  simp only [Linked.readyDequeue, hhead]
  refine ⟨_, rfl, ?_⟩
  exact
    { h with
      ready := hold.pop
      count := by simp [h.count, hr]
      zombies := h.zombies.frame hnz none
      apart := fun t ht => h.apart (by rw [hr]; exact mem_cons_of_mem _ ht) }

/-- **`sched_schedule` does to the pointers what it does to the lists.** -/
theorem Rep.schedSchedule (h : Rep l sch qs)
    (hcur : sch.state sch.current = some .running → sch.current ∉ sch.ready ∧ sch.current ∉ sch.zombies) :
    Agree qs l.schedSchedule sch.schedSchedule := by
  cases hr : sch.ready with
  | nil =>
    have hhead : l.ready.head = none := by rw [h.ready.head, hr]; rfl
    simp only [Linked.schedSchedule, Linked.readyDequeue, hhead, Sched.schedSchedule_nil hr, h.state,
      h.current]
    split
    · exact .ok h
    · exact .error _
  | cons next rest =>
    obtain ⟨l1, hpair, hrep⟩ := h.readyDequeue hr
    simp only [Linked.schedSchedule, Sched.schedSchedule, hpair, hr, h.state, h.current]
    -- the thread that is switched to becomes RUNNING on both sides
    have hland : ∀ {l2 : Linked κ} {s2 : Sched}, Rep l2 s2 qs →
        Rep { l2.setState next .running with
            ticksUsed := update l2.ticksUsed next 0
            current := next }
          { s2.setState next .running with
            ticksUsed := update s2.ticksUsed next 0
            current := next } qs := by
      intro l2 s2 h2
      exact { h2.setState next .running with ticks := by rw [h2.ticks], current := rfl }
    split
    next hrun =>
      obtain ⟨hnr, hnz⟩ := hcur hrun
      refine .ok (hland ((hrep.setState sch.current .ready).schedEnqueue ?_ hnz))
      exact fun hm => hnr (by rw [hr]; exact mem_cons_of_mem _ hm)
    · exact .ok (hland hrep)

theorem Rep.schedTick (h : Rep l sch qs) : Rep l.schedTick sch.schedTick qs := by
  have hhead : l.ready.head = none ↔ sch.ready = [] := by
    rw [h.ready.head, List.head?_eq_none_iff]
  simp only [Linked.schedTick, Sched.schedTick, h.ticks, h.current, h.needResched, hhead]
  split
  all_goals exact { h with ticks := rfl, current := rfl, needResched := rfl }

theorem Rep.schedUnblock (h : Rep l sch qs)
    (hb : sch.state t = some .blocked → t ∉ sch.ready ∧ t ∉ sch.zombies) :
    Rep (l.schedUnblock t) (sch.schedUnblock t) qs := by
  simp only [Linked.schedUnblock, Sched.schedUnblock, h.state]
  split
  next hblk => exact (h.setState t .ready).schedEnqueue (hb hblk).1 (hb hblk).2
  · exact h

/-! ## Wait queues -/

variable [DecidableEq κ]

theorem Rep.waitqPush (h : Rep l sch qs) (ht : ∀ q, t ∉ qs q) (q : κ) :
    Rep (l.waitqPush q t) sch (update qs q (qs q ++ [t])) := by
  have happ : ∀ q', q' ≠ q → List.Disjoint (qs q ++ [t]) (qs q') := fun q' hq =>
    disjoint_append_left.mpr ⟨h.queues_apart q q' (Ne.symm hq), singleton_disjoint.mpr (ht q')⟩
  refine { h with queues := fun q' => ?_, queues_apart := fun q1 q2 hne => ?_ }
  · by_cases hq : q' = q
    · subst hq
      simp only [Linked.waitqPush, update_self]
      exact (h.queues q').push (ht q')
    · simp only [Linked.waitqPush, update_of_ne hq]
      exact (h.queues q').frame_push (h.queues q) (h.queues_apart q' q hq) (ht q')
  · by_cases h1 : q1 = q
    · subst h1
      rw [update_self, update_of_ne (Ne.symm hne)]
      exact happ q2 (Ne.symm hne)
    rw [update_of_ne h1]
    by_cases h2 : q2 = q
    · subst h2
      rw [update_self]
      exact disjoint_symm (happ q1 h1)
    · rw [update_of_ne h2]
      exact h.queues_apart q1 q2 hne

theorem Rep.waitqPop (h : Rep l sch qs) (hq : qs q = t :: rest) :
    ∃ l1, l.waitqPop q = (some t, l1) ∧ Rep l1 sch (update qs q rest) := by
  have hold := h.queues q
  rw [hq] at hold
  have hhead : (l.queue q).head = some t := hold.head
  have hout : ∀ q', q' ≠ q → t ∉ qs q' := fun q' hne =>
    h.queues_apart q q' (Ne.symm hne) (by rw [hq]; exact mem_cons_self ..)
  have hsub : ∀ q' u, u ∈ update qs q rest q' → u ∈ qs q' := by
    intro q' u hu
    by_cases hne : q' = q
    · subst hne
      rw [hq]
      simp only [update_self] at hu
      exact mem_cons_of_mem _ hu
    · simpa [hne] using hu
  simp only [Linked.waitqPop, hhead]
  refine ⟨_, rfl, { h with
    queues := fun q' => ?_
    queues_apart := fun q1 q2 hne u h1 h2 => h.queues_apart q1 q2 hne (hsub q1 u h1) (hsub q2 u h2) }⟩
  by_cases hne : q' = q
  · subst hne
    simp only [update_self]
    exact hold.pop
  · simp only [update_of_ne hne]
    exact (h.queues q').frame (hout q' hne) none

theorem Rep.wake_nil (h : Rep l sch qs) (hq : qs q = []) : l.wake q = l := by
  have hhead : (l.queue q).head = none := by rw [(h.queues q).head, hq]; rfl
  simp [Linked.wake, Linked.waitqPop, hhead]

theorem Rep.wake_cons (h : Rep l sch qs) (hq : qs q = t :: rest)
    (hb : sch.state t = some .blocked → t ∉ sch.ready ∧ t ∉ sch.zombies) :
    Rep (l.wake q) (sch.schedUnblock t) (update qs q rest) := by
  obtain ⟨l1, hpair, hrep⟩ := h.waitqPop hq
  simp only [Linked.wake, hpair]
  exact hrep.schedUnblock hb

end

end Exyde
