import Exyde.Lib.Runs
import Exyde.Lib.Waiters
import Exyde.Sync.Ops

/-! # Threads on the primitives

Any number of threads on any number of mutexes, condition variables, semaphores,
channels and processes. A popped thread is READY and runs its next pass at any later
time, so others may get ahead of it. -/

namespace Exyde.Sync

open Function Exyde.Lib Waiters

def Act.apply (t : Tid) (w : Waiters Queue Tid) : Act → Waiters Queue Tid
  | .proceed => w
  | .wake q => w.wake q
  | .wakeAll q => w.wakeAll q
  | .block p => w.park t p.queue
  | .swap p q => (w.park t p.queue).wake q
  | .panic none _ => w
  | .panic (some q) _ => w.park t q

/-- Where the thread goes on if the action blocks it. -/
def Act.point? : Act → Option Point
  | .block p | .swap p _ => some p
  | _ => none

def Act.panic? : Act → Option SyncPanic
  | .panic _ e => some e
  | _ => none

/-- `doing`: where a thread that is blocked or was woken goes on. `held`: the
threads that have acquired a mutex and not released it since. `posts` and `waits`
count the posts and the completed waits of a semaphore. -/
structure State where
  objects : Objects
  waiters : Waiters Queue Tid
  doing : Tid → Option Point
  panic : Option SyncPanic
  held : Nat → List Tid
  posts : Nat → Nat
  waits : Nat → Nat

inductive SyncEvent where
  | call (t : Tid) (c : Call) (refuse : Bool)
  | resume (t : Tid) (refuse : Bool)
  deriving DecidableEq, Repr

namespace State

def record (s : State) (t : Tid) : Note → State
  | .nothing => s
  | .acquired m => { s with held := update s.held m (t :: s.held m) }
  | .released m => { s with held := update s.held m ((s.held m).erase t) }
  | .took k => { s with waits := update s.waits k (s.waits k + 1) }
  | .posted k => { s with posts := update s.posts k (s.posts k + 1) }

def run (s : State) (t : Tid) (p : Pass) : State :=
  { s.record t p.note with
    objects := p.objects
    waiters := p.act.apply t s.waiters
    doing := update s.doing t p.act.point?
    panic := p.act.panic? }

def awake (s : State) (t : Tid) : State := { s with waiters := s.waiters.resume t }

def step (s : State) : SyncEvent → Option State
  | .call t c refuse =>
    if s.panic.isSome ∨ (s.doing t).isSome then none
    else some (s.run t (c.pass s.objects t refuse))
  | .resume t refuse =>
    if s.panic.isSome ∨ t ∉ s.waiters.woken then none
    else (s.doing t).map fun p => (s.awake t).run t (p.pass s.objects t refuse)

/-- `mutex_init`, `cond_init`, `sem_init` with the values `n`, and channels and
processes nobody has used. -/
def init (n : Nat → Nat) (ring : Nat → Ring) : State where
  objects := ⟨fun _ => ⟨false, none⟩, fun k => n k, ring, fun _ => false⟩
  waiters := .init
  doing := fun _ => none
  panic := none
  held := fun _ => []
  posts := fun _ => 0
  waits := fun _ => 0

end State

def syncSystem (n : Nat → Nat) : System State SyncEvent where
  start s := ∃ ring, s = State.init n ring
  step := State.step

/-! ## Where the threads are -/

/-- Every thread that is not running is where its point says. -/
structure Placed (s : State) : Prop where
  ok : s.waiters.Ok
  point : ∀ t, s.waiters.on t = (s.doing t).map Point.queue

section

variable {s s' : State} {w : Waiters Queue Tid} {t : Tid} {a : Act}

theorem Act.apply_ok (h : w.Ok) (ht : w.on t = none) : (a.apply t w).Ok := by
  cases a with
  | proceed => exact h
  | wake q => exact h.wake q
  | wakeAll q => exact h.wakeAll q
  | block p => exact h.park ht
  | swap p q => exact (h.park ht).wake q
  | panic pushed e =>
    cases pushed with
    | none => exact h
    | some q => exact h.park ht

theorem wake_on (q : Queue) : (w.wake q).on = w.on := by
  unfold Waiters.wake
  split <;> rfl

theorem Act.apply_on (ht : w.on t = none) (hp : a.panic? = none) :
    (a.apply t w).on = update w.on t (a.point?.map Point.queue) := by
  have hsame : update w.on t none = w.on := by rw [update_eq_self_iff, ht]
  cases a with
  | proceed | wakeAll q => exact hsame.symm
  | wake q => exact (wake_on q).trans hsame.symm
  | block p => rfl
  | swap p q => exact wake_on q
  | panic pushed e => cases hp

theorem Placed.run (h : Placed s) (ht : s.waiters.on t = none) {p : Pass}
    (hp : p.act.panic? = none) : Placed (s.run t p) where
  ok := Act.apply_ok h.ok ht
  point u := by
    show (p.act.apply t s.waiters).on u = (update s.doing t p.act.point? u).map Point.queue
    rw [Act.apply_on ht hp]
    by_cases hu : u = t
    · subst hu; simp
    · rw [update_of_ne hu, update_of_ne hu]
      exact h.point u

/-- What a step does: a thread that is on no queue, because it never was or
because it has just been woken, runs a pass. -/
inductive StepCase (s s' : State) : SyncEvent → Prop
  | call (t : Tid) (c : Call) (refuse : Bool) : s.doing t = none →
      s' = s.run t (c.pass s.objects t refuse) → StepCase s s' (.call t c refuse)
  | resume (t : Tid) (refuse : Bool) (p : Point) : t ∈ s.waiters.woken → s.doing t = some p →
      s' = (s.awake t).run t (p.pass s.objects t refuse) → StepCase s s' (.resume t refuse)

theorem step_case {e : SyncEvent} (hs : s.step e = some s') : s.panic = none ∧ StepCase s s' e := by
  cases e with
  | call t c refuse =>
    obtain ⟨hn, hs⟩ := Option.ite_none_left_eq_some.mp hs
    simp only [not_or, Option.not_isSome_iff_eq_none] at hn
    exact ⟨hn.1, .call t c refuse hn.2 (Option.some.inj hs).symm⟩
  | resume t refuse =>
    obtain ⟨hn, hs⟩ := Option.ite_none_left_eq_some.mp hs
    simp only [not_or, Option.not_isSome_iff_eq_none, not_not] at hn
    obtain ⟨p, hp, hs⟩ := Option.map_eq_some_iff.mp hs
    exact ⟨hn.1, .resume t refuse p hn.2 hp hs.symm⟩

theorem Placed.on_none (h : Placed s) (ht : s.doing t = none) : s.waiters.on t = none := by
  rw [h.point t, ht]
  rfl

theorem Placed.awake (h : Placed s) (ht : t ∈ s.waiters.woken) {p : Pass}
    (hp : p.act.panic? = none) : Placed ((s.awake t).run t p) := by
  have hok : (s.awake t).waiters.Ok := h.ok.resume ht
  have hon : (s.awake t).waiters.on t = none := update_self ..
  refine ⟨Act.apply_ok hok hon, fun u => ?_⟩
  show (p.act.apply t (s.awake t).waiters).on u = (update s.doing t p.act.point? u).map Point.queue
  rw [Act.apply_on hon hp]
  by_cases hu : u = t
  · subst hu; simp
  · simp only [State.awake, Waiters.resume, update_of_ne hu]
    exact h.point u

theorem Placed.step (h : Placed s) {e : SyncEvent} (hs : s.step e = some s')
    (hp : s'.panic = none) : Placed s' := by
  obtain ⟨-, hcase⟩ := step_case hs
  cases hcase with
  | call t c refuse hd heq =>
    subst heq
    exact h.run (h.on_none hd) hp
  | resume t refuse p hw _ heq =>
    subst heq
    exact h.awake hw hp

theorem init_placed (n : Nat → Nat) (ring : Nat → Ring) : Placed (State.init n ring) :=
  ⟨.init, fun _ => rfl⟩

theorem reach_keeps {n : Nat → Nat} {ok : State → SyncEvent → Prop} {I : State → Prop}
    (h : Reach (syncSystem n) ok s) (init : ∀ ring, I (State.init n ring))
    (keep : ∀ s e s', I s → Placed s → ok s e → s.step e = some s' → I s') :
    I s ∧ (s.panic = none → Placed s) := by
  refine h.invariant (I := fun s => I s ∧ (s.panic = none → Placed s)) ?_ ?_
  · intro s ⟨ring, hs⟩
    subst hs
    exact ⟨init ring, fun _ => init_placed n ring⟩
  · intro s e s' ⟨hI, hpl⟩ hok hs
    have hpl := hpl (step_case hs).1
    exact ⟨keep s e s' hI hpl hok hs, fun hp => hpl.step hs hp⟩

end

/-! ## Units

A mutex that is not locked is a unit that a locker takes and an unlock gives
back; the count of a semaphore are its units. What a pass does to the units of a
queue goes with what it does to the queue. -/

@[simp] def Act.spares (q : Queue) : Act → Prop
  | .proceed => True
  | .wake q' | .wakeAll q' => q' ≠ q
  | .block p => p.queue ≠ q
  | .swap p q' => p.queue ≠ q ∧ q' ≠ q
  | .panic pushed _ => pushed ≠ some q

/-- A thread that wants a unit takes one of `a`, leaving `a'`, or waits. -/
inductive TakeCase (q : Queue) (a a' : Nat) : Act → Prop
  | wait (p : Point) : p.queue = q → a = 0 → a' = 0 → TakeCase q a a' (.block p)
  | take : a = a' + 1 → TakeCase q a a' .proceed

/-- What a pass that leaves `a'` of `a` units does to their queue. -/
inductive UnitCase (q : Queue) (a a' : Nat) : Act → Prop
  | spare {act : Act} : a' = a → act.spares q → UnitCase q a a' act
  | taker {act : Act} : TakeCase q a a' act → UnitCase q a a' act
  | give : a' = a + 1 → UnitCase q a a' (.wake q)
  | swap (p : Point) : p.queue ≠ q → a' = a + 1 → UnitCase q a a' (.swap p q)

section

variable {w : Waiters Queue Tid} {t : Tid} {q : Queue} {a a' : Nat} {act : Act}

theorem gate_spare (h : w.Ok) (ht : w.on t = none) (hs : act.spares q) :
    (act.apply t w).gate a q = w.gate a q := by
  cases act with
  | proceed => rfl
  | wake q' => exact gate_wake_of_ne h (Ne.symm hs) a
  | wakeAll q' => exact gate_wakeAll_of_ne h (Ne.symm hs) a
  | block p => exact gate_park_of_ne h ht (Ne.symm hs) a
  | swap p q' =>
    exact (gate_wake_of_ne (h.park ht) (Ne.symm hs.2) a).trans
      (gate_park_of_ne h ht (Ne.symm hs.1) a)
  | panic pushed e =>
    cases pushed with
    | none => rfl
    | some q' => exact gate_park_of_ne h ht (fun heq => hs (congrArg some heq.symm)) a

theorem TakeCase.move (hc : TakeCase q a a' act) (h : w.Ok) (ht : w.on t = none) :
    Gate.Move true (w.gate a q) ((act.apply t w).gate a' q) := by
  cases hc with
  | wait p hq ha ha' =>
    subst hq ha ha'
    exact gate_park h ht
  | take ha =>
    subst ha
    exact .take rfl

theorem UnitCase.ok (hc : UnitCase q a a' act) (h : w.Ok) (ht : w.on t = none)
    (hok : (w.gate a q).Ok) : ((act.apply t w).gate a' q).Ok := by
  cases hc with
  | spare ha hs =>
    rw [ha, gate_spare h ht hs]
    exact hok
  | taker hc => exact (hc.move h ht).ok hok
  | give ha =>
    rw [ha]
    exact (gate_wake h a).ok hok
  | swap p hq ha =>
    -- the thread parks elsewhere, then gives its unit back
    rw [ha]
    refine (gate_wake (h.park ht) a).ok ?_
    rw [gate_park_of_ne h ht (Ne.symm hq)]
    exact hok

/-- A thread woken from `q` takes a unit or goes back to the queue: it does not
leave without the unit it came for. -/
theorem TakeCase.resume_ok (hc : TakeCase q a a' act) (h : w.Ok) (hw : t ∈ w.woken)
    (hon : w.on t = some q) (hok : (w.gate a q).Ok) :
    ((act.apply t (w.resume t)).gate a' q).Ok := by
  have hnone : (w.resume t).on t = none := update_self ..
  have hmove := hc.move (h.resume hw) hnone
  refine hmove.resume_ok ?_ ?_
  · intro heq
    -- the gate has changed: a unit fewer, or a thread more on the queue
    exfalso
    cases hc with
    | wait p hq _ _ =>
      have hlen := congrArg Gate.parked heq
      simp [Act.apply, Waiters.gate, Waiters.park, Waiters.resume, hq] at hlen
    | take ha =>
      have hunits : a' = a := congrArg Gate.avail heq
      omega
  · have hcount := wokenOn_resume h hw q
    rw [hon, if_pos rfl] at hcount
    rw [← hcount]
    exact hok

theorem UnitCase.resume_ok (hc : UnitCase q a a' act) (h : w.Ok) (hw : t ∈ w.woken)
    (hon : w.on t ≠ some q) (hok : (w.gate a q).Ok) :
    ((act.apply t (w.resume t)).gate a' q).Ok := by
  have hnone : (w.resume t).on t = none := update_self ..
  refine hc.ok (h.resume hw) hnone ?_
  have hcount := wokenOn_resume h hw q
  rw [if_neg hon, Nat.add_zero] at hcount
  have hgate : (w.resume t).gate a q = w.gate a q := by
    rw [Waiters.gate, Waiters.gate, ← hcount]
    rfl
  rw [hgate]
  exact hok

theorem Placed.resume_ok {s : State} {p : Point} (hpl : Placed s) (hw : t ∈ s.waiters.woken)
    (hd : s.doing t = some p) (hc : UnitCase q a a' act) (htake : p.queue = q → TakeCase q a a' act)
    (hok : (s.waiters.gate a q).Ok) : ((act.apply t (s.waiters.resume t)).gate a' q).Ok := by
  have hon : s.waiters.on t = some p.queue := by rw [hpl.point t, hd]; rfl
  by_cases hq : p.queue = q
  · exact (htake hq).resume_ok hpl.ok hw (hon.trans (congrArg some hq)) hok
  · refine hc.resume_ok hpl.ok hw ?_ hok
    rw [hon]
    simpa using hq

end

end Exyde.Sync
