import Exyde.Sync.Machine
import Exyde.Sync.Mutex

/-! # The CPU runs the threads

`syncSystem` lets any thread run its next pass at any time; the machine runs one thread
at a time. Each pass on the machine is a step of `syncSystem`, and what the scheduler
does between two passes is none. -/

namespace Exyde.Sync

open Function Exyde.Lib Machine

def Ctl.point? : Ctl → Option Point
  | .blocked p => some p
  | _ => none

/-- The wait queues of the machine are those of `s`, and its threads go on where
those of `s` do. -/
structure Refines (m : Machine) (s : State) : Prop where
  objects : s.objects = m.objects
  panic : s.panic = none
  placed : Placed s
  doing : ∀ t, s.doing t = (m.ctl t).point?
  runs : ∃ sch, Good m.links sch s.waiters.queue ∧ sch.state sch.current = some .running
  alive : ∀ t, (m.ctl t).point? ≠ none → m.links.Alive t

/-- The machine does what `s` does until it panics. -/
structure Follows (m : Machine) (s : State) : Prop where
  whole : Whole m
  refines : m.panic = none → Refines m s

section

variable {m m' : Machine} {s : State} {t : Tid}

/-! ## The scheduler between two passes -/

theorem Refines.move (h : Refines m s) (ho : m'.objects = m.objects)
    (hc : ∀ t, (m'.ctl t).point? = (m.ctl t).point?)
    (hl : ∃ sch, Good m'.links sch s.waiters.queue ∧ sch.state sch.current = some .running)
    (ha : ∀ t, (m.ctl t).point? ≠ none → m.links.Alive t → m'.links.Alive t) : Refines m' s := by
  refine ⟨h.objects.trans ho.symm, h.panic, h.placed, fun t => (h.doing t).trans (hc t).symm, hl,
    fun t ht => ?_⟩
  rw [hc] at ht
  exact ha t ht (h.alive t ht)

theorem Refines.switch (h : Refines m s) (ho : m'.objects = m.objects) (hc : m'.ctl = m.ctl)
    (hl : Leaves m.links m'.links s.waiters.queue) : Refines m' s :=
  h.move ho (fun t => by rw [hc]) hl.runs fun t _ => hl.alive t

theorem schedSchedule_objects (m : Machine) (l : Linked Queue) :
    (m.schedSchedule l).objects = m.objects := by
  unfold schedSchedule
  split
  · rfl
  · split <;> rfl

theorem Refines.schedYield (h : Refines m s) (hp : m.schedYield.panic = none) :
    Refines m.schedYield s := by
  unfold Machine.schedYield at hp ⊢
  split at hp
  next hnone => rw [if_pos hnone]; exact h
  next hsome =>
    rw [if_neg hsome]
    obtain ⟨sch, hgood, -⟩ := h.runs
    exact h.switch (schedSchedule_objects ..) (schedSchedule_ctl ..) ((schedSchedule_does hgood).leaves hp)

theorem Refines.timer (h : Refines m s) (hp : m.timer.panic = none) : Refines m.timer s := by
  obtain ⟨sch, hgood, hrun⟩ := h.runs
  have hsame : m.timer.objects = m.objects ∧ m.timer.ctl = m.ctl := by
    unfold Machine.timer Machine.schedPreemptPoint
    split
    · exact ⟨schedSchedule_objects .., schedSchedule_ctl ..⟩
    · exact ⟨rfl, rfl⟩
  exact h.switch hsame.1 hsame.2 ((timer_does hgood hrun).leaves hp)

theorem Refines.threadExit (h : Refines m s) (hc : m.ctl m.cur = .run)
    (hp : m.threadExit.panic = none) : Refines m.threadExit s := by
  obtain ⟨sch, hgood, hrun⟩ := h.runs
  have hl := (schedSchedule_does (hgood.exit hrun)).leaves hp
  have hctl : m.threadExit.ctl = m.ctl := schedSchedule_ctl ..
  refine h.move (schedSchedule_objects ..) (fun t => by rw [hctl]) hl.runs fun t ht ha => hl.alive t ?_
  have hne : t ≠ m.cur := by
    rintro rfl
    exact ht (by rw [hc]; rfl)
  simpa [Linked.Alive, Linked.zombiePush, Linked.setState, hne] using ha

/-- A thread that waits for nothing goes on elsewhere. -/
theorem update_point {c : Ctl} (ht : (m.ctl t).point? = none) (hc : c.point? = none) (u : Tid) :
    (update m.ctl t c u).point? = (m.ctl u).point? := by
  by_cases hut : u = t
  · rw [hut, update_self, ht, hc]
  · rw [update_of_ne hut]

theorem Refines.threadCreate (h : Refines m s) (ht : m.links.state t = none) :
    Refines (m.threadCreate t none) s := by
  obtain ⟨sch, hgood, hrun⟩ := h.runs
  have hnone : (m.ctl t).point? = none := by
    by_contra hp
    exact (h.alive t hp).1 ht
  refine h.move rfl (update_point hnone rfl) ⟨_, hgood.create ht, ?_⟩ fun u _ hu => ?_
  · have hcur : sch.current ≠ t := by
      intro heq
      rw [← hgood.rep.state, heq, ht] at hrun
      cases hrun
    simp [Sched.threadCreate, hcur, hrun]
  · have hut : u ≠ t := fun heq => hu.1 (heq ▸ ht)
    simpa [Machine.threadCreate, Linked.threadCreate, Linked.schedEnqueue_eq, Linked.threadAlloc,
      Linked.Alive, Linked.setState, hut] using hu

/-! ## Passes -/

theorem goesOn_point (a : Act) : (goesOn a).point? = a.point? := by
  unfold goesOn
  cases a.point? <;> rfl

theorem act_objects (m : Machine) (a : Act) : (m.act a).objects = m.objects := by
  cases a with
  | block p | swap p q => exact schedSchedule_objects ..
  | proceed | wake q | wakeAll q => rfl
  | panic pushed e => cases pushed <;> rfl

theorem act_panics {a : Act} (hp : (m.act a).panic = none) : a.panic? = none := by
  cases a with
  | panic pushed e => cases pushed <;> cases hp
  | _ => rfl

/-- **A pass on the machine is a pass of the thread that has the CPU.** `r` is
`s`, or `s` with this thread awake. -/
theorem Refines.perform (h : Refines m s) (r : State) (hq : r.waiters.queue = s.waiters.queue)
    (hd : r.doing = s.doing) {p : Pass} (ha : p.act.Apart)
    (hpl : p.act.panic? = none → Placed (r.run m.cur p)) (hp : (m.perform p).panic = none) :
    Refines (m.perform p) (r.run m.cur p) := by
  obtain ⟨sch, hgood, hrun⟩ := h.runs
  rw [← hq] at hgood
  have hctl : (m.perform p).ctl = update m.ctl m.cur (goesOn p.act) := act_ctl ..
  have hnone := act_panics hp
  obtain ⟨hruns, halive⟩ := (act_does (m := { m with
    objects := p.objects, ctl := update m.ctl m.cur (goesOn p.act) }) hgood hrun ha).leaves hp
  have hobj : (m.perform p).objects = p.objects := act_objects ..
  refine ⟨hobj.symm, hnone, hpl hnone, fun t => ?_, hruns, fun t ht => halive t ?_⟩
  · rw [hctl]
    show update r.doing m.cur p.act.point? t = _
    by_cases ht : t = m.cur
    · subst ht; rw [update_self, update_self, goesOn_point]
    · rw [update_of_ne ht, update_of_ne ht, hd]
      exact h.doing t
  · by_cases hcur : t = m.cur
    · rw [hcur, Linked.Alive, hgood.rep.state, show m.cur = sch.current from hgood.rep.current, hrun]
      simp
    · rw [hctl, update_of_ne hcur] at ht
      exact h.alive t ht

theorem Refines.on (h : Refines m s) (t : Tid) :
    s.waiters.on t = (m.ctl t).point?.map Point.queue := by
  rw [h.placed.point, h.doing]

theorem Refines.woken (h : Refines m s) {p : Point} (hc : m.ctl m.cur = .blocked p) :
    m.cur ∈ s.waiters.woken := by
  obtain ⟨sch, hgood, hrun⟩ := h.runs
  have hcur : m.cur = sch.current := hgood.rep.current
  have hon : s.waiters.on m.cur = some p.queue := by rw [h.on, hc]; rfl
  refine (h.placed.ok.placed _ _ hon).resolve_left ?_
  rw [hcur]
  exact hgood.places.not_queued (by simp [hrun]) p.queue

/-! ## Runs -/

theorem Refines.step (h : Refines m s) (hw : Whole m) (hn : m.panic = none) {e : MachineEvent}
    (hok : Uncut m e) (hs : m.step e = some m') :
    ∃ s', Follows m' s' ∧ (s' = s ∨ ∃ d, s.step d = some s') := by
  obtain ⟨sch, hgood, hrun⟩ := h.runs
  have hw' := (step_keeps ⟨sch, _, hgood, hrun⟩ hw hok hs).2
  have hquiet : (m'.panic = none → Refines m' s) →
      ∃ s', Follows m' s' ∧ (s' = s ∨ ∃ d, s.step d = some s') := fun hr => ⟨s, ⟨hw', hr⟩, .inl rfl⟩
  unfold Machine.step at hs
  rw [if_neg (by simp [hn])] at hs
  split at hs
  next c refuse hc =>
    cases hs
    have hd : s.doing m.cur = none := by rw [h.doing, hc]; rfl
    refine ⟨_, ⟨hw', h.perform s rfl rfl (Call.pass_apart ..) (h.placed.run (h.placed.on_none hd))⟩,
      .inr ⟨.call m.cur c refuse, ?_⟩⟩
    simp [State.step, h.panic, hd, h.objects]
  next refuse p hc =>
    cases hs
    have hd : s.doing m.cur = some p := by rw [h.doing, hc]; rfl
    have hwoken := h.woken hc
    refine ⟨_, ⟨hw', h.perform (s.awake m.cur) rfl rfl (Point.pass_apart ..) (h.placed.awake hwoken)⟩,
      .inr ⟨.resume m.cur refuse, ?_⟩⟩
    simp [State.step, h.panic, hwoken, hd, h.objects]
  next hc =>
    cases hs
    exact hquiet fun _ => h.move rfl (update_point (by rw [hc]; rfl) rfl) h.runs fun _ _ ha => ha
  · cases hs
    exact hquiet h.schedYield
  · cases hs
    exact hquiet h.timer
  next hc =>
    cases hs
    exact hquiet (h.threadExit hc)
  next t cut hc =>
    split at hs
    next ht =>
      cases hs
      have hcut : cut = none := hok
      subst hcut
      exact hquiet fun _ => h.threadCreate ht
    · cases hs
  next ws hc => exact absurd hc (hw m.cur ws)
  · cases hs

end

/-- The machine after `sched_init`, with the primitives as they are after their
`_init` functions. -/
def bootedMachine (n : Nat → Nat) : System Machine MachineEvent where
  start m := ∃ ring, m = init (State.init n ring).objects
  step := step

variable {m : Machine} {n : Nat → Nat}

/-- **The machine refines the threads.** Whatever the machine does, some run of
`syncSystem` does with the same primitives and the same wait queues. -/
theorem machine_follows (h : Reach (bootedMachine n) Uncut m) :
    ∃ s, Reachable (syncSystem n) s ∧ Follows m s := by
  refine h.invariant (I := fun m => ∃ s, Reachable (syncSystem n) s ∧ Follows m s) ?_ ?_
  · rintro m ⟨ring, rfl⟩
    refine ⟨State.init n ring, .start ⟨ring, rfl⟩, fun t ws => by simp [init], fun _ => ?_⟩
    exact ⟨rfl, rfl, init_placed n ring, fun _ => rfl, ⟨schedInit, init_good, rfl⟩,
      fun t ht => absurd rfl ht⟩
  · rintro m e m' ⟨s, hs, hf⟩ hok hstep
    have hn := step_panic hstep
    obtain ⟨s', hf', hmove⟩ := (hf.refines hn).step hf.whole hn hok hstep
    rcases hmove with rfl | ⟨d, hd⟩
    · exact ⟨s', hs, hf'⟩
    · exact ⟨s', .step hs trivial hd, hf'⟩

/-- Who is on a queue's account goes on at a point of this queue. -/
theorem Refines.waiting {s : State} (h : Refines m s) {u : Tid} {q : Queue}
    (hon : s.waiters.on u = some q) : ∃ p, m.ctl u = .blocked p ∧ p.queue = q := by
  rw [h.on] at hon
  cases hc : m.ctl u with
  | blocked p => rw [hc] at hon; exact ⟨p, rfl, Option.some.inj hon⟩
  | fresh | run | enqueue _ => rw [hc] at hon; cases hon

theorem Refines.runnable {s : State} (h : Refines m s) {u : Tid}
    (hu : u ∈ s.waiters.woken) : m.links.state u = some .ready ∨ u = m.cur := by
  obtain ⟨sch, hgood, hrun⟩ := h.runs
  have hon := h.placed.ok.woken u hu
  rw [h.on] at hon
  obtain ⟨hsome, hdead⟩ := h.alive u fun hno => hon (by rw [hno]; rfl)
  obtain ⟨st, hst⟩ := Option.ne_none_iff_exists'.mp hsome
  have hsch : sch.state u = some st := by rw [← hgood.rep.state]; exact hst
  cases st with
  | ready => exact .inl hst
  | running => exact .inr (((hgood.places u).running hsch).trans hgood.rep.current.symm)
  | blocked =>
    obtain ⟨q', hq'⟩ := (hgood.places u).blocked.mpr hsch
    exact absurd hu (h.placed.ok.queued q' u hq').2
  | dead => exact absurd hst hdead

/-- **No locker is stranded on the machine.** While a thread is blocked on a mutex
that is not locked, another one that was popped from the mutex's queue is READY or
has the CPU, and will try to lock it. -/
theorem lockers_not_stranded (h : Reach (bootedMachine n) Uncut m)
    (hp : m.panic = none) {x : Nat} {t : Tid} {p : Point} (hfree : (m.objects.mutex x).locked = false)
    (ht : m.ctl t = .blocked p) (hq : p.queue = .mutex x) (hb : m.links.state t = some .blocked) :
    ∃ u p', m.ctl u = .blocked p' ∧ p'.queue = .mutex x ∧
      (m.links.state u = some .ready ∨ u = m.cur) := by
  obtain ⟨s, hs, hf⟩ := machine_follows h
  have hr := hf.refines hp
  obtain ⟨sch, hgood, hrun⟩ := hr.runs
  -- a BLOCKED thread is on the queue that it waits for
  obtain ⟨q, hmem⟩ := (hgood.places t).blocked.mpr (by rw [← hgood.rep.state]; exact hb)
  have hon := (hr.placed.ok.queued q t hmem).1
  rw [hr.on, ht] at hon
  obtain rfl : .mutex x = q := hq.symm.trans (Option.some.inj hon)
  -- the unit that is there has been promised to somebody
  have hunits : s.objects.mutexUnits x = 1 := if_neg (by rw [hr.objects, hfree]; simp)
  have hgate := ((reach_mutexOk hs).1 x).gate (List.length_pos_of_mem hmem)
  rw [hunits] at hgate
  obtain ⟨u, hu, huon⟩ := Waiters.exists_woken hgate
  obtain ⟨p', hctl, hqueue⟩ := hr.waiting huon
  exact ⟨u, p', hctl, hqueue, hr.runnable hu⟩

/-- The boot thread unlocks the mutex that threads 1 and 2 wait for. -/
theorem lockers_not_stranded_second :
    ∃ m u p, Reach (bootedMachine fun _ => 0) Uncut m ∧ m.links.state 2 = some .blocked ∧
      m.ctl u = .blocked p ∧ p.queue = .mutex 0 ∧ (m.links.state u = some .ready ∨ u = m.cur) := by
  obtain ⟨m, hm, hp, hfree, hctl, hb⟩ : ∃ m ∈ (bootedMachine fun _ => 0).runOk Uncut
      (init (State.init (fun _ => 0) fun _ => ⟨0, 1⟩).objects) [.create 1 none, .create 2 none,
        .call (.lock 0) false, .yield, .start, .call (.lock 0) false, .start, .call (.lock 0) false,
        .call (.unlock 0) false],
      m.panic = none ∧ (m.objects.mutex 0).locked = false ∧ m.ctl 2 = .blocked (.lock 0) ∧
        m.links.state 2 = some .blocked := by decide +kernel
  have hreach := Reach.runOk hm (.start ⟨_, rfl⟩)
  obtain ⟨u, p, h⟩ := lockers_not_stranded hreach hp hfree hctl rfl hb
  exact ⟨m, u, p, hreach, hb, h⟩

end Exyde.Sync
