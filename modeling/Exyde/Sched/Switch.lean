import Mathlib.Data.List.Nodup
import Exyde.Sched.Core

/-! # What the scheduler keeps

The ready list holds each READY thread once, the current thread is RUNNING, and the boot
thread is always one of the two, so there is always a thread to switch to. -/

namespace Exyde.Sched

open Function List

/-- Between two scheduler calls. -/
structure Ok (sch : Sched) : Prop where
  ready_nodup : sch.ready.Nodup
  ready_state : ∀ t, t ∈ sch.ready → sch.state t = some .ready
  running : sch.state sch.current = some .running
  boot : sch.current = bootThread ∨ bootThread ∈ sch.ready

/-- When `sched_schedule` is called: the current thread may have blocked or
exited, unless it is the boot thread. -/
structure Pre (sch : Sched) : Prop where
  ready_nodup : sch.ready.Nodup
  ready_state : ∀ t, t ∈ sch.ready → sch.state t = some .ready
  known : (sch.state sch.current).isSome = true
  not_ready : sch.current ∉ sch.ready
  boot : (sch.current = bootThread ∧ sch.state sch.current = some .running) ∨ bootThread ∈ sch.ready

/-- A switch leaves blocked and dead threads alone and forgets nobody. -/
structure Switched (sch sch' : Sched) : Prop where
  ok : sch'.Ok
  zombies : sch'.zombies = sch.zombies
  blocked : ∀ t, sch.state t = some .blocked → sch'.state t = some .blocked
  dead : ∀ t, sch.state t = some .dead → sch'.state t = some .dead
  known : ∀ t, (sch'.state t).isSome = (sch.state t).isSome

variable {sch : Sched} {t w : Tid} {sch' : Sched}

theorem schedInit_ok : schedInit.Ok where
  ready_nodup := nodup_nil
  ready_state := fun _ h => by cases h
  running := by simp [schedInit]
  boot := Or.inl rfl

theorem Ok.not_ready (h : sch.Ok) : sch.current ∉ sch.ready := by
  intro hm
  have := h.ready_state _ hm
  rw [h.running] at this
  cases this

theorem Ok.pre (h : sch.Ok) : sch.Pre :=
  { h with
    known := by rw [h.running]; rfl
    not_ready := h.not_ready
    boot := h.boot.imp_left fun hb => ⟨hb, h.running⟩ }

theorem Ok.pre_setState (h : sch.Ok) (hb : sch.current ≠ bootThread) (st : ThreadState) :
    (sch.setState sch.current st).Pre where
  ready_nodup := h.ready_nodup
  ready_state := by
    intro t ht
    have hne : t ≠ sch.current := by rintro rfl; exact h.not_ready ht
    simp only [setState, update_of_ne hne]
    exact h.ready_state t ht
  known := by simp
  not_ready := h.not_ready
  boot := Or.inr (h.boot.resolve_left hb)

/-! ## Switching -/

/-- The first half of `sched_schedule`: a thread that could run on goes to the tail. -/
def requeue (sch : Sched) : Sched :=
  if sch.state sch.current = some .running then
    (sch.setState sch.current .ready).schedEnqueue sch.current
  else sch

/-- The second half: the head of the ready list gets the CPU. -/
def dispatch (sch : Sched) (next : Tid) (rest : List Tid) : Sched :=
  { sch with
    state := update sch.state next (some .running)
    ticksUsed := update sch.ticksUsed next 0
    current := next
    ready := rest }

theorem requeue_of_running (hrun : sch.state sch.current = some .running) :
    sch.requeue = (sch.setState sch.current .ready).schedEnqueue sch.current := if_pos hrun

theorem requeue_of_ne (hrun : sch.state sch.current ≠ some .running) : sch.requeue = sch := if_neg hrun

theorem schedSchedule_cons {next : Tid} {rest : List Tid} (hr : sch.ready = next :: rest) :
    ∃ rest', sch.requeue.ready = next :: rest' ∧
      sch.schedSchedule = .ok (sch.requeue.dispatch next rest') := by
  by_cases hrun : sch.state sch.current = some .running
  · refine ⟨rest ++ [sch.current], ?_, ?_⟩ <;>
      simp [requeue, dispatch, schedSchedule, hr, hrun, setState, schedEnqueue]
  · refine ⟨rest, ?_, ?_⟩ <;> simp [requeue, dispatch, schedSchedule, hr, hrun, setState]

theorem requeue_state (t : Tid) : sch.requeue.state t =
    if t = sch.current ∧ sch.state t = some .running then some .ready else sch.state t := by
  by_cases hrun : sch.state sch.current = some .running
  · rw [requeue_of_running hrun]
    by_cases ht : t = sch.current
    · subst ht; simp [hrun]
    · simp [ht]
  · have hno : ¬ (t = sch.current ∧ sch.state t = some .running) := fun h => hrun (h.1 ▸ h.2)
    rw [requeue_of_ne hrun, if_neg hno]

theorem schedSchedule_cases (hs : sch.schedSchedule = .ok sch') :
    (sch' = sch ∧ sch.state sch.current = some .running) ∨
      ∃ next rest, next ∈ sch.ready ∧ sch.requeue.ready = next :: rest ∧
        sch' = sch.requeue.dispatch next rest := by
  cases hr : sch.ready with
  | nil =>
    rw [schedSchedule_nil hr] at hs
    split at hs
    next hrun => cases hs; exact .inl ⟨rfl, hrun⟩
    · cases hs
  | cons next rest =>
    obtain ⟨rest', hr', heq⟩ := schedSchedule_cons hr
    exact .inr ⟨next, rest', mem_cons_self, hr', Except.ok.inj (hs.symm.trans heq)⟩

theorem requeue_zombies : sch.requeue.zombies = sch.zombies := by
  unfold requeue; split <;> rfl

/-! ## Who can run -/

def Runnable (sch : Sched) (t : Tid) : Prop :=
  sch.state t = some .ready ∨ sch.state t = some .running

/-- A switch changes the state of threads that can run, and they still can. -/
theorem schedSchedule_state (hs : sch.schedSchedule = .ok sch') (t : Tid) :
    sch'.state t = sch.state t ∨
      sch'.Runnable t ∧ (t ∈ sch.ready ∨ sch.state t = some .running) := by
  rcases schedSchedule_cases hs with ⟨rfl, -⟩ | ⟨next, rest, hmem, -, rfl⟩
  · exact .inl rfl
  by_cases hnext : t = next
  · exact .inr ⟨.inr (by simp [dispatch, hnext]), .inl (hnext ▸ hmem)⟩
  have hstate : (sch.requeue.dispatch next rest).state t = sch.requeue.state t := update_of_ne hnext ..
  rw [Runnable, hstate, requeue_state]
  split
  next hrun => exact .inr ⟨.inl rfl, .inr hrun.2⟩
  · exact .inl rfl

theorem schedSchedule_zombies (hs : sch.schedSchedule = .ok sch') : sch'.zombies = sch.zombies := by
  rcases schedSchedule_cases hs with ⟨rfl, -⟩ | ⟨next, rest, -, -, rfl⟩
  · rfl
  · exact requeue_zombies

theorem Pre.schedSchedule_ok (h : sch.Pre) : ∃ sch', sch.schedSchedule = .ok sch' ∧ sch'.Ok := by
  cases hr : sch.ready with
  | nil =>
    obtain ⟨hboot, hrun⟩ := h.boot.resolve_right (by simp [hr])
    refine ⟨sch, ?_, h.ready_nodup, h.ready_state, hrun, .inl hboot⟩
    rw [schedSchedule_nil hr, if_pos hrun]
  | cons next rest =>
    obtain ⟨rest', hr', hs⟩ := schedSchedule_cons hr
    -- the threads on the list are READY, and the boot thread is one of them
    have hlist : sch.requeue.ready.Nodup ∧ (∀ t, t ∈ sch.requeue.ready → sch.requeue.state t = some .ready) ∧
        bootThread ∈ sch.requeue.ready := by
      by_cases hrun : sch.state sch.current = some .running
      · rw [requeue_of_running hrun]
        refine ⟨h.ready_nodup.append (nodup_singleton _) (disjoint_singleton.mpr h.not_ready), ?_, ?_⟩
        · intro t ht
          by_cases htc : t = sch.current
          · rw [htc]; exact update_self ..
          · have hm : t ∈ sch.ready := (mem_append.mp ht).resolve_right fun hm => htc (mem_singleton.mp hm)
            exact (update_of_ne htc ..).trans (h.ready_state t hm)
        · rcases h.boot with ⟨hb, -⟩ | hb
          · exact mem_append_right _ (mem_singleton.mpr hb.symm)
          · exact mem_append_left _ hb
      · rw [requeue_of_ne hrun]
        exact ⟨h.ready_nodup, h.ready_state, h.boot.resolve_left fun hb => hrun hb.2⟩
    rw [hr'] at hlist
    obtain ⟨hnodup, hstate, hboot⟩ := hlist
    obtain ⟨hnext, hrest⟩ := nodup_cons.mp hnodup
    refine ⟨_, hs, hrest, fun t ht => ?_, update_self .., (mem_cons.mp hboot).imp_left Eq.symm⟩
    have hne : t ≠ next := fun heq => hnext (heq ▸ ht)
    exact (update_of_ne hne ..).trans (hstate t (mem_cons_of_mem _ ht))

/-- **There is always a thread to run.** -/
theorem schedSchedule_switched (h : sch.Pre) :
    ∃ sch', sch.schedSchedule = .ok sch' ∧ sch.Switched sch' := by
  obtain ⟨sch', hs, hok⟩ := h.schedSchedule_ok
  have hcases : ∀ t, sch'.state t = sch.state t ∨ sch'.Runnable t ∧ sch.Runnable t := fun t =>
    (schedSchedule_state hs t).imp_right fun hrun => ⟨hrun.1, hrun.2.imp_left (h.ready_state t)⟩
  have hkeep : ∀ {t st}, st ≠ .ready → st ≠ .running → sch.state t = some st → sch'.state t = some st := by
    intro t st h1 h2 ht
    rcases hcases t with heq | ⟨-, hr | hr⟩
    · exact heq.trans ht
    · exact absurd (Option.some.inj (ht.symm.trans hr)) h1
    · exact absurd (Option.some.inj (ht.symm.trans hr)) h2
  refine ⟨sch', hs, hok, schedSchedule_zombies hs, fun t => hkeep (by simp) (by simp),
    fun t => hkeep (by simp) (by simp), fun t => ?_⟩
  rcases hcases t with heq | ⟨h1 | h1, h2 | h2⟩
  · rw [heq]
  all_goals simp [h1, h2]

theorem Ok.refl (h : sch.Ok) : sch.Switched sch :=
  ⟨h, rfl, fun _ ht => ht, fun _ ht => ht, fun _ => rfl⟩

theorem schedYield_switched (h : sch.Ok) :
    ∃ sch', sch.schedYield = .ok sch' ∧ sch.Switched sch' := by
  unfold schedYield
  split
  · exact ⟨sch, rfl, h.refl⟩
  · exact schedSchedule_switched h.pre

theorem timer_switched (h : sch.Ok) :
    ∃ sch', sch.schedTick.schedPreemptPoint = .ok sch' ∧ sch.Switched sch' := by
  -- the tick counters and the request for a switch are nobody's business here
  have hsame : ∀ {a b : Sched}, a.ready = b.ready → a.state = b.state → a.current = b.current →
      b.Ok → a.Ok := by
    intro a b h1 h2 h3 hb
    exact ⟨h1 ▸ hb.ready_nodup, h1 ▸ h2 ▸ hb.ready_state, h3 ▸ h2 ▸ hb.running, h1 ▸ h3 ▸ hb.boot⟩
  have htick : sch.schedTick.ready = sch.ready ∧ sch.schedTick.state = sch.state ∧
      sch.schedTick.current = sch.current ∧ sch.schedTick.zombies = sch.zombies := by
    simp only [schedTick]
    split <;> exact ⟨rfl, rfl, rfl, rfl⟩
  obtain ⟨h1, h2, h3, h4⟩ := htick
  have hok := hsame h1 h2 h3 h
  unfold schedPreemptPoint
  split
  · have hok' : Ok { sch.schedTick with needResched := false } :=
      ⟨hok.ready_nodup, hok.ready_state, hok.running, hok.boot⟩
    obtain ⟨sch', hs, hsw⟩ := schedSchedule_switched hok'.pre
    exact ⟨sch', hs, hsw.ok, hsw.zombies.trans h4, h2 ▸ hsw.blocked, h2 ▸ hsw.dead, h2 ▸ hsw.known⟩
  · exact ⟨_, rfl, hok, h4, fun t ht => by rw [h2]; exact ht, fun t ht => by rw [h2]; exact ht,
      fun t => by rw [h2]⟩

theorem schedBlock_switched (h : sch.Ok) (hb : sch.current ≠ bootThread) :
    ∃ sch', sch.schedBlock = .ok sch' ∧ (sch.setState sch.current .blocked).Switched sch' :=
  schedSchedule_switched (h.pre_setState hb .blocked)

theorem threadExit_switched (h : sch.Ok) (hb : sch.current ≠ bootThread) :
    ∃ sch', sch.threadExit = .ok sch' ∧
      Switched { sch.setState sch.current .dead with zombies := sch.zombies ++ [sch.current] } sch' := by
  exact schedSchedule_switched { h.pre_setState hb .dead with }

/-! ## Waking -/

theorem schedUnblock_state (t : Tid) : (sch.schedUnblock w).state t =
      if t = w ∧ sch.state w = some .blocked then some .ready else sch.state t := by
  unfold schedUnblock
  by_cases hb : sch.state w = some .blocked
  · by_cases ht : t = w
    · subst ht; simp [hb]
    · simp [hb, ht]
  · simp [hb]

theorem schedUnblock_ne (ht : t ≠ w) : (sch.schedUnblock w).state t = sch.state t := by
  rw [schedUnblock_state, if_neg fun h => ht h.1]

theorem schedUnblock_known (t : Tid) :
    ((sch.schedUnblock w).state t).isSome = (sch.state t).isSome := by
  rw [schedUnblock_state]
  split
  next h => rw [h.1, h.2]; rfl
  · rfl

@[simp] theorem schedUnblock_zombies : (sch.schedUnblock w).zombies = sch.zombies := by
  unfold schedUnblock; split <;> rfl

/-- A thread that was not on the ready list is READY now, and the last on it. -/
theorem Ok.enqueue (h : sch.Ok) (hready : sch.state t ≠ some .ready) (hrun : sch.state t ≠ some .running) :
    ((sch.setState t .ready).schedEnqueue t).Ok := by
  have hnot : t ∉ sch.ready := fun hm => hready (h.ready_state t hm)
  have hcur : sch.current ≠ t := fun hc => hrun (hc ▸ h.running)
  refine ⟨h.ready_nodup.append (nodup_singleton t) (disjoint_singleton.mpr hnot), fun u hu => ?_, ?_,
    h.boot.imp_right fun hm => mem_append_left _ hm⟩
  · simp only [schedEnqueue, setState, mem_append, mem_singleton] at hu ⊢
    by_cases hut : u = t
    · subst hut; simp
    · rw [update_of_ne hut]
      exact h.ready_state u (hu.resolve_right hut)
  · simp only [schedEnqueue, setState, update_of_ne hcur]
    exact h.running

theorem schedUnblock_ok (h : sch.Ok) : (sch.schedUnblock w).Ok := by
  unfold schedUnblock
  split
  next hb => exact h.enqueue (by simp [hb]) (by simp [hb])
  · exact h

theorem threadCreate_ok (h : sch.Ok) (ht : sch.state t = none) : (sch.threadCreate t).Ok :=
  { h.enqueue (t := t) (by simp [ht]) (by simp [ht]) with }

theorem Runnable.schedUnblock (h : sch.Runnable t) (w : Tid) : (sch.schedUnblock w).Runnable t := by
  unfold Runnable
  rw [schedUnblock_state]
  split
  · exact .inl rfl
  · exact h

theorem Runnable.unblockAll (h : sch.Runnable t) (ws : List Tid) :
    (ws.foldl Sched.schedUnblock sch).Runnable t := by
  induction ws generalizing sch with
  | nil => exact h
  | cons w ws ih => exact ih (h.schedUnblock w)

theorem Runnable.schedSchedule (h : sch.Runnable t)
    (hs : sch.schedSchedule = .ok sch') : sch'.Runnable t := by
  rcases schedSchedule_state hs t with heq | ⟨hrun, -⟩
  · rw [Runnable, heq]; exact h
  · exact hrun

theorem Runnable.threadExit (h : sch.Runnable t) (ht : t ≠ sch.current)
    (hs : sch.threadExit = .ok sch') : sch'.Runnable t := by
  have hset : Runnable { sch.setState sch.current .dead with zombies := sch.zombies ++ [sch.current] } t := by
    simpa [Runnable, ht] using h
  exact hset.schedSchedule hs

end Exyde.Sched
