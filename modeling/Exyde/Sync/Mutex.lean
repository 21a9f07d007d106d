import Exyde.Sync.System

/-! # Mutexes and condition variables

An unlock wakes a waiter without making it the owner, so anybody may lock the mutex
before the woken thread runs, which then waits again. Exclusion, the owner field and the
absence of stranded waiters are kept by every pass; `cond_wait` is an unlock that parks
on another queue, and then a lock. -/

namespace Exyde.Sync

open Function Exyde.Lib Objects

/-- An unlocked mutex is one unit. -/
def Objects.mutexUnits (o : Objects) (m : Nat) : Nat := if (o.mutex m).locked then 0 else 1

@[simp] def Note.mutex? : Note → Option Nat
  | .acquired m | .released m => some m
  | _ => none

/-- What a pass of thread `t` means for mutex `m`. -/
inductive MutexCase (o : Objects) (t : Tid) (m : Nat) (p : Pass) : Prop
  | other : p.objects.mutex m = o.mutex m → p.note.mutex? ≠ some m → p.act.spares (.mutex m) →
      MutexCase o t m p
  | wait (again : Point) : again.queue = .mutex m → (o.mutex m).locked = true →
      p = ⟨o, .block again, .nothing⟩ → MutexCase o t m p
  | acquire : (o.mutex m).locked = false → p.objects.mutex m = ⟨true, some t⟩ → p.act = .proceed →
      p.note = .acquired m → MutexCase o t m p
  | release : (o.mutex m).locked = true → (o.mutex m).owner = some t →
      p.objects.mutex m = ⟨false, none⟩ →
      (p.act = .wake (.mutex m) ∨ ∃ q : Point, q.queue ≠ .mutex m ∧ p.act = .swap q (.mutex m)) →
      p.note = .released m → MutexCase o t m p

section

variable {o : Objects} {t : Tid} {m n : Nat} {refuse : Bool}

theorem setMutex_of_ne {v : Mutex} (h : n ≠ m) : (o.setMutex n v).mutex m = o.mutex m :=
  update_of_ne (Ne.symm h) ..

theorem mutexLock_case {again : Point} (hq : again.queue = .mutex n) :
    MutexCase o t m (o.mutexLock t n again) := by
  unfold mutexLock
  by_cases hn : n = m
  · subst hn
    split
    next hl => exact .wait again hq hl rfl
    next hl => exact .acquire (by simpa using hl) (update_self ..) rfl rfl
  · split
    · exact .other rfl (by simp) (by simp [hq, hn])
    · exact .other (setMutex_of_ne hn) (by simp [hn]) trivial

theorem mutexTrylock_case : MutexCase o t m (o.mutexTrylock t n) := by
  unfold mutexTrylock
  split
  · exact .other rfl (by simp) trivial
  next hl =>
    by_cases hn : n = m
    · subst hn
      exact .acquire (by simpa using hl) (update_self ..) rfl rfl
    · exact .other (setMutex_of_ne hn) (by simp [hn]) trivial

theorem mutexUnlock_ok {o' : Objects} (h : o.mutexUnlock t n = .ok o') :
    (o.mutex n).locked = true ∧ (o.mutex n).owner = some t ∧ o' = o.setMutex n ⟨false, none⟩ := by
  unfold mutexUnlock at h
  split at h
  · cases h
  next hl =>
    split at h
    · cases h
    next ho => exact ⟨by simpa using hl, by simpa using ho, (Except.ok.inj h).symm⟩

theorem call_mutex (c : Call) : MutexCase o t m (c.pass o t refuse) := by
  cases c with
  | lock n => exact mutexLock_case rfl
  | trylock n => exact mutexTrylock_case
  | unlock n =>
    simp only [Call.pass]
    split
    · exact .other rfl (by simp) (by simp)
    next o' ho =>
      obtain ⟨hl, hown, rfl⟩ := mutexUnlock_ok ho
      by_cases hn : n = m
      · subst hn
        exact .release hl hown (update_self ..) (Or.inl rfl) rfl
      · exact .other (setMutex_of_ne hn) (by simp [hn]) (by simp [hn])
  | condWait c n =>
    simp only [Call.pass, condWait]
    split
    · exact .other rfl (by simp) (by simp)
    next o' ho =>
      obtain ⟨hl, hown, rfl⟩ := mutexUnlock_ok ho
      by_cases hn : n = m
      · subst hn
        exact .release hl hown (update_self ..)
          (Or.inr ⟨_, by simp [Point.queue], rfl⟩) rfl
      · exact .other (setMutex_of_ne hn) (by simp [hn])
          (by simp [Point.queue, hn])
  | signal _ | broadcast _ | semPost _ =>
    exact .other rfl (by simp [Call.pass, semPost])
      (by simp [Call.pass, semPost])
  | semWait _ | semTrywait _ | send _ | trySend _ | procWait _ | procExit _ =>
    simp only [Call.pass, semWait, semTrywait, send, trySend,
      put, procWait, procExit]
    split <;> exact .other rfl (by simp) (by simp [Point.queue])
  | recv _ | tryRecv _ =>
    simp only [Call.pass, recv, tryRecv, take]
    split
    · exact .other rfl (by simp) (by simp [Point.queue])
    · split <;> exact .other rfl (by simp) (by simp)

/-- A resumed thread runs the first pass of a call again, or, in `cond_wait`,
that of a lock. -/
theorem point_pass (p : Point) : (∃ c : Call, p.pass o t refuse = c.pass o t refuse) ∨
      ∃ n, (p = .relock n ∨ ∃ c, p = .waiting c n) ∧
        p.pass o t refuse = o.mutexLock t n (.relock n) := by
  cases p with
  | lock n => exact Or.inl ⟨.lock n, rfl⟩
  | waiting c n => exact Or.inr ⟨n, Or.inr ⟨c, rfl⟩, rfl⟩
  | relock n => exact Or.inr ⟨n, Or.inl rfl, rfl⟩
  | semWait k => exact Or.inl ⟨.semWait k, rfl⟩
  | send x => exact Or.inl ⟨.send x, rfl⟩
  | recv x => exact Or.inl ⟨.recv x, rfl⟩
  | procWait q => exact Or.inl ⟨.procWait q, rfl⟩

theorem point_mutex (p : Point) : MutexCase o t m (p.pass o t refuse) := by
  rcases point_pass p with ⟨c, hc⟩ | ⟨n, -, hc⟩ <;> rw [hc]
  · exact call_mutex c
  · exact mutexLock_case rfl

theorem MutexCase.units {p : Pass} (h : MutexCase o t m p) :
    UnitCase (.mutex m) (o.mutexUnits m) (p.objects.mutexUnits m) p.act := by
  cases h with
  | other ho _ hs => exact .spare (by rw [mutexUnits, ho]; rfl) hs
  | wait again hq hl hp =>
    subst hp
    exact .taker (.wait again hq (if_pos hl) (if_pos hl))
  | acquire hl ho ha _ =>
    rw [ha]
    exact .taker (.take (by simp [mutexUnits, hl, ho]))
  | release hl _ ho ha _ =>
    have hu : p.objects.mutexUnits m = o.mutexUnits m + 1 := by simp [mutexUnits, hl, ho]
    rcases ha with ha | ⟨q, hq, ha⟩ <;> rw [ha]
    · exact .give hu
    · exact .swap q hq hu

theorem point_takes {p : Point} (hq : p.queue = .mutex m) :
    TakeCase (.mutex m) (o.mutexUnits m) ((p.pass o t refuse).objects.mutexUnits m)
      (p.pass o t refuse).act := by
  have hpass : p.pass o t refuse = o.mutexLock t m p := by
    cases p <;> cases hq <;> rfl
  rw [hpass]
  unfold mutexLock
  split
  next hl => exact .wait p hq (if_pos hl) (if_pos hl)
  next hl => exact .take (by simp [mutexUnits, setMutex, hl])

/-- A resumed thread does not panic, and it posts nothing. -/
theorem point_quiet (p : Point) (refuse : Bool) :
    (p.pass o t refuse).act.panic? = none ∧ ∀ k, (p.pass o t refuse).note ≠ .posted k := by
  cases p with
  | lock _ | waiting _ _ | relock _ | semWait _ | send _ | procWait _ =>
    simp only [Point.pass, mutexLock, semWait, send, put, procWait]
    split <;> exact ⟨rfl, by simp⟩
  | recv _ =>
    simp only [Point.pass, recv, take]
    split
    · exact ⟨rfl, by simp⟩
    · split <;> exact ⟨rfl, by simp⟩

end

/-! ## The invariant -/

/-- The record of who holds the mutex, its owner and its flag agree, and no
waiter is stranded. -/
structure MutexOk (s : State) (m : Nat) : Prop where
  held : s.held m = (s.objects.mutex m).owner.toList
  locked : (s.objects.mutex m).locked = (s.objects.mutex m).owner.isSome
  gate : (s.waiters.gate (s.objects.mutexUnits m) (.mutex m)).Ok

section

variable {s s' : State} {t : Tid} {m : Nat}

theorem held_record {note : Note} (h : note.mutex? ≠ some m) :
    (s.record t note).held m = s.held m := by
  cases note with
  | nothing | took _ | posted _ => rfl
  | acquired n | released n =>
    have hne : m ≠ n := by rintro rfl; exact h rfl
    exact update_of_ne hne ..

theorem owner_none {v : Mutex} (h : v.locked = v.owner.isSome) (hl : v.locked = false) :
    v.owner = none := by
  rw [hl] at h
  exact Option.isNone_iff_eq_none.mp (by simpa using h.symm)

theorem MutexCase.held {p : Pass} (h : MutexCase s.objects t m p)
    (hheld : s.held m = (s.objects.mutex m).owner.toList)
    (hlocked : (s.objects.mutex m).locked = (s.objects.mutex m).owner.isSome) :
    (s.run t p).held m = (p.objects.mutex m).owner.toList ∧
      (p.objects.mutex m).locked = (p.objects.mutex m).owner.isSome := by
  have hrun : (s.run t p).held = (s.record t p.note).held := rfl
  rw [hrun]
  cases h with
  | other ho hn _ =>
    rw [ho, held_record hn]
    exact ⟨hheld, hlocked⟩
  | wait again _ _ hp =>
    subst hp
    exact ⟨hheld, hlocked⟩
  | acquire hl ho _ hn =>
    -- nobody owned it
    rw [owner_none hlocked hl] at hheld
    rw [ho, hn]
    simp [State.record, hheld]
  | release _ hown ho _ hn =>
    rw [hown] at hheld
    rw [ho, hn]
    simp [State.record, hheld]

theorem MutexOk.step (h : MutexOk s m) (hpl : Placed s) {e : SyncEvent}
    (hs : s.step e = some s') : MutexOk s' m := by
  obtain ⟨-, hcase⟩ := step_case hs
  cases hcase with
  | call t c refuse hd heq =>
    subst heq
    have hc : MutexCase s.objects t m (c.pass s.objects t refuse) := call_mutex c
    obtain ⟨hheld, hlocked⟩ := hc.held h.held h.locked
    exact ⟨hheld, hlocked, hc.units.ok hpl.ok (hpl.on_none hd) h.gate⟩
  | resume t refuse p hw hd heq =>
    subst heq
    have hc : MutexCase (s.awake t).objects t m (p.pass s.objects t refuse) := point_mutex p
    obtain ⟨hheld, hlocked⟩ := hc.held h.held h.locked
    exact ⟨hheld, hlocked, hpl.resume_ok hw hd hc.units point_takes h.gate⟩

theorem reach_mutexOk {n : Nat → Nat} {ok : State → SyncEvent → Prop}
    (h : Reach (syncSystem n) ok s) : (∀ m, MutexOk s m) ∧ (s.panic = none → Placed s) := by
  refine reach_keeps (I := fun s => ∀ m, MutexOk s m) h ?_ ?_
  · exact fun ring m => ⟨rfl, rfl, fun hlt => absurd hlt (Nat.lt_irrefl 0)⟩
  · exact fun s e s' hok hpl _ hs m => (hok m).step hpl hs

end

/-! ## Safety -/

/-- The documented preconditions: an unlock and a `cond_wait` are for the thread
that holds the mutex. -/
def Proper (s : State) : SyncEvent → Prop
  | .call t (.unlock m) _ | .call t (.condWait _ m) _ => t ∈ s.held m
  | _ => True

instance (s : State) (e : SyncEvent) : Decidable (Proper s e) := by
  unfold Proper
  split <;> infer_instance

/-- The thread is in `cond_wait`, has released the mutex and has not been
popped since. -/
def State.AsleepOn (s : State) (t : Tid) (c : Nat) : Prop :=
  (∃ m, s.doing t = some (.waiting c m)) ∧ t ∉ s.waiters.woken

structure LocksSafe (s : State) : Prop where
  exclusive : ∀ m, (s.held m).length ≤ 1
  owner : ∀ m t, (s.objects.mutex m).locked = true ∧ (s.objects.mutex m).owner = some t ↔ t ∈ s.held m
  unowned : ∀ m, (s.objects.mutex m).locked = false → (s.objects.mutex m).owner = none
  /-- `cond_wait` returns to a thread that holds the mutex. -/
  returns : ∀ t refuse c m s', s.doing t = some (.waiting c m) ∨ s.doing t = some (.relock m) →
    s.step (.resume t refuse) = some s' → s'.doing t = none → s'.held m = [t]
  asleep : ∀ t c, s.AsleepOn t c → t ∈ s.waiters.queue (.cond c)
  /-- A signal pops a waiter if there is one. -/
  signal : ∀ t refuse c u rest s', s.waiters.queue (.cond c) = u :: rest →
    s.step (.call t (.signal c) refuse) = some s' →
    s'.waiters.queue (.cond c) = rest ∧ u ∈ s'.waiters.woken
  stranded : ∀ m, (s.objects.mutex m).locked = false → s.waiters.queue (.mutex m) ≠ [] →
    ∃ t ∈ s.waiters.woken, s.waiters.on t = some (.mutex m)

section

variable {s : State} {n : Nat → Nat}

theorem MutexOk.mem_held {m : Nat} (h : MutexOk s m) (t : Tid) :
    (s.objects.mutex m).locked = true ∧ (s.objects.mutex m).owner = some t ↔ t ∈ s.held m := by
  rw [h.held, h.locked]
  cases (s.objects.mutex m).owner with
  | none => simp
  | some u => simp [eq_comm]

theorem call_no_panic {t : Tid} {c : Call} {refuse : Bool} (hok : ∀ m, MutexOk s m)
    (hpr : Proper s (.call t c refuse)) : (c.pass s.objects t refuse).act.panic? = none := by
  have hunlock : ∀ m, t ∈ s.held m →
      s.objects.mutexUnlock t m = .ok (s.objects.setMutex m ⟨false, none⟩) := by
    intro m hm
    obtain ⟨hl, ho⟩ := ((hok m).mem_held t).mpr hm
    simp [mutexUnlock, hl, ho]
  cases c with
  | unlock m => simp only [Call.pass, hunlock m hpr]; rfl
  | condWait c m => simp only [Call.pass, condWait, hunlock m hpr]; rfl
  | lock _ | trylock _ | semWait _ | semTrywait _ | send _ | trySend _ | procWait _ | procExit _ =>
    simp only [Call.pass, mutexLock, mutexTrylock, semWait, semTrywait, send, trySend, put, procWait,
      procExit]
    split <;> rfl
  | recv _ | tryRecv _ =>
    simp only [Call.pass, recv, tryRecv, take]
    split
    · rfl
    · split <;> rfl
  | signal _ | broadcast _ | semPost _ => rfl

theorem proper_no_panic (h : Reach (syncSystem n) Proper s) : s.panic = none := by
  induction h with
  | start hs => obtain ⟨ring, rfl⟩ := hs; rfl
  | step hr hpr hs _ =>
    obtain ⟨hok, -⟩ := reach_mutexOk hr
    obtain ⟨-, hcase⟩ := step_case hs
    cases hcase with
    | call t c refuse _ heq =>
      subst heq
      exact call_no_panic hok hpr
    | resume t refuse p _ _ heq =>
      subst heq
      exact (point_quiet p refuse).1

theorem condWait_returns {t : Tid} {refuse : Bool} {c m : Nat} {s' : State} (hok : MutexOk s m)
    (hd : s.doing t = some (.waiting c m) ∨ s.doing t = some (.relock m))
    (hs : s.step (.resume t refuse) = some s') (hdone : s'.doing t = none) : s'.held m = [t] := by
  obtain ⟨-, hcase⟩ := step_case hs
  cases hcase with
  | resume _ _ p hw hp heq =>
    have hpass : p.pass s.objects t refuse = s.objects.mutexLock t m (.relock m) := by
      rcases hd with hd | hd <;> rw [hp] at hd <;> cases hd <;> rfl
    have hdoing : s'.doing t = (p.pass s.objects t refuse).act.point? := by
      rw [heq]
      exact update_self ..
    rw [hdoing, hpass] at hdone
    by_cases hl : (s.objects.mutex m).locked = true
    · simp [mutexLock, hl, Act.point?] at hdone
    · have hnone := owner_none hok.locked (by simpa using hl)
      have hheld : s.held m = [] := by rw [hok.held, hnone]; rfl
      rw [heq, hpass]
      simp [State.run, mutexLock, hl, State.record, State.awake, hheld]

/-- **Mutex and condition variable safety**, in every run that keeps the
documented preconditions. -/
theorem locks_safe (h : Reach (syncSystem n) Proper s) : s.panic = none ∧ LocksSafe s := by
  have hp := proper_no_panic h
  obtain ⟨hok, hpl⟩ := reach_mutexOk h
  have hpl := hpl hp
  refine ⟨hp, ⟨?_, fun m t => (hok m).mem_held t, ?_, ?_, ?_, ?_, ?_⟩⟩
  · intro m
    rw [(hok m).held]
    cases (s.objects.mutex m).owner <;> simp
  · exact fun m hl => owner_none (hok m).locked hl
  · exact fun t refuse c m s' hd hs hdone => condWait_returns (hok m) hd hs hdone
  · intro t c ⟨⟨m, hd⟩, hnw⟩
    have hon : s.waiters.on t = some (.cond c) := by rw [hpl.point t, hd]; rfl
    exact (hpl.ok.placed _ t hon).resolve_right hnw
  · intro t refuse c u rest s' hq hs
    obtain ⟨-, hcase⟩ := step_case hs
    cases hcase with
    | call _ _ _ _ heq =>
      subst heq
      have hw : (s.run t (Call.pass s.objects t refuse (.signal c))).waiters =
          s.waiters.wake (.cond c) := rfl
      rw [hw]
      simp [Waiters.wake, hq]
  · intro m hl hq
    have hunits : s.objects.mutexUnits m = 1 := if_neg (by rw [hl]; simp)
    have hgate := (hok m).gate (List.length_pos_iff.mpr hq)
    rw [hunits] at hgate
    exact Waiters.exists_woken hgate

end

/-- Thread 1 waits on condition variable 0 with mutex 0; thread 2 locks the
mutex and signals; thread 3 waits for the mutex, which thread 2 then unlocks. -/
def signalled : List SyncEvent :=
  [.call 1 (.lock 0) false, .call 1 (.condWait 0 0) false, .call 2 (.lock 0) false,
    .call 3 (.lock 0) false, .call 2 (.signal 0) false, .call 2 (.unlock 0) false]

/-- After such a run both waiters have been popped; thread 3 comes for the mutex. -/
theorem locks_safe_signalled :
    ∃ s, Reach (syncSystem fun _ => 0) Proper s ∧ s.waiters.woken = [1, 3] ∧
      (s.objects.mutex 0).locked = false ∧ LocksSafe s := by
  obtain ⟨s, hs, hwoken, hlocked⟩ : ∃ s ∈ (syncSystem fun _ => 0).runOk Proper
      (State.init (fun _ => 0) fun _ => ⟨0, 1⟩) signalled,
      s.waiters.woken = [1, 3] ∧ (s.objects.mutex 0).locked = false := by decide +kernel
  have hreach := Reach.runOk hs (.start ⟨_, rfl⟩)
  exact ⟨s, hreach, hwoken, hlocked, (locks_safe hreach).2⟩

end Exyde.Sync
