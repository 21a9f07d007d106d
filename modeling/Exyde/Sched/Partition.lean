import Mathlib.Data.List.Perm.Subperm
import Exyde.Sched.Switch
import Exyde.Sched.Linked

/-! # Every thread is in one place

RUNNING, READY, BLOCKED and DEAD threads are current, on the ready list, on a wait queue
and on the zombie list. `Places` says so about the lists; `Good` adds the pointers. Each
scheduler operation moves one thread at a time and keeps both. -/

namespace Exyde

open Function Exyde.Lib List Option Linked

/-- The state of thread `t` is the place where it is. -/
structure PlacedAt {κ : Type} (sch : Sched) (qs : κ → List Tid) (t : Tid) : Prop where
  running : sch.state t = some .running → t = sch.current
  ready : t ∈ sch.ready ↔ sch.state t = some .ready
  blocked : (∃ q, t ∈ qs q) ↔ sch.state t = some .blocked
  dead : t ∈ sch.zombies ↔ sch.state t = some .dead

def Places {κ : Type} (sch : Sched) (qs : κ → List Tid) : Prop := ∀ t, PlacedAt sch qs t

section

variable {κ : Type} {sch sch' : Sched} {qs qs' : κ → List Tid} {t : Tid} {q : κ} {rest : List Tid}

theorem Places.off (h : Places sch qs) (hr : sch.state t ≠ some .ready)
    (hd : sch.state t ≠ some .dead) : t ∉ sch.ready ∧ t ∉ sch.zombies :=
  ⟨fun hm => hr ((h t).ready.mp hm), fun hm => hd ((h t).dead.mp hm)⟩

theorem Places.not_queued (h : Places sch qs) (hb : sch.state t ≠ some .blocked) (q : κ) :
    t ∉ qs q := fun hm => hb ((h t).blocked.mp ⟨q, hm⟩)

structure SamePlace (sch sch' : Sched) (qs qs' : κ → List Tid) (u : Tid) : Prop where
  state : sch'.state u = sch.state u
  ready : u ∈ sch'.ready ↔ u ∈ sch.ready
  queue : (∃ q, u ∈ qs' q) ↔ ∃ q, u ∈ qs q
  zombies : u ∈ sch'.zombies ↔ u ∈ sch.zombies

theorem Places.move (h : Places sch qs) (hsame : ∀ u, u ≠ t → SamePlace sch sch' qs qs' u)
    (hrun : ∀ u, u ≠ t → sch.state u = some .running → u = sch'.current)
    (ht : PlacedAt sch' qs' t) : Places sch' qs' := by
  intro u
  by_cases hu : u = t
  · subst hu; exact ht
  · obtain ⟨hstate, hready, hqueue, hzombies⟩ := hsame u hu
    refine ⟨?_, ?_, ?_, ?_⟩ <;> rw [hstate]
    · exact hrun u hu
    · exact hready.trans (h u).ready
    · exact hqueue.trans (h u).blocked
    · exact hzombies.trans (h u).dead

/-! ## Switching -/

theorem Places.requeue (h : Places sch qs) : Places sch.requeue qs := by
  by_cases hrun : sch.state sch.current = some .running
  · rw [Sched.requeue_of_running hrun]
    refine h.move (t := sch.current) ?_ (fun u hu hr => absurd ((h u).running hr) hu) ?_
    · intro u hu
      exact ⟨update_of_ne hu .., by simp [hu], Iff.rfl, Iff.rfl⟩
    · refine ⟨fun _ => rfl, ?_, ?_, ?_⟩ <;> simp only [Sched.schedEnqueue, Sched.setState, update_self]
      · simp
      · simpa [hrun] using (h sch.current).blocked
      · simpa [hrun] using (h sch.current).dead
  · rw [Sched.requeue_of_ne hrun]
    exact h

theorem Places.dispatch {next : Tid} (h : Places sch qs)
    (hnobody : ∀ u, sch.state u ≠ some .running) (hr : sch.ready = next :: rest)
    (hnodup : sch.ready.Nodup) : Places (sch.dispatch next rest) qs := by
  obtain ⟨hnext, -⟩ := nodup_cons.mp (hr ▸ hnodup)
  have hnr : sch.state next = some .ready := (h next).ready.mp (by simp [hr])
  refine h.move (t := next) ?_ (fun u _ hrun => absurd hrun (hnobody u)) ?_
  · intro u hu
    exact ⟨update_of_ne hu .., by simp [Sched.dispatch, hr, hu], Iff.rfl, Iff.rfl⟩
  · refine ⟨fun _ => rfl, ?_, ?_, ?_⟩ <;> simp only [Sched.dispatch, update_self]
    · simpa using hnext
    · simpa [hnr] using (h next).blocked
    · simpa [hnr] using (h next).dead

theorem Places.schedule (h : Places sch qs) (hnodup : sch.ready.Nodup)
    (hs : sch.schedSchedule = .ok sch') :
    Places sch' qs ∧ sch'.state sch'.current = some .running ∧ sch'.zombies = sch.zombies ∧
      ∀ t, sch'.state t = none ↔ sch.state t = none := by
  have hknown : ∀ t, sch'.state t = none ↔ sch.state t = none := by
    intro t
    rcases Sched.schedSchedule_state hs t with heq | ⟨h1 | h1, h2 | h2⟩
    · rw [heq]
    all_goals simp [h1, h2, (h t).ready.mp]
  refine ⟨?_, ?_, Sched.schedSchedule_zombies hs, hknown⟩
  · rcases Sched.schedSchedule_cases hs with ⟨rfl, -⟩ | ⟨next, rest, -, hr, rfl⟩
    · exact h
    refine h.requeue.dispatch (fun u hu => ?_) hr ?_
    · rw [Sched.requeue_state] at hu
      split at hu
      · cases hu
      next hno => exact hno ⟨(h u).running hu, hu⟩
    · by_cases hrun : sch.state sch.current = some .running
      · have hoff := h.off (t := sch.current) (by simp [hrun]) (by simp [hrun])
        rw [Sched.requeue_of_running hrun]
        exact hnodup.append (nodup_singleton _) (disjoint_singleton.mpr hoff.1)
      · rw [Sched.requeue_of_ne hrun]
        exact hnodup
  · rcases Sched.schedSchedule_cases hs with ⟨rfl, hrun⟩ | ⟨next, rest, -, -, rfl⟩
    · exact hrun
    · exact update_self ..

/-! ## Blocking, waking, exiting, creating -/

theorem Places.park [DecidableEq κ] (h : Places sch qs)
    (hrun : sch.state sch.current = some .running) (q : κ) :
    Places (sch.setState sch.current .blocked)
      (update qs q (qs q ++ [sch.current])) := by
  refine h.move (t := sch.current) ?_ (fun u hu hr => absurd ((h u).running hr) hu) ?_
  · intro u hu
    refine ⟨update_of_ne hu .., Iff.rfl, exists_congr fun q' => ?_, Iff.rfl⟩
    by_cases hq : q' = q
    · subst hq; simp [hu]
    · simp [hq]
  · obtain ⟨hoff, hoffz⟩ := h.off (t := sch.current) (by simp [hrun]) (by simp [hrun])
    refine ⟨fun _ => rfl, ?_, ?_, ?_⟩ <;> simp only [Sched.setState, update_self]
    · simpa using hoff
    · simp only [iff_true]
      exact ⟨q, by simp⟩
    · simpa using hoffz

theorem Places.unblock [DecidableEq κ] (h : Places sch qs)
    (hq : qs q = t :: rest) (hnodup : (qs q).Nodup)
    (happ : ∀ q', q ≠ q' → List.Disjoint (qs q) (qs q')) :
    Places (sch.schedUnblock t) (update qs q rest) := by
  have ht : sch.state t = some .blocked := (h t).blocked.mp ⟨q, by simp [hq]⟩
  have hsched : sch.schedUnblock t = (sch.setState t .ready).schedEnqueue t := by
    simp [Sched.schedUnblock, ht]
  rw [hsched]
  refine h.move (t := t) ?_ (fun u _ hr => (h u).running hr) ?_
  · intro u hu
    refine ⟨update_of_ne hu .., by simp [hu],
      exists_congr fun q' => ?_, Iff.rfl⟩
    by_cases hne : q' = q
    · subst hne; simp [hq, hu]
    · simp [hne]
  · have hgone : ∀ q', t ∉ update qs q rest q' := by
      intro q'
      by_cases hne : q' = q
      · subst hne
        rw [hq] at hnodup
        simpa using (nodup_cons.mp hnodup).1
      · simpa [hne] using happ q' (Ne.symm hne) (by simp [hq])
    refine ⟨?_, ?_, ?_, ?_⟩ <;> simp only [Sched.schedEnqueue, Sched.setState, update_self]
    · simp
    · simp
    · simpa using hgone
    · simpa [ht] using (h t).dead

theorem Places.exit (h : Places sch qs) (hrun : sch.state sch.current = some .running) :
    Places { sch.setState sch.current .dead with zombies := sch.zombies ++ [sch.current] } qs := by
  refine h.move (t := sch.current) ?_ (fun u hu hr => absurd ((h u).running hr) hu) ?_
  · intro u hu
    exact ⟨update_of_ne hu .., Iff.rfl, Iff.rfl, by simp [hu]⟩
  · refine ⟨fun _ => rfl, ?_, ?_, ?_⟩ <;> simp only [Sched.setState, update_self]
    · simpa [hrun] using (h sch.current).ready
    · simpa [hrun] using (h sch.current).blocked
    · simp

theorem Places.create (h : Places sch qs) (ht : sch.state t = none) :
    Places (sch.threadCreate t) qs := by
  refine h.move (t := t) ?_ (fun u _ hr => (h u).running hr) ?_
  · intro u hu
    exact ⟨update_of_ne hu .., by simp [Sched.threadCreate, hu],
      Iff.rfl, Iff.rfl⟩
  · refine ⟨?_, ?_, ?_, ?_⟩ <;>
      simp only [Sched.threadCreate, Sched.schedEnqueue, Sched.setState, update_self]
    · simp
    · simp
    · simpa [ht] using (h t).blocked
    · simpa [ht] using (h t).dead

def Sched.reaped (sch : Sched) : Sched :=
  { sch with
    zombies := []
    state := fun t => if t ∈ sch.zombies then none else sch.state t }

theorem Places.reap (h : Places sch qs) : Places sch.reaped qs := by
  intro u
  by_cases hu : u ∈ sch.zombies
  · have hd := (h u).dead.mp hu
    have hplace := h u
    refine ⟨?_, ?_, ?_, ?_⟩ <;> simp only [Sched.reaped, hu, if_true]
    · simp
    · simpa [hd] using hplace.ready
    · simpa [hd] using hplace.blocked
    · simp
  · refine ⟨?_, ?_, ?_, ?_⟩ <;> simp only [Sched.reaped, hu, if_false]
    · exact (h u).running
    · exact (h u).ready
    · exact (h u).blocked
    · simpa [hu] using (h u).dead

end

/-! ## Pointers and places -/

/-- The pointers stand for lists in which everybody is in place, and the thread
objects are the threads that have a state. -/
structure Good {κ : Type} (l : Linked κ) (sch : Sched) (qs : κ → List Tid) : Prop where
  rep : Rep l sch qs
  places : Places sch qs
  threads : ∀ t, t ∈ l.threads ↔ sch.state t ≠ none
  threads_nodup : l.threads.Nodup

section

variable {κ : Type} {l l' : Linked κ} {sch : Sched} {qs : κ → List Tid} {t : Tid}
  {st : ThreadState}

theorem schedEnqueue_threads : (l.schedEnqueue t).threads = l.threads ∧
    (l.schedEnqueue t).freed = l.freed := by
  rw [schedEnqueue_eq]
  exact ⟨rfl, rfl⟩

theorem schedSchedule_threads (hs : l.schedSchedule = .ok l') :
    l'.threads = l.threads ∧ l'.freed = l.freed := by
  unfold schedSchedule readyDequeue at hs
  split at hs
  · split at hs
    · cases hs; exact ⟨rfl, rfl⟩
    · cases hs
  next next l1 hpair =>
    have hl1 : l1.threads = l.threads ∧ l1.freed = l.freed := by
      split at hpair
      · cases hpair
      · cases hpair; exact ⟨rfl, rfl⟩
    cases hs
    split
    · exact ⟨schedEnqueue_threads.1.trans hl1.1, schedEnqueue_threads.2.trans hl1.2⟩
    · exact hl1

section

variable (h : Good l sch qs)

include h

theorem Good.schedule (hs : l.schedSchedule = .ok l') :
    ∃ sch', Good l' sch' qs ∧ sch'.state sch'.current = some .running ∧
      sch'.zombies = sch.zombies ∧ l'.freed = l.freed ∧ l'.threads = l.threads := by
  have hagree := h.rep.schedSchedule fun hrun => h.places.off (by simp [hrun]) (by simp [hrun])
  rw [hs] at hagree
  generalize hsch : sch.schedSchedule = r at hagree
  cases hagree with
  | ok hrep =>
    obtain ⟨hplaces, hrun, hzombies, hknown⟩ := h.places.schedule h.rep.ready.nodup hsch
    obtain ⟨hthreads, hfreed⟩ := schedSchedule_threads hs
    refine ⟨_, ⟨hrep, hplaces, fun t => ?_, hthreads ▸ h.threads_nodup⟩, hrun, hzombies, hfreed, hthreads⟩
    rw [hthreads, h.threads t, ne_eq, ne_eq, hknown t]

theorem Good.tick : Good l.schedTick sch.schedTick qs := by
  have hsame : sch.schedTick.state = sch.state ∧ sch.schedTick.ready = sch.ready ∧
      sch.schedTick.zombies = sch.zombies ∧ sch.schedTick.current = sch.current := by
    simp only [Sched.schedTick]
    split <;> exact ⟨rfl, rfl, rfl, rfl⟩
  obtain ⟨hstate, hready, hzombies, hcurrent⟩ := hsame
  have hthreads : l.schedTick.threads = l.threads := by
    simp only [schedTick]
    split <;> rfl
  refine ⟨h.rep.schedTick, fun t => ⟨?_, ?_, ?_, ?_⟩, ?_, hthreads ▸ h.threads_nodup⟩
  · rw [hstate, hcurrent]; exact (h.places t).running
  · rw [hstate, hready]; exact (h.places t).ready
  · rw [hstate]; exact (h.places t).blocked
  · rw [hstate, hzombies]; exact (h.places t).dead
  · rw [hthreads, hstate]; exact h.threads

theorem Good.clearResched :
    Good { l with needResched := false } { sch with needResched := false } qs :=
  ⟨⟨h.rep.state, h.rep.ticks, h.rep.current, rfl, h.rep.ready, h.rep.count, h.rep.zombies, h.rep.apart,
    h.rep.queues, h.rep.queues_apart⟩,
    fun t => ⟨(h.places t).running, (h.places t).ready, (h.places t).blocked, (h.places t).dead⟩,
    h.threads, h.threads_nodup⟩

theorem Good.exit (hrun : sch.state sch.current = some .running) :
    Good ((l.setState l.current .dead).zombiePush l.current)
      { sch.setState sch.current .dead with zombies := sch.zombies ++ [sch.current] } qs := by
  obtain ⟨hr, hz⟩ := h.places.off (t := sch.current) (by simp [hrun]) (by simp [hrun])
  refine ⟨?_, h.places.exit hrun, ?_, h.threads_nodup⟩
  · rw [h.rep.current]
    exact (h.rep.setState sch.current .dead).zombiePush hr hz
  · intro t
    refine (h.threads t).trans ?_
    by_cases ht : t = sch.current
    · subst ht; simp [hrun]
    · simp [ht]

theorem Good.create (ht : l.state t = none) :
    Good (l.threadCreate t) (sch.threadCreate t) qs := by
  have hnone : sch.state t = none := by rw [← h.rep.state]; exact ht
  obtain ⟨hr, hz⟩ := h.places.off (t := t) (by simp [hnone]) (by simp [hnone])
  have hq : ∀ q, t ∉ qs q := h.places.not_queued (by simp [hnone])
  have hset := h.rep.setState t .ready
  have halloc : Rep (l.threadAlloc t)
      { sch.setState t .ready with ticksUsed := update sch.ticksUsed t 0 } qs :=
    ⟨hset.state, by simp only [threadAlloc, h.rep.ticks], hset.current, hset.needResched,
      hset.ready.frame hr none, hset.count, hset.zombies.frame hz none, hset.apart,
      fun q => (hset.queues q).frame (hq q) none, hset.queues_apart⟩
  refine ⟨halloc.schedEnqueue hr hz, h.places.create hnone, ?_, ?_⟩
  · intro u
    rw [threadCreate, schedEnqueue_threads.1]
    by_cases hu : u = t
    · subst hu
      simp [threadAlloc, Sched.threadCreate]
    · simpa [threadAlloc, Sched.threadCreate, hu] using h.threads u
  · rw [threadCreate, schedEnqueue_threads.1]
    refine nodup_cons.mpr ⟨fun hm => ?_, h.threads_nodup⟩
    exact (h.threads t).mp hm hnone

end

/-! ### Reaping -/

/-- The loop of `reap_zombies` frees the threads of its chain, once each. -/
theorem reapFrom_eq {zs : List Tid} {n : Nat} {z : Option Tid} (hc : Chain l.next z zs)
    (hnodup : zs.Nodup) (hn : zs.length ≤ n) :
    l.reapFrom n z =
      { l with
        freed := l.freed ++ zs
        threads := zs.foldl List.erase l.threads
        state := fun t => if t ∈ zs then none else l.state t
        next := fun t => if t ∈ zs then none else l.next t } := by
  induction zs generalizing l n z with
  | nil =>
    have hz : z = none := hc
    subst hz
    cases n <;> simp [reapFrom]
  | cons a zs ih =>
    obtain ⟨ha, hnodup⟩ := nodup_cons.mp hnodup
    obtain ⟨rfl, hc⟩ := hc
    cases n with
    | zero => simp at hn
    | succ n =>
      rw [reapFrom, ih (hc.frame ha none) hnodup (by simpa using hn)]
      have hif : ∀ {β : Type} (f : Tid → Option β), (fun t => if t ∈ zs then none else update f a none t) =
          fun t => if t ∈ a :: zs then none else f t := by
        intro β f
        funext t
        by_cases ht : t = a
        · subst ht; simp
        · simp [ht]
      simp [freeThread, hif]

/-- **Reaping frees every zombie once, and nobody else.** -/
theorem Good.reap (h : Good l sch qs) :
    Good l.reapZombies sch.reaped qs ∧ l.reapZombies.freed = l.freed ++ sch.zombies ∧
      (sch.zombies ++ l.reapZombies.threads).Perm l.threads := by
  have hsub : sch.zombies ⊆ l.threads := fun t ht => (h.threads t).mpr (by rw [(h.places t).dead.mp ht]; simp)
  have hperm := h.rep.zombies.nodup.subperm hsub
  have heq := reapFrom_eq (l := { l with zombie := .empty }) h.rep.zombies.chain h.rep.zombies.nodup
    hperm.length_le
  rw [show l.reapZombies = _ from heq, ← diff_eq_foldl]
  refine ⟨⟨⟨?_, h.rep.ticks, h.rep.current, h.rep.needResched, ?_, h.rep.count, .empty,
    disjoint_nil_right _, h.rep.queues, h.rep.queues_apart⟩, h.places.reap, ?_,
    h.threads_nodup.diff⟩, rfl, subperm_append_diff_self_of_count_le fun _ _ => hperm.count_le _⟩
  · simp only [Sched.reaped, h.rep.state]
  · refine h.rep.ready.congr fun t ht => ?_
    simp only [if_neg (h.rep.apart ht)]
  · intro t
    rw [h.threads_nodup.mem_sdiff_iff, h.threads t]
    by_cases ht : t ∈ sch.zombies <;> simp [Sched.reaped, ht]

/-! ### Who is alive -/

def Linked.Alive (l : Linked κ) (t : Tid) : Prop := l.state t ≠ none ∧ l.state t ≠ some .dead

theorem Linked.Alive.setState (h : l.Alive t) {u : Tid} (hst : st ≠ .dead) :
    (l.setState u st).Alive t := by
  by_cases hu : t = u
  · subst hu; simpa [Linked.Alive, Linked.setState] using hst
  · simpa [Linked.Alive, Linked.setState, hu] using h

theorem Good.alive (h : Good l sch qs) : l.Alive t ↔ t ∈ l.threads ∧ t ∉ sch.zombies := by
  rw [Linked.Alive, h.rep.state, h.threads, (h.places t).dead]

/-! ### Wait queues -/

theorem schedUnblock_threads : (l.schedUnblock t).threads = l.threads ∧
    (l.schedUnblock t).freed = l.freed := by
  unfold schedUnblock
  split
  · exact schedEnqueue_threads
  · exact ⟨rfl, rfl⟩

variable [DecidableEq κ] {q : κ}

theorem Good.push (h : Good l sch qs) (hrun : sch.state sch.current = some .running) (q : κ) :
    Good ((l.waitqPush q l.current).setState l.current .blocked) (sch.setState sch.current .blocked)
      (update qs q (qs q ++ [sch.current])) := by
  rw [h.rep.current]
  have hrep := h.rep.waitqPush (h.places.not_queued (t := sch.current) (by simp [hrun])) q
  refine ⟨hrep.setState sch.current .blocked, h.places.park hrun q, ?_, h.threads_nodup⟩
  intro t
  refine (h.threads t).trans ?_
  by_cases ht : t = sch.current
  · subst ht; simp [hrun]
  · simp [ht]

theorem wake_threads (q : κ) : (l.wake q).threads = l.threads ∧ (l.wake q).freed = l.freed := by
  unfold wake waitqPop
  split
  · exact ⟨rfl, rfl⟩
  next t l1 hpair =>
    have hl1 : l1.threads = l.threads ∧ l1.freed = l.freed := by
      split at hpair
      · cases hpair
      · cases hpair; exact ⟨rfl, rfl⟩
    exact ⟨schedUnblock_threads.1.trans hl1.1, schedUnblock_threads.2.trans hl1.2⟩

theorem wake_current (q : κ) : (l.wake q).current = l.current := by
  have hunblock : ∀ {l : Linked κ} {t : Tid}, (l.schedUnblock t).current = l.current := by
    intro l t
    unfold schedUnblock
    split
    · rw [schedEnqueue_eq]; rfl
    · rfl
  unfold wake waitqPop
  split
  · rfl
  next t l1 hpair =>
    rw [hunblock]
    split at hpair
    · cases hpair
    · cases hpair; rfl

theorem Sched.schedUnblock_running (h : sch.state sch.current = some .running) :
    (sch.schedUnblock t).state (sch.schedUnblock t).current = some .running := by
  rw [Sched.schedUnblock_current, Sched.schedUnblock_state]
  split
  next ht => rw [← ht.1, h] at ht; simp at ht
  · exact h

theorem Sched.foldl_schedUnblock_running (h : sch.state sch.current = some .running) (ts : List Tid) :
    (ts.foldl Sched.schedUnblock sch).state (ts.foldl Sched.schedUnblock sch).current =
      some .running := by
  induction ts generalizing sch with
  | nil => exact h
  | cons t ts ih => exact ih (Sched.schedUnblock_running h)

def Sched.unblock? (sch : Sched) : Option Tid → Sched
  | none => sch
  | some t => sch.schedUnblock t

theorem Good.wake (h : Good l sch qs) (q : κ) :
    Good (l.wake q) (sch.unblock? (qs q).head?) (update qs q (qs q).tail) := by
  cases hq : qs q with
  | nil =>
    rw [h.rep.wake_nil hq, tail_nil, ← hq, update_eq_self, hq]
    exact h
  | cons t rest =>
    have ht : sch.state t = some .blocked := (h.places t).blocked.mp ⟨q, by simp [hq]⟩
    have hoff := h.places.off (t := t) (by simp [ht]) (by simp [ht])
    refine ⟨h.rep.wake_cons hq fun _ => hoff,
      h.places.unblock hq (h.rep.queues q).nodup fun q' hne => h.rep.queues_apart q q' hne, ?_, ?_⟩
    · intro u
      rw [(wake_threads q).1]
      refine (h.threads u).trans ?_
      simp only [List.head?_cons, Sched.unblock?]
      rw [Sched.schedUnblock_state]
      split
      next hu => simp [hu.1, ht]
      · rfl
    · rw [(wake_threads q).1]
      exact h.threads_nodup

/-- The loop that wakes everybody, after `n` turns. -/
theorem Good.wakeAllFrom (h : Good l sch qs) (q : κ) (n : Nat) :
    Good (l.wakeAllFrom q n) (((qs q).take n).foldl Sched.schedUnblock sch)
        (update qs q ((qs q).drop n)) ∧
      (l.wakeAllFrom q n).threads = l.threads ∧ (l.wakeAllFrom q n).freed = l.freed := by
  induction n generalizing l sch qs with
  | zero =>
    rw [drop_zero, update_eq_self]
    exact ⟨h, rfl, rfl⟩
  | succ n ih =>
    obtain ⟨hgood, hthreads, hfreed⟩ := ih (h.wake q)
    refine ⟨?_, hthreads.trans (wake_threads q).1, hfreed.trans (wake_threads q).2⟩
    cases hq : qs q with
    | nil | cons t rest =>
      rw [hq] at hgood
      simpa [wakeAllFrom, Sched.unblock?] using hgood

theorem Good.wakeAll (h : Good l sch qs) (q : κ) :
    Good (l.wakeAll q) ((qs q).foldl Sched.schedUnblock sch) (update qs q []) ∧
      (l.wakeAll q).threads = l.threads ∧ (l.wakeAll q).freed = l.freed := by
  have hsub : qs q ⊆ l.threads := fun t ht =>
    (h.threads t).mpr (by rw [(h.places t).blocked.mp ⟨q, ht⟩]; simp)
  have hlen : (qs q).length ≤ l.threads.length :=
    ((h.rep.queues q).nodup.subperm hsub).length_le
  have hall := h.wakeAllFrom q l.threads.length
  rw [take_of_length_le hlen, drop_eq_nil_of_le hlen] at hall
  exact hall

/-- Waking somebody and blocking somebody else commute. -/
theorem wake_setState (hne : (l.queue q).head ≠ some t) :
    (l.wake q).setState t st = (l.setState t st).wake q := by
  cases hq : (l.queue q).head with
  | none => simp [wake, waitqPop, setState, hq]
  | some w =>
    have hwt : w ≠ t := by
      rintro rfl
      exact hne hq
    simp only [wake, waitqPop, setState, schedUnblock, hq,
      schedEnqueue_eq, update_of_ne hwt]
    split
    · simp only [update_comm hwt]
    · rfl

theorem Good.swap (h : Good l sch qs) (hrun : sch.state sch.current = some .running) {q q' : κ}
    (hne : q' ≠ q) :
    ∃ sch', Good (((l.waitqPush q l.current).wake q').setState l.current .blocked) sch'
      (update (update qs q (qs q ++ [sch.current])) q' (qs q').tail) := by
  have hhead : ((l.waitqPush q l.current).queue q').head ≠ some l.current := by
    simp only [waitqPush, update_of_ne hne]
    rw [(h.rep.queues q').head, h.rep.current]
    intro hq
    exact h.places.not_queued (by simp [hrun]) q' (mem_of_head? hq)
  have hwake := (h.push hrun q).wake q'
  rw [update_of_ne hne] at hwake
  rw [wake_setState hhead]
  exact ⟨_, hwake⟩

theorem Linked.Alive.wake (h : l.Alive t) (q : κ) : (l.wake q).Alive t := by
  have hunblock : ∀ {l : Linked κ} {u : Tid}, l.Alive t → (l.schedUnblock u).Alive t := by
    intro l u hl
    unfold schedUnblock
    split
    · rw [schedEnqueue_eq]
      exact hl.setState (by simp)
    · exact hl
  unfold Linked.wake Linked.waitqPop
  split
  · exact h
  next u l1 hpair =>
    refine hunblock ?_
    split at hpair
    · cases hpair
    · cases hpair; exact h

theorem Linked.Alive.wakeAll (h : l.Alive t) (q : κ) : (l.wakeAll q).Alive t := by
  have hloop : ∀ n {l : Linked κ}, l.Alive t → (l.wakeAllFrom q n).Alive t := by
    intro n
    induction n with
    | zero => exact fun hl => hl
    | succ n ih => exact fun hl => ih (hl.wake q)
  exact hloop _ h

end

/-! ## The partition -/

inductive Place (κ : Type) where
  | cpu
  | readyList
  | waitQueue (q : κ)
  | zombieList
  deriving DecidableEq, Repr

/-- The state of the threads in a place. -/
def Place.state {κ : Type} : Place κ → ThreadState
  | .cpu => .running
  | .readyList => .ready
  | .waitQueue _ => .blocked
  | .zombieList => .dead

/-- The lists that the links form. -/
structure Lists (κ : Type) where
  ready : List Tid
  zombies : List Tid
  queue : κ → List Tid

def Place.Has {κ : Type} (l : Linked κ) (ls : Lists κ) (t : Tid) : Place κ → Prop
  | .cpu => t = l.current
  | .readyList => t ∈ ls.ready
  | .waitQueue q => t ∈ ls.queue q
  | .zombieList => t ∈ ls.zombies

/-- Heads, tails and links form lists without repetition, `ready_count` is the
length of the ready list, and each thread that exists is in exactly one place, the
one its state says. -/
structure Partition {κ : Type} (l : Linked κ) (ls : Lists κ) : Prop where
  ready : l.ready.Holds l.next ls.ready
  count : l.readyCount = ls.ready.length
  zombies : l.zombie.Holds l.next ls.zombies
  queues : ∀ q, (l.queue q).Holds l.waitNext (ls.queue q)
  unique : ∀ t, t ∈ l.threads → ∃! pl : Place κ, pl.Has l ls t
  known : ∀ (pl : Place κ) t, pl.Has l ls t → t ∈ l.threads ∧ l.state t = some pl.state

theorem Good.partition {κ : Type} {l : Linked κ} {sch : Sched} {qs : κ → List Tid} (h : Good l sch qs)
    (hrun : sch.state sch.current = some .running) : Partition l ⟨sch.ready, sch.zombies, qs⟩ := by
  have hstate : ∀ (pl : Place κ) t, pl.Has l ⟨sch.ready, sch.zombies, qs⟩ t → sch.state t = some pl.state := by
    intro pl t hpl
    cases pl with
    | cpu =>
      have ht : t = l.current := hpl
      rw [ht, h.rep.current]
      exact hrun
    | readyList => exact (h.places t).ready.mp hpl
    | waitQueue q => exact (h.places t).blocked.mp ⟨q, hpl⟩
    | zombieList => exact (h.places t).dead.mp hpl
  refine ⟨h.rep.ready, h.rep.count, h.rep.zombies, h.rep.queues, fun t ht => ?_, fun pl t hpl => ?_⟩
  · obtain ⟨st, hst⟩ := ne_none_iff_exists'.mp ((h.threads t).mp ht)
    -- the state names the place; two wait queues have nobody in common
    have hex : ∃ pl : Place κ, pl.Has l ⟨sch.ready, sch.zombies, qs⟩ t := by
      cases st with
      | running => exact ⟨.cpu, ((h.places t).running hst).trans h.rep.current.symm⟩
      | ready => exact ⟨.readyList, (h.places t).ready.mpr hst⟩
      | blocked =>
        obtain ⟨q, hq⟩ := (h.places t).blocked.mpr hst
        exact ⟨.waitQueue q, hq⟩
      | dead => exact ⟨.zombieList, (h.places t).dead.mpr hst⟩
    obtain ⟨pl, hpl⟩ := hex
    refine ⟨pl, hpl, fun pl' hpl' => ?_⟩
    have heq : pl'.state = pl.state := Option.some.inj ((hstate pl' t hpl').symm.trans (hstate pl t hpl))
    cases pl <;> cases pl' <;> first | rfl | cases heq
    next q q' =>
      by_contra hne
      exact h.rep.queues_apart q' q (fun hq => hne (congrArg Place.waitQueue hq)) hpl' hpl
  · have hst := hstate pl t hpl
    refine ⟨(h.threads t).mpr (by simp [hst]), ?_⟩
    rw [h.rep.state]
    exact hst

end Exyde
