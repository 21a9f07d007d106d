import Exyde.Kernel.Invariant

/-! # Updates that keep the invariant

One lemma for each way the system calls change the state. -/

namespace Exyde.Kernel

open Function Exyde.Lib Exyde.Ipc List Option State Sched

variable {Q : Cap → Prop} {s : State} {t : Tid} {k : Ctl} {st : ThreadState}

/-- What a thread relies on does not change if its references and the handles of
its process do not. -/
theorem Backed.congr {s' : State} (h : Backed Q s t k)
    (hthread : s'.procRefs.holds (.thread t) = s.procRefs.holds (.thread t))
    (hentry : ∀ p i, s.procRefs.holds (.thread t) = some p →
      s'.capAt (.entry p i) = s.capAt (.entry p i) ∧
        s'.procRefs.holds (.entry p i) = s.procRefs.holds (.entry p i)) : Backed Q s' t k := by
  match k, h with
  | .send _ _ (some g), ⟨p, i, c, hp, hi, hc, rest⟩ =>
    exact ⟨p, i, c, hthread.trans hp, hi, (hentry p i hp).1.trans hc, rest⟩
  | .wait q, ⟨p, i, hp, hi⟩ => exact ⟨p, i, hthread.trans hp, (hentry p i hp).2.trans hi⟩
  | .send _ _ none, _ | .idle, _ | .fresh, _ | .user, _ | .recv _, _ | .recvCap _, _ | .dead, _ =>
    trivial

theorem Core.waits_congr {s' : State} (h : Core Q s) (hctl : s'.ctl = s.ctl)
    (hrefs : s'.procRefs = s.procRefs)
    (hcap : ∀ p i, s'.capAt (.entry p i) = s.capAt (.entry p i)) (t : Tid) :
    Backed Q s' t (s'.ctl t) := by
  rw [hctl]
  exact (h.waits t).congr (by rw [hrefs]) fun p i _ => ⟨hcap p i, by rw [hrefs]⟩

def Ctl.relies : Ctl → Bool
  | .send _ _ (some _) | .wait _ => true
  | _ => false

theorem Backed.of_not_relies (h : k.relies = false) : Backed Q s t k := by
  match k, h with
  | .send _ _ none, _ | .idle, _ | .fresh, _ | .user, _ | .recv _, _ | .recvCap _, _ | .dead, _ =>
    trivial

/-! ## The current thread goes on -/

theorem Base.ne_cur (h : Base Q s) (ht : s.sched.state t = some st)
    (hst : st ≠ .running) : t ≠ s.cur := by
  rintro rfl
  exact hst (Option.some.inj (ht.symm.trans h.sched.running))

theorem Base.fresh_ne_cur (h : Base Q s) (ht : s.nextTid ≤ t) : t ≠ s.cur :=
  (ne_of_some_of_none h.sched.running (h.fresh.threads t ht)).symm

/-- The current thread will go on at `k` and is in the state `st`; the zombies are `z` then. -/
def State.leave (s : State) (k : Ctl) (st : ThreadState) (z : List Tid) : State :=
  (s.goto k).setSched { s.sched.setState s.cur st with zombies := z }

theorem Core.leave (h : Base Q s) (hwork : s.work = []) (hcur : s.cur ≠ bootThread) {z : List Tid} (hb : Backed Q s s.cur k)
    (hz : (k.isDead = false ∧ z = s.sched.zombies) ∨
      (k = .dead ∧ st = .dead ∧ z = s.sched.zombies ++ [s.cur])) : Core Q (s.leave k st z) := by
  have hst : ∀ {t : Tid}, t ≠ s.cur → (s.leave k st z).sched.state t = s.sched.state t :=
    fun ht => update_of_ne ht ..
  have hctl : ∀ {t : Tid}, t ≠ s.cur → (s.leave k st z).ctl t = s.ctl t :=
    fun ht => update_of_ne ht ..
  have hself : (s.leave k st z).ctl s.cur = k := update_self ..
  have hrun : s.sched.state s.cur = some .running := h.sched.running
  have hknown : ∀ t, ((s.leave k st z).sched.state t).isSome = (s.sched.state t).isSome :=
    congrFun (update_unseen Option.isSome (by rw [hrun]; rfl))
  have hprefs : (s.leave k st z).procRefs = s.procRefs :=
    procRefs_congr rfl rfl hknown (fun _ => Iff.rfl) fun _ _ => Iff.rfl
  have hsrefs : (s.leave k st z).spaceRefs = s.spaceRefs :=
    spaceRefs_congr (fun _ => rfl) rfl hknown rfl
  have hold : s.doomed = s.sched.zombies := by simp [doomed, hwork]
  have hdoomed : (s.leave k st z).doomed = z := by simp [State.doomed, State.leave, hwork]
  have hnot : s.cur ∉ s.sched.zombies := fun hm =>
    h.ne_cur (h.threads.doomed_dead _ (hold ▸ hm)) (by simp) rfl
  have hin : ∀ t ∈ z, t ∈ s.doomed ∨ (t = s.cur ∧ k = .dead ∧ st = .dead) := by
    rcases hz with ⟨-, rfl⟩ | ⟨hk, hd, rfl⟩
    · exact fun t ht => .inl (hold ▸ ht)
    · intro t ht
      rcases mem_append.mp ht with ht | ht
      · exact .inl (hold ▸ ht)
      · exact .inr ⟨mem_singleton.mp ht, hk, hd⟩
  refine ⟨{ h.fresh with threads := ?_, ctl := ?_ }, ⟨h.threads.boot_known, ?_, ?_, ?_, ?_, ?_⟩,
    { h.queues with chan_parked := ?_, wait_parked := ?_ },
    h.counts.congr hprefs hsrefs fun _ P hP => ⟨P, hP, rfl⟩, .of_idle hwork, ?_⟩
  · intro t ht
    rw [hst (h.fresh_ne_cur ht)]
    exact h.fresh.threads t ht
  · intro t ht
    rw [hctl (h.fresh_ne_cur ht)]
    exact h.fresh.ctl t ht
  · rw [hctl (Ne.symm hcur)]
    exact h.threads.boot_idle
  · intro t st' ht hd
    by_cases htc : t = s.cur
    · subst htc
      rw [hself]
      rcases hz with ⟨hk, -⟩ | ⟨-, rfl, -⟩
      · exact hk
      · exact absurd (Option.some.inj (ht.symm.trans (update_self ..))) hd
    · rw [hctl htc]
      exact h.threads.alive t st' ((hst htc).symm.trans ht) hd
  · rw [hdoomed]
    rcases hz with ⟨-, rfl⟩ | ⟨-, -, rfl⟩
    · exact hold ▸ h.threads.doomed_nodup
    · exact (hold ▸ h.threads.doomed_nodup).append (nodup_singleton _)
        (disjoint_singleton.mpr hnot)
  · intro t ht
    rcases hin t (hdoomed ▸ ht) with ht | ⟨rfl, -, rfl⟩
    · have hdead := h.threads.doomed_dead t ht
      exact (hst (h.ne_cur hdead (by simp))).trans hdead
    · exact update_self ..
  · intro t ht
    rcases hin t (hdoomed ▸ ht) with ht | ⟨rfl, rfl, -⟩
    · rw [hctl (h.ne_cur (h.threads.doomed_dead t ht) (by simp))]
      exact h.threads.doomed_ctl t ht
    · exact hself
  · intro x c t hx ht
    have hp := h.queues.chan_parked x c t hx ht
    rwa [hctl (h.ne_cur hp.1 (by simp)), hst (h.ne_cur hp.1 (by simp))]
  · intro q R t hq ht
    have hp := h.queues.wait_parked q R t hq ht
    rwa [hctl (h.ne_cur hp.1 (by simp)), hst (h.ne_cur hp.1 (by simp))]
  · intro t
    have hkept : ∀ {k' : Ctl}, Backed Q s t k' → Backed Q (s.leave k st z) t k' := fun hb' =>
      hb'.congr (by rw [hprefs]) fun _ _ _ => ⟨rfl, by rw [hprefs]⟩
    by_cases htc : t = s.cur
    · subst htc
      rw [hself]
      exact hkept hb
    · rw [hctl htc]
      exact hkept (h.waits t)

theorem Base.goto (h : Base Q s) (hwork : s.work = []) (hcur : s.cur ≠ bootThread)
    (hk : k.isDead = false) (hb : Backed Q s s.cur k) : Base Q (s.goto k) := by
  have hcore : Core Q (s.leave k .running s.sched.zombies) :=
    Core.leave h hwork hcur hb (.inl ⟨hk, rfl⟩)
  have hsame : update s.sched.state s.cur (some .running) = s.sched.state :=
    update_eq_self_iff.mpr h.sched.running.symm
  rw [leave, setState, hsame] at hcore
  exact ⟨hcore, h.sched⟩

theorem Base.ret (h : Base Q s) (hwork : s.work = []) (hcur : s.cur ≠ bootThread) (r : Int) :
    Base Q (s.ret r) := by
  have hg := h.goto hwork (k := .user) hcur rfl trivial
  exact ⟨⟨{ hg.fresh with }, { hg.threads with }, { hg.queues with }, { hg.counts with },
    { hg.releases with }, fun t => (hg.waits t).congr rfl fun _ _ _ => ⟨rfl, rfl⟩⟩, hg.sched⟩

/-! ## A table entry changes -/

def procOfCap (c : Option Cap) : Option ObjId :=
  c.bind fun c => if c.kind = kindProcess then some c.object else none

theorem procOf_eq (p : ObjId) (i : Fin handleMax) : s.procOf p i = procOfCap (s.capAt (.entry p i)) :=
  rfl

section

variable {p : ObjId} {P P' : Process} {i : Fin handleMax}

theorem procRefs_setProc (hP : s.procs p = some P) (hr : P'.refcount = P.refcount)
    (hof : ∀ q j, (s.setProc p P').procOf q j = s.procOf q j) :
    (s.setProc p P').procRefs = s.procRefs := by
  have hholds : (s.setProc p P').procRefs.holds = s.procRefs.holds := by
    funext k
    cases k with
    | thread t => rfl
    | entry q j =>
      simp only [procRefs, hof]
      rfl
  exact congrArg₂ Refs.mk (update_unseen (Option.map Process.refcount) (by simp [hP, hr])) hholds

theorem spaceRefs_setProc (hP : s.procs p = some P) : (s.setProc p P').spaceRefs = s.spaceRefs :=
  spaceRefs_congr (congrFun (update_unseen Option.isSome (by rw [hP]; rfl))) rfl (fun _ => rfl) rfl

theorem Fresh.setProc (h : Fresh s) (hP : s.procs p = some P) (hm : P'.mainThread = P.mainThread) :
    Fresh (s.setProc p P') := by
  refine { h with procs := ?_, main := ?_ }
  · intro x hx
    have hne : p ≠ x := ne_of_some_of_none hP (h.procs x hx)
    exact (update_of_ne hne.symm ..).trans (h.procs x hx)
  · intro q R hR
    rcases update_some_cases hR with ⟨rfl, rfl⟩ | ⟨-, hR⟩
    · rw [hm]
      exact h.main q P hP
    · exact h.main q R hR

theorem Queues.setWaiters (h : Queues s) (hnodup : P'.waiters.Nodup)
    (hparked : ∀ t, t ∈ P'.waiters → s.sched.state t = some .blocked ∧ s.ctl t = .wait p) :
    Queues (s.setProc p P') := by
  refine { h with wait_nodup := ?_, wait_parked := ?_ }
  · intro q R hR
    rcases update_some_cases hR with ⟨rfl, rfl⟩ | ⟨-, hR⟩
    · exact hnodup
    · exact h.wait_nodup q R hR
  · intro q R t hR ht
    rcases update_some_cases hR with ⟨rfl, rfl⟩ | ⟨-, hR⟩
    · exact hparked t ht
    · exact h.wait_parked q R t hR ht

theorem Queues.setProc (h : Queues s) (hP : s.procs p = some P) (hw : P'.waiters = P.waiters) :
    Queues (s.setProc p P') :=
  h.setWaiters (hw ▸ h.wait_nodup p P hP) fun t ht => h.wait_parked p P t hP (hw ▸ ht)

theorem main_setProc (hP : s.procs p = some P) (hm : P'.mainThread = P.mainThread) (q : ObjId)
    (R : Process) (hR : s.procs q = some R) :
    ∃ R', (s.setProc p P').procs q = some R' ∧ R'.mainThread = R.mainThread := by
  by_cases hq : q = p
  · subst hq
    cases hP.symm.trans hR
    exact ⟨P', update_self .., hm⟩
  · exact ⟨R, (update_of_ne hq ..).trans hR, rfl⟩

def Quiet (s : State) (p : ObjId) : Prop :=
  ∀ t, s.procRefs.holds (.thread t) = some p → (s.ctl t).relies = false

theorem Base.quiet_cur (h : Base Q s) (hp : s.process s.cur = some p) (hctl : s.ctl s.cur = .user) :
    Quiet s p := by
  intro t ht
  rw [h.toCore.main_unique ht (h.holds_cur hp), hctl]
  rfl

theorem Base.setTable (h : Base Q s) {e : HandleEntry} (hP : s.procs p = some P)
    (hr : P'.refcount = P.refcount) (hm : P'.mainThread = P.mainThread)
    (hw : P'.waiters = P.waiters)
    (ht : P'.handles.entries = update P.handles.entries i e) (hquiet : Quiet s p)
    (hclean : entryCap e = none ∨ p ∉ s.work.filterMap Frame.sweeping?)
    (hold : procOfCap (s.capAt (.entry p i)) = none) (hnew : procOfCap (entryCap e) = none) :
    Base Q (s.setProc p P') := by
  have hcap := capAt_setProc_entry hP ht
  have hof : ∀ q j, (s.setProc p P').procOf q j = s.procOf q j := by
    intro q j
    simp only [procOf_eq, hcap]
    by_cases hqj : (Place.entry q j) = .entry p i
    · rw [hqj, update_self, hold, hnew]
    · rw [update_of_ne hqj]
  have hprefs : (s.setProc p P').procRefs = s.procRefs := procRefs_setProc hP hr hof
  have hsrefs : (s.setProc p P').spaceRefs = s.spaceRefs := spaceRefs_setProc hP
  refine ⟨⟨h.fresh.setProc hP hm, { h.threads with }, h.queues.setProc hP hw,
    h.counts.congr hprefs hsrefs (main_setProc hP hm), ?_, ?_⟩, h.sched⟩
  · refine ⟨h.releases.shape, h.releases.nodup, hprefs ▸ h.releases.unheld, ?_, ?_, h.releases.close⟩
    · intro q j hc
      rw [hof]
      exact h.releases.clearing q j hc
    intro f q n hf hn j hj
    rw [hcap]
    by_cases hqj : (Place.entry q j) = .entry p i
    · rw [hqj, update_self]
      refine hclean.resolve_right fun hnot => hnot ?_
      cases hqj
      exact mem_filterMap.mpr ⟨f, hf, Frame.sweeping_of_progress hn⟩
    · rw [update_of_ne hqj]
      exact h.releases.emptied f q n hf hn j hj
  · intro t
    by_cases hthread : s.procRefs.holds (.thread t) = some p
    · exact Backed.of_not_relies (hquiet t hthread)
    · refine (h.waits t).congr (by rw [hprefs]) fun q j hq => ⟨?_, by rw [hprefs]⟩
      have hne : q ≠ p := by rintro rfl; exact hthread hq
      rw [hcap, update_of_ne fun he => hne (by cases he; rfl)]

theorem Core.setProc (h : Core Q s) (hP : s.procs p = some P) (hr : P'.refcount = P.refcount)
    (hh : P'.handles = P.handles) (hm : P'.mainThread = P.mainThread)
    (hnodup : P'.waiters.Nodup)
    (hparked : ∀ t, t ∈ P'.waiters → s.sched.state t = some .blocked ∧ s.ctl t = .wait p) :
    Core Q (s.setProc p P') := by
  have hcap := capAt_setProc hP hh
  have hof : ∀ q j, (s.setProc p P').procOf q j = s.procOf q j := by
    intro q j
    simp only [procOf_eq, hcap]
  have hprefs := procRefs_setProc hP hr hof
  exact ⟨h.fresh.setProc hP hm, { h.threads with }, h.queues.setWaiters hnodup hparked,
    h.counts.congr hprefs (spaceRefs_setProc hP) (main_setProc hP hm),
    h.releases.congr rfl hprefs hcap fun _ hc => hc, h.waits_congr rfl hprefs fun _ _ => by rw [hcap]⟩

end

/-! ## Waking -/

def Unparked (s : State) (u : Tid) : Prop :=
  (∀ x c, s.chans x = some c → u ∉ c.senders ++ c.receivers) ∧
    ∀ q R, s.procs q = some R → u ∉ R.waiters

/-- The threads get other states, but stay known; those that are parked or are to be freed stay so. -/
theorem Core.resched (h : Core Q s) {sch : Sched}
    (hknown : ∀ t, (sch.state t).isSome = (s.sched.state t).isSome)
    (hdead : ∀ t, s.sched.state t = some .dead → sch.state t = some .dead)
    (hparked : ∀ t, s.sched.state t = some .blocked → ¬ Unparked s t → sch.state t = some .blocked)
    (hz : sch.zombies = s.sched.zombies) (hcur : s.work = [] ∨ sch.current = s.cur) :
    Core Q (s.setSched sch) := by
  have hprefs : (s.setSched sch).procRefs = s.procRefs :=
    procRefs_congr rfl rfl hknown (fun _ => Iff.rfl) fun _ _ => Iff.rfl
  have hsrefs : (s.setSched sch).spaceRefs = s.spaceRefs :=
    spaceRefs_congr (fun _ => rfl) rfl hknown rfl
  have hdoomed : (s.setSched sch).doomed = s.doomed := by simp [doomed, hz]
  refine ⟨{ h.fresh with threads := ?_ }, ⟨h.threads.boot_known, h.threads.boot_idle, ?_,
    hdoomed ▸ h.threads.doomed_nodup, ?_, hdoomed ▸ h.threads.doomed_ctl⟩,
    { h.queues with chan_parked := ?_, wait_parked := ?_ },
    h.counts.congr hprefs hsrefs fun _ P hP => ⟨P, hP, rfl⟩, ?_, h.waits_congr rfl hprefs fun _ _ => rfl⟩
  · intro t ht
    have hnone := hknown t
    rw [h.fresh.threads t ht] at hnone
    simpa using hnone
  · intro t st ht hd
    have hsome := hknown t
    rw [show sch.state t = some st from ht] at hsome
    obtain ⟨st0, hst0⟩ := isSome_iff_exists.mp hsome.symm
    refine h.threads.alive t st0 hst0 ?_
    rintro rfl
    exact hd (Option.some.inj (ht.symm.trans (hdead t hst0)))
  · exact fun t ht => hdead t (h.threads.doomed_dead t (hdoomed ▸ ht))
  · intro x c t hx ht
    obtain ⟨hst, hctl⟩ := h.queues.chan_parked x c t hx ht
    exact ⟨hparked t hst fun hu => hu.1 x c hx ht, hctl⟩
  · intro q R t hq ht
    obtain ⟨hst, hctl⟩ := h.queues.wait_parked q R t hq ht
    exact ⟨hparked t hst fun hu => hu.2 q R hq ht, hctl⟩
  · rcases hcur with hw | hcur
    · exact .of_idle hw
    · have hsame : (s.setSched sch).cur = s.cur := hcur
      exact h.releases.congr rfl hprefs rfl fun p hc => by rwa [hsame]

theorem Base.unblock (h : Base Q s) {u : Tid} (hblocked : s.sched.state u = some .blocked)
    (hu : Unparked s u) : Base Q (s.setSched (s.sched.schedUnblock u)) := by
  refine ⟨h.toCore.resched schedUnblock_known ?_ ?_ (by simp)
    (.inr (schedUnblock_current ..)), schedUnblock_ok h.sched⟩
  · intro t ht
    have hne : t ≠ u := by
      rintro rfl
      rw [hblocked] at ht
      cases ht
    exact (schedUnblock_ne hne).trans ht
  · intro t ht hp
    have hne : t ≠ u := by
      rintro rfl
      exact hp hu
    exact (schedUnblock_ne hne).trans ht

variable {c c' : Channel} {x : ObjId}

theorem Core.setChan (h : Core Q s) (hx : s.chans x = some c)
    (hwf : c'.Wf) (hnodup : (c'.senders ++ c'.receivers).Nodup)
    (hparked : ∀ t, t ∈ c'.senders ++ c'.receivers →
      s.sched.state t = some .blocked ∧ (s.ctl t).channel? = some x) : Core Q (s.setChan x c') := by
  refine ⟨{ h.fresh with chans := ?_ }, { h.threads with }, ?_, { h.counts with },
    { h.releases with }, h.waits_congr rfl rfl fun _ _ => rfl⟩
  · intro y hy
    have hne : x ≠ y := ne_of_some_of_none hx (h.fresh.chans y hy)
    exact (update_of_ne hne.symm ..).trans (h.fresh.chans y hy)
  refine { h.queues with wf := ?_, chan_nodup := ?_, chan_parked := ?_ }
  · intro y d hd
    rcases update_some_cases hd with ⟨rfl, rfl⟩ | ⟨-, hd⟩
    · exact hwf
    · exact h.queues.wf y d hd
  · intro y d hd
    rcases update_some_cases hd with ⟨rfl, rfl⟩ | ⟨-, hd⟩
    · exact hnodup
    · exact h.queues.chan_nodup y d hd
  · intro y d t hd ht
    rcases update_some_cases hd with ⟨rfl, rfl⟩ | ⟨-, hd⟩
    · exact hparked t ht
    · exact h.queues.chan_parked y d t hd ht

/-- A thread parked on a channel is parked nowhere else. -/
theorem Queues.parked_once (h : Queues s) {x y : ObjId} {c d : Channel} {u : Tid}
    (hx : s.chans x = some c) (hu : u ∈ c.senders ++ c.receivers) (hy : s.chans y = some d)
    (hu' : u ∈ d.senders ++ d.receivers) : x = y := by
  have h1 := (h.chan_parked x c u hx hu).2
  rw [(h.chan_parked y d u hy hu').2] at h1
  exact (Option.some.inj h1).symm

theorem Base.popWake (h : Base Q s) {w : Option Tid}
    (hx : s.chans x = some c) (hwf : c'.Wf)
    (hsub : (c'.senders ++ c'.receivers).Sublist (c.senders ++ c.receivers))
    (hw : ∀ u, w = some u → u ∈ c.senders ++ c.receivers ∧ u ∉ c'.senders ++ c'.receivers) :
    Base Q ((s.setChan x c').wake w) := by
  have hset : Base Q (s.setChan x c') :=
    ⟨h.toCore.setChan hx hwf ((h.queues.chan_nodup x c hx).sublist hsub) fun t ht =>
      h.queues.chan_parked x c t hx (hsub.subset ht), h.sched⟩
  cases w with
  | none => exact hset
  | some u =>
    obtain ⟨hu, hu'⟩ := hw u rfl
    obtain ⟨hblocked, huctl⟩ := h.queues.chan_parked x c u hx hu
    refine hset.unblock hblocked ⟨?_, ?_⟩
    · intro y d hd hud
      rcases update_some_cases hd with ⟨-, rfl⟩ | ⟨hy, hd⟩
      · exact hu' hud
      · exact hy (h.queues.parked_once hx hu hd hud).symm
    · intro q R hR hur
      have := (h.queues.wait_parked q R u hR hur).2
      rw [this] at huctl
      cases huctl

/-! ## Switching -/

/-- The end of a scheduler call: the current thread has left the CPU as `sch`
says, and another one runs. -/
theorem Core.switched {sch sch' : Sched} (h : Core Q (s.setSched sch)) (hwork : s.work = [])
    (hsw : sch.Switched sch') : Base Q (s.schedule (.ok sch')) := by
  have hone : Base Q (s.setSched sch') :=
    ⟨h.resched hsw.known hsw.dead (fun t ht _ => hsw.blocked t ht) hsw.zombies (.inl hwork), hsw.ok⟩
  simp only [schedule]
  split
  · exact hone
  -- the zombies move from the scheduler's list to the frame that frees them
  have hprefs : ((s.setSched { sch' with zombies := [] }).setWork
      [.reap none sch'.zombies]).procRefs = (s.setSched sch').procRefs := by
    refine procRefs_congr rfl rfl (fun _ => rfl) ?_ ?_
    · intro t; simp [dying, Frame.dying?, hwork]
    · intro p i; simp [clearing, hwork]
  have hdoomed : ((s.setSched { sch' with zombies := [] }).setWork
      [.reap none sch'.zombies]).doomed = (s.setSched sch').doomed := by
    simp [doomed, setSched, hwork, Frame.doomed]
  exact ⟨⟨{ hone.fresh with }, hone.threads.congr rfl rfl rfl hdoomed, { hone.queues with },
    hone.counts.congr hprefs rfl fun _ P hP => ⟨P, hP, rfl⟩, .of_reap rfl,
    hone.waits_congr rfl hprefs fun _ _ => rfl⟩, { hone.sched with }⟩

theorem Base.reschedule (h : Base Q s) (hwork : s.work = []) {sch' : Sched}
    (hsw : s.sched.Switched sch') : Base Q (s.schedule (.ok sch')) := by
  have hcore : Core Q (s.setSched s.sched) := h.toCore
  exact hcore.switched hwork hsw

theorem Base.blockChan (h : Base Q s) (hwork : s.work = []) (hcur : s.cur ≠ bootThread) {k : Ctl} (hk : k.channel? = some x) (hb : Backed Q s s.cur k)
    (hx : s.chans x = some c) (hwf : c'.Wf)
    (hperm : (c'.senders ++ c'.receivers).Perm (s.cur :: (c.senders ++ c.receivers))) :
    Base Q ((s.setChan x c').block k) := by
  have hkd : k.isDead = false := by cases k <;> first | rfl | cases hk
  have hstop : Core Q ((s.goto k).setSched (s.sched.setState s.cur .blocked)) :=
    Core.leave h hwork hcur hb (.inl ⟨hkd, rfl⟩)
  have hnot : s.cur ∉ c.senders ++ c.receivers := fun hm =>
    h.ne_cur (h.queues.chan_parked x c s.cur hx hm).1 (by simp) rfl
  have hparked : Core Q
      (((s.goto k).setSched (s.sched.setState s.cur .blocked)).setChan x c') := by
    refine hstop.setChan hx hwf ?_ ?_
    · rw [hperm.nodup_iff]
      exact nodup_cons.mpr ⟨hnot, h.queues.chan_nodup x c hx⟩
    · intro t ht
      rcases mem_cons.mp (hperm.mem_iff.mp ht) with rfl | ht
      · exact ⟨update_self .., by simpa [setSched, goto] using hk⟩
      · exact hstop.queues.chan_parked x c t hx ht
  obtain ⟨sch', hs, hsw⟩ := schedBlock_switched h.sched hcur
  have hfinal := Core.switched (s := (s.setChan x c').goto k) hparked hwork hsw
  rw [← hs] at hfinal
  exact hfinal

theorem Base.blockWait (h : Base Q s) (hwork : s.work = []) (hcur : s.cur ≠ bootThread) {q : ObjId}
    {R : Process} (hb : Backed Q s s.cur (.wait q)) (hq : s.procs q = some R) :
    Base Q ((s.setProc q { R with waiters := waitqPush R.waiters s.cur }).block (.wait q)) := by
  have hstop : Core Q ((s.goto (.wait q)).setSched (s.sched.setState s.cur .blocked)) :=
    Core.leave h hwork hcur hb (.inl ⟨rfl, rfl⟩)
  have hnot : s.cur ∉ R.waiters := fun hm =>
    h.ne_cur (h.queues.wait_parked q R s.cur hq hm).1 (by simp) rfl
  have hparked : Core Q (((s.goto (.wait q)).setSched (s.sched.setState s.cur .blocked)).setProc q
      { R with waiters := waitqPush R.waiters s.cur }) := by
    refine hstop.setProc hq rfl rfl rfl ?_ ?_
    · exact (h.queues.wait_nodup q R hq).append (nodup_singleton _)
        (disjoint_singleton.mpr hnot)
    · intro t ht
      rcases mem_append.mp ht with ht | ht
      · exact hstop.queues.wait_parked q R t hq ht
      · rw [mem_singleton.mp ht]
        exact ⟨update_self .., update_self ..⟩
  obtain ⟨sch', hs, hsw⟩ := schedBlock_switched h.sched hcur
  have hfinal := Core.switched
    (s := (s.setProc q { R with waiters := waitqPush R.waiters s.cur }).goto (.wait q)) hparked hwork hsw
  rw [← hs] at hfinal
  exact hfinal

/-! ## Exiting -/

theorem Base.threadExit (h : Base Q s) (hwork : s.work = []) (hcur : s.cur ≠ bootThread) :
    Base Q s.threadExit := by
  obtain ⟨sch', hs, hsw⟩ := threadExit_switched h.sched hcur
  -- on its way out the thread is dead, and the last of the zombies
  have hout : Core Q (s.leave .dead .dead (s.sched.zombies ++ [s.cur])) :=
    Core.leave h hwork hcur trivial (.inr ⟨rfl, rfl, rfl⟩)
  have hfinal := Core.switched (s := s.goto .dead) hout hwork hsw
  rw [← hs] at hfinal
  exact hfinal

theorem Base.unblockAll {ws : List Tid} (hnodup : ws.Nodup) :
    ∀ {s : State}, Base Q s → (∀ u, u ∈ ws → s.sched.state u = some .blocked ∧ Unparked s u) →
      Base Q (s.setSched (ws.foldl schedUnblock s.sched)) := by
  induction ws with
  | nil => exact fun h _ => h
  | cons w ws ih =>
    intro s h hws
    obtain ⟨hw, hnodup⟩ := nodup_cons.mp hnodup
    obtain ⟨hblocked, hun⟩ := hws w (by simp)
    refine ih hnodup (s := s.setSched (s.sched.schedUnblock w)) (h.unblock hblocked hun) ?_
    intro u hu
    have hne : u ≠ w := fun he => hw (he ▸ hu)
    obtain ⟨hb, hun'⟩ := hws u (mem_cons_of_mem _ hu)
    exact ⟨(schedUnblock_ne hne).trans hb, hun'⟩

theorem Base.processExit (h : Base Q s) {p : ObjId} {P : Process} (hP : s.procs p = some P)
    (code : Int) : Base Q (s.processExit p P code) := by
  unfold State.processExit
  split
  · exact h
  have hset : Base Q (s.setProc p { P with exitCode := code, exited := true, waiters := [] }) :=
    ⟨h.toCore.setProc hP rfl rfl rfl nodup_nil (fun t ht => by cases ht), h.sched⟩
  refine Base.unblockAll (h.queues.wait_nodup p P hP) hset ?_
  intro u hu
  obtain ⟨hb, hctl⟩ := h.queues.wait_parked p P u hP hu
  refine ⟨hb, ?_, ?_⟩
  · intro x c hx hm
    have := (h.queues.chan_parked x c u hx hm).2
    rw [hctl] at this
    cases this
  · intro q R hR hm
    have := (hset.queues.wait_parked q R u hR hm).2
    rw [show (s.setProc p _).ctl u = .wait p from hctl] at this
    cases this
    cases (update_self ..).symm.trans hR
    cases hm

end Exyde.Kernel
