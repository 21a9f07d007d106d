import Exyde.Kernel.Updates

/-! # New objects

Creating a channel and spawning a process keep the invariant: nobody knows the new
object's address, and the references to it are counted from the start. -/

namespace Exyde.Kernel

open Function Exyde.Lib Exyde.Ipc State Sched

variable {Q : Cap → Prop} {s : State}

/-! ## Channels -/

theorem Base.addChannel (h : Base Q s) {c : Channel} (hwf : c.Wf) (hs : c.senders = [])
    (hr : c.receivers = []) : Base Q (s.addChannel c) := by
  have hchan : ∀ {y d}, (s.addChannel c).chans y = some d → d = c ∨ s.chans y = some d :=
    fun hd => (update_some_cases hd).imp And.right And.right
  refine ⟨⟨⟨?_, ?_, ?_, ?_, h.fresh.threads, h.fresh.ctl, ?_, h.fresh.main⟩, { h.threads with }, ?_,
    { h.counts with }, { h.releases with }, h.waits_congr rfl rfl fun _ _ => rfl⟩, h.sched⟩
  · exact fun x hx => h.fresh.procs x (Nat.le_of_succ_le hx)
  · exact fun x hx => (update_of_ne (Nat.ne_of_gt hx) ..).trans (h.fresh.chans x (Nat.le_of_succ_le hx))
  · exact fun x hx => h.fresh.spaces x (Nat.le_of_succ_le hx)
  · exact fun x hx => (update_of_ne (Nat.ne_of_gt hx) ..).trans (h.fresh.created x (Nat.le_of_succ_le hx))
  · exact fun t p hp => Nat.lt_succ_of_lt (h.fresh.process t p hp)
  · refine { h.queues with wf := ?_, chan_nodup := ?_, chan_parked := ?_ }
    · intro y d hd
      rcases hchan hd with rfl | hd
      · exact hwf
      · exact h.queues.wf y d hd
    · intro y d hd
      rcases hchan hd with rfl | hd
      · simp [hs, hr]
      · exact h.queues.chan_nodup y d hd
    · intro y d t hd ht
      rcases hchan hd with rfl | hd
      · simp [hs, hr] at ht
      · exact h.queues.chan_parked y d t hd ht

theorem authority_addChannel (hfresh : Fresh s) {capacity msgSize : Nat} :
    (s.addChannel (channelNew capacity msgSize)).authority = s.authority.newChannel s.nextObj := by
  have hcap : (s.addChannel (channelNew capacity msgSize)).capAt = s.capAt := by
    funext pl
    cases pl with
    | entry p i => rfl
    | slot y k =>
      by_cases hy : y = s.nextObj
      · subst hy
        simp [capAt, addChannel, hfresh.chans, channelNew]
      · simp [capAt, addChannel, hy]
  have hlive : (fun y => ((s.addChannel (channelNew capacity msgSize)).chans y).isSome) =
      update (fun y => (s.chans y).isSome) s.nextObj true := update_seen Option.isSome ..
  simp only [authority, hcap, hlive]
  rfl

/-! ## Processes -/

section

variable {t : Tid}

theorem Base.not_dying (h : Base Q s) (ht : s.sched.state t = none) : ¬ s.dying t := by
  intro hd
  have := h.threads.doomed_dead t (dying_doomed hd)
  rw [ht] at this
  cases this

theorem capAt_processSpawn (h : Fresh s) : s.processSpawn.capAt = s.capAt := by
  funext pl
  cases pl with
  | slot x k => rfl
  | entry p i =>
    by_cases hp : p = s.nextObj
    · subst hp
      simp [capAt, processSpawn, h.procs, HandleTable.init, HandleEntry.empty, entryCap]
    · simp [capAt, processSpawn, hp]

theorem procRefs_processSpawn (h : Base Q s) : s.processSpawn.procRefs =
      (s.procRefs.alloc s.nextObj).acquire (.thread s.nextTid) s.nextObj 0 := by
  have hcount : s.processSpawn.procRefs.count =
      update (update s.procRefs.count s.nextObj (some 0)) s.nextObj (some 1) := by
    rw [update_idem]
    exact update_seen (Option.map Process.refcount) ..
  have hholds : s.processSpawn.procRefs.holds =
      update s.procRefs.holds (.thread s.nextTid) (some s.nextObj) := by
    funext k
    cases k with
    | thread t =>
      by_cases ht : t = s.nextTid
      · subst ht
        have hdy : ¬ s.processSpawn.dying s.nextTid :=
          h.not_dying (h.fresh.threads s.nextTid le_rfl)
        simp only [update_self, procRefs, hdy]
        simp [processSpawn, threadCreate]
      · simp [procRefs, processSpawn, threadCreate, ht, dying]
    | entry p i =>
      simp only [procRefs, procOf, capAt_processSpawn h.fresh, clearing]
      rfl
  exact congrArg₂ Refs.mk hcount hholds

theorem spaceRefs_processSpawn : s.processSpawn.spaceRefs =
      ((s.spaceRefs.alloc s.nextObj).acquire (.process s.nextObj) s.nextObj 0).acquire
        (.thread s.nextTid) s.nextObj 1 := by
  have hcount : s.processSpawn.spaceRefs.count = update (update
      (update s.spaceRefs.count s.nextObj (some 0)) s.nextObj (some 1)) s.nextObj
        (some 2) := by
    simp only [update_idem]
    rfl
  have hholds : s.processSpawn.spaceRefs.holds = update (update
      s.spaceRefs.holds (.process s.nextObj) (some s.nextObj)) (.thread s.nextTid)
        (some s.nextObj) := by
    funext k
    cases k with
    | process p =>
      by_cases hp : p = s.nextObj
      · subst hp; simp [spaceRefs, processSpawn]
      · simp [spaceRefs, processSpawn, hp]
    | thread t =>
      by_cases ht : t = s.nextTid
      · subst ht
        simp [spaceRefs, processSpawn, threadCreate]
      · simp [spaceRefs, processSpawn, threadCreate, ht]
  exact congrArg₂ Refs.mk hcount hholds

theorem Base.processSpawn_counts (h : Base Q s) : Counts s.processSpawn := by
  have hproc : s.procs s.nextObj = none := h.fresh.procs _ le_rfl
  have hspace : s.spaces s.nextObj = none := h.fresh.spaces _ le_rfl
  have hthread : s.sched.state s.nextTid = none := h.fresh.threads _ le_rfl
  refine ⟨?_, ?_, ?_⟩
  · rw [procRefs_processSpawn h]
    refine (h.counts.procs.alloc ?_).acquire ?_ (update_self ..)
    · simp [procRefs, hproc]
    · simp [Refs.alloc, procRefs, hthread]
  · rw [spaceRefs_processSpawn]
    refine ((h.counts.spaces.alloc hspace).acquire ?_ (update_self ..)).acquire ?_
      (update_self ..)
    · simp [Refs.alloc, spaceRefs, hproc]
    · simp [Refs.acquire, Refs.alloc, spaceRefs, hthread]
  · intro t p hp
    rw [procRefs_processSpawn h] at hp
    rcases update_some_cases hp with ⟨ht, rfl⟩ | ⟨-, hp⟩
    · cases ht
      exact ⟨_, update_self .., rfl⟩
    · obtain ⟨P, hP, hm⟩ := h.counts.main t p hp
      have hpn : p ≠ s.nextObj := ne_of_some_of_none hP hproc
      exact ⟨P, (update_of_ne hpn ..).trans hP, hm⟩

theorem state_processSpawn (ht : t ≠ s.nextTid) :
    s.processSpawn.sched.state t = s.sched.state t := update_of_ne ht ..

theorem ctl_processSpawn (ht : t ≠ s.nextTid) : s.processSpawn.ctl t = s.ctl t :=
  update_of_ne ht ..

theorem procs_processSpawn {p : ObjId} {P : Process} (hP : s.processSpawn.procs p = some P) :
    (P.waiters = [] ∧ P.mainThread = s.nextTid) ∨ s.procs p = some P := by
  rcases update_some_cases hP with ⟨-, rfl⟩ | ⟨-, hP⟩
  · exact .inl ⟨rfl, rfl⟩
  · exact .inr hP

theorem Fresh.known (h : Fresh s) {st : ThreadState} (ht : s.sched.state t = some st) :
    t ≠ s.nextTid := ne_of_some_of_none ht (h.threads _ le_rfl)

theorem Fresh.processSpawn (h : Fresh s) : Fresh s.processSpawn where
  procs x hx := (update_of_ne (Nat.ne_of_gt hx) ..).trans (h.procs x (Nat.le_of_succ_le hx))
  chans x hx := h.chans x (Nat.le_of_succ_le hx)
  spaces x hx := (update_of_ne (Nat.ne_of_gt hx) ..).trans (h.spaces x (Nat.le_of_succ_le hx))
  created x hx := h.created x (Nat.le_of_succ_le hx)
  threads t ht := (state_processSpawn (Nat.ne_of_gt ht)).trans (h.threads t (Nat.le_of_succ_le ht))
  ctl t ht := (ctl_processSpawn (Nat.ne_of_gt ht)).trans (h.ctl t (Nat.le_of_succ_le ht))
  process t p hp := by
    rcases update_some_cases hp with ⟨-, rfl⟩ | ⟨-, hp⟩
    · exact Nat.lt_succ_self _
    · exact Nat.lt_succ_of_lt (h.process t p hp)
  main p P hP := by
    rcases procs_processSpawn hP with ⟨-, hm⟩ | hP
    · rw [hm]; exact Nat.lt_succ_self _
    · exact Nat.lt_succ_of_lt (h.main p P hP)

theorem Threads.processSpawn (h : Threads s) (hf : Fresh s) : Threads s.processSpawn where
  boot_known := Nat.lt_succ_of_lt h.boot_known
  boot_idle := (ctl_processSpawn (Nat.ne_of_lt h.boot_known)).trans h.boot_idle
  alive t st ht hd := by
    by_cases htn : t = s.nextTid
    · subst htn; simp [State.processSpawn, Ctl.isDead]
    · rw [state_processSpawn htn] at ht
      rw [ctl_processSpawn htn]
      exact h.alive t st ht hd
  doomed_nodup := h.doomed_nodup
  doomed_dead t ht := (state_processSpawn (hf.known (h.doomed_dead t ht))).trans (h.doomed_dead t ht)
  doomed_ctl t ht := (ctl_processSpawn (hf.known (h.doomed_dead t ht))).trans (h.doomed_ctl t ht)

theorem Queues.processSpawn (h : Queues s) (hf : Fresh s) : Queues s.processSpawn where
  wf := h.wf
  chan_nodup := h.chan_nodup
  chan_parked x c t hx ht := by
    have hp := h.chan_parked x c t hx ht
    rwa [state_processSpawn (hf.known hp.1), ctl_processSpawn (hf.known hp.1)]
  wait_nodup p P hP := by
    rcases procs_processSpawn hP with ⟨hw, -⟩ | hP
    · rw [hw]; exact List.nodup_nil
    · exact h.wait_nodup p P hP
  wait_parked p P t hP ht := by
    rcases procs_processSpawn hP with ⟨hw, -⟩ | hP
    · rw [hw] at ht; cases ht
    · have hp := h.wait_parked p P t hP ht
      rwa [state_processSpawn (hf.known hp.1), ctl_processSpawn (hf.known hp.1)]

theorem Base.processSpawn_releases (h : Base Q s) : Releases s.processSpawn where
  shape := h.releases.shape
  nodup := h.releases.nodup
  unheld p hp := by
    have hcount := h.releases.unheld p hp
    have hpn : p ≠ s.nextObj := by
      rintro rfl
      simp [State.procRefs, h.fresh.procs _ le_rfl] at hcount
    rw [procRefs_processSpawn h, ← hcount]
    simp [Refs.acquire, Refs.alloc, hpn]
  clearing p i hc := by
    simp only [State.procOf, capAt_processSpawn h.fresh]
    exact h.releases.clearing p i hc
  emptied f p i hf hp j hj := by
    rw [capAt_processSpawn h.fresh]
    exact h.releases.emptied f p i hf hp j hj
  close p i hc := by
    obtain ⟨hp, hk⟩ := h.releases.close p i hc
    have hne : s.cur ≠ s.nextTid := h.fresh.known h.sched.running
    exact ⟨(update_of_ne hne ..).trans hp, (ctl_processSpawn hne).trans hk⟩

theorem Base.processSpawn (h : Base Q s) : Base Q s.processSpawn := by
  refine ⟨⟨h.fresh.processSpawn, h.threads.processSpawn h.fresh, h.queues.processSpawn h.fresh,
    h.processSpawn_counts, h.processSpawn_releases, fun t => ?_⟩,
    threadCreate_ok h.sched (h.fresh.threads _ le_rfl)⟩
  have hrefs := procRefs_processSpawn h
  by_cases htn : t = s.nextTid
  · subst htn
    refine Backed.of_not_relies ?_
    simp [State.processSpawn, Ctl.relies]
  · rw [ctl_processSpawn htn]
    have hne : (Holder.thread t) ≠ .thread s.nextTid := by simpa using htn
    refine (h.waits t).congr ?_ fun p i _ => ⟨by rw [capAt_processSpawn h.fresh], ?_⟩
    · rw [hrefs]; exact update_of_ne hne ..
    · simp [hrefs, Refs.acquire, Refs.alloc]

theorem authority_processSpawn (h : Base Q s) : s.processSpawn.authority =
      { s.authority with active := update s.authority.active s.nextObj true } := by
  have hactive : s.processSpawn.activeProc = update s.activeProc s.nextObj true := by
    funext p
    by_cases hp : p = s.nextObj
    · subst hp; simp [activeProc, processSpawn, Ctl.isDead]
    · cases hP : s.procs p with
      | none => simp [activeProc, processSpawn, hp, hP]
      | some P =>
        have hne : P.mainThread ≠ s.nextTid := Nat.ne_of_lt (h.fresh.main p P hP)
        simp [activeProc, processSpawn, hp, hP, hne]
  have hinside : (fun t => (s.processSpawn.ctl t).channel?) = fun t => (s.ctl t).channel? := by
    funext t
    by_cases ht : t = s.nextTid
    · subst ht; simp [processSpawn, h.fresh.ctl, Ctl.channel?]
    · simp [processSpawn, ht]
  simp only [authority, capAt_processSpawn h.fresh, hactive, hinside]
  rfl

/-! ## The parent's handle -/

variable {p q : ObjId} {P R : Process} {i : Fin handleMax} {tbl : HandleTable}

def State.hold (s : State) (p q : ObjId) (P R : Process) (tbl : HandleTable) : State :=
  { (s.setProc q { R with refcount := R.refcount + 1 }).setTable p P tbl with
    created := update s.created q (some (kindProcess, rightRead)) }

/-- One more reference to the process. -/
def State.bump (s : State) (q : ObjId) (R : Process) : State :=
  s.setProc q { R with refcount := R.refcount + 1 }

variable (hq : s.procs q = some R) (hP : s.procs p = some P) (hpq : p ≠ q)

include hP hpq in
theorem procs_bump : (s.bump q R).procs p = some P := (update_of_ne hpq ..).trans hP

include hq hP hpq

theorem activeProc_hold : (s.hold p q P R tbl).activeProc = s.activeProc := by
  have h1 : (s.bump q R).activeProc = s.activeProc := activeProc_setProc hq rfl
  rw [← h1]
  exact activeProc_setProc (procs_bump hP hpq) rfl

variable (ht : tbl.entries = update P.handles.entries i ⟨kindProcess, rightRead, q, true, true⟩)

include ht

theorem capAt_hold : (s.hold p q P R tbl).capAt = update s.capAt (.entry p i) (some (procCap q)) := by
  have h1 : (s.bump q R).capAt = s.capAt := capAt_setProc hq rfl
  rw [← h1]
  have ht' : ({ P with handles := tbl } : Process).handles.entries = _ := ht
  exact capAt_setProc_entry (procs_bump hP hpq) ht'

theorem procRefs_hold (hwork : s.work = []) :
    (s.hold p q P R tbl).procRefs = s.procRefs.acquire (.entry p i) q R.refcount := by
  have hcap := capAt_hold hq hP hpq ht
  have hcount : (s.hold p q P R tbl).procRefs.count =
      update s.procRefs.count q (some (R.refcount + 1)) := by
    have htable : (s.hold p q P R tbl).procRefs.count = (s.bump q R).procRefs.count := by
      refine update_unseen (Option.map Process.refcount) ?_
      exact (congrArg (Option.map Process.refcount) (procs_bump hP hpq)).symm
    rw [htable]
    exact update_seen (Option.map Process.refcount) ..
  have hholds : (s.hold p q P R tbl).procRefs.holds =
      update s.procRefs.holds (.entry p i) (some q) := by
    funext k
    cases k with
    | thread t =>
      rfl
    | entry x j =>
      simp only [procRefs, procOf_eq, hcap]
      by_cases hx : (Holder.entry x j) = .entry p i
      · cases hx
        have hno : ¬ (s.hold p q P R tbl).clearing p i := by
          simp [clearing, hold, setTable, hwork]
        rw [update_self, update_self, if_neg hno]
        rfl
      · have hx' : (Place.entry x j) ≠ .entry p i := fun he => hx (by cases he; rfl)
        rw [update_of_ne hx, update_of_ne hx']
        rfl
  exact congrArg₂ Refs.mk hcount hholds

theorem Base.hold (h : Base Q s) (hwork : s.work = []) (hquiet : Quiet s p)
    (hfree : (P.handles.entries i).inUse = false) : Base Q (s.hold p q P R tbl) := by
  have hrefs := procRefs_hold hq hP hpq ht hwork
  have hcap := capAt_hold hq hP hpq ht
  have hP' := procs_bump (R := R) hP hpq
  have hthread : ∀ t, (s.hold p q P R tbl).procRefs.holds (.thread t) =
      s.procRefs.holds (.thread t) := fun _ => rfl
  have hnone : s.procRefs.holds (.entry p i) = none := by
    simp [procRefs, procOf_eq, procOfCap, capAt_entry_none hP hfree]
  have hfresh1 : Fresh (s.bump q R) := h.fresh.setProc hq rfl
  have hfresh : Fresh ((s.bump q R).setTable p P tbl) := hfresh1.setProc hP' rfl
  have hqueues1 : Queues (s.bump q R) := h.queues.setProc hq rfl
  have hqueues : Queues ((s.bump q R).setTable p P tbl) := hqueues1.setProc hP' rfl
  refine ⟨⟨{ hfresh with created := ?_ }, { h.threads with }, { hqueues with }, ⟨?_, ?_, ?_⟩,
    .of_idle hwork, ?_⟩, h.sched⟩
  · intro x hx
    have hne : q ≠ x := ne_of_some_of_none hq (h.fresh.procs x hx)
    exact (update_of_ne hne.symm ..).trans (h.fresh.created x hx)
  · rw [hrefs]
    exact h.counts.procs.acquire hnone (by simp [procRefs, hq])
  · have hspaces : (s.hold p q P R tbl).spaceRefs = s.spaceRefs :=
      (spaceRefs_setProc hP').trans (spaceRefs_setProc hq)
    rw [hspaces]
    exact h.counts.spaces
  · intro t x hx
    obtain ⟨R0, h0, rfl⟩ := h.counts.main t x (hthread t ▸ hx)
    obtain ⟨R1, h1, hm1⟩ : ∃ R1, (s.bump q R).procs x = some R1 ∧ R1.mainThread = R0.mainThread :=
      main_setProc hq (by rfl) x R0 h0
    rw [← hm1]
    exact main_setProc hP' (by rfl) x R1 h1
  · intro t
    by_cases hh : s.procRefs.holds (.thread t) = some p
    · exact Backed.of_not_relies (hquiet t hh)
    · refine (h.waits t).congr (hthread t) fun x j hx => ?_
      have hne : x ≠ p := by rintro rfl; exact hh hx
      have h1 : (Place.entry x j) ≠ .entry p i := fun he => hne (by cases he; rfl)
      have h2 : (Holder.entry x j) ≠ .entry p i := fun he => hne (by cases he; rfl)
      rw [hcap, hrefs]
      exact ⟨update_of_ne h1 .., update_of_ne h2 ..⟩

theorem authority_hold :
    (s.hold p q P R tbl).authority = (s.authority.newProcess q).put (.entry p i) (procCap q) := by
  simp only [authority, capAt_hold hq hP hpq ht, activeProc_hold hq hP hpq]
  rfl

end

end Exyde.Kernel
