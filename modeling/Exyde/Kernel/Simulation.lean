import Exyde.Kernel.Steps

/-! # The kernel simulates the authority system

The remaining system calls, releases and the scheduler's steps, and from all of them
what a step and a run of the kernel do to authority. -/

namespace Exyde.Kernel

open Function Exyde.Lib Exyde.Ipc List Option State HandleTable

/-! ## What a step passes on and releases -/

/-- Entry `i` of process `p`, if closing it destroys a channel. -/
def ownedChannel (p : ObjId) (i : Fin handleMax) (e : HandleEntry) :
    Option (ObjId × Fin handleMax × ObjId) :=
  if e.inUse = true ∧ e.ownsObject = true ∧ e.kind = kindChannel then some (p, i, e.object) else none

section

variable (s : State)

/-- The entry for which the step calls `channel_destroy`, and the channel. -/
def State.releases : Event → Option (ObjId × Fin handleMax × ObjId)
  | .unwind =>
    match s.work with
    | .sweep p n :: _ =>
      if h : n < handleMax then
        (s.procs p).bind fun P => ownedChannel p ⟨n, h⟩ (P.handles.entries ⟨n, h⟩)
      else none
    | _ => none
  | .syscall (.handleClose h) =>
    (s.process s.cur).bind fun p => (s.procs p).bind fun P =>
      (P.handles.entryOf h.toUInt32).bind fun e => ownedChannel p e.1 e.2
  | _ => none

/-- The channel a handle of the caller is looked up for. -/
def State.looksUp (h : UInt64) (required : UInt32) : Option ObjId :=
  (s.process s.cur).bind fun p => (s.procs p).bind fun P =>
    lookupChannel P.handles h.toUInt32 required

/-- The channel the step accesses: the one of the handle it is called with, of the
operation that goes on, or of the entry that is released. -/
def State.uses : Event → Option ObjId
  | .syscall (.ipcSend h _ _) | .syscall (.ipcTrySend h _ _) | .syscall (.ipcSendCap h _ _ _ _) =>
    s.looksUp h rightWrite
  | .syscall (.ipcRecv h _ _) | .syscall (.ipcTryRecv h _ _) | .syscall (.ipcRecvCap h _ _)
  | .syscall (.ipcTryRecvCap h _ _) => s.looksUp h rightRead
  | .resume _ => (s.ctl s.cur).channel?
  | e => (s.releases e).map fun r => r.2.2

/-- The step accesses no destroyed channel. -/
def UsesAlive (e : Event) : Prop := ∀ x ∈ s.uses e, (s.chans x).isSome = true
  deriving Decidable

/-- The capability a TRANSFER is asked to pass on. -/
def State.transfers : Event → Option Cap
  | .syscall (.ipcSendCap _ _ _ capH action) =>
    if action? action = some .transfer then
      (s.process s.cur).bind fun p => (s.procs p).bind fun P =>
        (P.handles.handleLookupFull capH.toUInt32 rightTransfer).map fun e =>
          ⟨e.kind, e.rights, e.object, e.ownsObject⟩
    else none
  | _ => none

/-- Handle `h` of process `p`, if a pass of `channel_send_cap` on `x` takes it along. -/
def State.takesAlong (p : ObjId) (P : Process) (x : ObjId) (h : UInt32) :
    Option (ObjId × Fin handleMax × ObjId) :=
  (s.chans x).bind fun c =>
    if c.count = c.capacity then none else (P.handles.entryOf h).map fun e => (p, e.1, x)

/-- The entry which a TRANSFER takes out of its table in this step, and the
channel it is queued in. -/
def State.enqueues : Event → Option (ObjId × Fin handleMax × ObjId)
  | .syscall (.ipcSendCap h len msg capH action) =>
    (s.process s.cur).bind fun p => (s.procs p).bind fun P =>
      (lookupChannel P.handles h.toUInt32 rightWrite).bind fun x => (s.chans x).bind fun c =>
        if len.toNat = c.msgSize ∧ msg.isSome = true ∧ action? action = some .transfer ∧
            (P.handles.handleLookupFull capH.toUInt32 rightTransfer).isSome = true then
          s.takesAlong p P x capH.toUInt32
        else none
  | .resume _ =>
    match s.ctl s.cur with
    | .send x _ (some g) =>
      if g.action = .transfer then
        (s.process s.cur).bind fun p => (s.procs p).bind fun P => s.takesAlong p P x g.handle
      else none
    | _ => none
  | _ => none

end

/-- The step does not make up a handle on a channel or a process with
`sys_handle_create`. -/
def NoForge : Event → Prop
  | .syscall (.handleCreate kind _ _) =>
    kind.toUInt32 ≠ kindChannel ∧ kind.toUInt32 ≠ kindProcess
  | _ => True

structure Allowed (pol : Policy) (s : State) (e : Event) : Prop where
  genuine : NoForge e
  transfer : ∀ c, s.transfers e = some c → pol.transfer c
  release : ∀ p i x, s.releases e = some (p, i, x) → pol.release s.authority p i x
  enqueue : ∀ p i x, s.enqueues e = some (p, i, x) → pol.enqueue s.authority p i x
  use : pol.alive → UsesAlive s e

section

variable {pol : Policy} {s s1 : State} {p q x : ObjId} {P R : Process} {c : Channel}
variable {i : Fin handleMax} {w : List Frame} {r : Int} {s' : State} {e : HandleEntry}

/-! ## Making handles -/

theorem Entered.handleCreate (h : Entered pol s)
    {kind rights object : UInt64} (h1 : kind.toUInt32 ≠ kindChannel) (h2 : kind.toUInt32 ≠ kindProcess) :
    Outcome pol s (s.sysHandleCreate kind rights object) := by
  refine h.withProc fun p P h => ?_
  rcases hnew : P.handles.handleCreate kind.toUInt32 rights.toUInt32 object.toNat with ⟨tbl, _ | j⟩
  · exact h.ret
  obtain ⟨hunused, hentries⟩ := handleCreateEx_some hnew
  have hfree : s.capAt (.entry p j) = none := capAt_entry_none h.alive hunused
  refine h.retTable (.refl s) ?_ h.base hentries (by rw [hfree]; rfl) (procOfCap_some h2)
  rw [setTable, authority_setProc_entry h.alive (by rfl) hentries]
  exact .single (.mint p j _ hfree h1 h2)

theorem Entered.ipcCreate (h : Entered pol s)
    (msgSize capacity : UInt64) (allocOk : Bool) :
    Outcome pol s (s.sysIpcCreate msgSize capacity allocOk) := by
  refine h.withProc fun p P h => ?_
  split
  · exact h.ret
  split
  · exact h.ret
  split
  · exact h.ret
  next c hc =>
  obtain ⟨hpos, rfl⟩ := channelCreate_some hc
  rcases hnew : P.handles.handleCreate kindChannel chanRights s.nextObj with ⟨tbl, _ | j⟩
  · exact h.ret
  obtain ⟨hunused, hentries⟩ := handleCreateEx_some hnew
  have hfree : s.capAt (.entry p j) = none := capAt_entry_none h.alive hunused
  -- the channel first, then the handle on it
  have hadd : Base pol.transfer (s.addChannel (channelNew capacity.toNat msgSize.toNat)) :=
    h.base.addChannel (Channel.wf_new hpos) rfl rfl
  have hsame : Undisturbed s (s.addChannel (channelNew capacity.toNat msgSize.toNat)) :=
    ⟨rfl, rfl, rfl, rfl, rfl⟩
  have hout : Outcome pol s
      (((s.addChannel (channelNew capacity.toNat msgSize.toNat)).setTable p P tbl).ret j.val) := by
    refine h.retTable hsame ?_ hadd hentries ?_
      (procOfCap_some (show kindChannel ≠ kindProcess by decide))
    · have hP : (s.addChannel (channelNew capacity.toNat msgSize.toNat)).procs p = some P := h.alive
      rw [setTable, authority_setProc_entry hP (by rfl) hentries,
        authority_addChannel h.base.fresh]
      exact .single (.create p j s.nextObj hfree (h.base.fresh.created _ le_rfl))
    · exact congrArg procOfCap hfree
  exact hout

/-! ## Closing a handle -/

theorem authority_clear (hP : s.procs p = some P) :
    ((s.setTable p P (P.handles.clear i)).setWork w).authority = s.authority.drop (.entry p i) := by
  have hentries : (P.handles.clear i).entries = update P.handles.entries i .empty := rfl
  exact (authority_setProc_entry hP (by rfl) hentries).trans rfl

theorem clearEntry_eq (hP : s.procs p = some P) :
    s.clearEntry p i = s.setTable p P (P.handles.clear i) := by
  simp only [clearEntry, hP]

theorem Ready.closeEntry (h : Ready pol s) {waiting next : List Frame}
    (hP : s.procs p = some P) (he : P.handles.entries i = e) (hu : e.inUse = true)
    (hquiet : Quiet s p) (hclear : ¬ s.clearing p i)
    (hrel : e.ownsObject = true → e.kind = kindChannel →
      pol.release s.authority p i e.object ∧ (pol.alive → (s.chans e.object).isSome = true))
    (hwait : s.procOf p i ≠ none → Pending s (.entry p i) waiting)
    (hnext : ∀ s1 : State, Base pol.transfer s1 → s1.work = s.work →
      s1.capAt (.entry p i) = none → Base pol.transfer (s1.setWork next)) :
    Outcome pol s (s.closeEntry p i e waiting next) := by
  have hcap : s.capAt (.entry p i) = some ⟨e.kind, e.rights, e.object, e.ownsObject⟩ :=
    capAt_entry hP he hu
  have hempty : (P.handles.clear i).entries = update P.handles.entries i .empty := rfl
  -- what clearing an entry does that is not a handle on a process
  have hbase : ∀ s1 : State, Base pol.transfer s1 → s1.procs = s.procs → s1.work = s.work →
      Quiet s1 p → e.kind ≠ kindProcess →
      Base pol.transfer ((s1.setTable p P (P.handles.clear i)).setWork next) := by
    intro s1 hb hprocs hwork hq hk
    have hP1 : s1.procs p = some P := hprocs ▸ hP
    refine hnext _ (hb.setTable hP1 rfl rfl rfl hempty hq (Or.inl rfl) ?_ rfl) hwork ?_
    · rw [capAt_entry hP1 he hu]
      exact procOfCap_some hk
    · rw [setTable, capAt_setProc_entry hP1 hempty, update_self]
      rfl
  unfold State.closeEntry
  split
  next hown =>
    obtain ⟨hown, hk⟩ := hown
    have hkp : e.kind ≠ kindProcess := by rw [hk]; decide
    obtain ⟨hmay, halive⟩ := hrel hown hk
    rcases channelDestroy_cases s e.object with hd | ⟨hx, hd⟩ | ⟨c, t, f, hx, ht, hf, hd⟩ <;>
      simp only [hd]
    · have hP1 : (s.dropChannel e.object).procs p = some P := hP
      rw [clearEntry_eq hP1]
      refine .done ?_ (hbase _ (h.base.dropChannel e.object) rfl rfl hquiet hkp) h.running
      have hmove : Move pol s.authority ((s.authority.destroy e.object).drop (.entry p i)) :=
        .release p i ⟨e.kind, e.rights, e.object, e.ownsObject⟩ hcap ⟨hk, hown⟩ hmay
      rw [authority_clear hP1, authority_dropChannel]
      exact .single hmove
    · refine .fault rfl (by simp) (fun hsound => ?_) fun ha => ?_
      · have hlive := hsound.2.entries p i _ hcap hk (Or.inl hown)
        simp [authority, hx] at hlive
      · simpa [hx] using halive ha
    · -- a thread on a wait queue is inside an operation on the channel
      refine .fault rfl (by simp) (fun hsound => ?_) fun _ => by simpa using hf
      have halone := hsound.1 _ _ _ _ hmay
      exact halone.threads t (h.base.queues.chan_parked e.object c t hx ht).2
  split
  next hown =>
    obtain ⟨hown, hk⟩ := hown
    have hof : s.procOf p i = some e.object := by simp [procOf_eq, hcap, procOfCap, hk]
    have hholds : s.procRefs.holds (.entry p i) = some e.object := by
      simp [procRefs, hclear, hof]
    obtain ⟨hb, hauth, hf⟩ := h.base.processUnref (hwait (by simp [hof])) hquiet hholds
    exact .done (by rw [hauth]) hb (hf.trans h.running)
  next hchan hproc =>
    have hkp : e.kind ≠ kindProcess := fun hk =>
      hproc ⟨(h.procCaps (.entry p i) _ hcap hk).1, hk⟩
    rw [clearEntry_eq hP]
    refine .done ?_ (hbase s h.base rfl rfl hquiet hkp) h.running
    rw [authority_clear hP]
    exact .single (.drop p i _ hcap fun hown => hchan ⟨hown.2, hown.1⟩)

theorem Outcome.of_authority (ha : s1.authority = s.authority)
    (h : Outcome pol s1 s') : Outcome pol s s' := by
  cases h with
  | done hm hb hf => exact .done (ha ▸ hm) hb hf
  | fault he hf hn hd => exact .fault (he.trans ha) hf (ha ▸ hn) hd

theorem Ready.of_authority (h : Ready pol s) (ha : s1.authority = s.authority)
    (hb : Base pol.transfer s1) (hf : s1.fault = s.fault) : Ready pol s1 :=
  ⟨hb, ha ▸ h.genuine, ha ▸ h.procCaps, hf.trans h.running⟩

/-- A thread that is inside no channel operation leaves none when it returns. -/
theorem authority_ret_user (h : Base pol.transfer s) (hctl : s.ctl s.cur = .user) :
    (s.ret r).authority = s.authority := by
  have hnone : s.authority.inside s.cur = none := by simp [authority, hctl, Ctl.channel?]
  rw [authority_ret h, ← hnone, update_eq_self]

theorem Entered.handleClose (h : Entered pol s)
    (hctl : s.ctl s.cur = .user) {hd : UInt64} (hok : Allowed pol s (.syscall (.handleClose hd))) :
    Outcome pol s (s.sysHandleClose hd) := by
  refine h.withProc fun p P h => ?_
  split
  · exact h.ret
  next i e he =>
  obtain ⟨-, hentry, hu⟩ := entryOf_some he
  have hauth : (s.ret 0).authority = s.authority := authority_ret_user h.base hctl
  have hbase := h.base.ret h.idle h.user 0
  have hready : Ready pol (s.ret 0) := h.toReady.of_authority hauth hbase rfl
  have hquiet : Quiet (s.ret 0) p := hbase.quiet_cur h.process (update_self ..)
  have hout : Outcome pol (s.ret 0) ((s.ret 0).closeEntry p i e [.close p i] []) := by
    refine hready.closeEntry h.alive hentry hu hquiet ?_ ?_ ?_ ?_
    · simp [clearing, h.idle]
    · intro hown hk
      have hrel : s.releases (.syscall (.handleClose hd)) = some (p, i, e.object) := by
        simp [releases, h.process, h.alive, he, ownedChannel, hu, hown, hk]
      rw [hauth]
      exact ⟨hok.release p i _ hrel, fun ha => hok.use ha _ (by simp [uses, hrel])⟩
    · exact .of_close h.idle h.process (update_self ..)
    · intro s1 hb hw _
      have hidle : s1.work = [] := hw.trans h.idle
      have : s1.setWork [] = s1 := by rw [← hidle]; rfl
      rw [this]
      exact hb
  exact hout.of_authority hauth

/-! ## Spawning -/

/-- What holds between the new process and the handle the parent gets on it. -/
structure Spawning (pol : Policy) (s s1 : State) (p q : ObjId) (P R : Process) : Prop where
  moves : Moves pol s.authority s1.authority
  base : Base pol.transfer s1
  running : s1.fault = none
  idle : s1.work = []
  user : s1.cur ≠ bootThread
  process : s1.process s1.cur = some p
  ctl : s1.ctl s1.cur = .user
  parent : s1.procs p = some P
  child : s1.procs q = some R
  distinct : p ≠ q
  unknown : s1.created q = none

theorem Spawning.holdChild (h : Spawning pol s s1 p q P R)
    (hroom : P.handles.handleTableHasFreeSlot = true) : Outcome pol s (s1.holdChild p q) := by
  have href : s1.processRef q = s1.setProc q { R with refcount := R.refcount + 1 } := by
    simp only [processRef, h.child]
  have hparent : (s1.setProc q { R with refcount := R.refcount + 1 }).procs p = some P := by
    simp [h.distinct, h.parent]
  simp only [State.holdChild, href, hparent]
  obtain ⟨tbl, j, hnew, hunused, hentries⟩ := handleCreateEx_of_room kindProcess rightRead q true hroom
  simp only [handleCreate, hnew]
  have hquiet := h.base.quiet_cur h.process h.ctl
  have hbase : Base pol.transfer (s1.hold p q P R tbl) :=
    .hold h.child h.parent h.distinct hentries h.base h.idle hquiet hunused
  have hfree : s1.authority.cap (.entry p j) = none := capAt_entry_none h.parent hunused
  have hmove : Move pol s1.authority (s1.hold p q P R tbl).authority := by
    rw [authority_hold h.child h.parent h.distinct hentries]
    exact .hold p j q hfree h.unknown
  have hout : Outcome pol s ((s1.hold p q P R tbl).ret j.val) :=
    .ret (h.moves.tail hmove) hbase h.running h.idle h.user
  exact hout

theorem Calling.spawning (h : Calling pol s p P) (hctl : s.ctl s.cur = .user) :
    Spawning pol s s.processSpawn p s.nextObj P
      ⟨s.nextPid, 1, 0, false, none, .init, [], s.nextTid⟩ := by
  have hcur : s.cur ≠ s.nextTid := (h.base.fresh_ne_cur le_rfl).symm
  have hpq : p ≠ s.nextObj := by
    rintro rfl
    have := h.base.fresh.procs _ le_rfl
    rw [h.alive] at this
    cases this
  have hempty : ∀ i, s.authority.cap (.entry s.nextObj i) = none := by
    intro i
    show s.capAt (.entry s.nextObj i) = none
    simp [capAt, h.base.fresh.procs]
  refine ⟨?_, h.base.processSpawn, h.running, h.idle, h.user, ?_, ?_, ?_, update_self ..,
    hpq, h.base.fresh.created _ le_rfl⟩
  · rw [authority_processSpawn h.base]
    exact .single (.birth s.nextObj hempty)
  · rw [← h.process]; exact update_of_ne hcur ..
  · rw [← hctl]; exact update_of_ne hcur ..
  · rw [← h.alive]; exact update_of_ne hpq ..

theorem Calling.bootstrapped (h : Calling pol s p P) (hctl : s.ctl s.cur = .user)
    {hd : UInt32} (hl : P.handles.handleLookupFull hd rightTransfer = some e)
    (hroom : P.handles.handleTableHasFreeSlot = true) :
    Outcome pol s (s.processSpawn.copyBootstrap p s.nextObj e) := by
  have hsp := h.spawning hctl
  obtain ⟨i, -, -, hcap, hr⟩ := h.entry hl
  have hkind : e.kind ≠ kindProcess := h.procOf_transferable hcap hr
  simp only [copyBootstrap, hsp.child]
  have hempty : init.handleTableHasFreeSlot = true := by
    simp [handleTableHasFreeSlot, init, HandleEntry.empty, handleMax]
  obtain ⟨tbl, j, hnew, hunused, hentries⟩ :=
    handleCreateEx_of_room e.kind e.rights e.object false hempty
  simp only [hnew]
  let R : Process := ⟨s.nextPid, 1, 0, false, some j, tbl, [], s.nextTid⟩
  have hquiet : Quiet s.processSpawn s.nextObj := by
    intro t ht
    obtain ⟨R', hR', rfl⟩ := hsp.base.counts.main t _ ht
    rw [hsp.child] at hR'
    cases hR'
    simp [processSpawn, Ctl.relies]
  have hfree : s.processSpawn.capAt (.entry s.nextObj j) = none :=
    capAt_entry_none hsp.child hunused
  have hbase : Base pol.transfer (s.processSpawn.setProc s.nextObj R) := by
    refine hsp.base.setTable hsp.child rfl rfl rfl hentries hquiet (Or.inr ?_) ?_ ?_
    · simp [hsp.idle]
    · rw [hfree]; rfl
    · exact procOfCap_some hkind
  have hmove : Move pol s.processSpawn.authority
      (s.processSpawn.setProc s.nextObj R).authority := by
    have hsrc : s.processSpawn.authority.cap (.entry p i) =
        some ⟨e.kind, e.rights, e.object, e.ownsObject⟩ := by
      show s.processSpawn.capAt (.entry p i) = _
      rw [capAt_processSpawn h.base.fresh, hcap]
    have hact : s.processSpawn.authority.active p = true := by
      rw [authority_processSpawn h.base, ← h.active]
      exact update_of_ne hsp.distinct ..
    rw [authority_setProc_entry hsp.child (by rfl) hentries]
    exact .share p i _ (.entry s.nextObj j) hsrc hact hr hfree
  have hboot : Spawning pol s (s.processSpawn.setProc s.nextObj R) p s.nextObj P R :=
    ⟨hsp.moves.tail hmove, hbase, hsp.running, hsp.idle, hsp.user, hsp.process, hsp.ctl,
      by simp [hsp.distinct, hsp.parent], update_self .., hsp.distinct, hsp.unknown⟩
  exact hboot.holdChild hroom

theorem Entered.spawnElf (h : Entered pol s)
    (hctl : s.ctl s.cur = .user) (elfSize capH flags : UInt64) (env : SpawnEnv) :
    Outcome pol s (s.sysSpawnElf elfSize capH flags env) := by
  refine h.withProc fun p P h => ?_
  split
  · exact h.ret
  split
  · exact h.ret
  split
  · exact h.ret
  split
  · exact h.ret
  split
  · exact h.ret
  simp only [spawnWithElf]
  split
  · exact h.ret
  next hboot =>
  split
  · exact h.ret
  next hroom =>
  have hroom : P.handles.handleTableHasFreeSlot = true := by simpa using hroom
  split
  · exact h.ret
  · -- the process that got no thread is gone again; its number is not reused
    have hpid : Base pol.transfer { s with nextPid := s.nextPid + 1 } :=
      ⟨⟨{ h.base.fresh with }, { h.base.threads with }, { h.base.queues with },
        { h.base.counts with }, { h.base.releases with },
        fun t => (h.base.waits t).congr rfl fun _ _ _ => ⟨rfl, rfl⟩⟩, h.base.sched⟩
    have hsame : Undisturbed s { s with nextPid := s.nextPid + 1 } := ⟨rfl, rfl, rfl, rfl, rfl⟩
    exact h.retAfter hsame .refl hpid
  · split
    · exact (h.spawning hctl).holdChild hroom
    next hcap =>
    split
    next hnone => exact absurd ⟨hcap, hnone⟩ hboot
    next e he => exact h.bootstrapped hctl he hroom

/-! ## Waiting and exiting -/

theorem Entered.waitPass (h : Entered pol s)
    (hback : Backed pol.transfer s s.cur (.wait q)) : Outcome pol s (s.waitPass q) := by
  obtain ⟨p, i, -, hq⟩ := id hback
  obtain ⟨R, -, hR, -⟩ := h.base.toCore.held_live hq
  simp only [State.waitPass, hR]
  split
  · exact h.ret
  refine .done ?_ (h.base.blockWait h.idle h.user hback hR) ?_
  · have hset : (s.setProc q { R with waiters := waitqPush R.waiters s.cur }).authority =
        s.authority := authority_setProc hR rfl rfl
    have hgoto : ((s.setProc q { R with waiters := waitqPush R.waiters s.cur }).goto
        (.wait q)).authority = _ := authority_goto h.base.cur_alive rfl
    rw [State.block, authority_schedule, hgoto, hset]
    exact .single (.leave s.cur)
  · exact (block_fault (s := s.setProc q _) h.base.sched h.user _).trans h.running

theorem Entered.wait (h : Entered pol s) (procH : UInt64) : Outcome pol s (s.sysWait procH) := by
  refine h.withProc fun p P h => ?_
  split
  · exact h.ret
  next e hl =>
  split
  · exact h.ret
  next hk =>
  obtain ⟨i, -, -, hcap, -⟩ := h.entry hl
  have hclear : ¬ s.clearing p i := by simp [clearing, h.idle]
  have hholds : s.procRefs.holds (.entry p i) = some e.object := by
    simp [procRefs, hclear, procOf_eq, hcap, procOfCap, hk]
  exact h.waitPass ⟨p, i, h.holds, hholds⟩

theorem authority_dead (h : Base pol.transfer s) :
    Moves pol s.authority (s.goto .dead).authority := by
  have hleave : Move pol s.authority _ := .leave s.cur
  refine .tail (.single hleave) ?_
  have hactive : ∀ x, (s.goto .dead).activeProc x = true → s.activeProc x = true := by
    intro x hx
    obtain ⟨R, hR, hm⟩ := (any_eq_true _ _).mp hx
    refine (any_eq_true _ _).mpr ⟨R, hR, ?_⟩
    by_cases hcur : R.mainThread = s.cur
    · rw [hcur]; simpa using h.cur_alive
    · simpa [update_of_ne hcur] using hm
  have hinside : (s.goto .dead).authority.inside = update s.authority.inside s.cur none := by
    funext t
    by_cases ht : t = s.cur
    · subst ht; simp [authority, Ctl.channel?]
    · simp [authority, ht]
  have hauth : (s.goto .dead).authority =
      { s.authority with
        inside := update s.authority.inside s.cur none
        active := (s.goto .dead).activeProc } := by
    rw [← hinside]
    rfl
  rw [hauth]
  exact .retire _ hactive

theorem Entered.threadExit (h : Entered pol s) : Outcome pol s s.threadExit := by
  obtain ⟨sch', hs, -⟩ := Sched.threadExit_switched h.base.sched h.user
  refine .done ?_ (h.base.threadExit h.idle h.user) ?_
  · rw [State.threadExit, authority_schedule]
    exact authority_dead h.base
  · rw [State.threadExit, hs, schedule_fault]
    exact h.running

theorem foldl_unblock_current (ws : List Tid) (sch : Sched) :
    (ws.foldl Sched.schedUnblock sch).current = sch.current := by
  induction ws generalizing sch with
  | nil => rfl
  | cons w ws ih => rw [foldl_cons, ih, Sched.schedUnblock_current]

/-- `process_exit` changes neither authority nor who runs. -/
theorem processExit_spec (hP : s.procs p = some P) (code : Int) :
    (s.processExit p P code).authority = s.authority ∧ (s.processExit p P code).cur = s.cur ∧
      (s.processExit p P code).work = s.work ∧ (s.processExit p P code).fault = s.fault := by
  unfold processExit
  split
  · exact ⟨rfl, rfl, rfl, rfl⟩
  · have hauth : (s.setProc p { P with exitCode := code, exited := true, waiters := [] }).authority =
        s.authority := authority_setProc hP rfl rfl
    exact ⟨hauth, foldl_unblock_current _ _, rfl, rfl⟩

theorem Entered.exit (h : Entered pol s) (code : UInt64) : Outcome pol s (s.sysExit code) := by
  unfold sysExit
  split
  · exact h.threadExit
  next p hp =>
  obtain ⟨P, -, hP, -⟩ := h.base.toCore.held_live (h.base.holds_cur hp)
  simp only [hP]
  obtain ⟨hauth, hcur, hwork, hfault⟩ := processExit_spec hP code.toUInt32.toBitVec.toInt
  have hready := h.of_authority hauth (h.base.processExit hP _) hfault
  have henter : Entered pol _ := { hready with idle := hwork.trans h.idle, user := hcur ▸ h.user }
  exact henter.threadExit.of_authority hauth

/-! ## Switching -/

theorem Ready.reschedule (h : Ready pol s) (hw : s.work = []) {sch' : Sched}
    (hsw : s.sched.Switched sch') : Outcome pol s (s.schedule (.ok sch')) := by
  refine .done ?_ (h.base.reschedule hw hsw) ?_
  · rw [authority_schedule]
  · rw [schedule_fault]
    exact h.running

/-! ## Releases in progress -/

theorem Ready.sweep (h : Ready pol s) {n : Nat} (hw : s.work = .sweep p n :: w)
    (hrel : ∀ i : Fin handleMax, i.val = n → ∀ P, s.procs p = some P →
      (P.handles.entries i).inUse = true → (P.handles.entries i).ownsObject = true →
      (P.handles.entries i).kind = kindChannel →
      pol.release s.authority p i (P.handles.entries i).object ∧
        (pol.alive → (s.chans (P.handles.entries i).object).isSome = true)) :
    Outcome pol s (s.unwind (.sweep p n) w) := by
  have hcount : s.procRefs.count p = some 0 :=
    h.base.releases.unheld p (by rw [hw]; exact mem_cons_self ..)
  obtain ⟨P, hP, -⟩ := map_eq_some_iff.mp hcount
  have hquiet : Quiet s p := fun t ht => absurd ht (h.base.counts.procs.unheld hcount _)
  simp only [unwind, hP]
  split
  next hn =>
    split
    next hu =>
      refine h.closeEntry hP rfl hu hquiet ?_ (hrel ⟨n, hn⟩ rfl P hP hu) ?_ ?_
      · -- the entry is not yet being released
        intro hm
        rcases hm with hm | hm
        · rw [hw] at hm
          have hnodup := h.base.releases.nodup
          rw [hw] at hnodup
          refine (nodup_cons.mp hnodup).1 (mem_filterMap.mpr ⟨.swept p ⟨n, hn⟩, ?_, rfl⟩)
          exact (mem_cons.mp hm).resolve_left (by simp)
        · have hcur := h.base.holds_cur (h.base.releases.close _ _ hm).1
          exact h.base.counts.procs.unheld hcount _ hcur
      · exact fun hof => .of_sweep (i := ⟨n, hn⟩) h.base hw hof
      · intro s1 hb hwork hcap
        refine hb.advance (hwork.trans hw) ?_
        intro j hj
        obtain rfl : j = ⟨n, hn⟩ := Fin.ext hj
        exact hcap
    next hu =>
      refine .done .refl (h.base.advance hw ?_) h.running
      intro j hj
      obtain rfl : j = ⟨n, hn⟩ := Fin.ext hj
      exact capAt_entry_none hP (by simpa using hu)
  next hn =>
    obtain ⟨m, heq, hbase⟩ := h.base.freeProcess hw (Nat.le_of_not_lt hn)
    rw [heq]
    refine .done ?_ hbase h.running
    have hempty := h.base.swept_empty hw (Nat.le_of_not_lt hn)
    have hauth : (s.freed p m w).authority =
        { s.authority with active := (s.freed p m w).activeProc } := by
      simp only [authority, capAt_freed hempty]
      rfl
    rw [hauth]
    refine .single (.retire _ ?_)
    intro x hx
    have hxp : x ≠ p := by rintro rfl; simp [activeProc] at hx
    show s.activeProc x = true
    simpa [activeProc, hxp] using hx

theorem Ready.clear (h : Ready pol s) {f : Frame} {w' : List Frame} (hw : s.work = f :: w)
    (hf : f.After p i w w') (hP : s.procs p = some P) (hquiet : Quiet s p) :
    Moves pol s.authority ((s.setTable p P (P.handles.clear i)).setWork w').authority ∧
      Base pol.transfer ((s.setTable p P (P.handles.clear i)).setWork w') := by
  refine ⟨?_, h.base.cleared hw hP hquiet hf⟩
  have hclearing : s.clearing p i := by
    rcases hf with ⟨rfl, -⟩ | ⟨rfl, -⟩ <;> simp [clearing, hw]
  -- what is cleared is a handle on a process
  have hof := h.base.releases.clearing p i hclearing
  rw [procOf_eq] at hof
  cases hcap : s.capAt (.entry p i) with
  | none => rw [hcap] at hof; exact absurd rfl hof
  | some c =>
    have hk : c.kind = kindProcess := by
      by_contra hk
      rw [hcap, procOfCap_some hk] at hof
      exact hof rfl
    rw [authority_clear hP]
    refine .single (.drop p i c hcap fun hown => ?_)
    rw [hown.1] at hk
    exact absurd hk (by decide)

theorem Ready.reap (h : Ready pol s) {t : Tid} {rest : List Tid}
    (hw : s.work = [.reap none (t :: rest)]) :
    Outcome pol s ((s.setWork [.reap (some t) rest]).freeThread t) := by
  have hpend := Pending.of_reap hw
  have hdoomed : t ∈ s.doomed := by simp [doomed, hw, Frame.doomed]
  have hdead := h.base.threads.doomed_dead t hdoomed
  have hrelies : (s.ctl t).relies = false := by rw [h.base.threads.doomed_ctl t hdoomed]; rfl
  have hnd : ¬ s.dying t := by simp [dying, hw, Frame.dying?]
  have hholds : s.procRefs.holds (.thread t) = s.process t := by
    simp [procRefs, hdead, hnd]
  simp only [freeThread, setWork_process, setWork_procs]
  cases hp : s.process t with
  | none =>
    -- a thread without a process has no reference to drop
    have hrefs : (s.setWork [.reap (some t) rest]).procRefs = s.procRefs := by
      have hnone : update s.procRefs.holds (.thread t) none = s.procRefs.holds := by
        rw [update_eq_self_iff, hholds, hp]
      rw [hpend.holds, hnone]
    refine .done .refl (h.base.setWork ?_ hrefs hpend.doomed) h.running
    refine ⟨hpend.shape, nodup_nil, ?_, hpend.clearing, hpend.emptied, hpend.close⟩
    intro x hx
    simp [Frame.sweeping?] at hx
  | some x =>
    rw [hp] at hholds
    obtain ⟨R, hR, hm⟩ := h.base.counts.main t x hholds
    simp only [hR, hm, if_true]
    obtain ⟨hb, hauth, hf⟩ := h.base.processUnref hpend hrelies hholds
    exact .done (by rw [hauth]) hb (hf.trans h.running)

theorem Ready.unwind (h : Ready pol s) {f : Frame} (hw : s.work = f :: w)
    (hrel : ∀ p i x, s.releases .unwind = some (p, i, x) →
      pol.release s.authority p i x ∧ (pol.alive → (s.chans x).isSome = true)) :
    Outcome pol s (s.unwind f w) := by
  have hshape := h.base.releases.shape
  rw [hw] at hshape
  cases hshape with
  | sweep p n hshape =>
    refine h.sweep hw ?_
    intro i hi P hP hu hown hk
    obtain rfl : n = i.val := hi.symm
    refine hrel p i _ ?_
    simp [releases, hw, hP, ownedChannel, hu, hown, hk]
  | swept p i hshape =>
    have hcount : s.procRefs.count p = some 0 :=
      h.base.releases.unheld p (by rw [hw]; exact mem_cons_self ..)
    obtain ⟨P, hP, -⟩ := map_eq_some_iff.mp hcount
    have hquiet : Quiet s p := fun t ht => absurd ht (h.base.counts.procs.unheld hcount _)
    obtain ⟨hm, hb⟩ := h.clear hw (Or.inl ⟨rfl, rfl⟩) hP hquiet
    simp only [State.unwind, State.clearEntry, hP]
    refine .done hm (hb.advance rfl ?_) h.running
    intro j hj
    obtain rfl : j = i := Fin.ext hj
    rw [capAt_cleared hP, update_self]
  | close p i =>
    obtain ⟨hp, hctl⟩ := h.base.releases.close p i (by simp [hw])
    obtain ⟨P, -, hP, -⟩ := h.base.toCore.held_live (h.base.holds_cur hp)
    obtain ⟨hm, hb⟩ := h.clear hw (Or.inr ⟨rfl, rfl⟩) hP (h.base.quiet_cur hp hctl)
    simp only [unwind, clearEntry, hP]
    exact .done hm hb h.running
  | reap d rest =>
    cases d with
    | some t =>
      obtain ⟨sp, heq, hb⟩ := h.base.freeThreadMem hw
      simp only [unwind, heq]
      exact .done .refl hb h.running
    | none =>
      cases rest with
      | cons t rest => exact h.reap hw
      | nil =>
        refine .done .refl (h.base.setWork (.of_idle rfl) ?_ ?_) h.running
        · refine procRefs_congr rfl rfl (fun _ => rfl) ?_ ?_
          · intro t; simp [dying, hw, Frame.dying?]
          · intro x j; simp [clearing, hw]
        · simp [doomed, hw, Frame.doomed]

/-! ## A step -/

theorem takesAlong_eq {hd : UInt32} (hx : s.chans x = some c) (hfull : c.count ≠ c.capacity)
    (hi : i.val = hd.toNat) (hu : (P.handles.entries i).inUse = true) :
    s.takesAlong p P x hd = some (p, i, x) := by
  have hlt : hd.toNat < handleMax := hi ▸ i.isLt
  obtain rfl : i = ⟨hd.toNat, hlt⟩ := Fin.ext hi
  simp [takesAlong, hx, hfull, entryOf, hlt, hu]

theorem Calling.looksUp_eq (h : Calling pol s p P) {hd : UInt64} {required : UInt32} :
    s.looksUp hd required = lookupChannel P.handles hd.toUInt32 required := by
  simp [looksUp, h.process, h.alive]

theorem Entered.sendCap (h : Entered pol s)
    {hd len capH action : UInt64} {msg : Option (Nat → UInt8)}
    (hok : Allowed pol s (.syscall (.ipcSendCap hd len msg capH action))) :
    Outcome pol s (s.sysIpcSendCap hd len msg capH action) := by
  refine h.withProc fun p P h => ?_
  refine h.withChannel (fun ha x hl => hok.use ha x (h.looksUp_eq.trans hl))
    fun x c hlook hx hreach => ?_
  split
  · exact h.ret
  next hlen =>
  split
  · exact h.ret
  next m =>
  split
  · exact h.sendPass hx hreach trivial fun _ _ hg => by cases hg
  split
  · exact h.ret
  next act hact =>
  split
  · exact h.ret
  next e hl =>
  obtain ⟨i, hi, -, hcap, hr⟩ := h.entry hl
  refine h.sendPass hx hreach ⟨p, i, _, h.holds, hi, hcap, rfl, rfl, rfl, hr, ?_⟩ ?_
  · rintro rfl
    refine hok.transfer _ ?_
    simp [transfers, hact, h.process, h.alive, hl]
  · intro g j hg htr hj hfull hu
    cases hg
    refine hok.enqueue p j x ?_
    have htr : action? action = some .transfer := hact.trans (congrArg some htr)
    simp [enqueues, h.process, h.alive, hlook, hx, hlen, htr, hl, takesAlong_eq hx hfull hj hu]

theorem Entered.receive (h : Entered pol s)
    (hd maxLen : UInt64) (op : Op) {park : ObjId → Ctl} (refusal : Int) (copyOut : Bool)
    (huse : pol.alive → ∀ x ∈ s.looksUp hd rightRead, (s.chans x).isSome = true)
    (hop : op = .sysRecv ∨ op = .sysTryRecv ∨ op = .sysRecvCap ∨ op = .sysTryRecvCap)
    (hpark : ∀ x, (park x).channel? = some x ∧ (park x).relies = false) :
    Outcome pol s (s.withReceive hd maxLen fun p P x c =>
      s.finishRecv p P x (op.pass P.handles s.cur c) (park x) refusal copyOut) := by
  refine h.withProc fun p P hcall => hcall.withChannel
    (fun ha x hl => huse ha x (hcall.looksUp_eq.trans hl)) fun x c _ hx hreach => ?_
  split
  · exact hcall.ret
  · refine hcall.finishRecv hx hreach ?_ (fits_sysRecv _ _ hop) (hpark x).1 (hpark x).2 refusal copyOut
    rcases hop with rfl | rfl | rfl | rfl <;> rfl

theorem Ready.syscall (h : Ready pol s) (hw : s.work = []) (hctl : s.ctl s.cur = .user)
    {call : Syscall} (hok : Allowed pol s (.syscall call)) : Outcome pol s (s.syscall call) := by
  have h : Entered pol s := { h with idle := hw, user := h.base.cur_ne_boot (by rw [hctl]; simp) }
  have hrecv : ∀ x, (Ctl.recv x).channel? = some x ∧ (Ctl.recv x).relies = false :=
    fun _ => ⟨rfl, rfl⟩
  have hrecvCap : ∀ x, (Ctl.recvCap x).channel? = some x ∧ (Ctl.recvCap x).relies = false :=
    fun _ => ⟨rfl, rfl⟩
  cases call with
  | ping _ | undefined => exact h.ret
  | exit code => exact h.exit code
  | handleCreate kind rights object => exact h.handleCreate hok.genuine.1 hok.genuine.2
  | handleClose hd => exact h.handleClose hctl hok
  | handleQuery hd required | getBootstrap =>
    refine h.withProc fun p P hcall => ?_
    split <;> exact hcall.ret
  | getpid | plain _ _ => exact h.withProc fun p P hcall => hcall.ret
  | ipcCreate msgSize capacity allocOk => exact h.ipcCreate msgSize capacity allocOk
  | ipcSend hd len msg =>
    refine h.withProc fun p P hcall => hcall.withChannel
      (fun ha x hl => hok.use ha x (hcall.looksUp_eq.trans hl)) fun x c _ hx hreach => ?_
    split
    · exact hcall.ret
    split
    · exact hcall.ret
    · exact hcall.sendPass hx hreach trivial fun _ _ hg => by cases hg
  | ipcTrySend hd len msg =>
    refine h.withProc fun p P hcall => hcall.withChannel
      (fun ha x hl => hok.use ha x (hcall.looksUp_eq.trans hl)) fun x c _ hx _ => ?_
    split
    · exact hcall.ret
    split
    · exact hcall.ret
    · exact hcall.trySend hx _
  | ipcRecv hd maxLen copyOut =>
    exact h.receive hd maxLen .sysRecv EINVAL copyOut hok.use (by simp) hrecv
  | ipcTryRecv hd maxLen copyOut =>
    exact h.receive hd maxLen .sysTryRecv EINVAL copyOut hok.use (by simp) hrecv
  | ipcRecvCap hd maxLen copyOut =>
    exact h.receive hd maxLen .sysRecvCap ENFILE copyOut hok.use (by simp) hrecvCap
  | ipcTryRecvCap hd maxLen copyOut =>
    exact h.receive hd maxLen .sysTryRecvCap ENFILE copyOut hok.use (by simp) hrecvCap
  | ipcSendCap hd len msg capH action => exact h.sendCap hok
  | spawnElf elfSize capH flags env => exact h.spawnElf hctl elfSize capH flags env
  | wait procH => exact h.wait procH
  | yield =>
    have hauth : (s.ret 0).authority = s.authority := authority_ret_user h.base hctl
    have hready := h.of_authority hauth (h.base.ret hw h.user 0) rfl
    obtain ⟨sch', hs, hsw⟩ := Sched.schedYield_switched h.base.sched
    have hout : Outcome pol (s.ret 0) ((s.ret 0).schedule (.ok sch')) := hready.reschedule hw hsw
    rw [← hs] at hout
    exact hout.of_authority hauth

theorem Ready.resume (h : Ready pol s) (hw : s.work = []) {copyOut : Bool}
    (hok : Allowed pol s (.resume copyOut)) (hs : s.resume copyOut (s.ctl s.cur) = some s') :
    Outcome pol s s' := by
  have hback := h.base.waits s.cur
  have huser : s.cur ≠ bootThread := by
    refine h.base.cur_ne_boot fun he => ?_
    rw [he] at hs
    cases hs
  have h : Entered pol s := { h with idle := hw, user := huser }
  -- a channel that is gone is one a sound authority would have kept
  have hgone : ∀ {x : ObjId}, (s.ctl s.cur).channel? = some x → s.chans x = none →
      Outcome pol s (s.fail .dangling) := by
    intro x hin hx
    refine .fault rfl (by simp) (fun hsound => ?_) fun halive => ?_
    · have hlive := hsound.2.threads s.cur x hin
      simp [authority, hx] at hlive
    · simpa [hx] using hok.use halive x hin
  cases hk : s.ctl s.cur with
  | idle | fresh | user | dead => rw [hk] at hs; cases hs
  | wait q =>
    rw [hk] at hs hback
    cases hs
    exact h.waitPass hback
  | send x msg grant =>
    rw [hk] at hs hback
    cases hs
    have hin : (s.ctl s.cur).channel? = some x := by rw [hk]; rfl
    refine h.withProc fun p P hcall => ?_
    cases hx : s.chans x with
    | none => exact hgone hin hx
    | some c =>
      refine hcall.sendPass hx (Or.inl hin) hback ?_
      intro g i hg htr hi hfull hu
      refine hok.enqueue p i x ?_
      simp [enqueues, hk, hg, htr, hcall.process, hcall.alive, takesAlong_eq hx hfull hi hu]
  | recv x =>
    rw [hk] at hs
    cases hs
    have hin : (s.ctl s.cur).channel? = some x := by rw [hk]; rfl
    refine h.withProc fun p P hcall => ?_
    cases hx : s.chans x with
    | none => exact hgone hin hx
    | some c =>
      have hfit : Op.Fits .sysRecv P.handles c := fits_sysRecv P.handles c (by simp)
      exact hcall.finishRecv hx (Or.inl hin) rfl hfit rfl rfl _ _
  | recvCap x =>
    rw [hk] at hs
    cases hs
    have hin : (s.ctl s.cur).channel? = some x := by rw [hk]; rfl
    refine h.withProc fun p P hcall => ?_
    cases hx : s.chans x with
    | none => exact hgone hin hx
    | some c =>
      have hfit : Op.Fits .sysRecvCap P.handles c := fits_sysRecv P.handles c (by simp)
      exact hcall.finishRecv hx (Or.inl hin) rfl hfit rfl rfl _ _

/-- **Every step is a sequence of moves, or a fault a sound authority excludes.** -/
theorem Ready.step (h : Ready pol s) {e : Event} (hok : Allowed pol s e)
    (hs : s.step e = some s') : Outcome pol s s' := by
  unfold State.step at hs
  rw [h.running] at hs
  cases hw : s.work with
  | cons f w =>
    rw [hw] at hs
    cases e with
    | unwind =>
      cases hs
      refine h.unwind hw fun p i x hr => ⟨hok.release p i x hr, fun ha => ?_⟩
      exact hok.use ha x (by simp [uses, hr])
    | _ => cases hs
  | nil =>
    rw [hw] at hs
    cases e with
    | unwind => cases hs
    | resume copyOut => exact h.resume hw hok hs
    | enter =>
      cases hk : s.ctl s.cur with
      | fresh =>
        rw [hk] at hs
        cases hs
        have hc : s.cur ≠ bootThread := h.base.cur_ne_boot (by rw [hk]; simp)
        refine .done ?_ (h.base.goto hw hc rfl trivial) h.running
        rw [authority_goto h.base.cur_alive rfl]
        exact .single (.leave s.cur)
      | _ => rw [hk] at hs; cases hs
    | syscall call =>
      cases hk : s.ctl s.cur with
      | user => rw [hk] at hs; cases hs; exact h.syscall hw hk hok
      | _ => rw [hk] at hs; cases hs
    | timer =>
      obtain ⟨sch', hsch, hsw⟩ := Sched.timer_switched h.base.sched
      have hout : Outcome pol s s.timer := by
        rw [timer, hsch]
        exact h.reschedule hw hsw
      cases hk : s.ctl s.cur with
      | user | idle => rw [hk] at hs; cases hs; exact hout
      | _ => rw [hk] at hs; cases hs
    | spawnInit =>
      cases hk : s.ctl s.cur with
      | idle =>
        rw [hk] at hs
        cases hs
        refine .done ?_ h.base.processSpawn h.running
        rw [authority_processSpawn h.base]
        refine .single (.birth s.nextObj fun i => ?_)
        show s.capAt (.entry s.nextObj i) = none
        simp [capAt, h.base.fresh.procs]
      | _ => rw [hk] at hs; cases hs
    | idle =>
      cases hk : s.ctl s.cur with
      | idle =>
        rw [hk] at hs
        cases hs
        obtain ⟨sch', hsch, hsw⟩ := Sched.schedYield_switched h.base.sched
        rw [hsch]
        exact h.reschedule hw hsw
      | _ => rw [hk] at hs; cases hs

end

/-! ## A run -/

section

variable {pol : Policy} {s : State} {s' : State} {e : Event}

theorem boot_base (Q : Cap → Prop) : Base Q boot := by
  have hproc : ∀ k, boot.procRefs.holds k = none := by
    intro k
    cases k with
    | thread t => exact ite_self none
    | entry p i => simp [procRefs, show boot.procOf p i = none from rfl]
  have hspace : ∀ k, boot.spaceRefs.holds k = none := by
    intro k
    cases k with
    | process p => rfl
    | thread t => exact ite_self none
  refine ⟨⟨?_, ?_, ?_, ⟨?_, ?_, ?_⟩, .of_idle rfl, fun t => trivial⟩, Sched.schedInit_ok⟩
  · refine ⟨fun _ _ => rfl, fun _ _ => rfl, fun _ _ => rfl, fun _ _ => rfl, ?_, fun _ _ => rfl, ?_, ?_⟩
    · intro t ht
      have hne : t ≠ bootThread := Nat.ne_of_gt ht
      simp [boot, schedInit, hne]
    · intro t p hp; cases hp
    · intro p P hP; cases hP
  · refine ⟨Nat.zero_lt_one, rfl, fun _ _ _ _ => rfl, nodup_nil, ?_, ?_⟩
    · intro t ht; cases ht
    · intro t ht; cases ht
  · refine ⟨?_, ?_, ?_, ?_, ?_⟩
    · intro x c hx; cases hx
    · intro x c hx; cases hx
    · intro x c t hx; cases hx
    · intro q R hR; cases hR
    · intro q R t hR; cases hR
  · refine ⟨?_, ?_⟩
    · intro k p hk; rw [hproc] at hk; cases hk
    · intro p n hn; cases hn
  · refine ⟨?_, ?_⟩
    · intro k p hk; rw [hspace] at hk; cases hk
    · intro p n hn; cases hn
  · intro t p hp
    rw [hproc] at hp
    cases hp

theorem boot_cap (pl : Place) : boot.authority.cap pl = none := by cases pl <;> rfl

structure Kept (pol : Policy) (s : State) : Prop where
  base : s.fault = none → Base pol.transfer s
  genuine : Genuine s.authority
  procCaps : ProcCaps s.authority
  used : pol.alive → s.fault ≠ some .dangling

theorem kept_boot (pol : Policy) : Kept pol boot where
  base := fun _ => boot_base _
  used := fun _ => nofun
  genuine := fun pl c hc => by rw [boot_cap] at hc; cases hc
  procCaps := fun pl c hc => by rw [boot_cap] at hc; cases hc

theorem step_running (hs : s.step e = some s') : s.fault = none := by
  unfold step at hs
  split at hs
  · cases hs
  next h => simpa using h

theorem Kept.ready (h : Kept pol s) (hf : s.fault = none) : Ready pol s :=
  ⟨h.base hf, h.genuine, h.procCaps, hf⟩

theorem Kept.moves (h : Kept pol s) (hok : Allowed pol s e)
    (hs : s.step e = some s') : Moves pol s.authority s'.authority := by
  cases (h.ready (step_running hs)).step hok hs with
  | done hm _ _ => exact hm
  | fault ha _ _ _ => rw [ha]

theorem Kept.step (h : Kept pol s) (hok : Allowed pol s e)
    (hs : s.step e = some s') : Kept pol s' := by
  have hm := h.moves hok hs
  cases (h.ready (step_running hs)).step hok hs with
  | done _ hb hf =>
    exact ⟨fun _ => hb, Moves.genuine hm h.genuine, Moves.procCaps hm h.procCaps, fun _ => by simp [hf]⟩
  | fault _ hn _ hd =>
    exact ⟨fun hf => absurd hf hn, Moves.genuine hm h.genuine, Moves.procCaps hm h.procCaps, hd⟩

theorem reach_kept (h : Reach kernelSystem (Allowed pol) s) : Kept pol s := by
  refine h.invariant (I := Kept pol) ?_ ?_
  · intro s hs
    rw [show s = boot from hs]
    exact kept_boot pol
  · intro s e s' hk hok hs
    exact hk.step hok hs

end

end Exyde.Kernel
