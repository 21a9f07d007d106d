import Exyde.Ipc.ChannelSys
import Exyde.Kernel.Objects
import Exyde.Kernel.Release

/-! # System calls are moves of authority

Every step of the kernel performs a sequence of the abstract moves and keeps the
invariant, or ends in a fault that a sound authority excludes. -/

namespace Exyde.Kernel

open Function Exyde.Lib Exyde.Ipc List Option State

inductive Outcome (pol : Policy) (s s' : State) : Prop
  | done : Moves pol s.authority s'.authority → Base pol.transfer s' → s'.fault = none →
      Outcome pol s s'
  | fault : s'.authority = s.authority → s'.fault ≠ none →
      ¬ (AlonePolicy pol ∧ Sound s.authority) → (pol.alive → s'.fault ≠ some .dangling) →
      Outcome pol s s'

structure Ready (pol : Policy) (s : State) : Prop where
  base : Base pol.transfer s
  genuine : Genuine s.authority
  procCaps : ProcCaps s.authority
  running : s.fault = none

/-- What holds when the current thread runs in the kernel. -/
structure Entered (pol : Policy) (s : State) : Prop extends Ready pol s where
  idle : s.work = []
  user : s.cur ≠ bootThread

/-- What holds when it is a thread of process `p`. -/
structure Calling (pol : Policy) (s : State) (p : ObjId) (P : Process) : Prop
    extends Entered pol s where
  process : s.process s.cur = some p
  alive : s.procs p = some P

section

variable {pol : Policy} {s s1 : State} {p x : ObjId} {P : Process} {c : Channel}
variable {i : Fin handleMax} {r : Int} {cap : Cap} {tbl : HandleTable} {required : UInt32}
  {e : HandleEntry}

/-! ## Returning -/

theorem authority_ret (h : Base pol.transfer s) :
    (s.ret r).authority = { s.authority with inside := update s.authority.inside s.cur none } :=
  authority_goto (k := .user) h.cur_alive rfl

/-- `s1` is `s` with changes that leave the current thread and its process alone. -/
structure Undisturbed (s s1 : State) : Prop where
  fault : s1.fault = s.fault
  work : s1.work = s.work
  cur : s1.cur = s.cur
  process : s1.process = s.process
  procs : s1.procs = s.procs

theorem Undisturbed.refl (s : State) : Undisturbed s s := ⟨rfl, rfl, rfl, rfl, rfl⟩

theorem Undisturbed.setChanWake (x : ObjId) (c : Channel) (w : Option Tid) :
    Undisturbed s ((s.setChan x c).wake w) := by
  cases w with
  | none => exact ⟨rfl, rfl, rfl, rfl, rfl⟩
  | some u => exact ⟨rfl, rfl, Sched.schedUnblock_current .., rfl, rfl⟩

theorem Outcome.ret (hm : Moves pol s.authority s1.authority) (hb : Base pol.transfer s1)
    (hf : s1.fault = none) (hw : s1.work = []) (hc : s1.cur ≠ bootThread) :
    Outcome pol s (s1.ret r) := by
  refine .done (hm.tail ?_) (hb.ret hw hc r) hf
  rw [authority_ret hb]
  exact .leave s1.cur

theorem Entered.retAfter (h : Entered pol s) (hsame : Undisturbed s s1)
    (hm : Moves pol s.authority s1.authority) (hb : Base pol.transfer s1) :
    Outcome pol s (s1.ret r) :=
  .ret hm hb (hsame.fault.trans h.running) (hsame.work.trans h.idle) (hsame.cur ▸ h.user)

theorem Entered.ret (h : Entered pol s) : Outcome pol s (s.ret r) :=
  h.retAfter (.refl s) .refl h.base

theorem Calling.retTable (h : Calling pol s p P) (hsame : Undisturbed s s1)
    (hm : Moves pol s.authority (s1.setTable p P tbl).authority) (hb : Base pol.transfer s1)
    (ht : tbl.entries = update P.handles.entries i e)
    (hold : procOfCap (s1.capAt (.entry p i)) = none) (hnew : procOfCap (entryCap e) = none) :
    Outcome pol s ((s1.setTable p P tbl).ret r) := by
  have hw : s1.work = [] := hsame.work.trans h.idle
  have hret := hb.ret hw (hsame.cur ▸ h.user) r
  have hp : s1.process s1.cur = some p := by rw [hsame.cur, hsame.process]; exact h.process
  have hP : s1.procs p = some P := hsame.procs ▸ h.alive
  have hquiet : Quiet (s1.ret r) p := hret.quiet_cur hp (update_self ..)
  have hclean : p ∉ (s1.ret r).work.filterMap Frame.sweeping? := by simp [hw]
  have hset : Base pol.transfer ((s1.ret r).setTable p P tbl) :=
    hret.setTable hP rfl rfl rfl ht hquiet (Or.inr hclean) hold hnew
  refine .done (hm.tail ?_) hset (hsame.fault.trans h.running)
  have hauth : ((s1.setTable p P tbl).ret r).authority = _ :=
    authority_goto (s := s1.setTable p P tbl) (k := .user) hb.cur_alive rfl
  rw [hauth]
  exact .leave s1.cur

theorem Calling.holds (h : Calling pol s p P) : s.procRefs.holds (.thread s.cur) = some p :=
  h.base.holds_cur h.process

theorem Calling.active (h : Calling pol s p P) : s.authority.active p = true :=
  activeProc_of_cur h.base h.process

theorem Entered.withProc (h : Entered pol s)
    {f : ObjId → Process → State} (hf : ∀ p P, Calling pol s p P → Outcome pol s (f p P)) :
    Outcome pol s (s.withProc f) := by
  unfold State.withProc
  split
  · exact h.ret
  next p hp =>
    obtain ⟨P, -, hP, -⟩ := h.base.toCore.held_live (h.base.holds_cur hp)
    rw [hP]
    exact hf p P { h with process := hp, alive := hP }

/-! ## Looking up a channel -/

theorem Calling.entry (h : Calling pol s p P) {hd : UInt32}
    (hl : P.handles.handleLookupFull hd required = some e) :
    ∃ i : Fin handleMax, i.val = hd.toNat ∧ P.handles.entries i = e ∧
      s.capAt (.entry p i) = some ⟨e.kind, e.rights, e.object, e.ownsObject⟩ ∧
      e.rights &&& required = required := by
  obtain ⟨i, hi, -, he, hu, hr⟩ := HandleTable.handleLookupFull_some hl
  exact ⟨i, hi, he, capAt_entry h.alive he hu, hr⟩

/-- The current thread can name channel `x`. -/
def Reaches (s : State) (p x : ObjId) : Prop :=
  s.authority.inside s.cur = some x ∨
    ∃ i c, s.authority.cap (.entry p i) = some c ∧ c.kind = kindChannel ∧ c.object = x

theorem Calling.withChannel (h : Calling pol s p P) {hd : UInt64}
    {f : ObjId → Channel → State}
    (huse : pol.alive → ∀ x, lookupChannel P.handles hd.toUInt32 required = some x →
      (s.chans x).isSome = true)
    (hf : ∀ x c, lookupChannel P.handles hd.toUInt32 required = some x → s.chans x = some c →
      Reaches s p x → Outcome pol s (f x c)) :
    Outcome pol s (s.withChannel P hd required f) := by
  unfold lookupChannel at hf huse
  unfold State.withChannel lookupChannel
  cases hl : P.handles.handleLookupFull hd.toUInt32 required with
  | none => exact h.ret
  | some e =>
    obtain ⟨i, -, -, hcap, -⟩ := h.entry hl
    by_cases hk : e.kind = kindChannel
    · simp only [hk, if_true]
      cases hx : s.chans e.object with
      | some c => exact hf e.object c (by simp [hl, hk]) hx (Or.inr ⟨i, _, hcap, hk, rfl⟩)
      | none =>
        refine .fault rfl (by simp) (fun hsound => ?_) fun halive => ?_
        · have hlive := hsound.2.entries p i _ hcap hk (Or.inr h.active)
          simp [authority, hx] at hlive
        · simpa [hx] using huse halive e.object (by simp [hl, hk])
    · simp only [hk, if_false]
      exact h.ret

/-! ## Blocking -/

theorem schedule_fault (sch : Sched) : (s.schedule (.ok sch)).fault = s.fault := by
  rw [schedule]
  split <;> rfl

theorem block_fault (h : s.sched.Ok) (hc : s.cur ≠ bootThread) (k : Ctl) :
    (s.block k).fault = s.fault := by
  obtain ⟨sch', hs, -⟩ := Sched.schedBlock_switched h hc
  rw [State.block, hs, schedule_fault]
  rfl

theorem Calling.block (h : Calling pol s p P) {c' : Channel} {k : Ctl} (hx : s.chans x = some c)
    (hreach : Reaches s p x) (hk : k.channel? = some x) (hback : Backed pol.transfer s s.cur k)
    (hwf : c'.Wf) (hcaps : c'.caps = c.caps)
    (hperm : (c'.senders ++ c'.receivers).Perm (s.cur :: (c.senders ++ c.receivers))) :
    Outcome pol s ((s.setChan x c').block k) := by
  have hbase := h.base.blockChan h.idle h.user hk hback hx hwf hperm
  have hkd : k.isDead = false := by cases k <;> first | rfl | cases hk
  have hauth : ((s.setChan x c').block k).authority =
      { s.authority with inside := update s.authority.inside s.cur (some x) } := by
    have hgoto : ((s.setChan x c').goto k).authority = _ :=
      authority_goto (s := s.setChan x c') h.base.cur_alive hkd
    rw [State.block, authority_schedule, hgoto, authority_setChan_same hx hcaps, hk]
    rfl
  have hmoves : Moves pol s.authority ((s.setChan x c').block k).authority := by
    rw [hauth]
    rcases hreach with hin | ⟨i, cap, hcap, hkind, rfl⟩
    · rw [← hin, update_eq_self]
    · exact .single (.enter s.cur p i cap hcap h.active hkind)
  exact .done hmoves hbase ((block_fault (s := s.setChan x c') h.base.sched h.user k).trans h.running)

/-! ## Passing the ring -/

theorem head_not_mem {a q b : List Tid} {u : Tid} (hnodup : (a ++ (q ++ b)).Nodup)
    (hu : q.head? = some u) : u ∈ a ++ (q ++ b) ∧ u ∉ a ++ (q.tail ++ b) := by
  cases q with
  | nil => cases hu
  | cons v q =>
    cases hu
    rw [cons_append, nodup_middle] at hnodup
    exact ⟨by simp, (nodup_cons.mp hnodup).1⟩

theorem Calling.enqueue (h : Calling pol s p P) (hx : s.chans x = some c)
    (hfull : c.count ≠ c.capacity) (msg : Nat → UInt8) (cap : Option Cap) :
    Base pol.transfer ((s.setChan x (c.enqueue msg cap).1).wake (c.enqueue msg cap).2) ∧
      ((s.setChan x (c.enqueue msg cap).1).wake (c.enqueue msg cap).2).authority =
        { s.authority with cap := update s.authority.cap (.slot x c.tail) cap } ∧
      s.authority.cap (.slot x c.tail) = none := by
  have hwf := h.base.queues.wf x c hx
  have hlt : c.count < c.capacity := lt_of_le_of_ne hwf.count_le hfull
  refine ⟨?_, ?_, ?_⟩
  · refine h.base.popWake hx (Channel.enqueue_wf msg cap hwf hlt) ?_ ?_
    · exact List.Sublist.append_left (tail_sublist _) _
    · intro u hu
      have hnodup := h.base.queues.chan_nodup x c hx
      have hpop := head_not_mem (b := []) (by simpa using hnodup) hu
      simpa [Channel.enqueue] using hpop
  · rw [authority_wake, authority_setChan hx (show (c.enqueue msg cap).1.caps =
      update c.caps c.tail (.ofCap cap) from rfl), ChanCap.cap?_ofCap]
  · show s.capAt (.slot x c.tail) = none
    simp [capAt, hx, hwf.tail_cleared hlt]

theorem Calling.commit (h : Calling pol s p P) (hx : s.chans x = some c) (h0 : c.count ≠ 0) :
    Base pol.transfer ((s.setChan x c.commit.1).wake c.commit.2) ∧
      ((s.setChan x c.commit.1).wake c.commit.2).authority =
        { s.authority with cap := update s.authority.cap (.slot x c.head) none } ∧
      s.authority.cap (.slot x c.head) = (c.caps c.head).cap? := by
  have hwf := h.base.queues.wf x c hx
  refine ⟨?_, ?_, ?_⟩
  · refine h.base.popWake hx (Channel.commit_wf hwf h0) ?_ ?_
    · exact List.Sublist.append_right (tail_sublist _) _
    · intro u hu
      exact head_not_mem (a := []) (h.base.queues.chan_nodup x c hx) hu
  · rw [authority_wake, authority_setChan hx (show c.commit.1.caps =
      update c.caps c.head .cleared from rfl), ChanCap.cap?_cleared]
  · show s.capAt (.slot x c.head) = _
    simp [capAt, hx]

/-! ## Sending -/

theorem disownAndClose_entries {hd : UInt32} (hi : i.val = hd.toNat)
    (hu : (tbl.entries i).inUse = true) :
    (disownAndClose tbl hd).entries = update tbl.entries i .empty := by
  have hlt : hd.toNat < handleMax := hi ▸ i.isLt
  obtain rfl : i = ⟨hd.toNat, hlt⟩ := Fin.ext hi
  have h1 : tbl.entryOf hd = some (⟨hd.toNat, hlt⟩, tbl.entries ⟨hd.toNat, hlt⟩) := by
    simp [HandleTable.entryOf, hlt, hu]
  have h2 : (tbl.handleDisown hd).entryOf hd =
      some (⟨hd.toNat, hlt⟩, { tbl.entries ⟨hd.toNat, hlt⟩ with ownsObject := false }) := by
    simp [HandleTable.handleDisown, HandleTable.entryOf, hlt, hu]
  unfold disownAndClose
  rw [h2]
  simp [HandleTable.handleDisown, h1, HandleTable.clear, HandleTable.set]

/-- A capability with the TRANSFER right is not one for a process. -/
theorem Ready.procOf_transferable (h : Ready pol s) {pl : Place}
    (hcap : s.capAt pl = some cap) (hr : cap.rights &&& rightTransfer = rightTransfer) :
    cap.kind ≠ kindProcess := fun hk =>
  procCap_not_transferable (h.procCaps pl cap hcap hk).2.1 hr

theorem procOfCap_some (h : cap.kind ≠ kindProcess) : procOfCap (some cap) = none := by
  simp [procOfCap, h]

/-- **Sending moves the capability, or a copy of it, into the channel.** -/
theorem Calling.sendPass (h : Calling pol s p P) (hx : s.chans x = some c) (hreach : Reaches s p x)
    {msg : Nat → UInt8} {grant : Option Grant}
    (hback : Backed pol.transfer s s.cur (.send x msg grant))
    (henq : ∀ g i, grant = some g → g.action = .transfer → i.val = g.handle.toNat →
      c.count ≠ c.capacity → (P.handles.entries i).inUse = true → pol.enqueue s.authority p i x) :
    Outcome pol s (s.sendPass p P x c msg grant) := by
  have hwf := h.base.queues.wf x c hx
  by_cases hfull : c.count = c.capacity
  · have hpass : channelSendCap c s.cur msg (grant.map Grant.cap) =
        ⟨{ c with senders := waitqPush c.senders s.cur }, none, none⟩ := if_pos hfull
    simp only [State.sendPass, hpass]
    refine h.block hx hreach rfl hback ?_ rfl ?_
    · exact ⟨hwf.capacity_pos, hwf.count_le, hwf.head_lt, hwf.tail_eq, hwf.cleared⟩
    · exact (perm_append_comm.append_right _).trans (by simp)
  · have hpass : channelSendCap c s.cur msg (grant.map Grant.cap) =
        sendNow c msg (grant.map Grant.cap) := if_neg hfull
    simp only [State.sendPass, hpass, sendNow]
    obtain ⟨hbase, hauth, hfree⟩ := h.enqueue hx hfull msg (grant.map Grant.cap)
    generalize hs1 : (s.setChan x (c.enqueue msg (grant.map Grant.cap)).1).wake
      (c.enqueue msg (grant.map Grant.cap)).2 = s1 at hbase hauth
    have hsame : Undisturbed s s1 := hs1 ▸ .setChanWake x _ _
    cases grant with
    | none =>
      refine h.retAfter hsame ?_ hbase
      rw [hauth, map_none, ← hfree, update_eq_self]
    | some g =>
      obtain ⟨p', i, cap, hp', hi, hcap, hk, hr, ho, htr, hpol⟩ := hback
      obtain rfl : p = p' := Option.some.inj (h.holds.symm.trans hp')
      have hg : g.cap = { cap with owns := decide (g.action = .transfer) } := by
        rw [Grant.cap, ← hk, ← hr, ← ho]
      cases hact : g.action with
      | duplicate =>
        simp only [finishSend, hact]
        refine h.retAfter hsame ?_ hbase
        rw [hauth, map_some, hg, hact]
        exact .single (.share p i cap (.slot x c.tail) hcap h.active htr hfree)
      | transfer =>
        simp only [finishSend, hact]
        have hu : (P.handles.entries i).inUse = true := by
          by_contra hne
          rw [capAt_entry_none h.alive (by simpa using hne)] at hcap
          cases hcap
        have hP : s1.procs p = some P := hsame.procs ▸ h.alive
        have hentries := disownAndClose_entries hi hu
        have hne : (Place.entry p i) ≠ .slot x c.tail := by simp
        have hcap1 : s1.capAt (.entry p i) = some cap := by
          have : s1.capAt = update s.capAt (.slot x c.tail) ((some g).map Grant.cap) :=
            congrArg Authority.cap hauth
          rw [this, update_of_ne hne, hcap]
        refine h.retTable hsame ?_ hbase hentries ?_ rfl
        · rw [setTable, authority_setProc_entry hP (by rfl) hentries, hauth, map_some, hg,
            hact]
          exact .single (.transfer p i cap x c.tail hcap h.active htr hfree (hpol hact)
            (henq g i rfl hact hi hfull hu))
        · rw [hcap1]
          exact procOfCap_some (h.procOf_transferable hcap htr)

theorem Calling.trySend (h : Calling pol s p P) (hx : s.chans x = some c) (msg : Nat → UInt8) :
    Outcome pol s
      (match (channelTrySend c msg).ret with
        | some .full => s.ret (-EAGAIN)
        | _ => ((s.setChan x (channelTrySend c msg).chan).wake (channelTrySend c msg).wake).ret 0) := by
  by_cases hfull : c.count = c.capacity
  · have hpass : channelTrySend c msg = ⟨c, none, some .full⟩ := if_pos hfull
    simp only [hpass]
    exact h.ret
  · have hpass : channelTrySend c msg = sendNow c msg none := if_neg hfull
    simp only [hpass, sendNow]
    obtain ⟨hbase, hauth, hfree⟩ := h.enqueue hx hfull msg none
    refine h.retAfter (.setChanWake x _ _) ?_ hbase
    rw [hauth, ← hfree, update_eq_self]

/-! ## Receiving -/

/-- The operation takes a capability only if the table has room for it. -/
def Op.Fits (op : Op) (tbl : HandleTable) (c : Channel) : Prop :=
  op.refuses tbl c = false → c.count ≠ 0 → ∀ cap, (c.caps c.head).cap? = some cap →
    tbl.handleTableHasFreeSlot = true

theorem cap?_inUse {cs : ChanCap} (h : cs.cap? = some cap) : cs.inUse = true := by
  unfold ChanCap.cap? at h
  split at h
  · assumption
  · cases h

theorem fits_sysRecv {op : Op} (tbl : HandleTable) (c : Channel)
    (hop : op = .sysRecv ∨ op = .sysTryRecv ∨ op = .sysRecvCap ∨ op = .sysTryRecvCap) :
    Op.Fits op tbl c := by
  intro href h0 cap hcap
  have hu := cap?_inUse hcap
  rcases hop with rfl | rfl | rfl | rfl <;>
    simp_all [Op.refuses, tableRefuses]

/-- **Receiving moves the capability out of the channel.** -/
theorem Calling.finishRecv (h : Calling pol s p P) (hx : s.chans x = some c) (hreach : Reaches s p x)
    {op : Op} (hop : op.receives = true) (hfit : Op.Fits op P.handles c) {park : Ctl}
    (hpark : park.channel? = some x) (hrel : park.relies = false) (refusal : Int) (copyOut : Bool) :
    Outcome pol s (s.finishRecv p P x (op.pass P.handles s.cur c) park refusal copyOut) := by
  have hwf := h.base.queues.wf x c hx
  have hcase := pass_case P.handles c s.cur op
  generalize op.pass P.handles s.cur c = pass at hcase
  cases hcase with
  | parkSend hs _ _ | put _ _ hs _ _ => simp [Op.receives, hs] at hop
  | fail r hr _ => cases r <;> first | exact h.ret | cases hr
  | parkRecv _ _ _ =>
    refine h.block hx hreach hpark (.of_not_relies hrel) ?_ rfl ?_
    · exact ⟨hwf.capacity_pos, hwf.count_le, hwf.head_lt, hwf.tail_eq, hwf.cleared⟩
    · rw [waitqPush, ← append_assoc]
      exact perm_append_comm
  | take _ h0 href =>
    simp only [State.finishRecv]
    obtain ⟨hbase, hauth, hslot⟩ := h.commit hx h0
    have hsame : Undisturbed s ((s.setChan x c.commit.1).wake c.commit.2) := .setChanWake x _ _
    generalize (s.setChan x c.commit.1).wake c.commit.2 = s1 at hbase hauth hsame
    cases hcap : (c.caps c.head).cap? with
    | none =>
      simp only [Channel.item, hcap, install]
      refine h.retAfter hsame ?_ hbase
      rw [hauth, ← hcap, ← hslot, update_eq_self]
    | some cap =>
      rw [hcap] at hslot
      simp only [Channel.item, hcap, install]
      -- the table has room, so the new handle exists
      obtain ⟨tbl, j, hnew, hunused, hentries⟩ :=
        HandleTable.handleCreateEx_of_room cap.kind cap.rights cap.object cap.owns (hfit href h0 cap hcap)
      simp only [hnew]
      have hP : s1.procs p = some P := hsame.procs ▸ h.alive
      have hfree : s.authority.cap (.entry p j) = none := capAt_entry_none h.alive hunused
      have hkind : cap.kind ≠ kindProcess := by
        intro hk
        obtain ⟨-, -, p', i', he⟩ := h.procCaps (.slot x c.head) cap hslot hk
        cases he
      refine h.retTable hsame ?_ hbase hentries ?_ (procOfCap_some hkind)
      · rw [setTable, authority_setProc_entry hP (by rfl) hentries, hauth]
        have hne : (Place.entry p j) ≠ .slot x c.head := by simp
        have hmove : Move pol s.authority _ := .receive x c.head cap p j hslot hfree
        simp only [Authority.put, Authority.drop, update_comm hne] at hmove
        exact .single hmove
      · have : s1.capAt (.entry p j) = none := capAt_entry_none hP hunused
        rw [this]
        rfl

end

end Exyde.Kernel
