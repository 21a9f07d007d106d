import Exyde.Mem.UserAccess
import Exyde.Kernel.Lifetime

/-! # Receives that fail

The four receive calls with the user addresses they are given. The copies to the
caller's buffers come last: one that fails comes too late. Every other failure leaves
the queue and the handle table alone. -/

namespace Exyde.Kernel

open Function Exyde.Lib Exyde.Ipc State
open Exyde.Mem (MM Byte copyToUser memSys)

/-- `sys_ipc_recv`, `sys_ipc_try_recv`, `sys_ipc_recv_cap`, `sys_ipc_try_recv_cap`. -/
inductive RecvCall where
  | recv
  | tryRecv
  | recvCap
  | tryRecvCap
  deriving DecidableEq, Repr

/-- The arguments; the plain receives have no `out_cap`. -/
structure RecvArgs where
  h : UInt64
  buf : UInt64
  maxLen : UInt64
  outCap : UInt64

namespace RecvCall

def op : RecvCall → Op
  | .recv => .sysRecv
  | .tryRecv => .sysTryRecv
  | .recvCap => .sysRecvCap
  | .tryRecvCap => .sysTryRecvCap

def takesCap : RecvCall → Bool
  | .recv | .tryRecv => false
  | .recvCap | .tryRecvCap => true

def blocks : RecvCall → Bool
  | .recv | .recvCap => true
  | .tryRecv | .tryRecvCap => false

/-- Where the call goes on after it has been blocked on channel `x`. -/
def park (k : RecvCall) (x : ObjId) : Ctl := if k.takesCap then .recvCap x else .recv x

/-- The error for a head message the call can not take. -/
def refusal (k : RecvCall) : Int := if k.takesCap then ENFILE else EINVAL

def syscall (k : RecvCall) (h maxLen : UInt64) (copyOut : Bool) : Syscall :=
  match k with
  | .recv => .ipcRecv h maxLen copyOut
  | .tryRecv => .ipcTryRecv h maxLen copyOut
  | .recvCap => .ipcRecvCap h maxLen copyOut
  | .tryRecvCap => .ipcTryRecvCap h maxLen copyOut

end RecvCall

/-! ## The copies -/

def newHandle (tbl : HandleTable) : Option Cap → UInt32
  | none => handleInvalid
  | some cap =>
    match (tbl.handleCreateEx cap.kind cap.rights cap.object cap.owns).2 with
    | none => handleInvalid
    | some i => UInt32.ofNat i.val

def handleBytes (v : UInt32) : List Byte :=
  (List.range 4).map fun k => (v >>> UInt32.ofNat (8 * k)).toUInt8.toBitVec

namespace RecvCall

section

variable (k : RecvCall)

/-- The end of a receive: copy the message out, then the handle. -/
def copies (sp : Nat) (a : RecvArgs) (msg : List UInt8) (new : UInt32) : MM Bool := do
  if ← copyToUser sp a.buf.toNat (msg.map UInt8.toBitVec) then
    if k.takesCap then copyToUser sp a.outCap.toNat (handleBytes new) else pure true
  else pure false

/-- Whether the copies of the head message of `c` succeed, in the memory `m`, for
a caller with address space `sp` and handle table `tbl`. -/
def copied (m : Mem.State) (sp : Nat) (a : RecvArgs) (tbl : HandleTable) (c : Channel) : Bool :=
  (k.copies sp a (c.slotBytes c.head) (newHandle tbl (c.caps c.head).cap?) m).1

def pass (m : Mem.State) (sp : Nat) (a : RecvArgs) (s : State) (p : ObjId) (P : Process)
    (x : ObjId) (c : Channel) : State :=
  s.finishRecv p P x (k.op.pass P.handles s.cur c) (k.park x) k.refusal (k.copied m sp a P.handles c)

def receive (m : Mem.State) (sp : Nat) (a : RecvArgs) (s : State) : State :=
  s.withReceive a.h a.maxLen fun p P x c => k.pass m sp a s p P x c

def again (m : Mem.State) (sp : Nat) (a : RecvArgs) (s : State) (x : ObjId) : State :=
  s.withProc fun p P =>
    match s.chans x with
    | none => s.fail .dangling
    | some c => k.pass m sp a s p P x c

def TakesHead (P : Process) (c : Channel) : Prop :=
  c.count ≠ 0 ∧ ((c.caps c.head).inUse = true →
    k.takesCap = true ∧ P.handles.handleTableHasFreeSlot = true)

/-- `user_range_ok` accepts the buffers. -/
def BuffersOk (m : Mem.State) (sp : Nat) (a : RecvArgs) (c : Channel) : Prop :=
  m.userRangeOk sp a.buf.toNat c.msgSize = true ∧
    (k.takesCap = true → m.userRangeOk sp a.outCap.toNat 4 = true)

end

end RecvCall

/-- If the current thread comes back from its call with an error, the channels and
the handle tables are as before. -/
def LosesNothing (s s' : State) : Prop :=
  s'.fault = none → s'.ctl s.cur = .user → s'.rax s.cur < 0 → s'.chans = s.chans ∧ s'.procs = s.procs

section

variable {k : RecvCall} {m : Mem.State} {sp : Nat} {a : RecvArgs} {s : State} {p x : ObjId}
  {P : Process} {c : Channel} {tbl : HandleTable}

/-! ## The calls of the kernel model -/

theorem withProc_congr {f g : ObjId → Process → State}
    (h : ∀ p P, s.process s.cur = some p → s.procs p = some P → f p P = g p P) :
    s.withProc f = s.withProc g := by
  unfold withProc
  split
  · rfl
  next p hp =>
  split
  · rfl
  next P hP => exact h p P hp hP

theorem withReceive_congr {h maxLen : UInt64} {f g : ObjId → Process → ObjId → Channel → State}
    (hfg : ∀ p P x c, s.process s.cur = some p → s.procs p = some P →
      lookupChannel P.handles h.toUInt32 rightRead = some x → s.chans x = some c → f p P x c = g p P x c) :
    s.withReceive h maxLen f = s.withReceive h maxLen g := by
  refine withProc_congr fun p P hp hP => ?_
  unfold withChannel
  split
  · rfl
  next x hx =>
  split
  · rfl
  next c hc => simp only [hfg p P x c hp hP hx hc]

/-- The call is the system call of the kernel model, whose copies end as those
here do. -/
theorem receive_eq {b : Bool} (hb : ∀ p P x c, s.process s.cur = some p → s.procs p = some P →
      lookupChannel P.handles a.h.toUInt32 rightRead = some x → s.chans x = some c →
      k.copied m sp a P.handles c = b) :
    k.receive m sp a s = s.syscall (k.syscall a.h a.maxLen b) := by
  have hcall : s.syscall (k.syscall a.h a.maxLen b) =
      s.withReceive a.h a.maxLen fun p P x c =>
        s.finishRecv p P x (k.op.pass P.handles s.cur c) (k.park x) k.refusal b := by
    cases k <;> rfl
  rw [hcall]
  refine withReceive_congr fun p P x c hp hP hx hc => ?_
  rw [RecvCall.pass, hb p P x c hp hP hx hc]

/-! ## One pass -/

/-- A table refuses a capability exactly if it is full. -/
theorem tableRefuses_eq (cs : ChanCap) :
    tableRefuses tbl cs = (cs.inUse && !tbl.handleTableHasFreeSlot) := by
  have hcreate : (tbl.handleCreateEx cs.kind cs.rights cs.object cs.owns).2 = tbl.freeSlot := by
    unfold HandleTable.handleCreateEx
    cases tbl.freeSlot <;> rfl
  rw [tableRefuses, hcreate, ← HandleTable.freeSlot_isSome]
  cases tbl.freeSlot <;> simp

inductive RecvPass (k : RecvCall) (P : Process) (c : Channel) (t : Tid) : Pass → Prop
  | park : c.count = 0 →
      RecvPass k P c t ⟨{ c with receivers := waitqPush c.receivers t }, none, none⟩
  | fail (r : Ret) : r.failed = true → ¬ k.TakesHead P c → RecvPass k P c t ⟨c, none, some r⟩
  | take : k.TakesHead P c →
      RecvPass k P c t ⟨c.commit.1, c.commit.2, some (.received (c.item c.head))⟩

theorem op_recvPass (k : RecvCall) (P : Process) (c : Channel) (t : Tid) :
    RecvPass k P c t (k.op.pass P.handles t c) := by
  let refuse : ChanCap → Bool := if k.takesCap then tableRefuses P.handles else ChanCap.inUse
  have hpass : k.op.pass P.handles t c =
      if k.blocks then recvBlocking refuse c t else recvTry refuse c := by
    cases k <;> rfl
  have htake : c.count ≠ 0 →
      RecvPass k P c t (takeHead c refuse (c.slotBytes c.head) (c.caps c.head)) := by
    intro h0
    have hrefuse : refuse (c.caps c.head) = false ↔ k.TakesHead P c := by
      cases hk : k.takesCap <;> simp [refuse, hk, RecvCall.TakesHead, h0, tableRefuses_eq]
    unfold takeHead
    split
    next hr => exact .fail .refused rfl fun hn => by rw [hrefuse.mpr hn] at hr; cases hr
    next hr => exact .take (hrefuse.mp ((Bool.not_eq_true _).mp hr))
  rw [hpass]
  rcases peekTry_cases c with ⟨h0, hp⟩ | ⟨h0, hp⟩
  · split <;> simp only [recvBlocking, recvTry, hp]
    · exact .park h0
    · exact .fail .empty rfl fun hn => hn.1 h0
  · split <;> simp only [recvBlocking, recvTry, hp] <;> exact htake h0

/-- A thread that parks does not come back from its call. -/
theorem block_losesNothing {s1 : State} {q : Ctl} (hcur : s1.cur = s.cur) (hq : q ≠ .user) :
    LosesNothing s (s1.block q) := by
  intro _ huser
  have hctl : (s1.block q).ctl = update s1.ctl s1.cur q := by
    unfold State.block
    cases s1.sched.schedBlock with
    | error e => rfl
    | ok sch => simp only [schedule]; split <;> rfl
  rw [hctl, ← hcur, update_self] at huser
  exact absurd huser hq

theorem taken_spec (s : State) (p : ObjId) (P : Process) (x : ObjId) (c : Channel) (w : Option Tid)
    (cap : Option Cap) :
    (((s.setChan x c).wake w).install p P cap).fault = s.fault ∧
      (((s.setChan x c).wake w).install p P cap).cur = s.cur ∧
      (((s.setChan x c).wake w).install p P cap).chans x = some c := by
  have hwake : ((s.setChan x c).wake w).fault = s.fault ∧ ((s.setChan x c).wake w).cur = s.cur ∧
      ((s.setChan x c).wake w).chans x = some c := by
    cases w with
    | none => exact ⟨rfl, rfl, update_self ..⟩
    | some w => exact ⟨rfl, Sched.schedUnblock_current _ w, update_self ..⟩
  cases cap with
  | none | some cap => exact hwake

theorem ret_losesNothing (r : Int) : LosesNothing s (s.ret r) := fun _ _ _ => ⟨rfl, rfl⟩

/-- **A pass loses nothing exactly if it takes no message it can not deliver.** -/
theorem pass_loses_iff (hf : s.fault = none) (hx : s.chans x = some c) :
    LosesNothing s (k.pass m sp a s p P x c) ↔
      (k.TakesHead P c → k.copied m sp a P.handles c = true) := by
  unfold RecvCall.pass
  generalize k.copied m sp a P.handles c = ok
  have hpass := op_recvPass k P c s.cur
  generalize k.op.pass P.handles s.cur c = pass at hpass
  cases hpass with
  | park h0 =>
    refine iff_of_true (block_losesNothing rfl ?_) fun hn => absurd h0 hn.1
    unfold RecvCall.park
    split <;> simp
  | fail r hr hn =>
    refine iff_of_true ?_ fun h => absurd h hn
    cases r <;> first | exact ret_losesNothing _ | cases hr
  | take hn =>
    simp only [finishRecv]
    obtain ⟨hfault, hcur, hchan⟩ := taken_spec s p P x c.commit.1 c.commit.2 (c.item c.head).2
    generalize ((s.setChan x c.commit.1).wake c.commit.2).install p P (c.item c.head).2 = s1 at *
    constructor
    · intro hlose _
      by_contra hok
      have hrax : (s1.ret (if ok then (c.commit.1.msgSize : Int) else -EFAULT)).rax s.cur = -EFAULT := by
        simp [hok, ← hcur]
      obtain ⟨hchans, -⟩ := hlose (hfault.trans hf) (by simp [← hcur]) (by rw [hrax]; decide)
      have hcount : c.commit.1.count = c.count := by
        have heq := congrFun hchans x
        rw [hx] at heq
        have : some c.commit.1 = some c := hchan.symm.trans heq
        rw [Option.some.inj this]
      have h0 := hn.1
      simp only [Channel.commit] at hcount
      omega
    · intro hok _ _ hneg
      rw [hok hn] at hneg
      simp [← hcur] at hneg
      omega

/-! ## The calls -/

theorem fail_losesNothing (f : Fault) : LosesNothing s (s.fail f) := fun h => by cases h

theorem withProc_loses_iff {f : ObjId → Process → State} : LosesNothing s (s.withProc f) ↔
      ∀ p P, s.process s.cur = some p → s.procs p = some P → LosesNothing s (f p P) := by
  unfold withProc
  split
  next hp => exact iff_of_true (ret_losesNothing _) fun p P h => by rw [hp] at h; cases h
  next p hp =>
  split
  next hP =>
    refine iff_of_true (fail_losesNothing _) fun q P h hQ => ?_
    rw [hp] at h
    cases h
    rw [hP] at hQ
    cases hQ
  next P hP =>
    refine ⟨fun h q Q hq hQ => ?_, fun h => h p P hp hP⟩
    rw [hp] at hq
    cases hq
    rw [hP] at hQ
    cases hQ
    exact h

theorem withChannel_loses_iff {h : UInt64} {required : UInt32} {f : ObjId → Channel → State} :
    LosesNothing s (s.withChannel P h required f) ↔
      ∀ x c, lookupChannel P.handles h.toUInt32 required = some x → s.chans x = some c →
        LosesNothing s (f x c) := by
  unfold withChannel
  split
  next hx => exact iff_of_true (ret_losesNothing _) fun x c h => by rw [hx] at h; cases h
  next x hx =>
  split
  next hc =>
    refine iff_of_true (fail_losesNothing _) fun y d h hd => ?_
    rw [hx] at h
    cases h
    rw [hc] at hd
    cases hd
  next c hc =>
    refine ⟨fun h y d hy hd => ?_, fun h => h x c hx hc⟩
    rw [hx] at hy
    cases hy
    rw [hc] at hd
    cases hd
    exact h

/-- **When a receive call loses nothing.** -/
theorem receive_loses_iff (hf : s.fault = none) : LosesNothing s (k.receive m sp a s) ↔
      ∀ p P x c, s.process s.cur = some p → s.procs p = some P →
        lookupChannel P.handles a.h.toUInt32 rightRead = some x → s.chans x = some c →
        c.msgSize ≤ a.maxLen.toNat → k.TakesHead P c → k.copied m sp a P.handles c = true := by
  unfold RecvCall.receive withReceive
  simp only [withProc_loses_iff, withChannel_loses_iff]
  have hpass : ∀ {p P x c}, s.chans x = some c →
      (LosesNothing s (if a.maxLen.toNat < c.msgSize then s.ret (-EINVAL) else k.pass m sp a s p P x c) ↔
        (c.msgSize ≤ a.maxLen.toNat → k.TakesHead P c → k.copied m sp a P.handles c = true)) := by
    intro p P x c hc
    split
    next hlt => exact iff_of_true (ret_losesNothing _) fun hle => absurd hlt (Nat.not_lt.mpr hle)
    next hle => rw [pass_loses_iff hf hc]; exact ⟨fun h _ => h, fun h => h (Nat.not_lt.mp hle)⟩
  constructor
  · intro h p P x c hp hP hx hc
    exact (hpass hc).mp (h p P hp hP x c hx hc)
  · intro h p P hp hP x c hx hc
    exact (hpass hc).mpr (h p P x c hp hP hx hc)

theorem again_loses_iff (hf : s.fault = none) : LosesNothing s (k.again m sp a s x) ↔
      ∀ p P c, s.process s.cur = some p → s.procs p = some P → s.chans x = some c →
        k.TakesHead P c → k.copied m sp a P.handles c = true := by
  rw [RecvCall.again, withProc_loses_iff]
  cases hc : s.chans x with
  | none => exact iff_of_true (fun p P _ _ => fail_losesNothing _) fun p P c _ _ h => by cases h
  | some c =>
    constructor
    · intro h p P d hp hP hd
      cases hd
      exact (pass_loses_iff hf hc).mp (h p P hp hP)
    · exact fun h p P hp hP => (pass_loses_iff hf hc).mpr (h p P c hp hP rfl)

/-! ## The buffers -/

theorem handleBytes_length (v : UInt32) : (handleBytes v).length = 4 := rfl

/-- The copies succeed exactly if both ranges pass the check. -/
theorem copied_iff {space : Mem.Space} (hact : Mem.Active m sp space) (hlen : c.msgSize < 2 ^ 64) :
    k.copied m sp a tbl c = true ↔ k.BuffersOk m sp a c := by
  have hbuf : a.buf.toNat < 2 ^ 64 := a.buf.toNat_lt
  have hout : a.outCap.toNat < 2 ^ 64 := a.outCap.toNat_lt
  have hsize : ((c.slotBytes c.head).map UInt8.toBitVec).length = c.msgSize := by
    simp [Channel.slotBytes]
  rw [← hsize] at hlen
  have hmsg := Mem.copyToUser_ok hact.layout hact.live hact.loaded hact.user hlen hbuf
  obtain ⟨htwin, -⟩ := (Mem.copyToUser_spec hact.layout hact.live hact.loaded hact.user hlen hbuf).post
  rw [hsize] at hmsg
  have hcopied : k.copied m sp a tbl c =
      ((if (copyToUser sp a.buf.toNat ((c.slotBytes c.head).map UInt8.toBitVec) m).1 then
          if k.takesCap then
            copyToUser sp a.outCap.toNat (handleBytes (newHandle tbl (c.caps c.head).cap?))
          else pure true
        else pure false : MM Bool)
        (copyToUser sp a.buf.toNat ((c.slotBytes c.head).map UInt8.toBitVec) m).2).1 := rfl
  rw [hcopied, RecvCall.BuffersOk, hmsg]
  cases m.userRangeOk sp a.buf.toNat c.msgSize with
  | false => exact iff_of_false (by simp [pure]) (by simp)
  | true =>
    cases k.takesCap with
    | false => exact iff_of_true rfl (by simp)
    | true =>
      -- the first copy changes no page table, so the second range is as before
      have hact1 := hact.twin htwin
      have hfour : (handleBytes (newHandle tbl (c.caps c.head).cap?)).length < 2 ^ 64 := by
        rw [handleBytes_length]
        decide
      have hhandle := Mem.copyToUser_ok hact1.layout hact1.live hact1.loaded hact1.user hfour hout
      simp only [if_true, hhandle, true_and, forall_const]
      rw [htwin.userRangeOk hact.layout]
      rfl

/-- **When a failed receive loses nothing.** The four calls, when they are made and
when they go on after having blocked, leave every queue and every handle table as
it was if they return an error, exactly if a message they take can be delivered:
the caller's buffers pass `user_range_ok`. -/
theorem failed_receive_iff (hm : Reachable memSys m) (hsp : m.Target sp sp) (hf : s.fault = none)
    (k : RecvCall) (a : RecvArgs) :
    (LosesNothing s (k.receive m sp a s) ↔
      ∀ p P x c, s.process s.cur = some p → s.procs p = some P →
        lookupChannel P.handles a.h.toUInt32 rightRead = some x → s.chans x = some c →
        c.msgSize ≤ a.maxLen.toNat → k.TakesHead P c → k.BuffersOk m sp a c) ∧
    ∀ x, k.blocks = true → s.ctl s.cur = k.park x →
      (∀ c, s.chans x = some c → c.msgSize ≤ a.maxLen.toNat) →
      (LosesNothing s (k.again m sp a s x) ↔
        ∀ p P c, s.process s.cur = some p → s.procs p = some P → s.chans x = some c →
          k.TakesHead P c → k.BuffersOk m sp a c) := by
  obtain ⟨space, hs, hcr3⟩ := hsp.space
  have hact : Mem.Active m sp space := ⟨.reachable hm, hs, hsp.1.1, hcr3 rfl⟩
  have hcopied : ∀ {P : Process} {c : Channel}, c.msgSize ≤ a.maxLen.toNat →
      (k.copied m sp a P.handles c = true ↔ k.BuffersOk m sp a c) :=
    fun hle => copied_iff hact (Nat.lt_of_le_of_lt hle a.maxLen.toNat_lt)
  refine ⟨?_, fun x _ _ hlen => ?_⟩
  · rw [receive_loses_iff hf]
    exact ⟨fun h p P x c hp hP hx hc hle hn => (hcopied hle).mp (h p P x c hp hP hx hc hle hn),
      fun h p P x c hp hP hx hc hle hn => (hcopied hle).mpr (h p P x c hp hP hx hc hle hn)⟩
  · rw [again_loses_iff hf]
    exact ⟨fun h p P c hp hP hc hn => (hcopied (hlen c hc)).mp (h p P c hp hP hc hn),
      fun h p P c hp hP hc hn => (hcopied (hlen c hc)).mpr (h p P c hp hP hc hn)⟩

end

def sendToSelf : List Event := makeChannels ++ [.syscall (.ipcSendCap 0 8 blank 1 1)]

def State.msgSize? (s : State) : Option Nat :=
  (s.process s.cur).bind fun p => (s.procs p).bind fun P =>
    (lookupChannel P.handles 0 rightRead).bind fun x => (s.chans x).map Channel.msgSize

theorem msgSize_eq {s : State} {n : Nat} (h : s.msgSize? = some n) {p x : ObjId} {P : Process}
    {c : Channel} (hp : s.process s.cur = some p) (hP : s.procs p = some P)
    (hx : lookupChannel P.handles 0 rightRead = some x) (hc : s.chans x = some c) : c.msgSize = n := by
  simpa [msgSize?, hp, hP, hx, hc] using h

theorem failed_receive_iff_mapped : ∃ m s, Reachable memSys m ∧ m.Target 1 1 ∧ Reachable kernelSystem s ∧
    s.fault = none ∧
    LosesNothing s (RecvCall.recvCap.receive m 1 ⟨0, 0x8000000000, 8, 0x8000000008⟩ s) := by
  obtain ⟨m, hm, hsp, hbuf, hout⟩ := Mem.exists_loadedSpace
  obtain ⟨s, hs, hf, hsize⟩ : ∃ s ∈ kernelSystem.run boot sendToSelf,
      s.fault = none ∧ s.msgSize? = some 8 := by decide +kernel
  refine ⟨m, s, hm, hsp, Reachable.run hs (.start rfl), hf, (failed_receive_iff hm hsp hf _ _).1.mpr ?_⟩
  intro p P x c hp hP hx hc _ _
  rw [RecvCall.BuffersOk, msgSize_eq hsize hp hP hx hc]
  exact ⟨hbuf, fun _ => hout⟩

theorem userRangeOk_null (m : Mem.State) (sp : Nat) {n : Nat} (hn : n ≠ 0) :
    m.userRangeOk sp 0 n = false := by
  simp [Mem.State.userRangeOk, Mem.rangeInUserHalf, hn, Mem.userVaBase]

/-- **A failed receive loses a message, or installs a handle nobody knows.** With
a null buffer the message is gone and the caller gets EFAULT; with a null
`out_cap` the capability is in entry 2 of the caller's table, the queue is empty,
and the caller gets EFAULT. -/
theorem failed_receive_loses :
    (∃ m s, Reachable memSys m ∧ m.Target 1 1 ∧ Reachable kernelSystem s ∧ s.fault = none ∧
      (s.chans 1).map Channel.count = some 1 ∧
      (RecvCall.recv.receive m 1 ⟨0, 0, 8, 0⟩ s).rax s.cur = -EFAULT ∧
      ((RecvCall.recv.receive m 1 ⟨0, 0, 8, 0⟩ s).chans 1).map Channel.count = some 0) ∧
    ∃ m s, Reachable memSys m ∧ m.Target 1 1 ∧ Reachable kernelSystem s ∧ s.fault = none ∧
      s.capAt (.slot 1 0) = some (chanCap 2) ∧ s.capAt (.entry 0 2) = none ∧
      (RecvCall.recvCap.receive m 1 ⟨0, 0x8000000000, 8, 0⟩ s).rax s.cur = -EFAULT ∧
      (RecvCall.recvCap.receive m 1 ⟨0, 0x8000000000, 8, 0⟩ s).capAt (.slot 1 0) = none ∧
      (RecvCall.recvCap.receive m 1 ⟨0, 0x8000000000, 8, 0⟩ s).capAt (.entry 0 2) = some (chanCap 2) := by
  obtain ⟨m, hm, hsp, -⟩ := Mem.exists_loadedSpace
  obtain ⟨space, hs, hcr3⟩ := hsp.space
  have hact : Mem.Active m 1 space := ⟨.reachable hm, hs, hsp.1.1, hcr3 rfl⟩
  -- one of the two copies goes to address 0
  have hcall : ∀ {k : RecvCall} {a : RecvArgs} {s : State}, a.h = 0 →
      a.buf = 0 ∨ (k.takesCap = true ∧ a.outCap = 0) → s.msgSize? = some 8 →
      k.receive m 1 a s = s.syscall (k.syscall 0 a.maxLen false) := by
    intro k a s hh ha hsize
    rw [← hh]
    refine receive_eq fun p P x c hp hP hx hc => ?_
    rw [hh] at hx
    have hsize := msgSize_eq hsize hp hP hx hc
    by_contra hok
    obtain ⟨hbuf, hout⟩ := (copied_iff hact (by rw [hsize]; decide)).mp ((Bool.not_eq_false _).mp hok)
    rcases ha with h0 | ⟨hk, h0⟩
    · rw [h0, hsize, UInt64.toNat_zero, userRangeOk_null m 1 (by decide)] at hbuf
      cases hbuf
    · have hout := hout hk
      rw [h0, UInt64.toNat_zero, userRangeOk_null m 1 (by decide)] at hout
      cases hout
  refine ⟨?_, ?_⟩
  · obtain ⟨s, hs, hf, hsize, hcount, hafter⟩ :
        ∃ s ∈ kernelSystem.run boot (makeChannels ++ [.syscall (.ipcSend 0 8 blank)]),
          s.fault = none ∧ s.msgSize? = some 8 ∧ (s.chans 1).map Channel.count = some 1 ∧
          (s.syscall (.ipcRecv 0 8 false)).rax s.cur = -EFAULT ∧
          ((s.syscall (.ipcRecv 0 8 false)).chans 1).map Channel.count = some 0 := by decide +kernel
    refine ⟨m, s, hm, hsp, Reachable.run hs (.start rfl), hf, hcount, ?_⟩
    rw [hcall rfl (.inl rfl) hsize]
    exact hafter
  · obtain ⟨s, hs, hf, hsize, hslot, hfree, hafter⟩ : ∃ s ∈ kernelSystem.run boot sendToSelf,
        s.fault = none ∧ s.msgSize? = some 8 ∧ s.capAt (.slot 1 0) = some (chanCap 2) ∧
          s.capAt (.entry 0 2) = none ∧ (s.syscall (.ipcRecvCap 0 8 false)).rax s.cur = -EFAULT ∧
          (s.syscall (.ipcRecvCap 0 8 false)).capAt (.slot 1 0) = none ∧
          (s.syscall (.ipcRecvCap 0 8 false)).capAt (.entry 0 2) = some (chanCap 2) := by decide +kernel
    refine ⟨m, s, hm, hsp, Reachable.run hs (.start rfl), hf, hslot, hfree, ?_⟩
    rw [hcall rfl (.inr ⟨rfl, rfl⟩) hsize]
    exact hafter

end Exyde.Kernel
