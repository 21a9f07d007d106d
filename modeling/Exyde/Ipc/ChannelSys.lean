import Exyde.Lib.Runs
import Exyde.Ipc.Channel

/-! # Threads on one channel

A thread runs a pass of its operation; a pass that has to wait leaves the thread on a
wait queue, from which another thread's pass pops it. A popped thread runs its next pass
at any later time, so others may get ahead of it. -/

namespace Exyde.Ipc

open Function Exyde.Lib

/-- The operations: the channel functions of the kernel and the receive
system calls. -/
inductive Op where
  | send (msg : Nat → UInt8)
  | sendCap (msg : Nat → UInt8) (cap : Option Cap)
  | trySend (msg : Nat → UInt8)
  | recv
  | recvCap
  | tryRecv
  | tryRecvCap
  | sysRecv
  | sysTryRecv
  | sysRecvCap
  | sysTryRecvCap

namespace Op

def pass (tbl : HandleTable) (t : Tid) (c : Channel) : Op → Pass
  | .send msg => channelSend c t msg
  | .sendCap msg cap => channelSendCap c t msg cap
  | .trySend msg => channelTrySend c msg
  | .recv => channelRecv c t
  | .recvCap => channelRecvCap c t
  | .tryRecv => channelTryRecv c
  | .tryRecvCap => channelTryRecvCap c
  | .sysRecv => sysIpcRecv c t
  | .sysTryRecv => sysIpcTryRecv c
  | .sysRecvCap => sysIpcRecvCap tbl c t
  | .sysTryRecvCap => sysIpcTryRecvCap tbl c

def sends : Op → Bool
  | .send _ | .sendCap _ _ | .trySend _ => true
  | _ => false

def receives (op : Op) : Bool := !op.sends

def blocks : Op → Bool
  | .send _ | .sendCap _ _ | .recv | .recvCap | .sysRecv | .sysRecvCap => true
  | _ => false

/-- The operation would refuse the head message: a plain receive one that
carries a capability, a capability receive one that does not fit the table. -/
def refuses (tbl : HandleTable) (c : Channel) : Op → Bool
  | .recv | .tryRecv | .sysRecv | .sysTryRecv => c.count != 0 && (c.caps c.head).inUse
  | .sysRecvCap | .sysTryRecvCap => c.count != 0 && tableRefuses tbl (c.caps c.head)
  | _ => false

def put (c : Channel) : Op → Item
  | .send msg | .trySend msg => (c.msgBytes msg, none)
  | .sendCap msg cap => (c.msgBytes msg, cap)
  | _ => ([], none)

end Op

def Ret.failed : Ret → Bool
  | .full | .empty | .refused => true
  | .sent | .received _ => false

/-- What a pass of `op` by `t` can do to a channel `c`. -/
inductive PassCase (tbl : HandleTable) (c : Channel) (t : Tid) (op : Op) : Pass → Prop
  | parkSend : op.sends = true → op.blocks = true → c.count = c.capacity →
      PassCase tbl c t op ⟨{ c with senders := waitqPush c.senders t }, none, none⟩
  | parkRecv : op.receives = true → op.blocks = true → c.count = 0 →
      PassCase tbl c t op ⟨{ c with receivers := waitqPush c.receivers t }, none, none⟩
  | put (msg : Nat → UInt8) (cap : Option Cap) : op.sends = true → c.count ≠ c.capacity →
      op.put c = (c.msgBytes msg, cap) → PassCase tbl c t op (sendNow c msg cap)
  | take : op.receives = true → c.count ≠ 0 → op.refuses tbl c = false →
      PassCase tbl c t op ⟨c.commit.1, c.commit.2, some (.received (c.item c.head))⟩
  | fail (r : Ret) : r.failed = true →
      (op.blocks = true → op.receives = true ∧ op.refuses tbl c = true) →
      PassCase tbl c t op ⟨c, none, some r⟩

section

variable {tbl : HandleTable} {c : Channel} {t : Tid} {op : Op} {refuse : ChanCap → Bool}

theorem peekTry_cases (c : Channel) : (c.count = 0 ∧ c.peekTry = none) ∨
      (c.count ≠ 0 ∧ c.peekTry = some (c.slotBytes c.head, c.caps c.head)) := by
  by_cases h : c.count = 0
  · exact Or.inl ⟨h, by simp [Channel.peekTry, h]⟩
  · exact Or.inr ⟨h, by simp [Channel.peekTry, h]⟩

theorem takeHead_case (hop : op.receives = true) (h0 : c.count ≠ 0)
    (href : refuse (c.caps c.head) = op.refuses tbl c) :
    PassCase tbl c t op (takeHead c refuse (c.slotBytes c.head) (c.caps c.head)) := by
  unfold takeHead
  split
  next hr => exact .fail .refused rfl fun _ => ⟨hop, href ▸ hr⟩
  next hr => exact .take hop h0 (href ▸ (Bool.not_eq_true _).mp hr)

theorem recvBlocking_case (hop : op.receives = true) (hb : op.blocks = true)
    (href : c.count ≠ 0 → refuse (c.caps c.head) = op.refuses tbl c) :
    PassCase tbl c t op (recvBlocking refuse c t) := by
  rcases peekTry_cases c with ⟨h0, hp⟩ | ⟨h0, hp⟩ <;> simp only [recvBlocking, hp]
  · exact .parkRecv hop hb h0
  · exact takeHead_case hop h0 (href h0)

theorem recvTry_case (hop : op.receives = true) (hb : op.blocks = false)
    (href : c.count ≠ 0 → refuse (c.caps c.head) = op.refuses tbl c) :
    PassCase tbl c t op (recvTry refuse c) := by
  rcases peekTry_cases c with ⟨h0, hp⟩ | ⟨h0, hp⟩ <;> simp only [recvTry, hp]
  · exact .fail .empty rfl fun h => by rw [hb] at h; cases h
  · exact takeHead_case hop h0 (href h0)

theorem sendCap_case {msg : Nat → UInt8} {cap : Option Cap} (hop : op.sends = true)
    (hb : op.blocks = true) (hput : op.put c = (c.msgBytes msg, cap)) :
    PassCase tbl c t op (channelSendCap c t msg cap) := by
  unfold channelSendCap
  split
  next h => exact .parkSend hop hb h
  next h => exact .put msg cap hop h hput

/-- **Inversion of a pass.** Every invariant below is proved from these cases. -/
theorem pass_case (tbl : HandleTable) (c : Channel) (t : Tid) (op : Op) :
    PassCase tbl c t op (op.pass tbl t c) := by
  cases op with
  | send msg | sendCap msg cap => exact sendCap_case rfl rfl rfl
  | trySend msg =>
    simp only [Op.pass, channelTrySend]
    split
    · exact .fail .full rfl fun h => by cases h
    next h => exact .put msg none rfl h rfl
  | recv | recvCap | sysRecv | sysRecvCap =>
    exact recvBlocking_case rfl rfl fun h0 => by simp [Op.refuses, h0]
  | tryRecv | tryRecvCap | sysTryRecv | sysTryRecvCap =>
    exact recvTry_case rfl rfl fun h0 => by simp [Op.refuses, h0]

end

/-! ## The system -/

/-- `busy`: the operation a thread is in the middle of. `woken`: the threads
popped from a wait queue that have not run since. The last two fields record
what has been put into the channel and what receivers were given. -/
structure ChanSys where
  chan : Channel
  busy : Tid → Option Op
  blocked : Tid → Bool
  woken : List Tid
  enqueued : List Item
  consumed : List Item

inductive ChanEvent where
  | call (t : Tid) (tbl : HandleTable) (op : Op)
  | resume (t : Tid) (tbl : HandleTable)

namespace ChanSys

def wakeUp (s : ChanSys) : Option Tid → ChanSys
  | none => s
  | some w =>
    if s.blocked w then
      { s with blocked := update s.blocked w false, woken := s.woken ++ [w] }
    else s

def record (s : ChanSys) (put : Item) : Ret → ChanSys
  | .sent => { s with enqueued := s.enqueued ++ [put] }
  | .received item => { s with consumed := s.consumed ++ [item] }
  | _ => s

def attempt (s : ChanSys) (t : Tid) (tbl : HandleTable) (op : Op) : ChanSys :=
  let p := op.pass tbl t s.chan
  let s1 := wakeUp { s with chan := p.chan } p.wake
  match p.ret with
  | none =>
    { s1 with
      busy := update s1.busy t (some op)
      blocked := update s1.blocked t true }
  | some r => { (s1.record (op.put s.chan) r) with busy := update s1.busy t none }

def step (s : ChanSys) : ChanEvent → Option ChanSys
  | .call t tbl op => if (s.busy t).isNone then some (s.attempt t tbl op) else none
  | .resume t tbl =>
    if t ∈ s.woken then
      match s.busy t with
      | some op => some (attempt { s with woken := s.woken.erase t } t tbl op)
      | none => none
    else none

def init (capacity msgSize : Nat) : ChanSys where
  chan := channelNew capacity msgSize
  busy := fun _ => none
  blocked := fun _ => false
  woken := []
  enqueued := []
  consumed := []

end ChanSys

def chanSystem (capacity msgSize : Nat) : System ChanSys ChanEvent where
  start s := s = ChanSys.init capacity msgSize
  step := ChanSys.step

/-! ## First in, first out, exactly once -/

section

variable (s : ChanSys) (w : Option Tid)

theorem wakeUp_kept : (s.wakeUp w).chan = s.chan ∧ (s.wakeUp w).busy = s.busy ∧
    (s.wakeUp w).enqueued = s.enqueued ∧ (s.wakeUp w).consumed = s.consumed := by
  cases w with
  | none => exact ⟨rfl, rfl, rfl, rfl⟩
  | some w => rw [ChanSys.wakeUp]; split <;> exact ⟨rfl, rfl, rfl, rfl⟩

@[simp] theorem wakeUp_chan : (s.wakeUp w).chan = s.chan := (wakeUp_kept s w).1

@[simp] theorem wakeUp_busy : (s.wakeUp w).busy = s.busy := (wakeUp_kept s w).2.1

@[simp] theorem wakeUp_enqueued : (s.wakeUp w).enqueued = s.enqueued := (wakeUp_kept s w).2.2.1

@[simp] theorem wakeUp_consumed : (s.wakeUp w).consumed = s.consumed := (wakeUp_kept s w).2.2.2

end

/-- An attempt leaves the channel of its pass, and the thread in the operation or out of it. -/
theorem attempt_kept (s : ChanSys) (t : Tid) (tbl : HandleTable) (op : Op) :
    (s.attempt t tbl op).chan = (op.pass tbl t s.chan).chan ∧
      ((s.attempt t tbl op).busy = update s.busy t (some op) ∨
        (s.attempt t tbl op).busy = update s.busy t none) := by
  rw [ChanSys.attempt]
  cases (op.pass tbl t s.chan).ret with
  | none => exact ⟨wakeUp_chan .., .inl (by simp)⟩
  | some r =>
    refine ⟨?_, .inr (by simp)⟩
    cases r <;> exact wakeUp_chan ..

/-- A step is an attempt of the call, or of one that was waiting. -/
theorem step_attempt {s s' : ChanSys} {e : ChanEvent} (hs : s.step e = some s') :
    ∃ t tbl op w, (e = .call t tbl op ∨ s.busy t = some op) ∧
      s' = ChanSys.attempt { s with woken := w } t tbl op := by
  cases e with
  | call t tbl op =>
    obtain ⟨-, hs⟩ := Option.ite_none_right_eq_some.mp hs
    exact ⟨t, tbl, op, s.woken, .inl rfl, (Option.some.inj hs).symm⟩
  | resume t tbl =>
    obtain ⟨-, hs⟩ := Option.ite_none_right_eq_some.mp hs
    split at hs
    next op hbusy => exact ⟨t, tbl, op, _, .inr hbusy, (Option.some.inj hs).symm⟩
    · cases hs

/-- What has been put in is what has been taken out and what is still queued. -/
structure FifoInv (capacity msgSize : Nat) (s : ChanSys) : Prop where
  wf : s.chan.Wf
  capacity_eq : s.chan.capacity = capacity
  msgSize_eq : s.chan.msgSize = msgSize
  history : s.enqueued = s.consumed ++ s.chan.contents

variable {capacity msgSize : Nat}

theorem FifoInv.attempt {s : ChanSys} (h : FifoInv capacity msgSize s)
    (t : Tid) (tbl : HandleTable) (op : Op) : FifoInv capacity msgSize (s.attempt t tbl op) := by
  have hcase := pass_case tbl s.chan t op
  generalize hp : op.pass tbl t s.chan = p at hcase
  have hle := h.wf.count_le
  cases hcase with
  | parkSend _ _ _ | parkRecv _ _ _ =>
    -- only a wait queue changes
    simp only [ChanSys.attempt, hp]
    exact ⟨⟨h.wf.1, h.wf.2, h.wf.3, h.wf.4, h.wf.5⟩, h.capacity_eq, h.msgSize_eq, h.history⟩
  | put msg cap _ hne hput =>
    have hlt : s.chan.count < s.chan.capacity := by omega
    simp only [ChanSys.attempt, hp, sendNow, ChanSys.record]
    refine ⟨?_, ?_, ?_, ?_⟩ <;> simp only [wakeUp_enqueued, wakeUp_consumed, wakeUp_chan]
    · exact Channel.enqueue_wf msg cap h.wf hlt
    · exact h.capacity_eq
    · exact h.msgSize_eq
    · rw [Channel.enqueue_contents msg cap h.wf hlt, h.history, hput, List.append_assoc]
  | take _ h0 _ =>
    simp only [ChanSys.attempt, hp, ChanSys.record]
    refine ⟨?_, ?_, ?_, ?_⟩ <;> simp only [wakeUp_enqueued, wakeUp_consumed, wakeUp_chan]
    · exact Channel.commit_wf h.wf h0
    · exact h.capacity_eq
    · exact h.msgSize_eq
    · rw [h.history, Channel.commit_contents h.wf h0]
      simp
  | fail r hr _ =>
    simp only [ChanSys.attempt, hp]
    cases r with
    | sent | received _ => cases hr
    | full | empty | refused => exact ⟨h.wf, h.capacity_eq, h.msgSize_eq, h.history⟩

theorem step_fifoInv {s s' : ChanSys} {e : ChanEvent}
    (h : FifoInv capacity msgSize s) (hs : s.step e = some s') :
    FifoInv capacity msgSize s' := by
  obtain ⟨t, tbl, op, w, -, rfl⟩ := step_attempt hs
  have h' : FifoInv capacity msgSize { s with woken := w } :=
    ⟨h.wf, h.capacity_eq, h.msgSize_eq, h.history⟩
  exact h'.attempt t tbl op

theorem reachable_fifoInv (hc : 0 < capacity) {s : ChanSys}
    (h : Reachable (chanSystem capacity msgSize) s) : FifoInv capacity msgSize s := by
  refine h.invariant ?_ fun s e s' hi _ hs => step_fifoInv hi hs
  intro s heq
  subst heq
  exact ⟨Channel.wf_new hc, rfl, rfl, rfl⟩

theorem pass_failed {c : Channel} {t : Tid} {op : Op} {tbl : HandleTable} {r : Ret}
    (hr : (op.pass tbl t c).ret = some r) (hf : r.failed = true) :
    (op.pass tbl t c).chan = c ∧ (op.pass tbl t c).wake = none := by
  have hcase := pass_case tbl c t op
  generalize op.pass tbl t c = p at hcase hr
  cases hcase with
  | parkSend _ _ _ | parkRecv _ _ _ => cases hr
  | put _ _ _ _ _ | take _ _ _ => cases hr; cases hf
  | fail r' _ _ => exact ⟨rfl, rfl⟩

end Exyde.Ipc
