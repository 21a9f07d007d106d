import Exyde.Lib.Ring
import Exyde.Sched.Core
import Exyde.Ipc.Handle

/-! # Channels

`channel.c`: a ring of fixed-size messages, each slot with room for one capability, and
two wait queues. A pass of a blocking loop runs, with interrupts off, from the call or
the return of `sched_block` to the next `sched_block` or the return. -/

namespace Exyde.Ipc

open Function Exyde.Lib

/-! ## The ring -/

structure ChanCap where
  kind : UInt32
  rights : UInt32
  object : ObjId
  inUse : Bool
  owns : Bool
  deriving DecidableEq, Repr

def ChanCap.cleared : ChanCap := ⟨0, 0, 0, false, false⟩

structure Cap where
  kind : UInt32
  rights : UInt32
  object : ObjId
  owns : Bool
  deriving DecidableEq, Repr

/-- The slot `enqueue` writes for a message with or without a capability. -/
def ChanCap.ofCap : Option Cap → ChanCap
  | some c => ⟨c.kind, c.rights, c.object, true, c.owns⟩
  | none => .cleared

def ChanCap.cap? (cs : ChanCap) : Option Cap :=
  if cs.inUse then some ⟨cs.kind, cs.rights, cs.object, cs.owns⟩ else none

@[simp] theorem ChanCap.cap?_ofCap (c : Option Cap) : (ChanCap.ofCap c).cap? = c := by
  cases c <;> rfl

@[simp] theorem ChanCap.cap?_cleared : ChanCap.cleared.cap? = none := rfl

/-- What a message is to its receiver: its bytes and its capability. -/
abbrev Item := List UInt8 × Option Cap

/-- `channel_t`; `buffer` and `caps` are read at an offset. -/
structure Channel where
  buffer : Nat → UInt8
  caps : Nat → ChanCap
  capacity : Nat
  msgSize : Nat
  count : Nat
  head : Nat
  tail : Nat
  senders : List Tid
  receivers : List Tid

/-- The object `channel_create` returns when its allocations succeed. -/
def channelNew (capacity msgSize : Nat) : Channel where
  buffer := fun _ => 0
  caps := fun _ => .cleared
  capacity := capacity
  msgSize := msgSize
  count := 0
  head := 0
  tail := 0
  senders := []
  receivers := []

def sizeofChanCap : Nat := 32

/-- The sizes asked for: the products wrap. -/
def bufferBytes (capacity msgSize : Nat) : Nat := capacity * msgSize % 2 ^ 64
def capBytes (capacity : Nat) : Nat := capacity * sizeofChanCap % 2 ^ 64

/-- `channel_create`; `allocOk` says whether the three allocations succeed, and
`exy_malloc(0)` never does. -/
def channelCreate (allocOk : Bool) (capacity msgSize : Nat) : Option Channel :=
  if capacity = 0 ∨ msgSize = 0 then none
  else if allocOk = true ∧ bufferBytes capacity msgSize ≠ 0 ∧ capBytes capacity ≠ 0 then
    some (channelNew capacity msgSize)
  else none

theorem channelCreate_some {allocOk : Bool} {capacity msgSize : Nat} {c : Channel}
    (h : channelCreate allocOk capacity msgSize = some c) :
    0 < capacity ∧ c = channelNew capacity msgSize := by
  obtain ⟨hne, h⟩ := Option.ite_none_left_eq_some.mp h
  split at h
  · cases h
    exact ⟨Nat.pos_of_ne_zero fun h0 => hne (Or.inl h0), rfl⟩
  · cases h

def waitqPush (q : List Tid) (t : Tid) : List Tid := q ++ [t]

/-- `copy_bytes` to offset `off` of `dst`, one byte per turn of the loop. -/
def copyBytes {α : Type} (dst : Nat → α) (off : Nat) (src : Nat → α) : Nat → Nat → α
  | 0 => dst
  | n + 1 => update (copyBytes dst off src n) (off + n) (src n)

theorem copyBytes_apply {α : Type} (dst : Nat → α) (off : Nat) (src : Nat → α) (n i : Nat) :
    copyBytes dst off src n i = if off ≤ i ∧ i < off + n then src (i - off) else dst i := by
  induction n with
  | zero => simp only [copyBytes]; rw [if_neg (by omega)]
  | succ n ih =>
    simp only [copyBytes, update_apply, ih]
    by_cases hi : i = off + n
    · subst hi; simp
    · simp only [hi, if_false]
      split <;> split <;> first | rfl | omega

namespace Channel

section

variable (c : Channel)

def slotBytes (i : Nat) : List UInt8 :=
  (List.range c.msgSize).map fun k => c.buffer (i * c.msgSize + k)

def item (i : Nat) : Item := (c.slotBytes i, (c.caps i).cap?)

def contents : List Item := window c.capacity c.head c.count c.item

def msgBytes (msg : Nat → UInt8) : List UInt8 := (List.range c.msgSize).map msg

/-- `enqueue`, with the receiver it pops for `sched_unblock`. -/
def enqueue (msg : Nat → UInt8) (cap : Option Cap) : Channel × Option Tid :=
  ({ c with
      buffer := copyBytes c.buffer (c.tail * c.msgSize) msg c.msgSize
      caps := update c.caps c.tail (.ofCap cap)
      tail := (c.tail + 1) % c.capacity
      count := c.count + 1
      receivers := c.receivers.tail },
    c.receivers.head?)

/-- `channel_commit`, with the sender it pops for `sched_unblock`. -/
def commit : Channel × Option Tid :=
  ({ c with
      caps := update c.caps c.head .cleared
      head := (c.head + 1) % c.capacity
      count := c.count - 1
      senders := c.senders.tail },
    c.senders.head?)

/-- `channel_peek_try`: the head slot, or `none` for `-EAGAIN`. -/
def peekTry : Option (List UInt8 × ChanCap) :=
  if c.count = 0 then none else some (c.slotBytes c.head, c.caps c.head)

end

end Channel

/-! ## The operations -/

inductive Ret where
  | sent
  | full
  | empty
  | refused
  | received (item : Item)
  deriving DecidableEq, Repr

/-- The end of a pass: the channel, the thread given to `sched_unblock`, and
the result, or `none` if the caller is now on a wait queue. -/
structure Pass where
  chan : Channel
  wake : Option Tid
  ret : Option Ret

def sendNow (c : Channel) (msg : Nat → UInt8) (cap : Option Cap) : Pass :=
  ⟨(c.enqueue msg cap).1, (c.enqueue msg cap).2, some .sent⟩

/-- A pass of `channel_send_cap` by thread `t`. -/
def channelSendCap (c : Channel) (t : Tid) (msg : Nat → UInt8) (cap : Option Cap) : Pass :=
  if c.count = c.capacity then ⟨{ c with senders := waitqPush c.senders t }, none, none⟩
  else sendNow c msg cap

def channelSend (c : Channel) (t : Tid) (msg : Nat → UInt8) : Pass := channelSendCap c t msg none

def channelTrySend (c : Channel) (msg : Nat → UInt8) : Pass :=
  if c.count = c.capacity then ⟨c, none, some .full⟩ else sendNow c msg none

/-- The part of a receive after its peek: refuse the message or take it. -/
def takeHead (c : Channel) (refuse : ChanCap → Bool) (slot : List UInt8) (cs : ChanCap) : Pass :=
  if refuse cs then ⟨c, none, some .refused⟩
  else ⟨c.commit.1, c.commit.2, some (.received (slot, cs.cap?))⟩

/-- A pass of a blocking receive: `channel_peek_blocking`, then `takeHead`. -/
def recvBlocking (refuse : ChanCap → Bool) (c : Channel) (t : Tid) : Pass :=
  match c.peekTry with
  | none => ⟨{ c with receivers := waitqPush c.receivers t }, none, none⟩
  | some (slot, cs) => takeHead c refuse slot cs

/-- A non-blocking receive: `channel_peek_try`, then `takeHead`. -/
def recvTry (refuse : ChanCap → Bool) (c : Channel) : Pass :=
  match c.peekTry with
  | none => ⟨c, none, some .empty⟩
  | some (slot, cs) => takeHead c refuse slot cs

/-- `recv_cap_common` refuses a capability that does not fit into the caller's
table, by its pre-check or by `handle_create_ex` itself. -/
def tableRefuses (tbl : HandleTable) (cs : ChanCap) : Bool :=
  cs.inUse && (!tbl.handleTableHasFreeSlot ||
    (tbl.handleCreateEx cs.kind cs.rights cs.object cs.owns).2.isNone)

def channelRecv := recvBlocking ChanCap.inUse
def channelTryRecv := recvTry ChanCap.inUse
def channelRecvCap := recvBlocking fun _ => false
def channelTryRecvCap := recvTry fun _ => false

/-! The receive system calls, between their argument checks and the copies to
user memory. -/

def sysIpcRecv := recvBlocking ChanCap.inUse
def sysIpcTryRecv := recvTry ChanCap.inUse
def sysIpcRecvCap (tbl : HandleTable) := recvBlocking (tableRefuses tbl)
def sysIpcTryRecvCap (tbl : HandleTable) := recvTry (tableRefuses tbl)

/-! ## The ring is a queue -/

namespace Channel

/-- Slot `i` is inside the window of queued messages. -/
def Occupied (c : Channel) (i : Nat) : Prop := ∃ k, k < c.count ∧ i = (c.head + k) % c.capacity

/-- The representation invariant of the ring. -/
structure Wf (c : Channel) : Prop where
  capacity_pos : 0 < c.capacity
  count_le : c.count ≤ c.capacity
  head_lt : c.head < c.capacity
  tail_eq : c.tail = (c.head + c.count) % c.capacity
  cleared : ∀ i, ¬ c.Occupied i → c.caps i = .cleared

theorem wf_new {capacity msgSize : Nat} (h : 0 < capacity) : (channelNew capacity msgSize).Wf where
  capacity_pos := h
  count_le := Nat.zero_le _
  head_lt := h
  tail_eq := (Nat.zero_mod _).symm
  cleared := fun _ _ => rfl

theorem Wf.tail_cleared {c : Channel} (h : c.Wf) (hlt : c.count < c.capacity) :
    c.caps c.tail = .cleared := by
  refine h.cleared c.tail ?_
  intro ⟨k, hk, he⟩
  rw [h.tail_eq] at he
  have := slot_inj hlt (hk.trans hlt) he
  omega

theorem Wf.cap_lt {c : Channel} (h : c.Wf) {k : Nat} (hk : c.caps k ≠ .cleared) :
    k < c.capacity := by
  by_contra hge
  refine hk (h.cleared k ?_)
  rintro ⟨j, -, rfl⟩
  exact hge (Nat.mod_lt _ h.capacity_pos)

@[simp] theorem contents_length (c : Channel) : c.contents.length = c.count := window_length

theorem slot_disjoint {size i j k : Nat} (hij : i ≠ j) (hk : k < size) :
    ¬ (j * size ≤ i * size + k ∧ i * size + k < j * size + size) := by
  intro ⟨h1, h2⟩
  rcases Nat.lt_or_gt_of_ne hij with h | h
  all_goals
    have := Nat.mul_le_mul_right size (Nat.succ_le_of_lt h)
    rw [Nat.succ_mul] at this
    omega

section

variable {c : Channel} (msg : Nat → UInt8) (cap : Option Cap)

theorem enqueue_item_tail : (c.enqueue msg cap).1.item c.tail = (c.msgBytes msg, cap) := by
  have hbytes : (c.enqueue msg cap).1.slotBytes c.tail = c.msgBytes msg := by
    apply List.map_congr_left
    intro k hk
    have hk := List.mem_range.mp hk
    simp only [enqueue] at hk ⊢
    rw [copyBytes_apply, if_pos ⟨by omega, by omega⟩]
    congr 1; omega
  have hcaps : (c.enqueue msg cap).1.caps c.tail = .ofCap cap := update_self ..
  rw [item, hbytes, hcaps, ChanCap.cap?_ofCap]

theorem enqueue_item_ne {i : Nat} (hi : i ≠ c.tail) : (c.enqueue msg cap).1.item i = c.item i := by
  have hbytes : (c.enqueue msg cap).1.slotBytes i = c.slotBytes i := by
    apply List.map_congr_left
    intro k hk
    have hk := List.mem_range.mp hk
    simp only [enqueue] at hk ⊢
    rw [copyBytes_apply, if_neg (slot_disjoint hi hk)]
  have hcaps : (c.enqueue msg cap).1.caps i = c.caps i := update_of_ne hi ..
  rw [item, hbytes, hcaps, item]

theorem enqueue_contents (h : c.Wf) (hlt : c.count < c.capacity) :
    (c.enqueue msg cap).1.contents = c.contents ++ [(c.msgBytes msg, cap)] := by
  have hp : window c.capacity c.head (c.count + 1) (c.enqueue msg cap).1.item =
      c.contents ++ [(c.enqueue msg cap).1.item ((c.head + c.count) % c.capacity)] :=
    window_push hlt fun i _ hi => enqueue_item_ne msg cap (by rw [h.tail_eq]; exact hi)
  rw [← h.tail_eq, enqueue_item_tail] at hp
  exact hp

theorem enqueue_wf (h : c.Wf) (hlt : c.count < c.capacity) : (c.enqueue msg cap).1.Wf where
  capacity_pos := h.capacity_pos
  count_le := hlt
  head_lt := h.head_lt
  tail_eq := by
    simp only [enqueue]
    rw [h.tail_eq, Nat.mod_add_mod, Nat.add_assoc]
  cleared := by
    intro i hocc
    have hne : i ≠ c.tail := by
      rintro rfl
      exact hocc ⟨c.count, Nat.lt_succ_self _, h.tail_eq⟩
    simp only [enqueue, update_of_ne hne]
    refine h.cleared i fun ⟨k, hk, he⟩ => hocc ⟨k, Nat.lt_succ_of_lt hk, he⟩

end

section

variable {c : Channel}

theorem commit_item_ne {i : Nat} (hi : i ≠ c.head) : c.commit.1.item i = c.item i := by
  simp [item, slotBytes, commit, update_of_ne hi]

theorem commit_contents (h : c.Wf) (h0 : c.count ≠ 0) :
    c.contents = c.item c.head :: c.commit.1.contents := by
  have hle := h.count_le
  have hp : window c.capacity c.head (c.count - 1 + 1) c.item =
      c.item (c.head % c.capacity) :: c.commit.1.contents :=
    window_pop (by omega) fun i _ hi =>
      commit_item_ne (by rwa [Nat.mod_eq_of_lt h.head_lt] at hi)
  rw [Nat.mod_eq_of_lt h.head_lt, Nat.sub_add_cancel (by omega)] at hp
  exact hp

theorem commit_wf (h : c.Wf) (h0 : c.count ≠ 0) : c.commit.1.Wf where
  capacity_pos := h.capacity_pos
  count_le := by have := h.count_le; simp only [commit]; omega
  head_lt := Nat.mod_lt _ h.capacity_pos
  tail_eq := by
    simp only [commit]
    rw [h.tail_eq, Nat.mod_add_mod]
    congr 1; omega
  cleared := by
    intro i hocc
    by_cases hne : i = c.head
    · subst hne; simp [commit]
    simp only [commit, update_of_ne hne]
    refine h.cleared i ?_
    intro ⟨k, hk, he⟩
    cases k with
    | zero => rw [he, Nat.add_zero, Nat.mod_eq_of_lt h.head_lt] at hne; exact hne rfl
    | succ k =>
      refine hocc ⟨k, by simp only [commit]; omega, ?_⟩
      simp only [commit]
      rw [he, Nat.mod_add_mod]
      congr 1; omega

end

end Channel

end Exyde.Ipc
