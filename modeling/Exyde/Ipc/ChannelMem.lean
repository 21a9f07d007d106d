import Exyde.Lib.Bytes
import Exyde.Ipc.ChannelSys

/-! # Channels in memory

The buffer and the capability slots of a channel are two blocks of the heap, of the sizes
that `channel_create` asks for. Messages and slots are stored at the addresses that
`enqueue` and `channel_commit` compute, wherever the blocks end. -/

namespace Exyde.Ipc

open Function Exyde.Lib

/-! ## Capability slots -/

inductive CapField where
  | kind
  | rights
  | object
  | inUse
  | owns
  deriving DecidableEq

/-- The layout of `chan_cap_t`, whose last word is padding. -/
def chanCapT : Record CapField where
  offset
    | .kind => 0
    | .rights => 4
    | .object => 8
    | .inUse => 16
    | .owns => 20
  width
    | .object => 8
    | _ => 4
  size := sizeofChanCap
  fits f := by cases f <;> decide
  apart f g := by cases f <;> cases g <;> decide

def ChanCap.field (cs : ChanCap) : CapField → Nat
  | .kind => cs.kind.toNat
  | .rights => cs.rights.toNat
  | .object => cs.object
  | .inUse => cs.inUse.toNat
  | .owns => cs.owns.toNat

def loadCap (m : Bytes) (a : Nat) : ChanCap :=
  ⟨.ofNat (chanCapT.get m a .kind), .ofNat (chanCapT.get m a .rights), chanCapT.get m a .object,
    chanCapT.get m a .inUse != 0, chanCapT.get m a .owns != 0⟩

def storeCap (m : Bytes) (a : Nat) (cs : ChanCap) : Bytes :=
  [.kind, .rights, .object, .inUse, .owns].foldl (fun m f => chanCapT.set m a f (cs.field f)) m

section

variable {m m' : Bytes} {a p : Nat} {cs : ChanCap}

theorem storeCap_of_not_mem (h : p < a ∨ a + sizeofChanCap ≤ p) : storeCap m a cs p = m p := by
  simp only [storeCap, List.foldl, Record.set_of_not_mem (R := chanCapT) h]

theorem loadCap_congr (h : ∀ p, a ≤ p → p < a + sizeofChanCap → m' p = m p) :
    loadCap m' a = loadCap m a := by
  have hget : ∀ f, chanCapT.get m' a f = chanCapT.get m a f := fun f => Record.get_congr h
  simp only [loadCap, hget]

theorem get_storeCap (f : CapField) :
    chanCapT.get (storeCap m a cs) a f = cs.field f % 256 ^ chanCapT.width f := by
  have hsep : chanCapT.Sep a a := .inl rfl
  cases f <;> simp [storeCap, Record.get_set hsep]

theorem loadCap_storeCap (h : cs.object < 2 ^ 64) : loadCap (storeCap m a cs) a = cs := by
  have hword : ∀ u : UInt32, UInt32.ofNat (u.toNat % 256 ^ 4) = u := by
    intro u
    have hlt : u.toNat < 256 ^ 4 := u.toNat_lt
    rw [Nat.mod_eq_of_lt hlt, UInt32.ofNat_toNat]
  have hflag : ∀ b : Bool, (b.toNat % 256 ^ 4 != 0) = b := by decide
  have hobject : cs.object % 256 ^ 8 = cs.object := Nat.mod_eq_of_lt h
  simp only [loadCap, get_storeCap]
  change (⟨.ofNat (cs.kind.toNat % 256 ^ 4), .ofNat (cs.rights.toNat % 256 ^ 4),
    cs.object % 256 ^ 8, cs.inUse.toNat % 256 ^ 4 != 0,
    cs.owns.toNat % 256 ^ 4 != 0⟩ : ChanCap) = cs
  rw [hword, hword, hobject, hflag, hflag]

end

/-! ## The channel and its memory -/

/-- `buffer` and `caps` are the addresses of the blocks. The two arrays of `sys.chan` are
what memory held when they were last read. -/
structure ChanMem where
  sys : ChanSys
  mem : Bytes
  buffer : Nat
  caps : Nat

namespace ChanMem

section

variable (x : ChanMem)

/-! Addresses wrap; no access goes past the last one. -/

def byteAddr (k : Nat) : Nat := (x.buffer + k) % 2 ^ 64
def capAddr (i : Nat) : Nat := (x.caps + i * sizeofChanCap) % 2 ^ 64

def bytes (k : Nat) : UInt8 :=
  if k < x.sys.chan.capacity * x.sys.chan.msgSize then .ofBitVec (x.mem (x.byteAddr k)) else 0

def slots (i : Nat) : ChanCap :=
  if i < x.sys.chan.capacity then loadCap x.mem (x.capAddr i) else .cleared

/-- The channel as memory has it. -/
def read : ChanSys := { x.sys with chan := { x.sys.chan with buffer := x.bytes, caps := x.slots } }

/-- `n` bytes are copied to slot `j`, and its capability is set. -/
def write (j n : Nat) (msg : Nat → UInt8) (cs : ChanCap) : Bytes :=
  storeCap (copyBytes x.mem (x.byteAddr (j * x.sys.chan.msgSize)) (fun k => (msg k).toBitVec) n)
    (x.capAddr j) cs

/-- The stores of a pass that leaves the channel as `c`: those of `enqueue`, or those of
`channel_commit`, which has no bytes to copy. -/
def stores (c : Channel) : Bytes :=
  let c0 := x.sys.chan
  let msg j k := c.buffer (j * c0.msgSize + k)
  if c0.count < c.count then x.write c0.tail c0.msgSize (msg c0.tail) (c.caps c0.tail)
  else if c.count < c0.count then x.write c0.head 0 (msg c0.head) (c.caps c0.head)
  else x.mem

def step (e : ChanEvent) : Option ChanMem :=
  (x.read.step e).map fun s => { x with sys := s, mem := x.stores s.chan }

end

/-- Two blocks of `n` and `k` bytes with nothing in common. -/
structure Blocks (n k : Nat) (x : ChanMem) : Prop where
  buffer_le : x.buffer + n ≤ 2 ^ 64
  caps_le : x.caps + k ≤ 2 ^ 64
  apart : x.buffer + n ≤ x.caps ∨ x.caps + k ≤ x.buffer

/-- What `channel_create` got from the heap: two such blocks, filled with zeros. -/
structure Allocated (n k : Nat) (x : ChanMem) : Prop extends Blocks n k x where
  zeros : ∀ p, (x.buffer ≤ p ∧ p < x.buffer + n) ∨ (x.caps ≤ p ∧ p < x.caps + k) → x.mem p = 0

end ChanMem

def chanMemSystem (capacity msgSize : Nat) : System ChanMem ChanEvent where
  start x := channelCreate true capacity msgSize = some x.sys.chan ∧
    x.sys = .init capacity msgSize ∧ x.Allocated (bufferBytes capacity msgSize) (capBytes capacity)
  step := ChanMem.step

def Op.cap? : Op → Option Cap
  | .sendCap _ cap => cap
  | _ => none

/-- The object of a capability is a pointer. -/
def Op.Fits (op : Op) : Prop := ∀ cap ∈ op.cap?, cap.object < 2 ^ 64
  deriving Decidable

def ChanEvent.Fits : ChanEvent → Prop
  | .call _ _ op => op.Fits
  | .resume _ _ => True

instance : DecidablePred ChanEvent.Fits
  | .call _ _ op => inferInstanceAs (Decidable op.Fits)
  | .resume _ _ => isTrue trivial

theorem Op.Fits.put {op : Op} {c : Channel} {b : List UInt8} {cap : Option Cap} (h : op.Fits)
    (hsend : op.sends = true) (hput : op.put c = (b, cap)) :
    (ChanCap.ofCap cap).object < 2 ^ 64 := by
  cases cap with
  | none => exact Nat.two_pow_pos 64
  | some cap =>
    cases op with
    | send _ | trySend _ => cases hput
    | sendCap _ cap' =>
      cases hput
      exact h cap rfl
    | _ => cases hsend

/-! ## A pass in memory -/

theorem slot_le {capacity i : Nat} (size : Nat) (h : i < capacity) :
    i * size + size ≤ capacity * size := by
  rw [← Nat.succ_mul]
  exact Nat.mul_le_mul_right size h

namespace ChanMem

section

variable {x : ChanMem} {i j k n : Nat} {cs : ChanCap}

theorem read_eq (hbytes : x.bytes = x.sys.chan.buffer) (hslots : x.slots = x.sys.chan.caps) :
    x.read = x.sys := by
  rw [read, hbytes, hslots]

theorem stores_of_count {c : Channel} (h : c.count = x.sys.chan.count) : x.stores c = x.mem := by
  simp only [stores, h, Nat.lt_irrefl, if_false]

variable {capacity : Nat}

theorem Blocks.capAddr_eq (h : x.Blocks n (capacity * sizeofChanCap)) (hi : i < capacity) :
    x.capAddr i = x.caps + i * sizeofChanCap := by
  have hle := h.caps_le
  simp only [sizeofChanCap] at hle
  exact Nat.mod_eq_of_lt (by simp only [sizeofChanCap]; omega)

theorem Blocks.byteAddr_eq (h : x.Blocks n j) (hk : k < n) : x.byteAddr k = x.buffer + k :=
  Nat.mod_eq_of_lt (Nat.lt_of_lt_of_le (Nat.add_lt_add_left hk _) h.buffer_le)

section

variable (h : x.Blocks (capacity * x.sys.chan.msgSize) (capacity * sizeofChanCap))
include h

theorem Blocks.byte_write (hj : j < capacity) (hk : k < capacity * x.sys.chan.msgSize)
    (msg : Nat → UInt8) :
    x.write j n msg cs (x.byteAddr k) =
      if j * x.sys.chan.msgSize ≤ k ∧ k < j * x.sys.chan.msgSize + n then
        (msg (k - j * x.sys.chan.msgSize)).toBitVec
      else x.mem (x.byteAddr k) := by
  have hpos : j * x.sys.chan.msgSize < capacity * x.sys.chan.msgSize :=
    Nat.mul_lt_mul_of_pos_right hj (Nat.pos_of_ne_zero fun h0 => by simp [h0] at hk)
  have hapart := h.apart
  rw [write, h.byteAddr_eq hk, h.byteAddr_eq hpos, h.capAddr_eq hj]
  simp only [sizeofChanCap] at hapart ⊢
  rw [storeCap_of_not_mem (by simp only [sizeofChanCap]; omega), copyBytes_apply,
    Nat.add_sub_add_left]
  exact if_congr (by omega) rfl rfl

theorem Blocks.slot_write (hi : i < capacity) (hj : j < capacity) (hn : n ≤ x.sys.chan.msgSize)
    (hcs : cs.object < 2 ^ 64) (msg : Nat → UInt8) :
    loadCap (x.write j n msg cs) (x.capAddr i) =
      if i = j then cs else loadCap x.mem (x.capAddr i) := by
  split
  next heq =>
    subst heq
    exact loadCap_storeCap hcs
  next hne =>
    have hle := slot_le x.sys.chan.msgSize hj
    have hapart := h.apart
    have hoff : n = 0 ∨ x.byteAddr (j * x.sys.chan.msgSize) = x.buffer + j * x.sys.chan.msgSize :=
      (Nat.eq_zero_or_pos n).imp_right fun hpos => h.byteAddr_eq (by omega)
    rw [write, h.capAddr_eq hi, h.capAddr_eq hj]
    refine loadCap_congr fun p h1 h2 => ?_
    simp only [sizeofChanCap] at h1 h2 hapart
    rw [storeCap_of_not_mem (by simp only [sizeofChanCap]; omega), copyBytes_apply, if_neg]
    omega

/-- A slot that is written is read back, and the rest is as it was. -/
theorem Blocks.read_write {s : ChanSys} (hcap : s.chan.capacity = capacity)
    (hcap' : x.sys.chan.capacity = capacity) (hsize : s.chan.msgSize = x.sys.chan.msgSize)
    (hj : j < capacity) (hn : n ≤ x.sys.chan.msgSize) (hcs : cs.object < 2 ^ 64)
    (hbuffer : ∀ k, ¬ (j * x.sys.chan.msgSize ≤ k ∧ k < j * x.sys.chan.msgSize + n) →
      s.chan.buffer k = x.bytes k) (hcaps : s.chan.caps = update x.slots j cs) :
    ({ x with
      sys := s
      mem := x.write j n (fun k => s.chan.buffer (j * x.sys.chan.msgSize + k)) cs }).read = s := by
  have hle := slot_le x.sys.chan.msgSize hj
  refine read_eq (funext fun k => ?_) (funext fun i => ?_)
  · change (if k < s.chan.capacity * s.chan.msgSize then
      UInt8.ofBitVec (x.write j n _ cs (x.byteAddr k)) else 0) = s.chan.buffer k
    rw [hcap, hsize]
    split
    next hk =>
      rw [h.byte_write hj hk]
      split
      next hin => rw [Nat.add_sub_cancel' hin.1]
      next hout => rw [hbuffer k hout, bytes, hcap', if_pos hk]
    next hk => rw [hbuffer k (by omega), bytes, hcap', if_neg hk]
  · change (if i < s.chan.capacity then loadCap (x.write j n _ cs) (x.capAddr i) else .cleared) =
      s.chan.caps i
    rw [hcap, hcaps, update_apply, slots, hcap']
    split
    next hi => rw [h.slot_write hi hj hn hcs]
    next hi => rw [if_neg fun hij : i = j => hi (hij ▸ hj)]

end

/-- **After a pass memory holds the channel** it has left. -/
theorem stores_read (h : x.Blocks (x.sys.chan.capacity * x.sys.chan.msgSize)
      (x.sys.chan.capacity * sizeofChanCap)) (hwf : x.read.chan.Wf) {tbl : HandleTable} {t : Tid}
    {op : Op} {p : Pass} (hop : op.Fits) (hcase : PassCase tbl x.read.chan t op p) (s : ChanSys) :
    ({ x with sys := { s with chan := p.chan }, mem := x.stores p.chan }).read =
      { s with chan := p.chan } := by
  cases hcase with
  | parkSend | parkRecv | fail =>
    rw [stores_of_count (by rfl)]
    exact read_eq rfl rfl
  | put msg cap hsend _ hput =>
    have htail : x.sys.chan.tail < x.sys.chan.capacity := by
      have heq : x.sys.chan.tail = _ := hwf.tail_eq
      rw [heq]
      exact Nat.mod_lt _ hwf.capacity_pos
    have hmore : x.sys.chan.count < (sendNow x.read.chan msg cap).chan.count := Nat.lt_succ_self _
    have hslot : (sendNow x.read.chan msg cap).chan.caps x.sys.chan.tail = .ofCap cap :=
      update_self ..
    rw [stores, if_pos hmore, hslot]
    exact h.read_write rfl rfl rfl htail (Nat.le_refl _) (hop.put hsend hput)
      (fun k hout => (copyBytes_apply ..).trans (if_neg hout)) rfl
  | take _ h0 _ =>
    have hless : x.read.chan.commit.1.count < x.sys.chan.count := Nat.sub_one_lt h0
    have hslot : x.read.chan.commit.1.caps x.sys.chan.head = .cleared := update_self ..
    rw [stores, if_neg (Nat.lt_asymm hless), if_pos hless, hslot]
    exact h.read_write rfl rfl rfl hwf.head_lt (Nat.zero_le _) (by decide) (fun _ _ => rfl) rfl

end

end ChanMem

/-! ## First in, first out, in memory -/

section

variable {capacity msgSize : Nat} {x : ChanMem}

theorem loadCap_zeros {m : Bytes} {a : Nat} (h : ∀ p, a ≤ p → p < a + sizeofChanCap → m p = 0) :
    loadCap m a = .cleared :=
  (loadCap_congr (m := fun _ => 0) h).trans rfl

/-- What every run keeps. -/
structure ChanMem.Kept (capacity msgSize : Nat) (x : ChanMem) : Prop where
  room : x.Blocks (capacity * msgSize) (capacity * sizeofChanCap)
  fifo : FifoInv capacity msgSize x.read
  fits : ∀ t op, x.sys.busy t = some op → op.Fits

theorem ChanMem.Kept.step {e : ChanEvent} {x' : ChanMem} (h : x.Kept capacity msgSize)
    (hok : e.Fits) (hs : x.step e = some x') : x'.Kept capacity msgSize := by
  obtain ⟨s, hstep, rfl⟩ := Option.map_eq_some_iff.mp hs
  obtain ⟨t, tbl, op, w, hcall, hs'⟩ := step_attempt hstep
  have hop : op.Fits := by
    rcases hcall with rfl | hbusy
    · exact hok
    · exact h.fits t op hbusy
  obtain ⟨hchan, hleft⟩ := attempt_kept { x.read with woken := w } t tbl op
  rw [← hs'] at hchan hleft
  have hroom := h.room
  rw [← h.fifo.capacity_eq, ← h.fifo.msgSize_eq] at hroom
  have hread := stores_read hroom h.fifo.wf hop (pass_case tbl _ t op) s
  have hback : { s with chan := (op.pass tbl t x.read.chan).chan } = s := by rw [← hchan]
  rw [hback, ← hchan] at hread
  refine ⟨⟨h.room.1, h.room.2, h.room.3⟩, ?_, fun t' op' hin => ?_⟩
  · rw [hread]
    exact step_fifoInv h.fifo hstep
  by_cases ht : t' = t
  · subst ht
    rcases hleft with hleft | hleft <;> rw [hleft, update_self] at hin <;> cases hin
    exact hop
  · rcases hleft with hleft | hleft <;> rw [hleft, update_of_ne ht] at hin <;>
      exact h.fits t' op' hin

theorem ChanMem.Kept.start (hbytes : capacity * msgSize < 2 ^ 64)
    (hslots : capacity * sizeofChanCap < 2 ^ 64) (h : (chanMemSystem capacity msgSize).start x) :
    x.Kept capacity msgSize := by
  obtain ⟨hmade, hsys, halloc⟩ := h
  obtain ⟨hpos, -⟩ := channelCreate_some hmade
  rw [bufferBytes, capBytes, Nat.mod_eq_of_lt hbytes, Nat.mod_eq_of_lt hslots] at halloc
  obtain ⟨hroom, hzeros⟩ := halloc
  have hchan : x.sys.chan = channelNew capacity msgSize := by rw [hsys]; rfl
  have hread : x.read = x.sys := by
    refine read_eq (funext fun k => ?_) (funext fun i => ?_)
    · rw [bytes, hchan]
      split
      next hk =>
        rw [hroom.byteAddr_eq hk, hzeros _ (.inl ⟨by omega, Nat.add_lt_add_left hk _⟩)]
        rfl
      · rfl
    · rw [slots, hchan]
      split
      next hi =>
        have hi : i < capacity := hi
        have hle := slot_le sizeofChanCap hi
        rw [hroom.capAddr_eq hi]
        exact loadCap_zeros fun p h1 h2 => hzeros p (.inr ⟨by omega, by omega⟩)
      · rfl
  rw [hsys] at hread
  refine ⟨hroom, hread ▸ ⟨Channel.wf_new hpos, rfl, rfl, rfl⟩, fun t op hbusy => ?_⟩
  rw [hsys] at hbusy
  cases hbusy

/-- **Channels are exactly-once FIFO queues**, if the products that `channel_create` computes
do not wrap. In every state of every interleaving, receivers were given a prefix of what
was enqueued and the ring holds the rest; a call that fails or refuses changes nothing. -/
theorem channel_fifo (hbytes : capacity * msgSize < 2 ^ 64)
    (hslots : capacity * sizeofChanCap < 2 ^ 64)
    (h : Reach (chanMemSystem capacity msgSize) (fun _ e => e.Fits) x) :
    x.sys.consumed <+: x.sys.enqueued ∧
      x.sys.consumed.length + x.sys.chan.count = x.sys.enqueued.length ∧
      x.sys.chan.msgSize = msgSize ∧
      x.sys.chan.count ≤ capacity ∧
      x.sys.chan.tail = (x.sys.chan.head + x.sys.chan.count) % capacity ∧
      (∀ i, i < capacity → ¬ x.sys.chan.Occupied i →
        loadCap x.mem (x.caps + i * sizeofChanCap) = .cleared) ∧
      ∀ (t : Tid) (tbl : HandleTable) (op : Op) (r : Ret),
        (op.pass tbl t x.read.chan).ret = some r → r.failed = true →
          (op.pass tbl t x.read.chan).chan = x.read.chan ∧
          (op.pass tbl t x.read.chan).wake = none ∧
          x.stores (op.pass tbl t x.read.chan).chan = x.mem := by
  have hkept : x.Kept capacity msgSize :=
    h.invariant (fun _ => .start hbytes hslots) fun _ _ _ hk hok hs => hk.step hok hs
  obtain ⟨hroom, ⟨hwf, hcap, hsize, hhist⟩, -⟩ := hkept
  have hcap' : x.sys.chan.capacity = capacity := hcap
  refine ⟨⟨_, hhist.symm⟩, ?_, hsize, hcap ▸ hwf.count_le, hcap ▸ hwf.tail_eq,
    fun i hi hfree => ?_, ?_⟩
  · have hlen := congrArg List.length hhist
    rw [List.length_append, Channel.contents_length] at hlen
    exact hlen.symm
  · rw [← hroom.capAddr_eq hi, ← hwf.cleared i hfree]
    exact (if_pos (hcap' ▸ hi)).symm
  · intro t tbl op r hr hf
    obtain ⟨hchan, hwake⟩ := pass_failed hr hf
    have hcount : (op.pass tbl t x.read.chan).chan.count = x.sys.chan.count := by rw [hchan]; rfl
    exact ⟨hchan, hwake, ChanMem.stores_of_count hcount⟩

end

/-- One slot: thread 2 waits for it, and sends when thread 3 has received. -/
theorem channel_fifo_one_slot : ∃ x : ChanMem, x.sys.enqueued = [([7], none), ([8], none)] ∧
    x.sys.consumed <+: x.sys.enqueued ∧
    x.sys.consumed.length + x.sys.chan.count = x.sys.enqueued.length := by
  obtain ⟨x, hx, henq⟩ : ∃ x ∈ (chanMemSystem 1 1).runOk (fun _ e => e.Fits)
      ⟨.init 1 1, fun _ => 0, 0, 32⟩
      [.call 1 .init (.send fun _ => 7), .call 2 .init (.send fun _ => 8), .call 3 .init .recv,
        .resume 2 .init], x.sys.enqueued = [([7], none), ([8], none)] := by decide +kernel
  have hstart : (chanMemSystem 1 1).start ⟨.init 1 1, fun _ => 0, 0, 32⟩ :=
    ⟨rfl, rfl, ⟨by decide, by decide, by decide⟩, fun _ _ => rfl⟩
  have hfifo := channel_fifo (by decide) (by decide) (Reach.runOk hx (.start hstart))
  exact ⟨x, henq, hfifo.1, hfifo.2.1⟩

/-- A message of 32 bytes that reads as a slot in use. -/
def slotMessage : Nat → UInt8
  | 0 => 2
  | 4 | 16 | 20 => 1
  | _ => 0

/-- Both products are 32 modulo 2^64, so the blocks have room for one slot. The third
message is stored where the first capability slot is, and the first receiver is given a
channel that nobody has sent. -/
theorem channel_overruns : ∃ x : ChanMem,
    Reach (chanMemSystem (2 ^ 59 + 1) 32) (fun _ e => e.Fits) x ∧
      ¬ x.sys.consumed <+: x.sys.enqueued := by
  obtain ⟨x, hx, hlost⟩ : ∃ x ∈ (chanMemSystem (2 ^ 59 + 1) 32).runOk (fun _ e => e.Fits)
      ⟨.init (2 ^ 59 + 1) 32, fun _ => 0, 0x401000A0, 0x401000E0⟩
      [.call 1 .init (.send fun _ => 7), .call 1 .init (.send fun _ => 8),
        .call 1 .init (.send slotMessage), .call 2 .init .recvCap],
      ¬ x.sys.consumed <+: x.sys.enqueued := by decide +kernel
  refine ⟨x, Reach.runOk hx (.start ⟨rfl, rfl, ⟨?_, ?_, ?_⟩, fun _ _ => rfl⟩), hlost⟩ <;> decide

end Exyde.Ipc
