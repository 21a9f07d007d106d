import Mathlib.Data.Finset.Basic
import Exyde.Lib.Runs
import Exyde.Heap.Interface

/-! # Runs of the heap

A client passes back only pointers it was given and has not given back, and writes into
its own payloads. If no zeroed allocation is of a size that wraps around, the blocks are
what they should be and no call touches the payload of another block. -/

namespace Exyde.Heap

open Function Exyde.Lib

/-- The heap, the pointers the client holds, and why it stopped, if it did. -/
structure Client where
  heap : State
  owned : Finset Nat
  halted : Option Halt

/-- What a client does; `answer` is what becomes of the pages asked for. -/
inductive Call
  | malloc (size : BitVec 64) (answer : Nat → PageAnswer)
  | zalloc (size : BitVec 64) (answer : Nat → PageAnswer)
  | realloc (ptr : Nat) (size : BitVec 64) (answer : Nat → PageAnswer)
  | free (ptr : Nat)
  | reserve (bytes : BitVec 64) (answer : Nat → PageAnswer)
  | write (ptr i : Nat) (v : BitVec 8)

def Call.On : Call → Nat → Prop
  | .malloc _ _, _ | .zalloc _ _, _ | .reserve _ _, _ => False
  | .realloc ptr _ _, p | .free ptr, p | .write ptr _ _, p => ptr = p

namespace Client

def Passes (k : Client) (ptr : Nat) : Prop := ptr = 0 ∨ ptr ∈ k.owned
  deriving Decidable

/-- The client after a call, which holds `owns v` if `v` is returned. -/
def after (k : Client) (owns : Nat → Finset Nat) : Outcome → Client
  | .returned v s => ⟨s, owns v, none⟩
  | .halted why s => ⟨s, k.owned, some why⟩

def exchange (k : Client) (ptr v : Nat) : Finset Nat :=
  if v = 0 then k.owned else insert v (k.owned.erase ptr)

def step (k : Client) (call : Call) : Option Client :=
  if k.halted.isSome then none
  else match call with
  | .malloc size answer =>
    some (k.after (k.exchange 0) (.ofOption k.heap (k.heap.exyMalloc answer size.toNat)))
  | .zalloc size answer => some (k.after (k.exchange 0) (k.heap.exyZalloc answer size.toNat))
  | .realloc ptr size answer =>
    if k.Passes ptr then
      some (k.after (fun v => if size.toNat = 0 then k.owned.erase ptr else k.exchange ptr v)
        (k.heap.exyRealloc answer ptr size.toNat))
    else none
  | .free ptr =>
    if k.Passes ptr then some (k.after (fun _ => k.owned.erase ptr) (k.heap.exyFree ptr)) else none
  | .reserve bytes answer =>
    some (k.after (fun _ => k.owned)
      (.ofOption k.heap ((k.heap.heapReserve answer bytes.toNat).map fun (ok, s) => (ok.toNat, s))))
  | .write ptr i v =>
    if ptr ∈ k.owned ∧ i < k.heap.get (ptr - heapHeader) .size then
      some { k with heap := k.heap.setMem (update k.heap.mem (ptr + i) v) }
    else none

end Client

def heapSystem : System Client Call where
  start k := ∃ mem, k = ⟨.heapInit mem, ∅, none⟩
  step := Client.step

/-- The sizes of zeroed allocations can be rounded up in 64 bits. -/
def Fits (_ : Client) : Call → Prop
  | .zalloc size _ => size.toNat + (heapAlign - 1) < 2 ^ 64
  | _ => True

instance (k : Client) (call : Call) : Decidable (Fits k call) := by
  cases call <;> unfold Fits <;> infer_instance

/-! ## The invariant -/

/-- The client holds exactly the pointers to the blocks in use. -/
structure Sound (k : Client) (bs : List Block) : Prop where
  running : k.halted = none
  intact : Intact k.heap bs
  owned : ∀ p, p ∈ k.owned ↔ ∃ b ∈ usedBlocks bs, b.payload = p

/-- The blocks in use that a call is not about are in use behind it, and hold
what they held. -/
def Spares (k : Client) (bs : List Block) (call : Call) (k' : Client) (bs' : List Block) : Prop :=
  ∀ b ∈ usedBlocks bs, ¬ call.On b.payload →
    b ∈ usedBlocks bs' ∧ ∀ a, b.Owns a → k'.heap.mem a = k.heap.mem a

section

variable {k k' : Client} {bs bs' : List Block} {call : Call} {gone new : Option Block} {s' : State}

theorem init_sound (mem : Bytes) : Sound ⟨.heapInit mem, ∅, none⟩ [] where
  running := rfl
  intact :=
    ⟨⟨⟨rfl, by simp, rfl, show heapBase ≤ heapMax by decide⟩, by simp, by simp,
      rfl⟩, List.isChain_nil, rfl⟩
  owned p := by simp [usedBlocks]

section

variable (h : Sound k bs) {owned : Finset Nat}

include h

theorem Sound.ne_zero {p : Nat} (hp : p ∈ k.owned) : p ≠ 0 := by
  obtain ⟨b, _, rfl⟩ := (h.owned p).mp hp
  exact b.payload_ne_zero

/-- **The effect of a call on a client**: the block given back is no longer held,
the new one is. -/
theorem Sound.effect (he : Effect k.heap bs gone new s' bs')
    (hgone : ∀ b, gone = some b → b ∈ usedBlocks bs ∧ call.On b.payload)
    (howned : ∀ p, p ∈ owned ↔
      (∃ c, new = some c ∧ c.payload = p) ∨ p ∈ k.owned ∧ ∀ b, gone = some b → b.payload ≠ p) :
    Sound ⟨s', owned, none⟩ bs' ∧ Spares k bs call ⟨s', owned, none⟩ bs' := by
  have hkeep : ∀ b ∈ usedBlocks bs, ¬ call.On b.payload → some b ≠ gone :=
    fun b _ hon heq => hon (hgone b heq.symm).2
  refine ⟨⟨rfl, he.intact, fun p => ?_⟩, fun b hb hon => ?_⟩
  · rw [howned, h.owned]
    constructor
    · intro hp
      rcases hp with ⟨c, hc, hcp⟩ | ⟨⟨b, hb, hbp⟩, hne⟩
      · exact ⟨c, (he.used c).mpr (.inl hc.symm), hcp⟩
      · exact ⟨b, (he.used b).mpr (.inr ⟨hb, fun heq => hne b heq.symm hbp⟩), hbp⟩
    · intro ⟨d, hd, hdp⟩
      rcases (he.used d).mp hd with hnew | ⟨hd, hne⟩
      · exact .inl ⟨d, hnew.symm, hdp⟩
      · refine .inr ⟨⟨d, hd, hdp⟩, fun b hb hbp => ?_⟩
        have heq := h.intact.payload_inj (usedBlocks_sub hd) (usedBlocks_sub (hgone b hb).1)
          (hdp.trans hbp.symm)
        exact hne (heq ▸ hb.symm)
  · have hne := hkeep b hb hon
    exact ⟨(he.used b).mpr (.inr ⟨hb, hne⟩), he.untouched b hb hne⟩

/-- A call that returns null with nothing given back, or a new block in exchange
for what is at `ptr`. -/
theorem Sound.returns {o : Outcome} {ptr size : Nat}
    (hr : Returns k.heap bs size o gone new) (hnull : new = none → gone = none)
    (hgone : ∀ b, gone = some b → b ∈ usedBlocks bs ∧ call.On b.payload)
    (hptr : ∀ p ∈ k.owned, new ≠ none → ((∀ b, gone = some b → b.payload ≠ p) ↔ p ≠ ptr)) :
    ∃ bs', Sound (k.after (k.exchange ptr) o) bs' ∧ Spares k bs call (k.after (k.exchange ptr) o) bs' := by
  cases hr with
  | @null _ s' bs' he =>
    have hnone := hnull rfl
    exact ⟨bs', h.effect he hgone (by simp [Client.exchange, hnone])⟩
  | @block _ c s' bs' he _ =>
    refine ⟨bs', h.effect he hgone fun p => ?_⟩
    simp only [Client.exchange, if_neg c.payload_ne_zero, Finset.mem_insert, Finset.mem_erase, Option.some.injEq,
      exists_eq_left']
    constructor
    · intro hp
      rcases hp with heq | ⟨hpne, hp⟩
      · exact .inl heq.symm
      · exact .inr ⟨hp, (hptr p hp (by simp)).mpr hpne⟩
    · intro hp
      rcases hp with heq | ⟨hp, hkeep⟩
      · exact .inl heq.symm
      · exact .inr ⟨(hptr p hp (by simp)).mp hkeep, hp⟩

theorem Sound.fresh {p size : Nat} (hm : Mallocs k.heap bs size (p, s')) :
    ∃ bs', Sound (k.after (k.exchange 0) (.returned p s')) bs' ∧
      Spares k bs call (k.after (k.exchange 0) (.returned p s')) bs' := by
  obtain ⟨new, hr⟩ := hm.returns
  exact h.returns hr (fun _ => rfl) (by simp) fun p hp _ => by simp [h.ne_zero hp]

theorem Sound.same (howned : ∀ p, p ∈ owned ↔ p ∈ k.owned) :
    ∃ bs', Sound ⟨k.heap, owned, none⟩ bs' ∧ Spares k bs call ⟨k.heap, owned, none⟩ bs' :=
  ⟨bs, h.effect h.intact.keeps.effect (by simp) (by simp [howned])⟩

theorem Sound.mem_erase_zero (p : Nat) : p ∈ k.owned.erase 0 ↔ p ∈ k.owned := by
  rw [Finset.mem_erase]
  exact ⟨fun hp => hp.2, fun hp => ⟨h.ne_zero hp, hp⟩⟩

theorem Sound.free {b : Block} (hb : b ∈ usedBlocks bs) (hon : call.On b.payload)
    (he : Effect k.heap bs (some b) none s' bs') :
    Sound ⟨s', k.owned.erase b.payload, none⟩ bs' ∧
      Spares k bs call ⟨s', k.owned.erase b.payload, none⟩ bs' := by
  refine h.effect he ?_ fun p => ?_
  · intro d hd
    cases hd
    exact ⟨hb, hon⟩
  · simp [and_comm, eq_comm]

theorem Sound.write {b : Block} (hb : b ∈ usedBlocks bs) {i : Nat} (hi : i < b.size)
    (v : BitVec 8) (hon : call.On b.payload) :
    Sound ⟨k.heap.setMem (update k.heap.mem (b.payload + i) v), k.owned, none⟩ bs ∧
      Spares k bs call ⟨k.heap.setMem (update k.heap.mem (b.payload + i) v), k.owned, none⟩
        bs := by
  have hmem := usedBlocks_sub hb
  have hown : b.Owns (b.payload + i) := ⟨Nat.le_add_right .., by omega⟩
  have hout : ∀ a, ¬ b.Owns a → update k.heap.mem (b.payload + i) v a = k.heap.mem a := by
    intro a ha
    refine update_of_ne (fun heq => ha ?_) ..
    rw [heq]
    exact hown
  refine ⟨⟨rfl, h.intact.writePayload hmem hout, h.owned⟩, fun d hd hnot => ⟨hd, fun a ha => ?_⟩⟩
  refine hout a fun hba => hnot ?_
  rw [h.intact.rep.shape.owns_inj (usedBlocks_sub hd) hmem ha hba]
  exact hon

theorem Sound.malloc (size : Nat) (answer : Nat → PageAnswer) :
    ∃ bs', Sound (k.after (k.exchange 0) (.ofOption k.heap (k.heap.exyMalloc answer size))) bs' ∧
      Spares k bs call (k.after (k.exchange 0) (.ofOption k.heap (k.heap.exyMalloc answer size)))
        bs' := by
  obtain ⟨r, hr, hmalloc⟩ := h.intact.exyMalloc answer size
  rw [hr]
  exact h.fresh hmalloc

theorem Sound.realloc {ptr size : Nat} (hpass : k.Passes ptr)
    (hon : ptr ≠ 0 → call.On ptr) (answer : Nat → PageAnswer) :
    ∃ bs', Sound (k.after (fun v => if size = 0 then k.owned.erase ptr else k.exchange ptr v)
        (k.heap.exyRealloc answer ptr size)) bs' ∧
      Spares k bs call (k.after (fun v => if size = 0 then k.owned.erase ptr else k.exchange ptr v)
        (k.heap.exyRealloc answer ptr size)) bs' := by
  by_cases hsize : size = 0
  · subst hsize
    rcases hpass with heq | hp
    · subst heq
      exact h.same h.mem_erase_zero
    · obtain ⟨b, hb, rfl⟩ := (h.owned ptr).mp hp
      obtain ⟨s', bs', hr, hfrees⟩ := h.intact.exyFree hb
      rw [State.exyRealloc, if_neg (h.ne_zero hp), if_pos rfl, hr]
      exact ⟨bs', h.free hb (hon (h.ne_zero hp)) hfrees.effect⟩
  · simp only [if_neg hsize]
    rcases hpass with heq | hp
    · subst heq
      exact h.malloc size answer
    obtain ⟨b, hb, rfl⟩ := (h.owned ptr).mp hp
    rcases h.intact.exyRealloc hb answer hsize with ⟨_, hsame⟩ | ⟨new, hr⟩
    · rw [hsame]
      have hback : k.exchange b.payload b.payload = k.owned := by
        rw [Client.exchange, if_neg (h.ne_zero hp), Finset.insert_erase hp]
      exact h.same fun p => by simp only [hback]
    · refine h.returns hr (fun hnone => by rw [hnone]; rfl) ?_ ?_
      · intro d hd
        obtain ⟨c, _, rfl⟩ := Option.map_eq_some_iff.mp hd
        exact ⟨hb, hon (h.ne_zero hp)⟩
      · intro p _ hnew
        obtain ⟨c, rfl⟩ := Option.ne_none_iff_exists'.mp hnew
        simp [eq_comm]

theorem Sound.step (hok : Fits k call) (hs : k.step call = some k') :
    ∃ bs', Sound k' bs' ∧ Spares k bs call k' bs' := by
  simp only [Client.step, h.running, Option.isSome_none, Bool.false_eq_true, if_false] at hs
  cases call with
  | malloc size answer =>
    cases hs
    exact h.malloc size.toNat answer
  | zalloc size answer =>
    cases hs
    obtain ⟨p, s', hr, hmalloc, _⟩ := h.intact.exyZalloc answer hok
    rw [hr]
    exact h.fresh hmalloc
  | realloc ptr size answer =>
    simp only at hs
    split at hs
    next hpass =>
      cases hs
      have hon : (Call.realloc ptr size answer).On ptr := rfl
      exact h.realloc hpass (fun _ => hon) answer
    · cases hs
  | free ptr =>
    obtain ⟨hpass, hs⟩ := Option.ite_none_right_eq_some.mp hs
    cases hs
    rcases hpass with heq | hp
    · subst heq
      exact h.same h.mem_erase_zero
    · obtain ⟨b, hb, rfl⟩ := (h.owned ptr).mp hp
      obtain ⟨s', bs', hr, hfrees⟩ := h.intact.exyFree hb
      rw [hr]
      exact ⟨bs', h.free hb rfl hfrees.effect⟩
  | reserve bytes answer =>
    cases hs
    obtain ⟨ok, s', bs', hr, hkeeps⟩ := h.intact.heapReserve answer bytes.toNat
    rw [hr]
    exact ⟨bs', h.effect hkeeps.effect (by simp) (by simp)⟩
  | write ptr i v =>
    obtain ⟨hin, hs⟩ := Option.ite_none_right_eq_some.mp hs
    cases hs
    obtain ⟨b, hb, rfl⟩ := (h.owned ptr).mp hin.1
    rw [(h.intact.pointer hb).2.2.1, h.intact.rep.size b (usedBlocks_sub hb)] at hin
    have hon : (Call.write b.payload i v).On b.payload := rfl
    exact ⟨bs, h.write hb hin.2 v hon⟩

end

theorem reach_sound (h : Reach heapSystem Fits k) : ∃ bs, Sound k bs := by
  refine h.invariant (I := fun k => ∃ bs, Sound k bs) ?_ ?_
  · rintro k ⟨mem, rfl⟩
    exact ⟨[], init_sound mem⟩
  · rintro k call k' ⟨bs, hk⟩ hok hs
    obtain ⟨bs', hk', _⟩ := hk.step hok hs
    exact ⟨bs', hk'⟩

end

/-- **The heap is intact in every run** whose zeroed allocations can be rounded
up: the blocks fill the heap, their payloads are positive multiples of 16, the
free list is the list of the free blocks in the order of their addresses, no two
neighbours are free, the counters are exact, the client holds the blocks in use,
and the next call returns and leaves the payloads of the other blocks alone. -/
theorem heap_intact {k : Client} (h : Reach heapSystem Fits k) :
    (∃ bs, Tiles Block.addr Block.extent k.heap.heapStart bs k.heap.heapEnd ∧
      (∀ b ∈ bs, k.heap.get b.addr .size = b.size ∧ k.heap.blockIsFree b.addr = b.free) ∧
      (∀ b ∈ bs, 16 ∣ b.size ∧ 0 < b.size) ∧
      k.heap.Walk k.heap.freeHead (freeAddrs bs) 0 ∧ (freeAddrs bs).Pairwise (· < ·) ∧
      Coalesced bs ∧
      k.heap.heapUsedBytes = usedBytes bs ∧ k.heap.heapFreeBytes = some (freeBytes bs) ∧
      k.heap.heapUsedBytes + freeBytes bs + 32 * bs.length = k.heap.heapTotalBytes ∧
      ∀ p, p ∈ k.owned ↔ ∃ b ∈ bs, b.free = false ∧ b.payload = p) ∧
    ∀ call k', Fits k call → k.step call = some k' →
      k'.halted = none ∧ ∀ p ∈ k.owned, ¬ call.On p → p ∈ k'.owned ∧
        k'.heap.get (p - heapHeader) .size = k.heap.get (p - heapHeader) .size ∧
        ∀ i < k.heap.get (p - heapHeader) .size, k'.heap.mem (p + i) = k.heap.mem (p + i) := by
  obtain ⟨bs, hk⟩ := reach_sound h
  have hrep := hk.intact.rep
  refine ⟨⟨bs, hrep.shape.tiles, fun b hb => ⟨hrep.size b hb, hrep.flag b hb⟩, hrep.shape.sizes,
    hrep.list, hrep.shape.sorted, hk.intact.coalesced, hk.intact.live, hk.intact.heapFreeBytes, ?_,
    fun p => ?_⟩, fun call k' hok hs => ?_⟩
  · rw [State.heapUsedBytes, hk.intact.live]
    exact hrep.shape.total
  · rw [hk.owned]
    simp only [mem_usedBlocks, and_assoc]
  · obtain ⟨bs', hk', hspares⟩ := hk.step hok hs
    refine ⟨hk'.running, fun p hp hon => ?_⟩
    obtain ⟨b, hb, rfl⟩ := (hk.owned p).mp hp
    obtain ⟨hb', hbytes⟩ := hspares b hb hon
    rw [(hk.intact.pointer hb).2.2.1, hrep.size b (usedBlocks_sub hb),
      hk'.intact.rep.size b (usedBlocks_sub hb')]
    exact ⟨(hk'.owned _).mpr ⟨b, hb', rfl⟩, rfl, fun i hi =>
      hbytes _ ⟨Nat.le_add_right .., by omega⟩⟩

def newClient : Client := ⟨.heapInit fun _ => 0, ∅, none⟩

theorem newClient_start : heapSystem.start newClient := ⟨_, rfl⟩

def allMapped : Nat → PageAnswer := fun _ => .mapped

/-- Three blocks, one given back, one moved to the front of a free block, and a
reservation that gets one page of three. -/
def mixedCalls : List Call :=
  [.malloc 100 allMapped, .zalloc 200 allMapped, .malloc 40 allMapped, .write 0x40100020 3 7,
    .free 0x401000B0, .realloc 0x40100020 300 allMapped,
    .reserve 9000 fun i => if i = 0 then .mapped else .noPage]

theorem heap_intact_mixed : ∃ k, Reach heapSystem Fits k ∧
      (k.owned = {0x401001A0, 0x401001F0} ∧ k.heap.mem 0x401001F3 = 7 ∧
        k.heap.heapFreeBytes = some 7712) ∧
      ∀ call k', Fits k call → k.step call = some k' →
        k'.halted = none ∧ ∀ p ∈ k.owned, ¬ call.On p → p ∈ k'.owned ∧
          k'.heap.get (p - heapHeader) .size = k.heap.get (p - heapHeader) .size ∧
          ∀ i < k.heap.get (p - heapHeader) .size, k'.heap.mem (p + i) = k.heap.mem (p + i) := by
  obtain ⟨k, hk, hheap⟩ : ∃ k ∈ heapSystem.runOk Fits newClient mixedCalls,
      k.owned = {0x401001A0, 0x401001F0} ∧ k.heap.mem 0x401001F3 = 7 ∧
        k.heap.heapFreeBytes = some 7712 := by decide +kernel
  have hreach := Reach.runOk hk (.start newClient_start)
  exact ⟨k, hreach, hheap, (heap_intact hreach).2⟩

/-- **Nothing is lost.** With all blocks given back, in any order, the heap is one free block. -/
theorem heap_whole_again {k : Client} (h : Reach heapSystem Fits k) (hnone : k.owned = ∅) :
    k.heap.heapUsedBytes = 0 ∧ k.heap.heapFreeBytes = some (k.heap.heapTotalBytes - 32) := by
  obtain ⟨bs, hk⟩ := reach_sound h
  have hused : usedBlocks bs = [] := by
    refine List.eq_nil_iff_forall_not_mem.mpr fun b hb => ?_
    have hp := (hk.owned _).mpr ⟨b, hb, rfl⟩
    simp [hnone] at hp
  rw [State.heapUsedBytes, hk.intact.live, hk.intact.heapFreeBytes, State.heapTotalBytes,
    ← hk.intact.rep.shape.total, usedBytes, hused]
  -- of two neighbours one is in use
  rcases bs with _ | ⟨a, _ | ⟨b, rest⟩⟩
  · exact ⟨rfl, rfl⟩
  · simp [heapHeader]
  · have hnot := (List.isChain_cons_cons.mp hk.intact.coalesced).1
    simp [usedBlocks] at hused
    exact absurd ⟨hused.1, hused.2.1⟩ hnot

theorem heap_whole_again_two : ∃ k, Reach heapSystem Fits k ∧ k.heap.heapFreeBytes = some 4064 := by
  obtain ⟨k, hk, hnone, htotal⟩ : ∃ k ∈ heapSystem.runOk Fits newClient
      [.malloc 100 allMapped, .malloc 40 allMapped, .free 0x40100020, .free 0x401000B0],
      k.owned = ∅ ∧ k.heap.heapTotalBytes = 4096 := by decide +kernel
  have hreach := Reach.runOk hk (.start newClient_start)
  exact ⟨k, hreach, by rw [(heap_whole_again hreach hnone).2, htotal]⟩

/-- A block of 16 bytes in front of one that fills the page, and is given back. -/
def gapCalls : List Call :=
  [.malloc 16 allMapped, .malloc 4016 allMapped, .write 0x40100050 0 1, .free 0x40100020]

/-- **`exy_zalloc` overwrites another block.** The size `2 ^ 64 - 1` is rounded to
0, so the block of 16 bytes is taken, and zeroed far beyond its end. -/
theorem zalloc_overwrites :
    ∃ k call k' p, Reachable heapSystem k ∧ k.step call = some k' ∧ p ∈ k.owned ∧ ¬ call.On p ∧
      0 < k.heap.get (p - heapHeader) .size ∧ k.heap.mem p = 1 ∧ k'.heap.mem p = 0 := by
  obtain ⟨k, hk, hhalted, howned, hsize, hbyte, ⟨p, s1⟩, hm, rfl, hstart, hend⟩ :
      ∃ k ∈ heapSystem.run newClient gapCalls, k.halted = none ∧ 0x40100050 ∈ k.owned ∧
        k.heap.get 0x40100030 .size = 4016 ∧ k.heap.mem 0x40100050 = 1 ∧
        ∃ r ∈ k.heap.exyMalloc allMapped (2 ^ 64 - 1),
          r.1 = 0x40100020 ∧ r.2.heapStart = 0x40100000 ∧ r.2.heapEnd = 0x40101000 := by
    decide +kernel
  have hreach := Reachable.run hk (.start newClient_start)
  dsimp only at hstart hend
  have hz := exyZalloc_overrun hm (by decide) (by omega) (by omega) (by omega)
  refine ⟨k, .zalloc (-1) allMapped, k.after (k.exchange 0) (k.heap.exyZalloc allMapped (2 ^ 64 - 1)),
    0x40100050, hreach, ?_, howned, id, ?_, hbyte, ?_⟩
  · simp only [Client.step, hhalted, Option.isSome_none, Bool.false_eq_true, if_false]
    rfl
  · rw [show 0x40100050 - heapHeader = 0x40100030 from rfl, hsize]
    decide
  · rw [hz]
    exact if_pos (by omega)

end Exyde.Heap
