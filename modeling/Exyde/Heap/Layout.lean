import Mathlib.Data.List.Chain
import Mathlib.Data.List.Nodup
import Exyde.Lib.Segment
import Exyde.Lib.Tiling
import Exyde.Heap.Ops

/-! # The layout of the heap

The heap as a list of blocks, and what the memory has to hold for the list to stand for
it. -/

namespace Exyde.Heap

open Exyde.Lib List

/-- A block, by the address of its header. -/
structure Block where
  addr : Nat
  size : Nat
  free : Bool
  deriving DecidableEq, Repr

namespace Block

def extent (b : Block) : Nat := heapHeader + b.size

def payload (b : Block) : Nat := b.addr + heapHeader

def Owns (b : Block) (a : Nat) : Prop := b.payload ≤ a ∧ a < b.payload + b.size

theorem payload_ne_zero (b : Block) : b.payload ≠ 0 := by
  rw [payload, heapHeader]
  omega

end Block

def freeBlocks (bs : List Block) : List Block := bs.filter fun b => b.free
def usedBlocks (bs : List Block) : List Block := bs.filter fun b => !b.free

def freeAddrs (bs : List Block) : List Nat := (freeBlocks bs).map Block.addr
def freeBytes (bs : List Block) : Nat := ((freeBlocks bs).map Block.size).sum
def usedBytes (bs : List Block) : Nat := ((usedBlocks bs).map Block.size).sum

def Coalesced (bs : List Block) : Prop := bs.IsChain fun b c => ¬ (b.free = true ∧ c.free = true)

/-- The blocks fill the heap, and their payloads are of the sizes given out. -/
structure Shape (lo hi : Nat) (bs : List Block) : Prop where
  tiles : Tiles Block.addr Block.extent lo bs hi
  sizes : ∀ b ∈ bs, heapAlign ∣ b.size ∧ 0 < b.size
  low : lo = heapBase
  high : hi ≤ heapMax

def State.Walk (s : State) (h : Nat) (l : List Nat) (t : Nat) : Prop :=
  Seg (fun b => s.get b .nextFree) h l t

/-- The memory holds the blocks `bs`, and the free list is `l`. -/
structure Holds (s : State) (bs : List Block) (l : List Nat) : Prop where
  shape : Shape s.heapStart s.heapEnd bs
  size : ∀ b ∈ bs, s.get b.addr .size = b.size
  flag : ∀ b ∈ bs, s.blockIsFree b.addr = b.free
  list : s.Walk s.freeHead l 0

/-- The free list is the list of the free blocks. -/
abbrev Rep (s : State) (bs : List Block) : Prop := Holds s bs (freeAddrs bs)

structure Intact (s : State) (bs : List Block) : Prop where
  rep : Rep s bs
  coalesced : Coalesced bs
  live : s.livePayload = usedBytes bs

def Untouched (bs : List Block) (s s' : State) : Prop :=
  ∀ b ∈ bs, ∀ a, b.Owns a → s'.mem a = s.mem a

/-! ## Lists of blocks -/

section

variable {b c q : Block} {bs pre post l : List Block}

@[simp] theorem freeAddrs_nil : freeAddrs [] = [] := rfl

@[simp] theorem freeAddrs_append : freeAddrs (pre ++ post) = freeAddrs pre ++ freeAddrs post := by
  simp [freeAddrs, freeBlocks]

theorem freeAddrs_cons_free (h : b.free = true) : freeAddrs (b :: bs) = b.addr :: freeAddrs bs := by
  simp [freeAddrs, freeBlocks, h]

theorem freeAddrs_cons_used (h : b.free = false) : freeAddrs (b :: bs) = freeAddrs bs := by
  simp [freeAddrs, freeBlocks, h]

theorem mem_freeAddrs {a : Nat} : a ∈ freeAddrs bs ↔ ∃ b ∈ bs, b.free = true ∧ b.addr = a := by
  simp [freeAddrs, freeBlocks, and_assoc]

theorem mem_usedBlocks : b ∈ usedBlocks bs ↔ b ∈ bs ∧ b.free = false := by
  simp [usedBlocks]

@[simp] theorem usedBlocks_append : usedBlocks (pre ++ post) = usedBlocks pre ++ usedBlocks post := by
  simp [usedBlocks]

theorem usedBlocks_cons_free (h : b.free = true) : usedBlocks (b :: bs) = usedBlocks bs := by
  simp [usedBlocks, h]

theorem usedBlocks_cons_used (h : b.free = false) : usedBlocks (b :: bs) = b :: usedBlocks bs := by
  simp [usedBlocks, h]

theorem sum_sizes (bs : List Block) : (bs.map Block.size).sum = usedBytes bs + freeBytes bs := by
  induction bs with
  | nil => rfl
  | cons b bs ih =>
    cases hb : b.free with
    | true => simp only [usedBytes, freeBytes, usedBlocks, freeBlocks, map_cons, sum_cons,
        filter_cons, hb, Bool.not_true, if_true, Bool.false_eq_true, if_false] at ih ⊢; omega
    | false => simp only [usedBytes, freeBytes, usedBlocks, freeBlocks, map_cons, sum_cons,
        filter_cons, hb, Bool.not_false, if_true, Bool.false_eq_true, if_false] at ih ⊢; omega

theorem exists_last_free (bs : List Block) : freeAddrs bs = [] ∨
    ∃ pre q post, bs = pre ++ q :: post ∧ q.free = true ∧ freeAddrs post = [] := by
  induction bs with
  | nil => exact .inl rfl
  | cons b bs ih =>
    rcases ih with hnone | ⟨pre, q, post, heq, hq, hpost⟩
    · cases hb : b.free with
      | true => exact .inr ⟨[], b, bs, rfl, hb, hnone⟩
      | false => exact .inl (by rw [freeAddrs_cons_used hb, hnone])
    · exact .inr ⟨b :: pre, q, post, by rw [heq]; rfl, hq, hpost⟩

theorem used_of_freeAddrs_nil (h : freeAddrs bs = []) (hb : b ∈ bs) : b.free = false := by
  cases hf : b.free with
  | false => rfl
  | true =>
    have : b.addr ∈ freeAddrs bs := mem_freeAddrs.mpr ⟨b, hb, hf, rfl⟩
    rw [h] at this
    cases this

/-! ## Neighbours -/

theorem Coalesced.left (h : Coalesced (pre ++ post)) : Coalesced pre := (isChain_append.mp h).1
theorem Coalesced.right (h : Coalesced (pre ++ post)) : Coalesced post :=
  (isChain_append.mp h).2.1

theorem Coalesced.tail (h : Coalesced (b :: bs)) : Coalesced bs := List.IsChain.tail h

theorem Coalesced.cons_used (h : Coalesced bs) (hb : b.free = false) : Coalesced (b :: bs) :=
  isChain_cons.mpr ⟨fun _ _ hbc => (Bool.eq_false_iff.mp hb) hbc.1, h⟩

theorem Coalesced.snoc_used (h : Coalesced bs) (hb : b.free = false) : Coalesced (bs ++ [b]) := by
  refine isChain_append.mpr ⟨h, isChain_singleton b, fun x _ y hy hboth => ?_⟩
  have hy' : y = b := by simpa using hy.symm
  rw [hy'] at hboth
  exact (Bool.eq_false_iff.mp hb) hboth.2

theorem Coalesced.append_used (h : Coalesced bs) (hpre : ∀ b ∈ pre, b.free = false) :
    Coalesced (pre ++ bs) := by
  induction pre with
  | nil => exact h
  | cons b pre ih =>
    have htail := ih fun c hc => hpre c (mem_cons_of_mem _ hc)
    exact htail.cons_used (hpre b (mem_cons_self ..))

/-- What stands before a block only sees whether it is free. -/
theorem Coalesced.splice (h : Coalesced (pre ++ b :: post)) (hl : Coalesced (c :: l))
    (hc : c.free = true → b.free = true) : Coalesced (pre ++ c :: l) := by
  obtain ⟨hpre, _, hjoin⟩ := isChain_append.mp h
  refine isChain_append.mpr ⟨hpre, hl, fun x hx y hy => ?_⟩
  have hy' : y = c := by simpa using hy.symm
  rw [hy']
  exact fun hboth => hjoin x hx b (by simp) ⟨hboth.1, hc hboth.2⟩

/-- What stands behind a block only sees whether it is free. -/
theorem Coalesced.head (h : Coalesced (b :: post)) (hc : c.free = true → b.free = true) :
    Coalesced (c :: post) := by
  obtain ⟨hjoin, hpost⟩ := isChain_cons.mp h
  exact isChain_cons.mpr ⟨fun d hd hboth => hjoin d hd ⟨hc hboth.1, hboth.2⟩, hpost⟩

theorem Coalesced.next_used (h : Coalesced (b :: c :: post)) (hb : b.free = true) : c.free = false := by
  have hnot := (isChain_cons_cons.mp h).1
  cases hc : c.free with
  | false => rfl
  | true => exact absurd ⟨hb, hc⟩ hnot

def joinNext (b : Block) : List Block → List Block
  | [] => [b]
  | c :: l => if c.free then { b with size := b.size + c.extent } :: l else b :: c :: l

theorem joinNext_eq (b : Block) (l : List Block) :
    ∃ n l', joinNext b l = { b with size := n } :: l' := by
  cases l with
  | nil => exact ⟨b.size, [], rfl⟩
  | cons c l =>
    rw [joinNext]
    split
    · exact ⟨_, l, rfl⟩
    · exact ⟨b.size, c :: l, rfl⟩

/-- Whether the blocks begin, or end, with a free one. -/
def firstFree (bs : List Block) : Bool := bs.head?.any Block.free
def lastFree (bs : List Block) : Bool := bs.getLast?.any Block.free

theorem lastFree_of_used (h : freeAddrs bs = []) : lastFree bs = false := by
  cases hl : bs.getLast? with
  | none => simp [lastFree, hl]
  | some b => simp [lastFree, hl, used_of_freeAddrs_nil h (mem_of_getLast? hl)]

theorem length_joinNext (b : Block) (l : List Block) :
    (joinNext b l).length + (firstFree l).toNat = l.length + 1 := by
  cases l with
  | nil => rfl
  | cons c l => cases hc : c.free <;> simp [joinNext, firstFree, hc]

theorem coalesced_joinNext (h : Coalesced l) : Coalesced (joinNext b l) := by
  cases l with
  | nil => exact isChain_singleton b
  | cons c l =>
    rw [joinNext]
    split
    next hc =>
      cases l with
      | nil => exact isChain_singleton _
      | cons d l =>
        have hd := h.next_used hc
        exact isChain_cons_cons.mpr ⟨by simp [hd], h.tail⟩
    next hc => exact isChain_cons_cons.mpr ⟨fun hboth => hc hboth.2, h⟩

theorem usedBlocks_joinNext (hb : b.free = true) : usedBlocks (joinNext b l) = usedBlocks l := by
  cases l with
  | nil => exact usedBlocks_cons_free hb
  | cons c l =>
    rw [joinNext]
    split
    next hc =>
      rw [usedBlocks_cons_free hc]
      exact usedBlocks_cons_free hb
    · exact usedBlocks_cons_free hb

end

/-! ## Shapes -/

section

variable {lo hi : Nat} {b c : Block} {bs pre post : List Block}

theorem Shape.bounds (h : Shape lo hi bs) (hb : b ∈ bs) :
    lo ≤ b.addr ∧ b.addr + heapHeader + b.size ≤ hi := by
  have hmem := h.tiles.mem hb
  simp only [Block.extent] at hmem
  omega

theorem Shape.addr_pos (h : Shape lo hi bs) (hb : b ∈ bs) : b.addr ≠ 0 := by
  have hlo := (h.bounds hb).1
  rw [h.low, heapBase] at hlo
  omega

theorem Shape.end_lt (h : Shape lo hi bs) (hb : b ∈ bs) :
    b.addr + heapHeader + b.size < 2 ^ 64 := by
  have hhi := (h.bounds hb).2
  have hmax := h.high
  simp only [heapMax] at hmax
  omega

/-- The blocks before a given one end at or before it, those behind it start
at or after its end. -/
theorem Shape.before (h : Shape lo hi (pre ++ b :: post)) (hc : c ∈ pre) :
    c.addr + heapHeader + c.size ≤ b.addr := by
  have hmem := (h.tiles.around.1).mem hc
  simp only [Block.extent] at hmem
  omega

theorem Shape.behind (h : Shape lo hi (pre ++ b :: post)) (hc : c ∈ post) :
    b.addr + heapHeader + b.size ≤ c.addr := by
  have hmem := (h.tiles.around.2).mem hc
  simp only [Block.extent] at hmem
  omega

theorem Shape.apart (h : Shape lo hi bs) (hb : b ∈ bs) (hc : c ∈ bs) :
    b = c ∨ b.addr + heapHeader + b.size ≤ c.addr ∨ c.addr + heapHeader + c.size ≤ b.addr := by
  simpa only [Block.extent, Nat.add_assoc] using h.tiles.apart hb hc

theorem Shape.sep (h : Shape lo hi bs) (hb : b ∈ bs) (hc : c ∈ bs) :
    heapBlock.Sep b.addr c.addr := by
  rcases h.apart hb hc with heq | hapart
  · exact .inl (congrArg Block.addr heq)
  · refine .inr ?_
    simp only [heapBlock]
    omega

theorem Shape.addr_inj (h : Shape lo hi bs) (hb : b ∈ bs) (hc : c ∈ bs) (heq : b.addr = c.addr) :
    b = c := by
  rcases h.apart hb hc with hbc | hapart
  · exact hbc
  · simp only [heapHeader] at hapart
    omega

theorem Shape.owns_apart {a : Nat} (h : Shape lo hi bs) (hb : b ∈ bs) (hc : c ∈ bs) (ha : c.Owns a) :
    a < b.addr ∨ b.addr + heapBlock.size ≤ a := by
  simp only [Block.Owns, Block.payload] at ha
  simp only [heapBlock]
  rcases h.apart hb hc with heq | hapart
  · subst heq
    omega
  · omega

theorem Shape.owns_inj {a : Nat} (h : Shape lo hi bs) (hb : b ∈ bs) (hc : c ∈ bs) (hba : b.Owns a)
    (hca : c.Owns a) : b = c := by
  simp only [Block.Owns, Block.payload] at hba hca
  rcases h.apart hb hc with heq | hapart
  · exact heq
  · omega

/-- A block and those right behind it are replaced by blocks that fill the same place. -/
theorem Shape.replace (bs cs : List Block) (h : Shape lo hi (pre ++ b :: (bs ++ post)))
    (hcs : Tiles Block.addr Block.extent b.addr cs (b.addr + b.extent + (bs.map Block.extent).sum))
    (hsizes : ∀ c ∈ cs, heapAlign ∣ c.size ∧ 0 < c.size) : Shape lo hi (pre ++ (cs ++ post)) where
  tiles := h.tiles.replace hcs
  sizes c hc := by
    simp only [mem_append] at hc
    rcases hc with hpre | hc | hpost
    · exact h.sizes c (by simp [hpre])
    · exact hsizes c hc
    · exact h.sizes c (by simp [hpost])
  low := h.low
  high := h.high

theorem Shape.setFree (h : Shape lo hi (pre ++ b :: post)) (f : Bool) :
    Shape lo hi (pre ++ { b with free := f } :: post) := by
  refine Shape.replace [] [{ b with free := f }] h ⟨rfl, rfl⟩ fun c hc => ?_
  rw [mem_singleton.mp hc]
  exact h.sizes b (by simp)

theorem Shape.merge (h : Shape lo hi (pre ++ b :: c :: post)) :
    Shape lo hi (pre ++ { b with size := b.size + c.extent } :: post) := by
  refine Shape.replace [c] [{ b with size := b.size + c.extent }] h ⟨rfl, ?_⟩ fun d hd => ?_
  · simp only [Tiles, Block.extent, map_cons, map_nil, sum_cons, sum_nil]
    omega
  · have hsb := h.sizes b (by simp)
    have hsc := h.sizes c (by simp)
    rw [mem_singleton.mp hd]
    exact ⟨Nat.dvd_add hsb.1 (Nat.dvd_add (by decide) hsc.1), Nat.add_pos_left hsb.2 _⟩

section

variable (h : Shape lo hi bs)

include h

theorem Shape.length_le : lo + bs.length ≤ hi := by
  have hsum := h.tiles.sum
  have hlen : bs.length ≤ (bs.map Block.extent).sum := by
    clear hsum h
    induction bs with
    | nil => simp
    | cons b bs ih =>
      simp only [map_cons, sum_cons, length_cons, Block.extent, heapHeader] at ih ⊢
      omega
  omega

theorem Shape.nodup : bs.Nodup :=
  h.tiles.pairwise.imp fun hbc heq => by
    rw [heq] at hbc
    simp only [Block.extent, heapHeader] at hbc
    omega

theorem Shape.total :
    usedBytes bs + freeBytes bs + heapHeader * bs.length = hi - lo := by
  have hsum := h.tiles.sum
  have hextent : (bs.map Block.extent).sum = heapHeader * bs.length + (bs.map Block.size).sum := by
    clear hsum h
    induction bs with
    | nil => rfl
    | cons b bs ih =>
      simp only [map_cons, sum_cons, length_cons, Block.extent] at ih ⊢
      rw [Nat.mul_succ]
      omega
  rw [hextent, sum_sizes] at hsum
  omega

theorem Shape.usedBytes_lt : usedBytes bs + freeBytes bs < 2 ^ 64 := by
  have htotal := h.total
  have hhigh := h.high
  simp only [heapMax] at hhigh
  omega

theorem Shape.sorted : (freeAddrs bs).Pairwise (· < ·) := by
  have hpair := h.tiles.pairwise.filter fun b => b.free
  refine pairwise_map.mpr (hpair.imp fun hbc => ?_)
  simp only [Block.extent, heapHeader] at hbc
  omega

end

end

/-! ## Headers -/

namespace State

variable {s : State} {x y v prev a : Nat} {f g : Field}

theorem get_set (h : heapBlock.Sep x y) :
    (s.set y g v).get x f = if x = y ∧ f = g then v % 256 ^ heapBlock.width g else s.get x f :=
  Record.get_set h

theorem get_set_same : (s.set y g v).get y g = v % 256 ^ heapBlock.width g := by
  rw [get_set (.inl rfl), if_pos ⟨rfl, rfl⟩]

theorem get_set_word (hv : v < 2 ^ 64) (hg : g ≠ .flags) : (s.set y g v).get y g = v := by
  rw [get_set_same]
  cases g with
  | size | nextFree => exact Nat.mod_eq_of_lt hv
  | flags => exact absurd rfl hg

theorem get_set_addr (h : heapBlock.Sep x y) (hne : x ≠ y) : (s.set y g v).get x f = s.get x f := by
  rw [get_set h, if_neg fun heq => hne heq.1]

theorem get_set_field (h : heapBlock.Sep x y) (hne : f ≠ g) : (s.set y g v).get x f = s.get x f := by
  rw [get_set h, if_neg fun heq => hne heq.2]

@[simp] theorem get_set_ne (hne : f ≠ g) : (s.set y g v).get y f = s.get y f :=
  get_set_field (.inl rfl) hne

@[simp] theorem set_heapStart : (s.set y g v).heapStart = s.heapStart := rfl
@[simp] theorem set_heapEnd : (s.set y g v).heapEnd = s.heapEnd := rfl
@[simp] theorem set_freeHead : (s.set y g v).freeHead = s.freeHead := rfl
@[simp] theorem set_livePayload : (s.set y g v).livePayload = s.livePayload := rfl

theorem set_mem (h : a < y ∨ y + heapBlock.size ≤ a) : (s.set y g v).mem a = s.mem a :=
  Record.set_of_not_mem h

@[simp] theorem link_heapStart : (s.link prev v).heapStart = s.heapStart := by
  unfold link; split <;> rfl
@[simp] theorem link_heapEnd : (s.link prev v).heapEnd = s.heapEnd := by
  unfold link; split <;> rfl
@[simp] theorem link_livePayload : (s.link prev v).livePayload = s.livePayload := by
  unfold link; split <;> rfl

theorem get_link_field (h : prev ≠ 0 → heapBlock.Sep x prev) (hne : f ≠ .nextFree) :
    (s.link prev v).get x f = s.get x f := by
  unfold link
  split
  · rfl
  next hp => exact get_set_field (h hp) hne

theorem get_link_addr (h : prev ≠ 0 → heapBlock.Sep x prev) (hne : x ≠ prev) :
    (s.link prev v).get x f = s.get x f := by
  unfold link
  split
  · rfl
  next hp => exact get_set_addr (h hp) hne

theorem link_mem (h : prev ≠ 0 → a < prev ∨ prev + heapBlock.size ≤ a) :
    (s.link prev v).mem a = s.mem a := by
  unfold link
  split
  · rfl
  next hp => exact set_mem (h hp)

end State

/-! ## Flags -/

theorem land_blkFree (f : Nat) : (f &&& blkFree != 0) = decide (f % 2 = 1) := by
  rw [blkFree, Nat.and_one_is_mod]
  rcases Nat.mod_two_eq_zero_or_one f with h | h <;> simp [h]

theorem mark_free (f : Nat) : ((f ||| blkFree) % 2 ^ 32 &&& blkFree != 0) = true := by
  rw [land_blkFree]
  have hodd : (f ||| 1) % 2 = 1 := by simp [Nat.or_mod_two_eq_one]
  rw [blkFree]
  exact decide_eq_true (by omega)

theorem mark_used (f : Nat) : ((f &&& 0xFFFFFFFE) % 2 ^ 32 &&& blkFree != 0) = false := by
  rw [land_blkFree]
  have heven : (f &&& 0xFFFFFFFE) % 2 = 0 := by
    simpa using Nat.and_mod_two_pow (a := f) (b := 0xFFFFFFFE) (n := 1)
  exact decide_eq_false (by omega)

end Exyde.Heap
