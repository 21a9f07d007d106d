import Exyde.Heap.Alloc

/-! # The heap interface

What `exy_free`, `exy_zalloc` and `exy_realloc` do to the blocks. If the rounding of the
size wraps around, `exy_zalloc` takes a block of 16 bytes and goes on writing to the end
of the heap. -/

namespace Exyde.Heap

open Function Exyde.Lib State

variable {s s' : State} {b c d : Block} {bs bs' : List Block}

/-! ## Writing payload -/

theorem Intact.writePayload (h : Intact s bs) (hc : c ∈ bs) {m : Bytes}
    (hm : ∀ a, ¬ c.Owns a → m a = s.mem a) : Intact (s.setMem m) bs := by
  have hget : ∀ b ∈ bs, ∀ f, (s.setMem m).get b.addr f = s.get b.addr f := by
    intro b hb f
    refine Record.get_congr fun a h1 h2 => hm a fun ha => ?_
    have := h.rep.shape.owns_apart hb hc ha
    omega
  refine ⟨⟨h.rep.shape, fun b hb => ?_, fun b hb => ?_, ?_⟩, h.coalesced, h.live⟩
  · rw [hget b hb]
    exact h.rep.size b hb
  · rw [blockIsFree, hget b hb]
    exact h.rep.flag b hb
  · refine h.rep.list.congr fun a ha => ?_
    obtain ⟨b, hb, _, rfl⟩ := mem_freeAddrs.mp ha
    exact hget b hb .nextFree

theorem Intact.payload_inj (h : Intact s bs) (hb : b ∈ bs) (hc : c ∈ bs) (heq : b.payload = c.payload) :
    b = c := by
  simp only [Block.payload] at heq
  exact h.rep.shape.addr_inj hb hc (by omega)

/-- **A loop over mapped memory goes through**: it writes what it reads, and nothing else. -/
theorem writeLoop_spec (val : State → Nat → Option (BitVec 8)) (dst : Nat) {n i : Nat}
    (hmap : ∀ k, i ≤ k → k < i + n → s.Mapped (dst + k))
    (hval : ∀ m k, i ≤ k → k < i + n → (val (s.setMem m) k).isSome) :
    ∃ m, writeLoop val dst n i s = (true, s.setMem m) ∧
      (∀ a, a < dst + i ∨ dst + i + n ≤ a → m a = s.mem a) ∧
      ∀ k, i ≤ k → k < i + n → ∃ m', val (s.setMem m') k = some (m (dst + k)) := by
  induction n generalizing i s with
  | zero => exact ⟨s.mem, rfl, fun _ _ => rfl, fun k h1 h2 => absurd h1 (Nat.not_le.mpr h2)⟩
  | succ n ih =>
    obtain ⟨v, hv⟩ : ∃ v, val s i = some v :=
      Option.isSome_iff_exists.mp (hval s.mem i (by omega) (by omega))
    obtain ⟨m, hm, hframe, hwrote⟩ := ih (s := s.setMem (update s.mem (dst + i) v)) (i := i + 1)
      (fun k h1 h2 => hmap k (by omega) (by omega)) (fun m k h1 h2 => hval m k (by omega) (by omega))
    refine ⟨m, ?_, fun a ha => ?_, fun k h1 h2 => ?_⟩
    · rw [writeLoop, hv]
      simp only [if_pos (hmap i (by omega) (by omega))]
      exact hm
    · rw [hframe a (by omega)]
      exact update_of_ne (by omega) ..
    · rcases Nat.eq_or_lt_of_le h1 with rfl | hlt
      · rw [hframe (dst + i) (by omega)]
        exact ⟨s.mem, hv.trans (congrArg some (update_self (dst + i) v s.mem).symm)⟩
      · exact hwrote k hlt (by omega)

/-- **A zeroing loop that leaves the heap faults there**, with everything zeroed
up to the end of the heap. -/
theorem writeLoop_fault {dst n i : Nat} (hlow : s.heapStart ≤ dst + i) (hle : dst + i ≤ s.heapEnd)
    (hn : s.heapEnd < dst + i + n) :
    writeLoop (fun _ _ => some 0) dst n i s =
      (false, s.setMem fun a => if dst + i ≤ a ∧ a < s.heapEnd then 0 else s.mem a) := by
  induction n generalizing i s with
  | zero => omega
  | succ n ih =>
    rw [writeLoop]
    by_cases hmap : s.Mapped (dst + i)
    · have hlt : dst + i < s.heapEnd := hmap.2
      simp only [if_pos hmap]
      rw [ih (Nat.le_succ_of_le hlow) hlt (by change s.heapEnd < _; omega)]
      refine congrArg (fun m => (false, s.setMem m)) (funext fun a => ?_)
      by_cases ha : a = dst + i
      · rw [if_neg (by omega), if_pos (by omega), ha]
        exact update_self ..
      · have hiff : (dst + (i + 1) ≤ a ∧ a < s.heapEnd) ↔ (dst + i ≤ a ∧ a < s.heapEnd) := by omega
        have hold : update s.mem (dst + i) 0 a = s.mem a := update_of_ne ha ..
        simp only [setMem, hiff, hold]
    · simp only [if_neg hmap]
      have hend : dst + i = s.heapEnd := by
        simp only [State.Mapped] at hmap
        omega
      have hsame : (fun a => if dst + i ≤ a ∧ a < s.heapEnd then 0 else s.mem a) = s.mem :=
        funext fun a => if_neg (by omega)
      rw [hsame]
      rfl

/-! ## `exy_free` -/

structure Frees (s : State) (bs : List Block) (s' : State) (bs' : List Block) (b : Block) : Prop where
  intact : Intact s' bs'
  used : ∀ d, d ∈ usedBlocks bs' ↔ d ∈ usedBlocks bs ∧ d ≠ b
  untouched : Untouched (usedBlocks bs') s s'

theorem Intact.pointer (h : Intact s bs) (hb : b ∈ usedBlocks bs) :
    b.payload ≠ 0 ∧ ¬ (b.payload < s.heapStart ∨ s.heapEnd ≤ b.payload) ∧
      b.payload - heapHeader = b.addr ∧ s.blockIsFree b.addr = false := by
  obtain ⟨hmem, hfree⟩ := mem_usedBlocks.mp hb
  have hbounds := h.rep.shape.bounds hmem
  have hsize := (h.rep.shape.sizes b hmem).2
  have hflag := h.rep.flag b hmem
  rw [hfree] at hflag
  simp only [Block.payload, heapHeader] at hbounds ⊢
  exact ⟨by omega, by omega, by omega, hflag⟩

theorem Intact.exyFree (h : Intact s bs) (hb : b ∈ usedBlocks bs) :
    ∃ s' bs', s.exyFree b.payload = .returned 0 s' ∧ Frees s bs s' bs' b := by
  obtain ⟨hne, hin, hblk, hflag⟩ := h.pointer hb
  obtain ⟨hmem, hfree⟩ := mem_usedBlocks.mp hb
  obtain ⟨pre, post, rfl⟩ := List.mem_iff_append.mp hmem
  have hbefore : usedBlocks (pre ++ b :: post) = usedBlocks pre ++ b :: usedBlocks post := by
    rw [usedBlocks_append, usedBlocks_cons_used hfree]
  have hnodup : (usedBlocks (pre ++ b :: post)).Nodup := h.rep.shape.nodup.filter _
  rw [hbefore] at hnodup
  have hnot := (List.nodup_cons.mp (List.nodup_middle.mp hnodup)).1
  -- the payload is taken off before the block is put into the list
  obtain ⟨v, hv⟩ : ∃ v, (s.livePayload + (2 ^ 64 - s.get b.addr .size)) % 2 ^ 64 = v := ⟨_, rfl⟩
  have hlive : v = usedBytes pre + usedBytes post := by
    have hlt := h.rep.shape.usedBytes_lt
    rw [usedBytes_middle hfree] at hlt
    rw [← hv, h.live, h.rep.size b hmem, usedBytes_middle hfree]
    omega
  obtain ⟨s', bs', hinsert, hins⟩ :=
    Rep.insert (h.rep.setLive v) hfree h.coalesced
  have hafter : usedBlocks bs' = usedBlocks pre ++ usedBlocks post := by
    rw [hins.used, usedBlocks_append]
  refine ⟨s', bs', ?_, ⟨hins.rep, hins.coalesced, ?_⟩, ?_, hins.untouched⟩
  · rw [exyFree, if_neg hne, if_neg hin]
    simp only [hblk, hflag, hv, hinsert]
    rfl
  · rw [hins.live, usedBytes, hafter, List.map_append, List.sum_append]
    exact hlive
  · intro d
    rw [hbefore, hafter]
    constructor
    · intro hd
      refine ⟨((List.sublist_cons_self ..).append_left _).subset hd, fun heq => hnot (heq ▸ hd)⟩
    · intro hd
      simpa [hd.2] using hd.1

/-! ## The effect of a call -/

/-- What a call does to the blocks in use: one may be given back, one may be new,
and the others hold what they held. -/
structure Effect (s : State) (bs : List Block) (gone new : Option Block) (s' : State)
    (bs' : List Block) : Prop where
  intact : Intact s' bs'
  used : ∀ d, d ∈ usedBlocks bs' ↔ some d = new ∨ d ∈ usedBlocks bs ∧ some d ≠ gone
  untouched : ∀ d ∈ usedBlocks bs, some d ≠ gone → ∀ a, d.Owns a → s'.mem a = s.mem a

theorem Keeps.effect (h : Keeps s bs s' bs') : Effect s bs none none s' bs' :=
  ⟨h.intact, fun d => by simp [h.used], fun d hd _ => h.untouched d hd⟩

theorem Allocates.effect (h : Allocates s bs s' bs' c) : Effect s bs none (some c) s' bs' :=
  ⟨h.intact, fun d => by simp [h.used], fun d hd _ => h.untouched d hd⟩

theorem Frees.effect (h : Frees s bs s' bs' b) : Effect s bs (some b) none s' bs' where
  intact := h.intact
  used d := by simp [h.used]
  untouched d hd hne := h.untouched d ((h.used d).mpr ⟨hd, fun heq => hne (congrArg some heq)⟩)

theorem Intact.writeLoop (h : Intact s bs) (hc : c ∈ bs) (val : State → Nat → Option (BitVec 8))
    {n : Nat} (hn : n ≤ c.size) (hval : ∀ m k, k < n → (val (s.setMem m) k).isSome) :
    ∃ m, writeLoop val c.payload n 0 s = (true, s.setMem m) ∧ Intact (s.setMem m) bs ∧
      (∀ d ∈ bs, d ≠ c → ∀ a, d.Owns a → m a = s.mem a) ∧
      ∀ k < n, ∃ m', val (s.setMem m') k = some (m (c.payload + k)) := by
  have hbounds := h.rep.shape.bounds hc
  obtain ⟨m, hm, hframe, hwrote⟩ := writeLoop_spec (s := s) (n := n) (i := 0) val c.payload
    (fun k _ hk => by simp only [State.Mapped, Block.payload]; omega)
    (fun m k _ hk => hval m k (by omega))
  have hout : ∀ a, ¬ c.Owns a → m a = s.mem a := fun a ha =>
    hframe a (by simp only [Block.Owns] at ha; omega)
  refine ⟨m, hm, h.writePayload hc hout, fun d hd hne a ha => hout a fun hca => ?_,
    fun k hk => hwrote k (Nat.zero_le k) (by omega)⟩
  exact hne (h.rep.shape.owns_inj hd hc ha hca)

theorem Allocates.mem (h : Allocates s bs s' bs' c) : c ∈ bs' :=
  usedBlocks_sub ((h.used c).mpr (.inl rfl))

theorem Allocates.write (h : Allocates s bs s' bs' c) {m : Bytes} (hm : Intact (s'.setMem m) bs')
    (hframe : ∀ d ∈ bs', d ≠ c → ∀ a, d.Owns a → m a = s'.mem a) :
    Allocates s bs (s'.setMem m) bs' c where
  intact := hm
  used := h.used
  fresh := h.fresh
  untouched d hd a ha := by
    have hne : d ≠ c := fun heq => h.fresh (heq ▸ hd)
    have hmem : d ∈ bs' := usedBlocks_sub ((h.used d).mpr (.inr hd))
    exact (hframe d hmem hne a ha).trans (h.untouched d hd a ha)

/-- What comes of a call for `size` bytes: it returns null or a block that is new and large
enough, and may give one back. -/
inductive Returns (s : State) (bs : List Block) (size : Nat) : Outcome → Option Block → Option Block → Prop
  | null {gone : Option Block} {s' : State} {bs' : List Block} :
      Effect s bs gone none s' bs' → Returns s bs size (.returned 0 s') gone none
  | block {gone : Option Block} {c : Block} {s' : State} {bs' : List Block} :
      Effect s bs gone (some c) s' bs' → payloadFor size ≤ c.size →
      Returns s bs size (.returned c.payload s') gone (some c)

theorem Mallocs.returns {size p : Nat} (h : Mallocs s bs size (p, s')) :
    ∃ new, Returns s bs size (.returned p s') none new := by
  cases h with
  | null hkeeps => exact ⟨none, .null hkeeps.effect⟩
  | @block _ _ c halloc hfits => exact ⟨some c, .block halloc.effect hfits⟩

/-- **`exy_zalloc` returns**, if the size can be rounded up. -/
theorem Intact.exyZalloc (h : Intact s bs) (answer : Nat → PageAnswer) {size : Nat}
    (hsize : size + (heapAlign - 1) < 2 ^ 64) :
    ∃ p s', s.exyZalloc answer size = .returned p s' ∧ Mallocs s bs size (p, s') ∧
      (p ≠ 0 → ∀ i < size, s'.mem (p + i) = 0) := by
  obtain ⟨r, hr, hmalloc⟩ := h.exyMalloc answer size
  rw [State.exyZalloc, hr]
  cases hmalloc with
  | null hkeeps => exact ⟨0, _, rfl, .null hkeeps, fun h0 => absurd rfl h0⟩
  | @block s' bs' c halloc hfits =>
    obtain ⟨m, hm, hintact, hframe, hzero⟩ := halloc.intact.writeLoop halloc.mem
      (fun _ _ => some 0) (Nat.le_trans (le_payloadFor hsize) hfits) (fun _ _ _ => rfl)
    simp only [if_neg c.payload_ne_zero, zeroBytes, hm, if_true]
    refine ⟨_, _, rfl, .block (halloc.write hintact hframe) hfits, fun _ i hi => ?_⟩
    obtain ⟨m', hi'⟩ := hzero i hi
    exact (Option.some.inj hi').symm

theorem Allocates.frees {s1 s2 : State} {bs1 bs2 : List Block} (ha : Allocates s bs s1 bs1 c)
    (hb : b ∈ usedBlocks bs) (hf : Frees s1 bs1 s2 bs2 b) : Effect s bs (some b) (some c) s2 bs2 where
  intact := hf.intact
  used d := by
    have hcb : c ≠ b := fun heq => ha.fresh (heq ▸ hb)
    simp only [hf.used, ha.used, Option.some.injEq, ne_eq]
    constructor
    · intro ⟨hd, hne⟩
      exact hd.imp id fun hd => ⟨hd, hne⟩
    · intro hd
      rcases hd with heq | ⟨hd, hne⟩
      · exact ⟨.inl heq, fun h' => hcb (heq ▸ h')⟩
      · exact ⟨.inr hd, hne⟩
  untouched d hd hne a ha' := by
    have hne' : d ≠ b := fun heq => hne (congrArg some heq)
    have hd1 : d ∈ usedBlocks bs1 := (ha.used d).mpr (.inr hd)
    exact (hf.untouched d ((hf.used d).mpr ⟨hd1, hne'⟩) a ha').trans (ha.untouched d hd a ha')

/-- **`exy_realloc` of a used block returns**: the block as it is, null with the
block kept, or a new block in its place. -/
theorem Intact.exyRealloc (h : Intact s bs) (hb : b ∈ usedBlocks bs) (answer : Nat → PageAnswer)
    {newSize : Nat} (hnew : newSize ≠ 0) :
    (payloadFor newSize ≤ b.size ∧ s.exyRealloc answer b.payload newSize = .returned b.payload s) ∨
      ∃ new, Returns s bs newSize (s.exyRealloc answer b.payload newSize) (new.map fun _ => b) new := by
  obtain ⟨hne, hin, hblk, hflag⟩ := h.pointer hb
  have hsize := h.rep.size b (usedBlocks_sub hb)
  rw [State.exyRealloc, if_neg hne, if_neg hnew, if_neg hin]
  simp only [hblk, hflag, Bool.false_eq_true, if_false, hsize]
  split
  next hfits => exact .inl ⟨hfits, rfl⟩
  next hgrow =>
    right
    obtain ⟨r, hr, hmalloc⟩ := h.exyMalloc answer newSize
    rw [moveTo, hr]
    cases hmalloc with
    | null hkeeps => exact ⟨none, .null hkeeps.effect⟩
    | @block s1 bs1 c halloc hfits =>
      have hb1 : b ∈ usedBlocks bs1 := (halloc.used b).mpr (.inr hb)
      have hbounds := halloc.intact.rep.shape.bounds (usedBlocks_sub hb1)
      obtain ⟨m, hm, hintact, hframe, _⟩ := halloc.intact.writeLoop halloc.mem
        (fun s i => if s.Mapped (b.payload + i) then some (s.mem (b.payload + i)) else none)
        (n := b.size) (by omega) fun m k hk => by
          have hmap : (s1.setMem m).Mapped (b.payload + k) := by
            simp only [State.Mapped, setMem, Block.payload]
            omega
          simp [hmap]
      obtain ⟨s2, bs2, hfree, hfrees⟩ := hintact.exyFree hb1
      refine ⟨some c, ?_⟩
      simp only [if_neg c.payload_ne_zero, copyBytes, hm, if_true, hfree]
      exact .block ((halloc.write hintact hframe).frees hb hfrees) hfits

/-- **`exy_zalloc` overruns its block** when the rounding wraps: it faults at the
end of the heap, and what it has passed is zero. -/
theorem exyZalloc_overrun {answer : Nat → PageAnswer} {size p : Nat} {s1 : State}
    (hm : s.exyMalloc answer size = some (p, s1)) (hp : p ≠ 0) (hlow : s1.heapStart ≤ p)
    (hle : p ≤ s1.heapEnd) (hsize : s1.heapEnd < p + size) :
    s.exyZalloc answer size =
      .halted .fault (s1.setMem fun a => if p ≤ a ∧ a < s1.heapEnd then 0 else s1.mem a) := by
  have hzero : s1.zeroBytes p size =
      (false, s1.setMem fun a => if p ≤ a ∧ a < s1.heapEnd then 0 else s1.mem a) :=
    writeLoop_fault (i := 0) hlow hle hsize
  rw [exyZalloc, hm]
  simp only [if_neg hp, hzero, Bool.false_eq_true, if_false]

/-- **The condition on the size is exact**: a zeroed allocation whose size wraps
around finds no memory, or takes a block and zeroes everything behind it. -/
theorem Intact.exyZalloc_wraps (h : Intact s bs) (answer : Nat → PageAnswer) {size : Nat}
    (hwrap : 2 ^ 64 ≤ size + (heapAlign - 1)) :
    (∃ s' bs', s.exyZalloc answer size = .returned 0 s' ∧ Keeps s bs s' bs') ∨
      ∃ c s1 bs1, Allocates s bs s1 bs1 c ∧ s.exyZalloc answer size = .halted .fault
        (s1.setMem fun a => if c.payload ≤ a ∧ a < s1.heapEnd then 0 else s1.mem a) := by
  obtain ⟨r, hr, hmalloc⟩ := h.exyMalloc answer size
  cases hmalloc with
  | @null s' bs' hkeeps =>
    exact .inl ⟨s', bs', by rw [State.exyZalloc, hr]; rfl, hkeeps⟩
  | @block s1 bs1 c halloc _ =>
    have hbounds := halloc.intact.rep.shape.bounds halloc.mem
    have hhigh := halloc.intact.rep.shape.high
    simp only [heapMax, heapAlign] at hhigh hwrap
    refine .inr ⟨c, s1, bs1, halloc, exyZalloc_overrun hr c.payload_ne_zero ?_ ?_ ?_⟩
    · rw [Block.payload]
      omega
    · rw [Block.payload]
      omega
    · omega

end Exyde.Heap
