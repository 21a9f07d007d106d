import Exyde.Heap.FreeList

/-! # Taking blocks and growing

`alloc_from_list` takes the front of a free block or all of it; `heap_grow` appends a
block and gives it back to the list. -/

namespace Exyde.Heap

open Exyde.Lib List Option State

variable {s s' : State} {b c : Block} {bs pre post : List Block} {need : Nat}

/-! ## Taking a block -/

theorem Holds.markUsed (h : Holds s (pre ++ b :: post) (freeAddrs pre ++ freeAddrs post)) :
    Becomes s (pre ++ { b with free := false } :: post) (s.markUsed b.addr) := by
  have hw : Writes [b.addr] s (s.markUsed b.addr) := (Writes.refl.set (by simp)).set (by simp)
  have hflag : (s.markUsed b.addr).blockIsFree b.addr = false := by
    rw [State.blockIsFree, State.markUsed, State.get_set_ne (by decide), State.get_set_same]
    exact mark_used _
  obtain ⟨hmark, hun⟩ := h.reflag hw ⟨rfl, rfl, rfl⟩ (by simp [State.markUsed]) hflag
  refine ⟨?_, hun, rfl⟩
  rw [Rep, freeAddrs_append, freeAddrs_cons_used rfl]
  exact hmark

theorem Rep.around (h : Rep s (pre ++ b :: post)) (hb : b.free = true) :
    Holds s (pre ++ b :: post) (freeAddrs pre ++ b.addr :: freeAddrs post) := by
  rw [← freeAddrs_cons_free hb, ← freeAddrs_append]
  exact h

theorem Rep.takeWhole (h : Rep s (pre ++ b :: post)) (hb : b.free = true) :
    Becomes s (pre ++ { b with free := false } :: post)
      ((s.link ((freeAddrs pre).getLastD 0) (s.get b.addr .nextFree)).markUsed b.addr) := by
  have hrep := h.around hb
  have hamong := h.shape.among
  rw [freeAddrs_append, freeAddrs_cons_free hb] at hamong
  have hlink := hrep.link (hamong.sublist ((sublist_cons_self ..).append_left _))
    (heapBlock.get_lt ..) hrep.list.behind
  have hused := hlink.markUsed
  refine ⟨hused.rep, ?_, by simpa using hused.live⟩
  exact Untouched.trans (hused.rep.shape.untouched_link last_free_mem _) hused.untouched

/-- The block behind the first `need` bytes of a block's payload. -/
def rear (b : Block) (need : Nat) : Block :=
  ⟨b.addr + heapHeader + need, b.size - need - heapHeader, true⟩

theorem Shape.split {lo hi : Nat} (h : Shape lo hi (pre ++ b :: post))
    (hroom : heapHeader + heapMinPayload ≤ b.size - need) (halign : heapAlign ∣ need)
    (hpos : 0 < need) : Shape lo hi (pre ++ { b with size := need } :: rear b need :: post) := by
  have hsize := h.sizes b (by simp)
  simp only [heapHeader, heapMinPayload, heapAlign] at hroom halign hsize
  refine Shape.replace [] [{ b with size := need }, rear b need] h ⟨rfl, ?_, ?_⟩ ?_
  · simp only [rear, Block.extent]
    omega
  · simp only [Tiles, rear, Block.extent, heapHeader, map_nil, sum_nil]
    omega
  · intro c hc
    simp only [mem_cons, not_mem_nil, or_false] at hc
    rcases hc with rfl | rfl
    · exact ⟨halign, hpos⟩
    · simp only [rear, heapHeader, heapAlign]
      omega

theorem splitOff_get {x y : Nat} (hy : y = x + heapHeader + need) (hsep : heapBlock.Sep y x)
    (hlt : s.get x .size < 2 ^ 64) (hneed : need < 2 ^ 64) :
    (s.splitOff x need).get x .size = need ∧
    (∀ f, f ≠ .size → (s.splitOff x need).get x f = s.get x f) ∧
    (s.splitOff x need).get y .size = s.get x .size - need - heapHeader ∧
    (s.splitOff x need).get y .flags = blkFree ∧
    (s.splitOff x need).get y .nextFree = s.get x .nextFree := by
  have hne : y ≠ x := by
    rw [hy, heapHeader]
    omega
  have hsep' : heapBlock.Sep x y := by
    rcases hsep with heq | h1 | h2
    · exact .inl heq.symm
    · exact .inr (.inr h1)
    · exact .inr (.inl h2)
  simp only [splitOff, ← hy]
  refine ⟨get_set_word hneed (by decide), fun f hf => ?_, ?_, ?_, ?_⟩
  · rw [get_set_ne hf, get_set_addr hsep' hne.symm,
      get_set_addr hsep' hne.symm, get_set_addr hsep' hne.symm]
  · rw [get_set_addr hsep hne, get_set_ne (by decide), get_set_ne (by decide),
      get_set_word (by omega) (by decide)]
  · rw [get_set_addr hsep hne, get_set_ne (by decide), get_set_same]
    decide
  · rw [get_set_addr hsep hne, get_set_addr hsep' hne.symm,
      get_set_addr hsep' hne.symm]
    exact get_set_word (heapBlock.get_lt ..) (by decide)

theorem Rep.splitOff (h : Rep s (pre ++ b :: post)) (hb : b.free = true) (hneed : need ≤ b.size)
    (hshape : Shape s.heapStart s.heapEnd (pre ++ { b with size := need } :: rear b need :: post)) :
    Holds (s.splitOff b.addr need) (pre ++ { b with size := need } :: rear b need :: post)
        (freeAddrs pre ++ b.addr :: freeAddrs post) ∧
      Writes [b.addr, (rear b need).addr] s (s.splitOff b.addr need) ∧
      (s.splitOff b.addr need).get (rear b need).addr .nextFree =
        (s.splitOff b.addr need).get b.addr .nextFree := by
  have hbm : b ∈ pre ++ b :: post := by simp
  have hsize := h.size b hbm
  have hend := h.shape.end_lt hbm
  have hw : Writes [b.addr, (rear b need).addr] s (s.splitOff b.addr need) :=
    (((Writes.refl.set (by simp [rear])).set (by simp [rear])).set (by simp [rear])).set (by simp)
  obtain ⟨r, hr⟩ : ∃ r, rear b need = r := ⟨_, rfl⟩
  obtain ⟨b1, hb1⟩ : ∃ b1 : Block, { b with size := need } = b1 := ⟨_, rfl⟩
  have hbaddr : b1.addr = b.addr := by rw [← hb1]
  rw [hr] at hw ⊢
  rw [hb1] at hshape ⊢
  rw [hr] at hshape
  have hb1m : b1 ∈ pre ++ b1 :: r :: post := by simp
  have hrm : r ∈ pre ++ b1 :: r :: post := by simp
  have hsep : heapBlock.Sep r.addr b.addr := hbaddr ▸ hshape.sep hrm hb1m
  have hat : r.addr = b.addr + heapHeader + need := by rw [← hr, rear]
  obtain ⟨hx, hxf, hy, hyf, hyn⟩ := splitOff_get (s := s) hat hsep (by omega) (by omega)
  have hcases : ∀ c ∈ pre ++ b1 :: r :: post, c.addr ∈ [b.addr, r.addr] → c = b1 ∨ c = r := by
    intro c hc hmem
    rcases mem_pair.mp hmem with heq | heq
    · exact .inl (hshape.addr_inj hc hb1m (heq.trans hbaddr.symm))
    · exact .inr (hshape.addr_inj hc hrm heq)
  refine ⟨h.update hw hshape ?_ ?_ ?_ ?_ ?_, hw, hyn.trans (hxf .nextFree (by decide)).symm⟩
  · intro x hmem
    rcases mem_pair.mp hmem with heq | heq
    · exact ⟨b1, hb1m, hbaddr.trans heq.symm⟩
    · exact ⟨r, hrm, heq.symm⟩
  · intro c hc hnot
    simp only [mem_append, mem_cons] at hc ⊢
    rcases hc with hc | heq | heq | hc
    · exact .inl hc
    · exact absurd (by simp [heq, hbaddr]) hnot
    · exact absurd (by simp [heq]) hnot
    · exact .inr (.inr hc)
  · intro c hc hmem
    rcases hcases c hc hmem with heq | heq
    · rw [heq, hbaddr, hx, ← hb1]
    · rw [heq, hy, hsize, ← hr, rear]
  · intro c hc hmem
    rcases hcases c hc hmem with heq | heq
    · rw [heq, blockIsFree, hbaddr, hxf .flags (by decide), ← hb1]
      exact h.flag b hbm
    · rw [heq, blockIsFree, hyf, ← hr]
      rfl
  · -- the free blocks keep their links
    refine (h.around hb).list.congr fun a ha => ?_
    by_cases hab : a = b.addr
    · rw [hab]
      exact hxf .nextFree (by decide)
    have hrest : a ∈ freeAddrs pre ++ freeAddrs post := by simpa [hab] using ha
    have hcut : Shape s.heapStart s.heapEnd ((pre ++ [b1]) ++ r :: post) := by simpa using hshape
    obtain ⟨hneb, hsepb⟩ := h.shape.not_at hrest
    have hrest' : a ∈ freeAddrs (pre ++ [b1]) ++ freeAddrs post := by
      rw [freeAddrs_append]
      exact ((sublist_append_left ..).append_right _).subset hrest
    obtain ⟨hner, hsepr⟩ := hcut.not_at hrest'
    refine hw.get (by simp [hneb, hner]) fun x hmem => ?_
    rcases mem_pair.mp hmem with heq | heq
    · exact heq ▸ hsepb
    · exact heq ▸ hsepr

theorem Rep.takeFront (h : Rep s (pre ++ b :: post)) (hb : b.free = true)
    (hroom : heapHeader + heapMinPayload ≤ b.size - need) (halign : heapAlign ∣ need)
    (hpos : 0 < need) :
    Becomes s (pre ++ { b with size := need, free := false } :: rear b need :: post)
      (((s.splitOff b.addr need).link ((freeAddrs pre).getLastD 0)
        (rear b need).addr).markUsed b.addr) := by
  have hshape := h.shape.split hroom halign hpos
  obtain ⟨hsplit, hw, hnext⟩ := h.splitOff hb (by simp only [heapHeader] at hroom; omega) hshape
  have hrm : rear b need ∈ pre ++ { b with size := need } :: rear b need :: post := by simp
  have hamong : Among (pre ++ { b with size := need } :: rear b need :: post)
      (freeAddrs pre ++ (rear b need).addr :: freeAddrs post) := by
    have := hshape.among
    rw [freeAddrs_append, freeAddrs_cons_free (b := { b with size := need }) hb,
      freeAddrs_cons_free (b := rear b need) rfl] at this
    exact this.sublist ((sublist_cons_self ..).append_left _)
  have hlink := hsplit.link hamong (hshape.addr_lt hrm) (.cons (hshape.addr_pos hrm)
    (by rw [hnext]; exact hsplit.list.behind))
  have hused := hlink.markUsed
  refine ⟨hused.rep, ?_, ?_⟩
  · have hheaders := hw.untouched hused.rep.shape fun x hx => ?_
    · exact (hheaders.trans (hused.rep.shape.untouched_link last_free_mem _)).trans hused.untouched
    · rcases mem_pair.mp hx with heq | heq
      · exact ⟨_, mem_append_right _ (mem_cons_self ..), heq.symm⟩
      · exact ⟨rear b need, by simp, heq.symm⟩
  · rw [hused.live, link_livePayload]
    rfl

/-! ## `alloc_from_list` -/

theorem Holds.setLive {l : List Nat} (h : Holds s bs l) (v : Nat) :
    Holds { s with livePayload := v } bs l := ⟨h.shape, h.size, h.flag, h.list⟩

theorem Intact.length_lt_fuel (h : Intact s bs) : bs.length < s.fuel := by
  have := h.rep.shape.length_le
  rw [fuel]
  omega

/-- A block is taken: `c` is in use now, and no other block in use is touched. -/
structure Allocates (s : State) (bs : List Block) (s' : State) (bs' : List Block) (c : Block) :
    Prop where
  intact : Intact s' bs'
  used : ∀ d, d ∈ usedBlocks bs' ↔ d = c ∨ d ∈ usedBlocks bs
  fresh : c ∉ usedBlocks bs
  untouched : Untouched (usedBlocks bs) s s'

theorem usedBytes_middle (hc : c.free = false) :
    usedBytes (pre ++ c :: post) = usedBytes pre + usedBytes post + c.size := by
  simp only [usedBytes, usedBlocks_append, usedBlocks_cons_used hc, map_append, map_cons,
    sum_append, sum_cons]
  omega

theorem usedBytes_of_free (hb : b.free = true) :
    usedBytes (pre ++ b :: post) = usedBytes pre + usedBytes post := by
  simp only [usedBytes, usedBlocks_append, usedBlocks_cons_free hb, map_append, sum_append]

theorem Becomes.allocates (h : Intact s (pre ++ b :: post)) (hb : b.free = true) (hc : c.free = false)
    (hbec : Becomes s (pre ++ c :: bs) s') (hused : usedBlocks bs = usedBlocks post)
    (hco : Coalesced (pre ++ c :: bs)) :
    Allocates s (pre ++ b :: post)
      { s' with livePayload := (s'.livePayload + s'.get c.addr .size) % 2 ^ 64 } (pre ++ c :: bs) c := by
  have hbefore : usedBlocks (pre ++ b :: post) = usedBlocks pre ++ usedBlocks post := by
    rw [usedBlocks_append, usedBlocks_cons_free hb]
  have hafter : usedBlocks (pre ++ c :: bs) = usedBlocks pre ++ c :: usedBlocks post := by
    rw [usedBlocks_append, usedBlocks_cons_used hc, hused]
  refine ⟨⟨hbec.rep.setLive _, hco, ?_⟩, ?_, ?_, ?_⟩
  · have hlt := hbec.rep.shape.usedBytes_lt
    have hlive : s'.livePayload = usedBytes pre + usedBytes bs := by
      rw [hbec.live, h.live, usedBytes_of_free hb, usedBytes, usedBytes, usedBytes, hused]
    rw [usedBytes_middle hc] at hlt ⊢
    rw [hbec.rep.size c (by simp), hlive]
    exact Nat.mod_eq_of_lt (by omega)
  · intro d
    rw [hbefore, hafter]
    simp only [mem_append, mem_cons]
    exact or_left_comm
  · have hnodup : (usedBlocks (pre ++ c :: bs)).Nodup := hbec.rep.shape.nodup.filter _
    rw [hafter] at hnodup
    rw [hbefore]
    exact (nodup_cons.mp (nodup_middle.mp hnodup)).1
  · intro d hd a ha
    have hd' : d ∈ usedBlocks (pre ++ c :: bs) := by
      rw [hbefore] at hd
      rw [hafter]
      exact ((sublist_cons_self ..).append_left _).subset hd
    exact hbec.untouched d (usedBlocks_sub hd') a ha

theorem Intact.take (h : Intact s (pre ++ b :: post)) (hb : b.free = true) (hneed : need ≤ b.size)
    (halign : heapAlign ∣ need) (hpos : 0 < need) :
    ∃ c bs', c.addr = b.addr ∧ need ≤ c.size ∧
      Allocates s (pre ++ b :: post) (s.take ((freeAddrs pre).getLastD 0) b.addr need) bs' c := by
  have hco := h.coalesced
  have hsize := h.rep.size b (by simp)
  by_cases hroom : heapHeader + heapMinPayload ≤ b.size - need
  · have hbec := h.rep.takeFront hb hroom halign hpos
    have hfree : (rear b need).free = true := rfl
    have hco' : Coalesced (pre ++ { b with size := need, free := false } :: rear b need :: post) :=
      hco.splice ((hco.right.head fun _ => hb).cons_used rfl) fun hf => by cases hf
    have halloc := hbec.allocates h hb rfl (usedBlocks_cons_free hfree) hco'
    rw [State.take, State.carve, hsize, if_pos hroom]
    exact ⟨{ b with size := need, free := false }, _, rfl, Nat.le_refl _, halloc⟩
  · have hbec := h.rep.takeWhole hb
    have hco' : Coalesced (pre ++ { b with free := false } :: post) :=
      hco.splice (hco.right.tail.cons_used rfl) fun hf => by cases hf
    have halloc := hbec.allocates h hb rfl rfl hco'
    rw [State.take, State.carve, hsize, if_neg hroom]
    exact ⟨{ b with free := false }, _, rfl, hneed, halloc⟩

/-- **`alloc_from_list` returns**: null and nothing is changed, or a block that is
large enough. -/
theorem Intact.allocFromList (h : Intact s bs) (halign : heapAlign ∣ need) (hpos : 0 < need) :
    s.allocFromList need = some (0, s) ∨
      ∃ c s' bs', s.allocFromList need = some (c.payload, s') ∧ need ≤ c.size ∧
        Allocates s bs s' bs' c := by
  rw [State.allocFromList]
  rcases firstFit_eq need 0 h.rep.list h.rep.size h.length_lt_fuel with ⟨p, hp⟩ |
    ⟨pre, b, post, heq, hb, hn, hp⟩
  · left
    rw [hp]
    rfl
  · right
    subst heq
    obtain ⟨c, bs', haddr, hfits, halloc⟩ := h.take hb hn halign hpos
    refine ⟨c, _, bs', ?_, hfits, halloc⟩
    rw [hp, map_some]
    simp only [if_neg (h.rep.shape.addr_pos (b := b) (by simp)), Block.payload, haddr]

/-! ## Growing -/

/-- The first `k` pages behind `base` are below the limit of the heap, and can be had. -/
def Available (answer : Nat → PageAnswer) (base k : Nat) : Prop :=
  base + k * pageSize ≤ heapMax ∧ ∀ i < k, answer i = .mapped

/-- **The loop of `heap_grow`** maps the pages asked for, or all that can be had. -/
theorem mapPages_spec {answer : Nat → PageAnswer} {base n i : Nat} (h : Available answer base i) :
    Available answer base (mapPages answer base n i) ∧ (mapPages answer base n i = i + n ∨
      ¬ Available answer base (mapPages answer base n i + 1)) := by
  induction n generalizing i with
  | zero => exact ⟨h, .inl rfl⟩
  | succ n ih =>
    have hlast : Available answer base (i + 1) ↔
        ¬ heapMax < base + i * pageSize + pageSize ∧ answer i = .mapped := by
      rw [Available, Nat.succ_mul, ← Nat.add_assoc, Nat.forall_lt_succ_right, Nat.not_lt]
      exact ⟨fun hmore => ⟨hmore.1, hmore.2.2⟩, fun hmore => ⟨hmore.1, h.2, hmore.2⟩⟩
    rw [mapPages]
    split
    next hfull => exact ⟨h, .inr fun hmore => (hlast.mp hmore).1 hfull⟩
    next hroom =>
      cases hi : answer i with
      | mapped =>
        rw [show i + (n + 1) = i + 1 + n by omega]
        exact ih (hlast.mpr ⟨hroom, hi⟩)
      | noPage | notMapped => exact ⟨h, .inr fun hmore => by simp [hi] at hlast; exact hlast hmore⟩

def newBlock (s : State) (mapped : Nat) : Block :=
  ⟨s.heapEnd, mapped * pageSize - heapHeader, false⟩

theorem Shape.append {lo hi : Nat} (h : Shape lo hi bs) {mapped : Nat} (hpos : 0 < mapped)
    (hmax : hi + mapped * pageSize ≤ heapMax) :
    Shape lo (hi + mapped * pageSize) (bs ++ [⟨hi, mapped * pageSize - heapHeader, false⟩]) where
  tiles := by
    refine tiles_append.mpr ⟨hi, h.tiles, rfl, ?_⟩
    simp only [Tiles, Block.extent, heapHeader, pageSize]
    omega
  sizes b hb := by
    rcases mem_append.mp hb with hb | hb
    · exact h.sizes b hb
    · rw [mem_singleton.mp hb]
      simp only [heapAlign, heapHeader, pageSize]
      omega
  low := h.low
  high := hmax

theorem Rep.addPages (h : Rep s bs) {mapped : Nat} (hpos : 0 < mapped)
    (hmax : s.heapEnd + mapped * pageSize ≤ heapMax) :
    Becomes s (bs ++ [newBlock s mapped]) (s.addPages mapped) := by
  have hshape : Shape s.heapStart (s.heapEnd + mapped * pageSize) (bs ++ [newBlock s mapped]) :=
    h.shape.append hpos hmax
  have hw : Writes [s.heapEnd] s (s.addPages mapped) :=
    Writes.set (Writes.set (Writes.set (fun _ _ => rfl) (by simp)) (by simp)) (by simp)
  obtain ⟨n, hn⟩ : ∃ n, newBlock s mapped = n := ⟨_, rfl⟩
  have haddr : n.addr = s.heapEnd := by rw [← hn, newBlock]
  have hfree : n.free = false := by rw [← hn, newBlock]
  have hsize : n.size = mapped * pageSize - heapHeader := by rw [← hn, newBlock]
  rw [hn] at hshape ⊢
  have hmem : n ∈ bs ++ [n] := by simp
  have hat : ∀ c ∈ bs ++ [n], c.addr ∈ [s.heapEnd] → c = n := fun c hc hx =>
    hshape.addr_inj hc hmem ((mem_singleton.mp hx).trans haddr.symm)
  have hxs : ∀ x ∈ [s.heapEnd], ∃ c ∈ bs ++ [n], c.addr = x := fun x hx =>
    ⟨n, hmem, haddr.trans (mem_singleton.mp hx).symm⟩
  refine ⟨?_, hw.untouched hshape hxs, rfl⟩
  rw [Rep, freeAddrs_append, freeAddrs_cons_used hfree]
  refine h.update hw hshape hxs ?_ ?_ ?_ ?_
  · intro c hc hx
    rcases mem_append.mp hc with hc | hc
    · exact hc
    · exact absurd (by rw [mem_singleton.mp hc, haddr]; simp) hx
  · intro c hc hx
    have hlt := hshape.end_lt hmem
    rw [hat c hc hx, haddr, State.addPages, State.get_set_ne (by decide),
      get_set_ne (by decide), get_set_word (by omega) (by decide), hsize]
  · intro c hc hx
    rw [hat c hc hx, haddr, hfree, State.blockIsFree, State.addPages,
      get_set_ne (by decide), get_set_same]
    rfl
  · rw [freeAddrs_nil, append_nil]
    refine State.Walk.congr h.list fun a ha => ?_
    have hw' : Writes [n.addr] s (s.addPages mapped) := haddr ▸ hw
    exact hw'.get_around hshape (mem_append_left _ ha)

structure Keeps (s : State) (bs : List Block) (s' : State) (bs' : List Block) : Prop where
  intact : Intact s' bs'
  used : usedBlocks bs' = usedBlocks bs
  untouched : Untouched (usedBlocks bs) s s'

theorem Intact.keeps (h : Intact s bs) : Keeps s bs s bs := ⟨h, rfl, Untouched.refl _ _⟩

theorem freeListInsert_heapEnd {blk : Nat} (h : s.freeListInsert blk = some s') :
    s'.heapEnd = s.heapEnd := by
  obtain ⟨r, _, rfl⟩ := map_eq_some_iff.mp h
  have habsorb : ∀ (c : Prop) [Decidable c] (t : State) (x y : Nat),
      (if c then t.absorb x y else t).heapEnd = t.heapEnd := by
    intro c _ t x y
    split <;> rfl
  simp only [insertAt, habsorb, link_heapEnd]
  rfl

/-- **`heap_grow` returns**, and only free blocks are changed. A new block at the end of the
heap costs a header, unless the last block is free and takes it in. -/
theorem Intact.heapGrow (h : Intact s bs) (answer : Nat → PageAnswer) (need : Nat) :
    ∃ m s' bs', (Available answer s.heapEnd m ∧ (m = pagesFor need ∨ ¬ Available answer s.heapEnd (m + 1))) ∧
      s.heapGrow answer need = some (decide (m ≠ 0), s') ∧ Keeps s bs s' bs' ∧
      (m ≠ 0 → freeBytes bs' + (if lastFree bs then 0 else heapHeader) = freeBytes bs + m * pageSize) := by
  obtain ⟨m, hm⟩ : ∃ n, mapPages answer s.heapEnd (pagesFor need) 0 = n := ⟨_, rfl⟩
  have hnone : Available answer s.heapEnd 0 := ⟨by simpa using h.rep.shape.high, by simp⟩
  have hpages := mapPages_spec (n := pagesFor need) hnone
  rw [Nat.zero_add, hm] at hpages
  simp only [State.heapGrow, hm]
  split
  next h0 => exact ⟨m, s, bs, hpages, by simp [h0], h.keeps, fun hne => absurd h0 hne⟩
  next hne =>
    have hadd := h.rep.addPages (Nat.pos_of_ne_zero hne) hpages.1.1
    obtain ⟨s', bs', hinsert, hins⟩ := hadd.rep.insert rfl (h.coalesced.snoc_used rfl)
    have hused : usedBlocks bs' = usedBlocks bs := by
      rw [hins.used, append_nil]
    refine ⟨m, s', bs', hpages, ?_, ⟨⟨hins.rep, hins.coalesced, ?_⟩, hused, ?_⟩, fun _ => ?_⟩
    · rw [show s.heapEnd = (newBlock s m).addr from rfl, hinsert, map_some, decide_eq_true hne]
    · rw [hins.live, hadd.live, h.live, usedBytes, usedBytes, hused]
    · refine Untouched.trans (hadd.untouched.mono fun b hb => ?_) (hused ▸ hins.untouched)
      exact mem_append_left _ (usedBlocks_sub hb)
    · have hend : s'.heapEnd = s.heapEnd + m * pageSize := freeListInsert_heapEnd hinsert
      have hbefore := h.rep.shape.total
      have hafter := hins.rep.shape.total
      have hlen := hins.length
      rw [hins.rep.shape.low, hend, usedBytes, hused] at hafter
      rw [h.rep.shape.low, usedBytes] at hbefore
      have hle := h.rep.shape.tiles.le
      rw [h.rep.shape.low] at hle
      simp only [heapHeader] at hbefore hafter ⊢
      cases hf : lastFree bs <;> simp [hf, firstFree] at hlen ⊢ <;> omega

/-! ## `heap_free_bytes` -/

theorem sumFree_eq {n cur sum : Nat} (hw : s.Walk cur (freeAddrs bs) 0)
    (hsize : ∀ b ∈ bs, s.get b.addr .size = b.size) (hn : bs.length < n)
    (hlt : sum + freeBytes bs < 2 ^ 64) : s.sumFree n cur sum = some (sum + freeBytes bs) := by
  obtain ⟨n, rfl⟩ : ∃ k, n = k + 1 := ⟨n - 1, by omega⟩
  induction bs generalizing n cur sum with
  | nil =>
    have hcur : cur = 0 := hw
    rw [sumFree, if_pos hcur]
    rfl
  | cons b bs ih =>
    have hsize' : ∀ b ∈ bs, s.get b.addr .size = b.size := fun b hb =>
      hsize b (mem_cons_of_mem _ hb)
    rw [length_cons] at hn
    cases hb : b.free with
    | false =>
      have hbytes : freeBytes (b :: bs) = freeBytes bs := by simp [freeBytes, freeBlocks, hb]
      rw [freeAddrs_cons_used hb] at hw
      rw [hbytes] at hlt ⊢
      exact ih hw hsize' hlt n (by omega)
    | true =>
      have hbytes : freeBytes (b :: bs) = b.size + freeBytes bs := by
        simp [freeBytes, freeBlocks, hb]
      rw [freeAddrs_cons_free hb] at hw
      obtain ⟨hcur, hne, hrest⟩ := hw
      subst hcur
      obtain ⟨n, rfl⟩ : ∃ k, n = k + 1 := ⟨n - 1, by omega⟩
      rw [hbytes] at hlt ⊢
      rw [sumFree, if_neg hne, hsize b (mem_cons_self ..),
        Nat.mod_eq_of_lt (by omega), ih hrest hsize' (by omega) n (by omega), Nat.add_assoc]

theorem Intact.heapFreeBytes (h : Intact s bs) : s.heapFreeBytes = some (freeBytes bs) := by
  have hlt := h.rep.shape.usedBytes_lt
  rw [State.heapFreeBytes, sumFree_eq h.rep.list h.rep.size h.length_lt_fuel (by omega), Nat.zero_add]

/-! ## `exy_malloc` and `heap_reserve` -/

theorem payloadFor_pos (size : Nat) : 0 < payloadFor size :=
  Nat.lt_of_lt_of_le (by decide) (Nat.le_max_right ..)

theorem payloadFor_aligned (size : Nat) : heapAlign ∣ payloadFor size := by
  have hround : heapAlign ∣ roundUp size := Nat.dvd_mul_left ..
  rw [payloadFor]
  rcases Nat.le_total (roundUp size) heapMinPayload with hle | hle
  · rw [Nat.max_eq_right hle]
    decide
  · rw [Nat.max_eq_left hle]
    exact hround

/-- The payload asked for covers the request, unless rounding wraps around. -/
theorem le_payloadFor {size : Nat} (h : size + (heapAlign - 1) < 2 ^ 64) : size ≤ payloadFor size := by
  refine Nat.le_trans ?_ (Nat.le_max_left ..)
  rw [roundUp, Nat.mod_eq_of_lt h]
  simp only [heapAlign]
  omega

theorem Keeps.allocates {s1 s2 : State} {bs1 bs2 : List Block} (h : Keeps s bs s1 bs1)
    (ha : Allocates s1 bs1 s2 bs2 c) : Allocates s bs s2 bs2 c where
  intact := ha.intact
  used d := by rw [ha.used, h.used]
  fresh := h.used ▸ ha.fresh
  untouched := h.untouched.trans (h.used ▸ ha.untouched)

/-- What comes of `exy_malloc`: null, or a block that is large enough. -/
inductive Mallocs (s : State) (bs : List Block) (size : Nat) : Nat × State → Prop
  | null {s' : State} {bs' : List Block} : Keeps s bs s' bs' → Mallocs s bs size (0, s')
  | block {s' : State} {bs' : List Block} {c : Block} : Allocates s bs s' bs' c →
      payloadFor size ≤ c.size → Mallocs s bs size (c.payload, s')

theorem Intact.exyMalloc (h : Intact s bs) (answer : Nat → PageAnswer) (size : Nat) :
    ∃ r, s.exyMalloc answer size = some r ∧ Mallocs s bs size r := by
  rw [State.exyMalloc]
  split
  · exact ⟨_, rfl, .null h.keeps⟩
  have halign := payloadFor_aligned size
  have hpos := payloadFor_pos size
  rcases h.allocFromList halign hpos with hnone | ⟨c, s', bs', hc, hfits, halloc⟩
  · obtain ⟨m, s1, bs1, _, hgrow, hkeeps, _⟩ := h.heapGrow answer (payloadFor size)
    generalize decide (m ≠ 0) = grown at hgrow
    simp only [hnone, hgrow, bind_eq_bind, bind_some, ne_eq, not_true_eq_false,
      if_false]
    cases grown with
    | false => exact ⟨_, rfl, .null hkeeps⟩
    | true =>
      rcases hkeeps.intact.allocFromList halign hpos with hnone' | ⟨c, s2, bs2, hc, hfits, halloc⟩
      · exact ⟨_, hnone', .null hkeeps⟩
      · exact ⟨_, hc, .block (hkeeps.allocates halloc) hfits⟩
  · refine ⟨_, ?_, .block halloc hfits⟩
    simp only [hc, bind_eq_bind, bind_some, if_pos c.payload_ne_zero]
    rfl

theorem Intact.heapReserve_eq (h : Intact s bs) (answer : Nat → PageAnswer) (bytes : Nat) :
    s.heapReserve answer bytes = if bytes ≤ freeBytes bs then some (true, s)
      else s.heapGrow answer (bytes - freeBytes bs) := by
  rw [heapReserve, h.heapFreeBytes]
  by_cases h0 : bytes = 0
  · rw [if_pos h0, if_pos (h0 ▸ Nat.zero_le _)]
  · rw [if_neg h0]
    rfl

theorem Intact.heapReserve (h : Intact s bs) (answer : Nat → PageAnswer) (bytes : Nat) :
    ∃ ok s' bs', s.heapReserve answer bytes = some (ok, s') ∧ Keeps s bs s' bs' := by
  rw [h.heapReserve_eq]
  split
  · exact ⟨true, s, bs, rfl, h.keeps⟩
  · obtain ⟨m, s', bs', _, hgrow, hkeeps, _⟩ := h.heapGrow answer (bytes - freeBytes bs)
    exact ⟨_, s', bs', hgrow, hkeeps⟩

end Exyde.Heap
