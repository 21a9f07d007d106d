import Exyde.Heap.Layout

/-! # The free list

What giving back, taking and growing do to the list of blocks, one lemma for each change
of the links. None of them writes into a payload in use. -/

namespace Exyde.Heap

open Exyde.Lib List Option State

variable {s s' : State} {b c q : Block} {bs cs pre post : List Block}

/-! ## Walking the list -/

section

variable {h t prev cur blk n v : Nat} {l l1 l2 : List Nat}

theorem State.Walk.congr (hw : s.Walk h l t)
    (heq : ∀ a ∈ l, s'.get a .nextFree = s.get a .nextFree) : s'.Walk h l t :=
  Seg.congr hw heq

theorem State.walk_append : s.Walk h (l1 ++ l2) t ↔ ∃ u, s.Walk h l1 u ∧ s.Walk u l2 t := seg_append

theorem State.Walk.cons (hne : h ≠ 0) (hw : s.Walk (s.get h .nextFree) l t) : s.Walk h (h :: l) t :=
  ⟨rfl, hne, hw⟩

theorem State.Walk.behind (hw : s.Walk h (l1 ++ cur :: l2) t) :
    s.Walk (s.get cur .nextFree) l2 t := by
  obtain ⟨u, _, _, _, hback⟩ := walk_append.mp hw
  exact hback

/-- The loop of `free_list_insert` stops between the blocks below `blk` and the others. -/
theorem findSlot_eq (hw : s.Walk cur (l1 ++ l2) 0) (hlow : ∀ a ∈ l1, a < blk)
    (hhigh : ∀ a ∈ l2, blk ≤ a) (hn : l1.length < n) :
    s.findSlot blk n prev cur = some (l1.getLastD prev, l2.headD 0) := by
  induction l1 generalizing n prev cur with
  | nil =>
    obtain ⟨n, rfl⟩ : ∃ k, n = k + 1 := ⟨n - 1, by simp only [length_nil] at hn; omega⟩
    have hcur : cur = l2.headD 0 := Seg.head_eq hw
    have hstop : ¬ (cur ≠ 0 ∧ cur < blk) := by
      cases l2 with
      | nil => exact fun hc => hc.1 hcur
      | cons a l2 =>
        have := hhigh a (mem_cons_self ..)
        rw [hcur]
        simp only [headD_cons]
        omega
    rw [findSlot, if_neg hstop, hcur]
    rfl
  | cons a l1 ih =>
    obtain ⟨n, rfl⟩ : ∃ k, n = k + 1 := ⟨n - 1, by simp only [length_cons] at hn; omega⟩
    obtain ⟨hcur, hne, hrest⟩ := hw
    subst hcur
    rw [findSlot, if_pos ⟨hne, hlow _ (mem_cons_self ..)⟩,
      ih hrest (fun a ha => hlow a (mem_cons_of_mem _ ha))
        (by simp only [length_cons] at hn; omega), getLastD_cons]

/-- The loop of `alloc_from_list` finds nothing, or a free block that is large enough. -/
theorem firstFit_eq (need prev : Nat) (hw : s.Walk cur (freeAddrs bs) 0)
    (hsize : ∀ b ∈ bs, s.get b.addr .size = b.size) (hn : bs.length < n) :
    (∃ p, s.firstFit need n prev cur = some (p, 0)) ∨
      ∃ pre b post, bs = pre ++ b :: post ∧ b.free = true ∧ need ≤ b.size ∧
        s.firstFit need n prev cur = some ((freeAddrs pre).getLastD prev, b.addr) := by
  obtain ⟨n, rfl⟩ : ∃ k, n = k + 1 := ⟨n - 1, by omega⟩
  induction bs generalizing n prev cur with
  | nil =>
    have hcur : cur = 0 := hw
    exact .inl ⟨prev, by rw [firstFit, if_pos (.inl hcur), hcur]⟩
  | cons d bs ih =>
    have hsize' : ∀ b ∈ bs, s.get b.addr .size = b.size := fun b hb =>
      hsize b (mem_cons_of_mem _ hb)
    rw [length_cons] at hn
    cases hd : d.free with
    | false =>
      rw [freeAddrs_cons_used hd] at hw
      rcases ih prev hw hsize' n (by omega) with hnone | ⟨pre, b, post, rfl, hb, hneed, hfit⟩
      · exact .inl hnone
      · exact .inr ⟨d :: pre, b, post, rfl, hb, hneed, by rw [freeAddrs_cons_used hd, hfit]⟩
    | true =>
      rw [freeAddrs_cons_free hd] at hw
      obtain ⟨hcur, hne, hrest⟩ := hw
      subst hcur
      have hdsize := hsize d (mem_cons_self ..)
      by_cases hfits : need ≤ d.size
      · refine .inr ⟨[], d, bs, rfl, hd, hfits, ?_⟩
        rw [firstFit, if_pos (.inr (by rw [hdsize]; exact hfits))]
        rfl
      · obtain ⟨n, rfl⟩ : ∃ k, n = k + 1 := ⟨n - 1, by omega⟩
        rw [firstFit, if_neg (by rw [hdsize]; exact not_or.mpr ⟨hne, hfits⟩)]
        rcases ih d.addr hrest hsize' n (by omega) with hnone | ⟨pre, b, post, rfl, hb, hneed, hfit⟩
        · exact .inl hnone
        · refine .inr ⟨d :: pre, b, post, rfl, hb, hneed, ?_⟩
          rw [freeAddrs_cons_free hd, getLastD_cons, hfit]

theorem State.Walk.link (hw : s.Walk s.freeHead l t) (hnodup : l.Nodup)
    (hsep : ∀ a ∈ l, ∀ c ∈ l, heapBlock.Sep a c) (hv : v < 2 ^ 64) :
    (s.link (l.getLastD 0) v).Walk (s.link (l.getLastD 0) v).freeHead l v := by
  rcases eq_nil_or_concat' l with hnil | ⟨l', p, hsnoc⟩
  · subst hnil
    exact rfl
  subst hsnoc
  have hp : p ∈ l' ++ [p] := by simp
  have hne : p ≠ 0 := by
    obtain ⟨u, _, _, hne, _⟩ := seg_append.mp hw
    exact hne
  rw [getLastD_concat, link, if_neg hne]
  refine Seg.redirect hw (fun a ha => ?_) ?_
  · have hap : a ≠ p := (nodup_append.mp hnodup).2.2 a ha p (by simp)
    exact get_set_addr (hsep a (mem_append_left _ ha) p hp) hap
  · exact get_set_word hv (by decide)

end

/-! ## What is not written -/

theorem Untouched.refl (bs : List Block) (s : State) : Untouched bs s s := fun _ _ _ _ => rfl

theorem Untouched.trans {s1 s2 s3 : State} (h : Untouched bs s1 s2) (h' : Untouched bs s2 s3) :
    Untouched bs s1 s3 := fun b hb a ha => (h' b hb a ha).trans (h b hb a ha)

theorem Untouched.mono (h : Untouched bs s s') (hsub : ∀ b ∈ cs, b ∈ bs) : Untouched cs s s' :=
  fun b hb => h b (hsub b hb)

/-- Of the headers, only those at `xs` are written. -/
def Writes (xs : List Nat) (s s' : State) : Prop :=
  ∀ a, (∀ x ∈ xs, a < x ∨ x + heapBlock.size ≤ a) → s'.mem a = s.mem a

section

variable {xs : List Nat} {x y v lo hi : Nat} {f : Field}

theorem Writes.refl : Writes xs s s := fun _ _ => rfl

theorem Writes.set (h : Writes xs s s') (hx : x ∈ xs) : Writes xs s (s'.set x f v) := fun a ha =>
  (set_mem (ha x hx)).trans (h a ha)

theorem Writes.get (h : Writes xs s s') (hy : y ∉ xs) (hsep : ∀ x ∈ xs, heapBlock.Sep y x) :
    s'.get y f = s.get y f := by
  refine Record.get_congr fun a h1 h2 => h a fun x hx => ?_
  rcases hsep x hx with heq | happart
  · subst heq
    exact absurd hx hy
  · omega

theorem Writes.untouched (h : Writes xs s s') (hshape : Shape lo hi bs)
    (hxs : ∀ x ∈ xs, ∃ c ∈ bs, c.addr = x) : Untouched bs s s' := by
  intro b hb a ha
  refine h a fun x hx => ?_
  obtain ⟨c, hc, rfl⟩ := hxs x hx
  exact hshape.owns_apart hc hb ha

theorem Shape.untouched_link {prev : Nat} (h : Shape lo hi bs)
    (hprev : prev ≠ 0 → ∃ q ∈ bs, q.addr = prev) (v : Nat) : Untouched bs s (s.link prev v) := by
  intro c hc a ha
  refine link_mem fun hne => ?_
  obtain ⟨q, hq, rfl⟩ := hprev hne
  exact h.owns_apart hq hc ha

end

/-! ## Two ways to change the heap -/

section

variable {l l1 l2 l3 : List Nat} {xs : List Nat} {v : Nat}

/-- **Headers are rewritten.** Only the blocks at `xs` have to be looked at. -/
theorem Holds.update (h : Holds s bs l) (hw : Writes xs s s')
    (hshape : Shape s'.heapStart s'.heapEnd cs) (hxs : ∀ x ∈ xs, ∃ c ∈ cs, c.addr = x)
    (hold : ∀ c ∈ cs, c.addr ∉ xs → c ∈ bs)
    (hsize : ∀ c ∈ cs, c.addr ∈ xs → s'.get c.addr .size = c.size)
    (hflag : ∀ c ∈ cs, c.addr ∈ xs → s'.blockIsFree c.addr = c.free)
    (hlist : s'.Walk s'.freeHead l1 0) : Holds s' cs l1 := by
  have hsep : ∀ c ∈ cs, ∀ x ∈ xs, heapBlock.Sep c.addr x := by
    intro c hc x hx
    obtain ⟨d, hd, rfl⟩ := hxs x hx
    exact hshape.sep hc hd
  refine ⟨hshape, fun c hc => ?_, fun c hc => ?_, hlist⟩
  · by_cases hx : c.addr ∈ xs
    · exact hsize c hc hx
    · rw [hw.get hx (hsep c hc)]
      exact h.size c (hold c hc hx)
  · by_cases hx : c.addr ∈ xs
    · exact hflag c hc hx
    · rw [blockIsFree, hw.get hx (hsep c hc)]
      exact h.flag c (hold c hc hx)

/-- **The header of one block is rewritten**; blocks behind it may go. -/
theorem Holds.rewrite {post' : List Block} (h : Holds s (pre ++ b :: post) l)
    (hw : Writes [b.addr] s s') (hshape : Shape s'.heapStart s'.heapEnd (pre ++ c :: post'))
    (hc : c.addr = b.addr) (hpost : ∀ d ∈ post', d ∈ post) (hsize : s'.get b.addr .size = c.size)
    (hflag : s'.blockIsFree b.addr = c.free) (hlist : s'.Walk s'.freeHead l1 0) :
    Holds s' (pre ++ c :: post') l1 := by
  have hmem : c ∈ pre ++ c :: post' := by simp
  have hat : ∀ d ∈ pre ++ c :: post', d.addr ∈ [b.addr] → d = c := fun d hd hx =>
    hshape.addr_inj hd hmem (by rw [hc]; exact mem_singleton.mp hx)
  refine h.update hw hshape ?_ ?_ ?_ ?_ hlist
  · intro x hx
    exact ⟨c, hmem, hc.trans (mem_singleton.mp hx).symm⟩
  · intro d hd hx
    simp only [mem_append, mem_cons] at hd ⊢
    rcases hd with hd | rfl | hd
    · exact .inl hd
    · exact absurd (by rw [hc]; simp) hx
    · exact .inr (.inr (hpost d hd))
  · intro d hd hx
    rw [hat d hd hx, hc]
    exact hsize
  · intro d hd hx
    rw [hat d hd hx, hc]
    exact hflag

structure Among (bs : List Block) (l : List Nat) : Prop where
  nodup : l.Nodup
  mem : ∀ a ∈ l, ∃ c ∈ bs, c.addr = a

theorem Among.sep {lo hi : Nat} (h : Among bs l) (hshape : Shape lo hi bs) {a x : Nat} (ha : a ∈ l)
    (hx : x ∈ l) : heapBlock.Sep a x := by
  obtain ⟨b, hb, rfl⟩ := h.mem a ha
  obtain ⟨c, hc, rfl⟩ := h.mem x hx
  exact hshape.sep hb hc

theorem Among.sublist (h : Among bs l) (hl : l1.Sublist l) : Among bs l1 :=
  ⟨h.nodup.sublist hl, fun a ha => h.mem a (hl.subset ha)⟩

theorem Shape.among {lo hi : Nat} (h : Shape lo hi bs) : Among bs (freeAddrs bs) where
  nodup := h.sorted.imp fun hlt => Nat.ne_of_lt hlt
  mem a ha := by
    obtain ⟨c, hc, _, heq⟩ := mem_freeAddrs.mp ha
    exact ⟨c, hc, heq⟩

theorem getLastD_mem (hne : l.getLastD 0 ≠ 0) : l.getLastD 0 ∈ l := by
  rcases eq_nil_or_concat' l with hnil | ⟨l', p, hsnoc⟩
  · rw [hnil] at hne
    exact absurd rfl hne
  · rw [hsnoc, getLastD_concat]
    simp

/-- **The list is redirected** behind `l1`, to where the list `l3` begins. -/
theorem Holds.link (h : Holds s bs (l1 ++ l2)) (hamong : Among bs (l1 ++ l3)) (hv : v < 2 ^ 64)
    (htail : s.Walk v l3 0) : Holds (s.link (l1.getLastD 0) v) bs (l1 ++ l3) := by
  have hl1 : Among bs l1 := hamong.sublist (sublist_append_left ..)
  have hsep : ∀ c ∈ bs, l1.getLastD 0 ≠ 0 → heapBlock.Sep c.addr (l1.getLastD 0) := by
    intro c hc hne
    obtain ⟨q, hq, heq⟩ := hl1.mem _ (getLastD_mem hne)
    rw [← heq]
    exact h.shape.sep hc hq
  refine ⟨by simpa using h.shape, fun c hc => ?_, fun c hc => ?_, ?_⟩
  · rw [get_link_field (hsep c hc) (by decide)]
    exact h.size c hc
  · rw [blockIsFree, get_link_field (hsep c hc) (by decide)]
    exact h.flag c hc
  · obtain ⟨u, hfront, _⟩ := seg_append.mp h.list
    refine seg_append.mpr ⟨v, ?_, ?_⟩
    · exact State.Walk.link hfront hl1.nodup (fun a ha c hc => hl1.sep h.shape ha hc) hv
    refine State.Walk.congr htail fun a ha => ?_
    have hmem : a ∈ l1 ++ l3 := mem_append_right _ ha
    refine get_link_addr (fun hne => ?_) ?_
    · exact hamong.sep h.shape hmem (mem_append_left _ (getLastD_mem hne))
    · intro heq
      by_cases hne : l1.getLastD 0 = 0
      · obtain ⟨c, hc, hca⟩ := hamong.mem a hmem
        exact h.shape.addr_pos hc (by rw [hca, heq, hne])
      · exact (nodup_append.mp hamong.nodup).2.2 _ (getLastD_mem hne) a ha heq.symm

end

/-! ## Putting a block into the list -/

theorem Shape.not_at {lo hi a : Nat} (h : Shape lo hi (pre ++ b :: post))
    (ha : a ∈ freeAddrs pre ++ freeAddrs post) : a ≠ b.addr ∧ heapBlock.Sep a b.addr := by
  rw [← freeAddrs_append] at ha
  obtain ⟨c, hc, _, rfl⟩ := mem_freeAddrs.mp ha
  simp only [heapBlock, Record.Sep, heapHeader]
  rcases mem_append.mp hc with hc | hc
  · have := h.before hc
    simp only [heapHeader] at this
    omega
  · have := h.behind hc
    simp only [heapHeader] at this
    omega

theorem Writes.get_around {f : Field} (h : Writes [b.addr] s s') {lo hi a : Nat}
    (hshape : Shape lo hi (pre ++ b :: post)) (ha : a ∈ freeAddrs pre ++ freeAddrs post) :
    s'.get a f = s.get a f := by
  obtain ⟨hne, hsep⟩ := hshape.not_at ha
  refine h.get (by simpa using hne) fun x hx => ?_
  rw [mem_singleton.mp hx]
  exact hsep

theorem Shape.addr_lt {lo hi : Nat} (h : Shape lo hi bs) (hb : b ∈ bs) : b.addr < 2 ^ 64 := by
  have := h.end_lt hb
  omega

theorem headD_lt (h : ∀ c ∈ bs, c.addr < 2 ^ 64) : (freeAddrs bs).headD 0 < 2 ^ 64 := by
  cases hl : freeAddrs bs with
  | nil => decide
  | cons a l =>
    obtain ⟨c, hc, _, heq⟩ := mem_freeAddrs.mp (show a ∈ freeAddrs bs by rw [hl]; simp)
    rw [headD_cons, ← heq]
    exact h c hc

theorem last_free_mem (hne : (freeAddrs pre).getLastD 0 ≠ 0) :
    ∃ q ∈ pre ++ post, q.addr = (freeAddrs pre).getLastD 0 := by
  obtain ⟨q, hq, _, heq⟩ := mem_freeAddrs.mp (getLastD_mem hne)
  exact ⟨q, mem_append_left _ hq, heq⟩

/-- The heap is rearranged: it holds `bs` now, and their payloads are what they were. -/
structure Becomes (s : State) (bs : List Block) (s' : State) : Prop where
  rep : Rep s' bs
  untouched : Untouched bs s s'
  live : s'.livePayload = s.livePayload

theorem Holds.reflag {f : Bool} (h : Holds s (pre ++ b :: post) (freeAddrs pre ++ freeAddrs post))
    (hw : Writes [b.addr] s s')
    (hvars : s'.heapStart = s.heapStart ∧ s'.heapEnd = s.heapEnd ∧ s'.freeHead = s.freeHead)
    (hsize : s'.get b.addr .size = s.get b.addr .size) (hflag : s'.blockIsFree b.addr = f) :
    Holds s' (pre ++ { b with free := f } :: post) (freeAddrs pre ++ freeAddrs post) ∧
      Untouched (pre ++ { b with free := f } :: post) s s' := by
  obtain ⟨hstart, hend, hhead⟩ := hvars
  have hshape := h.shape.setFree f
  have hlist := h.list.congr fun a ha => hw.get_around (f := .nextFree) h.shape ha
  rw [← hstart, ← hend] at hshape
  rw [← hhead] at hlist
  refine ⟨h.rewrite hw hshape rfl (fun _ hd => hd) ?_ hflag hlist, ?_⟩
  · rw [hsize]
    exact h.size b (by simp)
  · exact hw.untouched hshape fun x hx =>
      ⟨{ b with free := f }, by simp, (mem_singleton.mp hx).symm⟩

theorem Rep.beside (h : Rep s (pre ++ b :: post)) (hb : b.free = false) :
    Holds s (pre ++ b :: post) (freeAddrs pre ++ freeAddrs post) := by
  rwa [Rep, freeAddrs_append, freeAddrs_cons_used hb] at h

/-- **A used block is linked between its free neighbours.** -/
theorem Rep.attach (h : Rep s (pre ++ b :: post)) (hb : b.free = false) {cur : Nat}
    (hcur : (freeAddrs post).headD 0 = cur) :
    Becomes s (pre ++ { b with free := true } :: post)
      (((s.markFree b.addr).set b.addr .nextFree cur).link ((freeAddrs pre).getLastD 0) b.addr) := by
  have hmem : b ∈ pre ++ b :: post := by simp
  have hw : Writes [b.addr] s ((s.markFree b.addr).set b.addr .nextFree cur) :=
    ((Writes.refl.set (by simp)).set (by simp)).set (by simp)
  have hflag : ((s.markFree b.addr).set b.addr .nextFree cur).blockIsFree b.addr = true := by
    simp only [blockIsFree, markFree, ne_eq, reduceCtorEq, not_false_eq_true,
      get_set_ne, get_set_same]
    exact mark_free _
  obtain ⟨hmark, hheader⟩ := (h.beside hb).reflag hw ⟨rfl, rfl, rfl⟩ (by simp [markFree]) hflag
  obtain ⟨u, _, hback⟩ := walk_append.mp hmark.list
  have hu : u = cur := (Seg.head_eq hback).trans hcur
  subst hu
  have hlt : u < 2 ^ 64 := by
    rw [← hcur]
    exact headD_lt fun c hc => h.shape.addr_lt (by simp [hc])
  refine ⟨?_, hheader.trans (hmark.shape.untouched_link last_free_mem _), by simp [markFree]⟩
  have hamong := hmark.shape.among
  rw [Rep, freeAddrs_append, freeAddrs_cons_free rfl] at *
  refine hmark.link hamong (h.shape.addr_lt hmem) (.cons (h.shape.addr_pos hmem) ?_)
  rw [get_set_word hlt (by decide)]
  exact hback

/-- **A free block takes in the free block behind it.** -/
theorem Rep.absorb (h : Rep s (pre ++ b :: c :: post)) (hb : b.free = true) (hc : c.free = true) :
    Becomes s (pre ++ { b with size := b.size + c.extent } :: post) (s.absorb b.addr c.addr) := by
  have hbm : b ∈ pre ++ b :: c :: post := by simp
  have hcm : c ∈ pre ++ b :: c :: post := by simp
  have hw : Writes [b.addr] s (s.absorb b.addr c.addr) :=
    (Writes.refl.set (by simp)).set (by simp)
  have hshape := h.shape.merge
  have hsep : heapBlock.Sep c.addr b.addr := h.shape.sep hcm hbm
  have hlist := h.list
  rw [freeAddrs_append, freeAddrs_cons_free hb, freeAddrs_cons_free hc] at hlist
  obtain ⟨u, hfront, hub, hne, hcb, _, hback⟩ := walk_append.mp hlist
  subst hub
  have haround : ∀ a, a ∈ freeAddrs pre ∨ a ∈ freeAddrs post →
      (s.absorb b.addr c.addr).get a .nextFree = s.get a .nextFree := by
    intro a ha
    refine hw.get_around h.shape ?_
    rw [freeAddrs_cons_free hc]
    rcases ha with ha | ha
    · exact mem_append_left _ ha
    · exact mem_append_right _ (mem_cons_of_mem _ ha)
  have hnext : (s.absorb b.addr c.addr).get b.addr .nextFree = s.get c.addr .nextFree := by
    rw [State.absorb, State.get_set_field hsep (by decide)]
    exact get_set_word (heapBlock.get_lt ..) (by decide)
  refine ⟨h.rewrite hw hshape rfl (fun d hd => mem_cons_of_mem _ hd) ?_ ?_ ?_, ?_, rfl⟩
  · have hlt := hshape.end_lt (b := { b with size := b.size + c.extent }) (by simp)
    have hsum : s.get b.addr .size + (heapHeader + s.get c.addr .size) = b.size + c.extent := by
      rw [h.size b hbm, h.size c hcm, Block.extent]
    rw [State.absorb, State.get_set_ne (by decide), hsum]
    exact get_set_word (by simp only at hlt; omega) (by decide)
  · simpa [State.blockIsFree, State.absorb] using h.flag b hbm
  · rw [freeAddrs_append, freeAddrs_cons_free (b := { b with size := b.size + c.extent }) hb]
    refine walk_append.mpr ⟨b.addr, hfront.congr fun a ha => haround a (.inl ha), ?_⟩
    refine .cons hne ?_
    rw [hnext]
    exact State.Walk.congr hback fun a ha => haround a (.inr ha)
  · exact hw.untouched hshape fun x hx =>
      ⟨{ b with size := b.size + c.extent }, by simp, (mem_singleton.mp hx).symm⟩

/-- The next free block stands right behind a block iff the next block is free. -/
theorem Shape.next_free {lo hi : Nat} (h : Shape lo hi (pre ++ b :: post)) :
    b.addr + heapHeader + b.size = (freeAddrs post).headD 0 ↔
      ∃ c l, post = c :: l ∧ c.free = true := by
  constructor
  · intro heq
    cases post with
    | nil =>
      simp only [freeAddrs_nil, headD_nil, heapHeader] at heq
      omega
    | cons c l =>
      refine ⟨c, l, rfl, ?_⟩
      by_contra hused
      rw [Bool.not_eq_true] at hused
      rw [freeAddrs_cons_used hused] at heq
      have hfar : ∀ d ∈ l, b.addr + heapHeader + b.size < d.addr := by
        intro d hd
        have hbc := h.behind (c := c) (by simp)
        have hcut : Shape lo hi ((pre ++ [b]) ++ c :: l) := by simpa using h
        have hcd := hcut.behind hd
        simp only [heapHeader] at hbc hcd ⊢
        omega
      cases hl : freeAddrs l with
      | nil =>
        rw [hl] at heq
        simp only [headD_nil, heapHeader] at heq
        omega
      | cons a l' =>
        obtain ⟨d, hd, _, rfl⟩ := mem_freeAddrs.mp (show a ∈ freeAddrs l by rw [hl]; simp)
        rw [hl, headD_cons] at heq
        have := hfar d hd
        omega
  · intro hnext
    obtain ⟨c, l, rfl, hc⟩ := hnext
    rw [freeAddrs_cons_free hc, headD_cons, h.tiles.around.2.1, Block.extent, Nat.add_assoc]

theorem Holds.blockEnd {l : List Nat} (h : Holds s bs l) (hb : b ∈ bs) :
    s.blockEnd b.addr = b.addr + heapHeader + b.size := by
  rw [State.blockEnd, h.size b hb]
  exact Nat.mod_eq_of_lt (h.shape.end_lt hb)

theorem Rep.join (h : Rep s (pre ++ b :: post)) (hb : b.free = true) {cur : Nat}
    (hcur : (freeAddrs post).headD 0 = cur) :
    Becomes s (pre ++ joinNext b post)
      (if s.blockEnd b.addr = cur then s.absorb b.addr cur else s) := by
  have hiff := h.shape.next_free
  rw [h.blockEnd (b := b) (by simp), ← hcur]
  cases post with
  | nil =>
    rw [if_neg fun heq => by obtain ⟨c, l, hpost, _⟩ := hiff.mp heq; cases hpost]
    exact ⟨h, Untouched.refl _ _, rfl⟩
  | cons c post =>
    rw [joinNext]
    split
    next hc =>
      rw [if_pos (hiff.mpr ⟨c, post, rfl, hc⟩), freeAddrs_cons_free hc, headD_cons]
      exact h.absorb hb hc
    next hc =>
      rw [if_neg fun heq => by obtain ⟨d, l, hpost, hd⟩ := hiff.mp heq; cases hpost; exact hc hd]
      exact ⟨h, Untouched.refl _ _, rfl⟩

theorem Rep.joinLast (h : Rep s (pre ++ c :: post)) (hc : c.free = true) (hpre : Coalesced pre)
    (hpost : Coalesced (c :: post)) {prev : Nat} (hprev : (freeAddrs pre).getLastD 0 = prev) :
    ∃ bs, Becomes s bs (if prev ≠ 0 ∧ s.blockEnd prev = c.addr then s.absorb prev c.addr else s) ∧
      Coalesced bs ∧ usedBlocks bs = usedBlocks (pre ++ c :: post) ∧
      bs.length + (lastFree pre).toNat = (pre ++ c :: post).length := by
  rcases exists_last_free pre with hnone | ⟨p, q, r, rfl, hq, hr⟩
  · rw [hnone] at hprev
    rw [if_neg fun hc => hc.1 hprev.symm]
    exact ⟨_, ⟨h, Untouched.refl _ _, rfl⟩,
      hpost.append_used fun d hd => used_of_freeAddrs_nil hnone hd, rfl, by simp [lastFree_of_used hnone]⟩
  · -- what stands between the last free block and this one is in use
    have hlast : prev = q.addr := by
      rw [← hprev, freeAddrs_append, freeAddrs_cons_free hq, hr, getLastD_concat]
    subst hlast
    rw [append_assoc, cons_append] at h ⊢
    have hfirst : (freeAddrs (r ++ c :: post)).headD 0 = c.addr := by
      rw [freeAddrs_append, hr, freeAddrs_cons_free hc]
      rfl
    have hne : q.addr ≠ 0 := h.shape.addr_pos (by simp)
    have hmid : Coalesced (joinNext q (r ++ c :: post)) :=
      coalesced_joinNext (hpost.append_used fun d hd => used_of_freeAddrs_nil hr hd)
    have hjoins : lastFree (p ++ q :: r) = firstFree (r ++ c :: post) := by
      cases r with
      | nil => simp [lastFree, firstFree, hq, hc]
      | cons d r =>
        have hd := used_of_freeAddrs_nil hr (mem_cons_self ..)
        rw [lastFree, List.getLast?_append_of_ne_nil _ (by simp)]
        exact (lastFree_of_used hr).trans (by simp [firstFree, hd])
    refine ⟨p ++ joinNext q (r ++ c :: post), ?_, ?_, ?_, ?_⟩
    · simp only [ne_eq, hne, not_false_iff, true_and]
      exact h.join hq hfirst
    · obtain ⟨n, l, heq⟩ := joinNext_eq q (r ++ c :: post)
      rw [heq] at hmid ⊢
      exact hpre.splice hmid fun hfree => hfree
    · rw [usedBlocks_append, usedBlocks_append, usedBlocks_joinNext hq, usedBlocks_cons_free hq]
    · have hlen := length_joinNext q (r ++ c :: post)
      simp only [hjoins, length_append, length_cons] at hlen ⊢
      omega

theorem insertAt_eq {blk prev cur : Nat} {s1 s2 : State}
    (hs1 : (s.set blk .nextFree cur).link prev blk = s1) (hne : s1.blockEnd blk ≠ 0)
    (hs2 : (if s1.blockEnd blk = cur then s1.absorb blk cur else s1) = s2) :
    s.insertAt blk prev cur =
      if prev ≠ 0 ∧ s2.blockEnd prev = blk then s2.absorb prev blk else s2 := by
  have hguard : (cur ≠ 0 ∧ s1.blockEnd blk = cur) ↔ s1.blockEnd blk = cur :=
    ⟨fun hc => hc.2, fun heq => ⟨heq ▸ hne, heq⟩⟩
  simp only [insertAt, hs1, hguard, hs2]

/-- What comes of `free_list_insert` on a used block among `pre` and `post`. -/
structure Inserted (s : State) (pre post : List Block) (s' : State) (bs : List Block) : Prop where
  rep : Rep s' bs
  coalesced : Coalesced bs
  used : usedBlocks bs = usedBlocks (pre ++ post)
  untouched : Untouched (usedBlocks bs) s s'
  live : s'.livePayload = s.livePayload
  length : bs.length + (lastFree pre).toNat + (firstFree post).toNat = pre.length + post.length + 1

theorem Rep.findSlot (h : Rep s (pre ++ b :: post)) (hb : b.free = false) :
    (s.markFree b.addr).findSlot b.addr (s.markFree b.addr).fuel 0 (s.markFree b.addr).freeHead =
      some ((freeAddrs pre).getLastD 0, (freeAddrs post).headD 0) := by
  have hw : Writes [b.addr] s (s.markFree b.addr) := (Writes.refl.set (by simp)).set (by simp)
  refine findSlot_eq ((h.beside hb).list.congr fun a ha => hw.get_around h.shape ha) ?_ ?_ ?_
  · intro a ha
    obtain ⟨c, hc, _, rfl⟩ := mem_freeAddrs.mp ha
    have := h.shape.before hc
    simp only [heapHeader] at this
    omega
  · intro a ha
    obtain ⟨c, hc, _, rfl⟩ := mem_freeAddrs.mp ha
    have := h.shape.behind hc
    omega
  · have hlen := h.shape.length_le
    have hfilter : (freeAddrs pre).length ≤ pre.length := by
      rw [freeAddrs, length_map]
      exact length_filter_le ..
    rw [length_append, length_cons] at hlen
    simp only [fuel, markFree, set_heapEnd, set_heapStart]
    omega

theorem usedBlocks_sub (hb : b ∈ usedBlocks bs) : b ∈ bs := (mem_usedBlocks.mp hb).1

/-- **`free_list_insert` frees the block** and merges it with its free neighbours. -/
theorem Rep.insert (h : Rep s (pre ++ b :: post)) (hb : b.free = false)
    (hco : Coalesced (pre ++ b :: post)) :
    ∃ s' bs, s.freeListInsert b.addr = some s' ∧ Inserted s pre post s' bs := by
  set b1 : Block := { b with free := true } with hb1
  obtain ⟨s1, hs1⟩ : ∃ s1, ((s.markFree b.addr).set b.addr .nextFree ((freeAddrs post).headD 0)).link
      ((freeAddrs pre).getLastD 0) b.addr = s1 := ⟨_, rfl⟩
  have hattach : Becomes s (pre ++ b1 :: post) s1 := hs1 ▸ h.attach hb rfl
  obtain ⟨s2, hs2⟩ : ∃ s2, (if s1.blockEnd b.addr = (freeAddrs post).headD 0 then
      s1.absorb b.addr ((freeAddrs post).headD 0) else s1) = s2 := ⟨_, rfl⟩
  have hjoin : Becomes s1 (pre ++ joinNext b1 post) s2 := hs2 ▸ hattach.rep.join rfl rfl
  have hne : s1.blockEnd b.addr ≠ 0 := by
    rw [show b.addr = b1.addr from rfl, hattach.rep.blockEnd (by simp), heapHeader]
    omega
  obtain ⟨n, l, hl⟩ := joinNext_eq b1 post
  have hused : usedBlocks (pre ++ joinNext b1 post) = usedBlocks (pre ++ post) := by
    rw [usedBlocks_append, usedBlocks_joinNext rfl, usedBlocks_append]
  have hco1 : Coalesced (joinNext b1 post) := coalesced_joinNext (hco.right.tail)
  have hlen := length_joinNext b1 post
  rw [hl] at hjoin hused hco1 hlen
  obtain ⟨bs, hlast, hcobs, husedbs, hlenbs⟩ := hjoin.rep.joinLast rfl hco.left hco1 rfl
  rw [hused] at husedbs
  refine ⟨_, bs, ?_, hlast.rep, hcobs, husedbs, ?_, ?_, ?_⟩
  · rw [freeListInsert, h.findSlot hb, map_some]
    exact congrArg some (insertAt_eq hs1 hne hs2)
  · -- the blocks in use are there before and after each of the three changes
    rw [husedbs]
    have hkept : ∀ c ∈ usedBlocks (pre ++ post), c ∈ pre ++ b1 :: post := fun c hc =>
      ((sublist_cons_self b1 post).append_left pre).subset (usedBlocks_sub hc)
    exact ((hattach.untouched.mono hkept).trans
      (hjoin.untouched.mono fun c hc => usedBlocks_sub (hused ▸ hc))).trans
        (hlast.untouched.mono fun c hc => usedBlocks_sub (husedbs ▸ hc))
  · exact hlast.live.trans (hjoin.live.trans hattach.live)
  · rw [length_append] at hlenbs
    omega

end Exyde.Heap
