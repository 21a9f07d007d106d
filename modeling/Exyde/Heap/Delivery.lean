import Exyde.Heap.Client

/-! # What the callers of the heap get

`exy_malloc`, `exy_zalloc` and `exy_realloc` give the size asked for, unless rounding it
up wraps around. `heap_reserve` reports success as soon as it got one page. -/

namespace Exyde.Heap

open State

variable {s s' : State} {bs bs' : List Block} {b c : Block} {answer : Nat → PageAnswer} {size p ptr : Nat}

/-! ## Allocation -/

inductive Request
  | malloc | zalloc | realloc
  deriving DecidableEq, Repr

/-- The call; only `exy_realloc` has an argument `ptr`. -/
def Request.run (s : State) (answer : Nat → PageAnswer) (ptr size : Nat) : Request → Outcome
  | .malloc => .ofOption s (s.exyMalloc answer size)
  | .zalloc => s.exyZalloc answer size
  | .realloc => s.exyRealloc answer ptr size

/-- At `p` there is the payload of a block in use: aligned, large enough, in the mapped heap,
and apart from the other payloads, among them those that were in use before and are not at `ptr`. -/
structure Gives (bs : List Block) (ptr size p : Nat) (s' : State) (bs' : List Block) (c : Block) : Prop where
  intact : Intact s' bs'
  used : c ∈ usedBlocks bs'
  pointer : c.payload = p
  aligned : heapAlign ∣ p
  large : size ≤ c.size
  mapped : ∀ a, c.Owns a → s'.Mapped a
  kept : ∀ d ∈ usedBlocks bs, d.payload ≠ ptr → d ∈ usedBlocks bs'
  apart : ∀ d ∈ usedBlocks bs', d ≠ c → ∀ a, c.Owns a → ¬ d.Owns a

theorem Intact.gives (h : Intact s' bs') (hc : c ∈ usedBlocks bs') (hsize : size ≤ c.size)
    (hkept : ∀ d ∈ usedBlocks bs, d.payload ≠ ptr → d ∈ usedBlocks bs') :
    Gives bs ptr size c.payload s' bs' c where
  intact := h
  used := hc
  pointer := rfl
  aligned := by
    obtain ⟨pre, post, rfl⟩ := List.mem_iff_append.mp (usedBlocks_sub hc)
    refine Nat.dvd_add (h.rep.shape.tiles.around.1.dvd ?_ fun d hd => ?_) (by decide)
    · rw [h.rep.shape.low]
      decide
    · exact Nat.dvd_add (by decide) (h.rep.shape.sizes d (List.mem_append_left _ hd)).1
  large := hsize
  mapped a ha := by
    have hbounds := h.rep.shape.bounds (usedBlocks_sub hc)
    simp only [Block.Owns, Block.payload] at ha
    exact ⟨by omega, by omega⟩
  kept := hkept
  apart d hd hne a ha hda := hne (h.rep.shape.owns_inj (usedBlocks_sub hd) (usedBlocks_sub hc) hda ha)

theorem Returns.gives {gone new : Option Block} (h : Returns s bs size (.returned p s') gone new) (hp : p ≠ 0)
    (hsize : size + (heapAlign - 1) < 2 ^ 64) (hgone : ∀ d, gone = some d → d.payload = ptr) :
    ∃ bs' c, Gives bs ptr size p s' bs' c := by
  cases h with
  | null _ => exact absurd rfl hp
  | @block _ c _ bs' he hfits =>
    refine ⟨bs', c, he.intact.gives ((he.used c).mpr (.inl rfl)) (Nat.le_trans (le_payloadFor hsize) hfits) ?_⟩
    exact fun d hd hne => (he.used d).mpr (.inr ⟨hd, fun heq => hne (hgone d heq.symm)⟩)

theorem Mallocs.gives (h : Mallocs s bs size (p, s')) (hp : p ≠ 0)
    (hsize : size + (heapAlign - 1) < 2 ^ 64) : ∃ bs' c, Gives bs ptr size p s' bs' c := by
  obtain ⟨new, hr⟩ := h.returns
  exact hr.gives hp hsize (by simp)

theorem Intact.malloc_gives (h : Intact s bs)
    (hr : Outcome.ofOption s (s.exyMalloc answer size) = .returned p s') (hp : p ≠ 0)
    (hsize : size + (heapAlign - 1) < 2 ^ 64) : ∃ bs' c, Gives bs ptr size p s' bs' c := by
  obtain ⟨r, hmalloc, hm⟩ := h.exyMalloc answer size
  rw [hmalloc] at hr
  cases hr
  exact hm.gives hp hsize

theorem Intact.zalloc_gives (h : Intact s bs) (hr : s.exyZalloc answer size = .returned p s') (hp : p ≠ 0) :
    (∃ bs' c, Gives bs ptr size p s' bs' c) ∧ ∀ i < size, s'.mem (p + i) = 0 := by
  by_cases hsize : size + (heapAlign - 1) < 2 ^ 64
  · obtain ⟨q, t, hz, hm, hzero⟩ := h.exyZalloc answer hsize
    rw [hz] at hr
    cases hr
    exact ⟨hm.gives hp hsize, hzero hp⟩
  · -- a size that wraps around never comes back with a block
    rcases h.exyZalloc_wraps answer (Nat.le_of_not_lt hsize) with ⟨_, _, hz, _⟩ | ⟨_, _, _, _, hz⟩
    · rw [hz] at hr
      cases hr
      exact absurd rfl hp
    · rw [hz] at hr
      cases hr

theorem Intact.realloc_gives (h : Intact s bs) (hptr : ptr = 0 ∨ ∃ b ∈ usedBlocks bs, b.payload = ptr)
    (hr : s.exyRealloc answer ptr size = .returned p s') (hp : p ≠ 0)
    (hsize : size + (heapAlign - 1) < 2 ^ 64) : ∃ bs' c, Gives bs ptr size p s' bs' c := by
  rcases hptr with rfl | ⟨b, hb, rfl⟩
  · exact h.malloc_gives hr hp hsize
  by_cases h0 : size = 0
  · obtain ⟨t, _, hfree, _⟩ := h.exyFree hb
    rw [State.exyRealloc, if_neg b.payload_ne_zero, if_pos h0, hfree] at hr
    cases hr
    exact absurd rfl hp
  · rcases h.exyRealloc hb answer h0 with ⟨hfits, hsame⟩ | ⟨new, hret⟩
    · rw [hsame] at hr
      cases hr
      exact ⟨bs, b, h.gives hb (Nat.le_trans (le_payloadFor hsize) hfits) fun d hd _ => hd⟩
    · rw [hr] at hret
      refine hret.gives hp hsize fun d hd => ?_
      obtain ⟨_, _, rfl⟩ := Option.map_eq_some_iff.mp hd
      rfl

theorem exyMalloc_wraps (s : State) (answer : Nat → PageAnswer) (size : BitVec 64)
    (hwrap : 2 ^ 64 ≤ size.toNat + (heapAlign - 1)) :
    s.exyMalloc answer size.toNat = s.exyMalloc answer (2 ^ 64 - 1) := by
  simp only [heapAlign] at hwrap
  have hsize : payloadFor size.toNat = payloadFor (2 ^ 64 - 1) := by
    simp only [payloadFor, roundUp, heapAlign]
    omega
  rw [exyMalloc, exyMalloc, hsize, if_neg (by omega), if_neg (by decide)]

/-- **The heap gives what was asked**, for every intact heap, every argument and every answer of
the page allocator, exactly if the size can be rounded up in 64 bits; `exy_zalloc` does not
return with a block where it cannot. -/
theorem allocation_gives_asked (r : Request) (size : BitVec 64) :
    (∀ (s : State) (bs : List Block) (answer : Nat → PageAnswer) (ptr p : Nat) (s' : State), Intact s bs →
        (ptr = 0 ∨ ∃ b ∈ usedBlocks bs, b.payload = ptr) →
        r.run s answer ptr size.toNat = .returned p s' → p ≠ 0 →
        (∃ bs' c, Gives bs ptr size.toNat p s' bs' c) ∧
          (r = .zalloc → ∀ i < size.toNat, s'.mem (p + i) = 0)) ↔
      r = .zalloc ∨ size.toNat + (heapAlign - 1) < 2 ^ 64 := by
  constructor
  · intro hall
    refine or_iff_not_imp_left.mpr fun hne => Nat.lt_of_not_le fun hwrap => ?_
    -- the first call on a new heap gets a block that is smaller than the size
    have hfirst : ((heapInit fun _ => 0).exyMalloc allMapped (2 ^ 64 - 1)).map Prod.fst =
        some 0x40100020 := by decide +kernel
    obtain ⟨⟨p, s'⟩, hmalloc, rfl⟩ := Option.map_eq_some_iff.mp hfirst
    rw [← exyMalloc_wraps _ _ size hwrap] at hmalloc
    have hrun : r.run (heapInit fun _ => 0) allMapped 0 size.toNat = .returned 0x40100020 s' := by
      cases r with
      | zalloc => exact absurd rfl hne
      | malloc => rw [Request.run, hmalloc, Outcome.ofOption]
      | realloc => rw [Request.run, exyRealloc, if_pos rfl, hmalloc, Outcome.ofOption]
    obtain ⟨⟨bs', c, hc⟩, _⟩ := hall _ [] allMapped 0 _ s' (init_sound _).intact (.inl rfl) hrun (by decide)
    have hbounds := hc.intact.rep.shape.bounds (usedBlocks_sub hc.used)
    have hhigh := hc.intact.rep.shape.high
    have hlarge := hc.large
    simp only [heapMax, heapAlign] at hhigh hwrap
    omega
  · rintro hok s bs answer ptr p s' h hptr hr hp
    cases r with
    | zalloc =>
      obtain ⟨hgives, hzero⟩ := h.zalloc_gives hr hp
      exact ⟨hgives, fun _ => hzero⟩
    | malloc => exact ⟨h.malloc_gives hr hp (hok.resolve_left (by decide)), fun h0 => by cases h0⟩
    | realloc => exact ⟨h.realloc_gives hptr hr hp (hok.resolve_left (by decide)), fun h0 => by cases h0⟩

/-- The largest size, on a new heap: a payload of 16 bytes. -/
theorem malloc_too_small : ((heapInit fun _ => 0).exyMalloc allMapped (2 ^ 64 - 1)).map
      (fun r => (r.1, r.2.get (r.1 - heapHeader) .size)) = some (0x40100020, 16) := by
  decide +kernel

/-! ## Reservation -/

theorem le_pagesFor {need : Nat} (hneed : need < 2 ^ 63) : need + heapHeader ≤ pagesFor need * pageSize := by
  rw [pagesFor]
  split
  next h0 =>
    simp only [heapHeader, pageSize] at h0 ⊢
    omega
  · simp only [heapHeader, pageSize]
    omega

theorem Available.mono {base k m : Nat} (h : Available answer base k) (hle : m ≤ k) : Available answer base m :=
  ⟨Nat.le_trans (Nat.add_le_add_left (Nat.mul_le_mul_right _ hle) _) h.1,
    fun i hi => h.2 i (Nat.lt_of_lt_of_le hi hle)⟩

/-- **`heap_reserve` delivers** exactly if there is enough already, or not one page can be had,
or all the pages it takes can: a new block at the end of the heap costs a header, unless it is
merged with a free one. -/
theorem heap_reserve_delivers (h : Intact s bs) (answer : Nat → PageAnswer) (bytes : BitVec 64) :
    (∀ s', s.heapReserve answer bytes.toNat = some (true, s') →
        ∃ free, s'.heapFreeBytes = some free ∧ bytes.toNat ≤ free) ↔
      bytes.toNat ≤ freeBytes bs ∨ ¬ Available answer s.heapEnd 1 ∨
        ∃ k, Available answer s.heapEnd k ∧
          bytes.toNat + (if lastFree bs then 0 else heapHeader) ≤ freeBytes bs + k * pageSize := by
  rw [h.heapReserve_eq]
  by_cases henough : bytes.toNat ≤ freeBytes bs
  · rw [if_pos henough]
    refine iff_of_true (fun s' hr => ?_) (.inl henough)
    cases hr
    exact ⟨_, h.heapFreeBytes, henough⟩
  · obtain ⟨m, s1, bs1, ⟨hm, hmost⟩, hgrow, hkeeps, hfree⟩ := h.heapGrow answer (bytes.toNat - freeBytes bs)
    have hreturns : (∀ s', some (decide (m ≠ 0), s1) = some (true, s') →
        ∃ free, s'.heapFreeBytes = some free ∧ bytes.toNat ≤ free) ↔ (m ≠ 0 → bytes.toNat ≤ freeBytes bs1) := by
      constructor
      · intro hall hne
        obtain ⟨free, hf, hle⟩ := hall s1 (by rw [decide_eq_true hne])
        rw [hkeeps.intact.heapFreeBytes] at hf
        exact Option.some.inj hf ▸ hle
      · intro hle s' heq
        simp only [Option.some.injEq, Prod.mk.injEq, decide_eq_true_eq] at heq
        exact ⟨_, heq.2 ▸ hkeeps.intact.heapFreeBytes, hle heq.1⟩
    rw [if_neg henough, hgrow, hreturns]
    constructor
    · intro hall
      refine .inr (or_iff_not_imp_left.mpr fun hone => ?_)
      have hne : m ≠ 0 := by
        rintro rfl
        rcases hmost with heq | hno
        · have hpos : pagesFor (bytes.toNat - freeBytes bs) ≠ 0 := by
            rw [pagesFor]
            split <;> omega
          exact hpos heq.symm
        · exact hno (not_not.mp hone)
      exact ⟨m, hm, hfree hne ▸ Nat.add_le_add_right (hall hne) _⟩
    · intro hok hne
      have hgot := hfree hne
      rcases hok with hle | hnone | ⟨k, hk, hlarge⟩
      · exact absurd hle henough
      · exact absurd (hm.mono (Nat.pos_of_ne_zero hne)) hnone
      · have hbound := hk.1
        have hlast : (if lastFree bs then 0 else heapHeader) ≤ heapHeader := by split <;> simp
        simp only [heapMax, pageSize] at hbound hlarge hgot
        rcases hmost with heq | hno
        · have hpages := @le_pagesFor (bytes.toNat - freeBytes bs) (by omega)
          simp only [← heq, pageSize] at hpages
          omega
        · have hle : k ≤ m := Nat.le_of_not_lt fun hlt => hno (hk.mono hlt)
          omega

theorem heap_reserve_delivers_new : Intact (heapInit fun _ => 0) [] ∧
    ∀ s', (heapInit fun _ => 0).heapReserve allMapped 9000 = some (true, s') →
      ∃ free, s'.heapFreeBytes = some free ∧ 9000 ≤ free := by
  have hinit := (init_sound fun _ => 0).intact
  refine ⟨hinit, (heap_reserve_delivers hinit allMapped 9000).mpr (.inr (.inr ⟨3, ⟨?_, fun _ _ => rfl⟩, ?_⟩))⟩
  · decide
  · decide

/-- One page of three: 4064 bytes are free, where 9000 were asked for. -/
theorem reserve_too_small :
    ((heapInit fun _ => 0).heapReserve (fun i => if i = 0 then .mapped else .noPage) 9000).map
      (fun r => (r.1, r.2.heapFreeBytes)) = some (true, some 4064) := by
  decide +kernel

end Exyde.Heap
