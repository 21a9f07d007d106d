import Exyde.Libc.EnvScan

/-! # Changing the environment

What the helpers of `setenv` and `unsetenv` leave in memory, for every answer of the
allocator. Where they fail the entries are as before. -/

namespace Exyde.Libc

open Exyde.Lib List Option Objects

variable {s s' s1 : EnvState} {m : Objects} {p q i n : Nat} {o : Object} {name value : CStr}
  {es pre post : List Entry} {e e' : Entry} {cells rest A F : List (Option Nat)} {tail : List Nat}
  {v : EnvVars} {arr own cap : Nat} {pre mid post : List (Option Nat)}

theorem storeCell_eq (h : s.objs.get p = some o) (hi : i < o.cells.length) (x : Nat) :
    storeCell p i x s = some ((), { s with
      objs := s.objs.set p (some { o with cells := o.cells.set i (some x) }) }) := by
  rw [storeCell, store_eq h hi]
  rfl

theorem Rep.extend (h : Rep s es) (hvars : s'.vars = s.vars) (hext : s.objs.Extends s'.objs) :
    Rep s' es := by
  refine ⟨fun e he => ?_, h.single, fun hown => ?_, fun hown => ?_⟩
  · obtain ⟨heap, hget, himp⟩ := h.strings e he
    exact ⟨heap, hext.keep _ _ hget, himp⟩
  · rw [hvars] at hown ⊢
    obtain ⟨hno, harr⟩ := h.given hown
    refine ⟨hno, harr.imp_right ?_⟩
    rintro ⟨rest, heap, hget⟩
    exact ⟨rest, heap, hext.keep _ _ hget⟩
  · rw [hvars] at hown ⊢
    obtain ⟨henv, hcount, ⟨rest, harr, hcap⟩, ⟨tail, hflags, hlen⟩, hapart, hstr⟩ := h.owned hown
    exact ⟨henv, hcount, ⟨rest, hext.keep _ _ harr, hcap⟩, ⟨tail, hext.keep _ _ hflags, hlen⟩,
      hapart, hstr⟩

/-! ## Filling a block -/

/-- Only the block `p` has changed, and it holds `cells`. -/
structure Fills (s : EnvState) (p : Nat) (cells : List (Option Nat)) (s' : EnvState) : Prop where
  vars : s'.vars = s.vars
  next : s'.objs.next = s.objs.next
  block : s'.objs.get p = some ⟨cells, true⟩
  others : ∀ q, q ≠ p → s'.objs.get q = s.objs.get q

theorem Fills.refl (h : s.objs.get p = some ⟨cells, true⟩) : Fills s p cells s :=
  ⟨rfl, rfl, h, fun _ _ => rfl⟩

theorem Fills.storeCell {y : Option Nat} {l l' : List (Option Nat)} (h : Fills s p (l ++ y :: l') s1)
    (x : Nat) : Trap.Ends (storeCell p l.length x) s1 fun _ s' => Fills s p (l ++ some x :: l') s' := by
  refine ⟨_, _, storeCell_eq h.block (by simp) x, h.vars, h.next, ?_, fun q hq => ?_⟩
  · simpa using get_set_self h.block (some ⟨(l ++ y :: l').set l.length (some x), true⟩)
  · exact (get_set_ne hq _).trans (h.others q hq)

/-- A loop that stores `xs` one by one, whatever else it reads. -/
theorem Fills.loop (body : Nat → EnvM Unit) (xs : List Nat) (i : Nat)
    (h : Fills s p (pre ++ (mid ++ post)) s1) (hmid : mid.length = xs.length)
    (hbody : ∀ k x cells s', xs[k]? = some x → Fills s p cells s' →
      body (i + k) s' = Libc.storeCell p (pre.length + k) x s') :
    Trap.Ends (Trap.forEach body (List.range' i xs.length)) s1 fun _ s' =>
      Fills s p (pre ++ (xs.map some ++ post)) s' := by
  induction xs generalizing pre mid i s1 with
  | nil =>
    rw [length_eq_zero_iff.mp hmid] at h
    exact .pure h
  | cons x xs ih =>
    cases mid with
    | nil => cases hmid
    | cons y mid =>
      obtain ⟨_, s2, hstore, h2⟩ := h.storeCell x
      refine .bind ⟨_, _, (hbody 0 x _ s1 rfl h).trans hstore, ?_⟩
      have hnext : Fills s p (pre ++ [some x] ++ (mid ++ post)) s2 := by simpa using h2
      refine (ih (i + 1) hnext (by simpa using hmid) fun k z cells s' hz h' => ?_).mono fun _ s' h' => ?_
      · have hstore := hbody (k + 1) z cells s' (by simpa using hz) h'
        rw [show i + 1 + k = i + (k + 1) by omega, hstore, length_append,
          length_singleton, Nat.add_right_comm, Nat.add_assoc]
      · simpa using h'

theorem map_getD_range (str : List Nat) :
    ((List.range str.length).map fun i => str.getD i 0) = str := by
  refine ext_getElem (by simp) fun i h1 h2 => ?_
  rw [getElem_map, getElem_range, getD_eq_getElem _ _ h2]

theorem map_getD_range_succ (str : List Nat) :
    ((List.range (str.length + 1)).map fun i => str.getD i 0) = str ++ [0] := by
  rw [range_succ, map_append, map_getD_range, map_singleton,
    getD_eq_default _ _ (Nat.le_refl _)]

theorem Fills.memcpyTo {xs str : List Nat}
    (h : Fills s p (pre ++ (mid ++ post)) s1) (hxs : xs = (List.range n).map fun i => str.getD i 0)
    (hmid : mid.length = n) :
    Trap.Ends (memcpyTo p pre.length str n) s1 fun _ s' => Fills s p (pre ++ (xs.map some ++ post)) s' := by
  have hlen : xs.length = n := by rw [hxs, length_map, length_range]
  rw [Libc.memcpyTo, range_eq_range', ← hlen]
  refine h.loop _ xs 0 (hmid.trans hlen.symm) fun k x cells s' hx _ => ?_
  have hlt := (List.getElem?_eq_some_iff.mp hx).1
  rw [hxs, List.getElem?_map, List.getElem?_range (by omega), map_some] at hx
  rw [← Option.some.inj hx, Nat.zero_add]

/-! ## Allocation -/

/-- A block that was made now: it was not there before, and nothing else has changed. -/
structure Made (s s' : EnvState) (p : Nat) (cells : List (Option Nat)) : Prop where
  vars : s'.vars = s.vars
  objs : s.objs.Extends s'.objs
  later : s.objs.next ≤ p
  block : s'.objs.get p = some ⟨cells, true⟩

theorem Made.ne_zero (h : Made s s' p cells) : p ≠ 0 := Objects.ne_zero h.block

theorem Made.fills {cells' : List (Option Nat)} (h : Made s s1 p cells) (h' : Fills s1 p cells' s') :
    Made s s' p cells' where
  vars := h'.vars.trans h.vars
  objs := by
    refine ⟨Nat.le_trans h.objs.next (Nat.le_of_eq h'.next.symm), fun q o hq => ?_⟩
    have hlt := lt_next hq
    have hlater := h.later
    exact (h'.others q (by omega)).trans (h.objs.keep q o hq)
  later := h.later
  block := h'.block

structure Kept (s s' : EnvState) : Prop where
  vars : s'.vars = s.vars
  objs : s.objs.Extends s'.objs

theorem allocate_ends (cells : List (Option Nat)) (s : EnvState) :
    Trap.Ends (allocate cells) s fun p s' =>
      (p = 0 ∧ Kept s s') ∨ Made s s' p cells := by
  by_cases hfail : s.answers.headD .fail = .fail
  · exact ⟨0, _, if_pos hfail, .inl ⟨rfl, rfl, .refl _⟩⟩
  · exact ⟨s.objs.next, _, if_neg hfail, .inr ⟨rfl, (Objects.Extends.refl _).alloc cells, Nat.le_refl _,
      s.objs.get_alloc_next cells⟩⟩

theorem free_eq (h : s.objs.get p = some ⟨cells, true⟩) :
    free p s = some ((), { s with objs := s.objs.set p none }) := by
  rw [free, if_neg (ne_zero h), release_eq h rfl]
  rfl

def entryStr (name value : CStr) : CStr :=
  ⟨name.val ++ equalsSign :: value.val, by
    have h1 := name.2
    have h2 := value.2
    simp [equalsSign, h1, h2]⟩

/-- **`make_entry`** answers the null pointer or a new block with the string. -/
theorem makeEntry_ends (name value : CStr) (s : EnvState) :
    Trap.Ends (makeEntry name value) s fun p s' =>
      (p = 0 ∧ Kept s s') ∨ Made s s' p (strCells (entryStr name value).val) := by
  refine .bind ((allocate_ends _ s).mono fun p s1 h₁ => ?_)
  rcases h₁ with ⟨rfl, hk⟩ | hmade
  · exact .pure (.inl ⟨rfl, hk⟩)
  rw [if_neg hmade.ne_zero]
  -- the block is filled from the left: the name, the sign, the value with its end
  have hblank : List.replicate (name.val.length + 1 + value.val.length + 1) none =
      [] ++ (List.replicate name.val.length (none : Option Nat) ++
        none :: List.replicate (value.val.length + 1) none) := by
    rw [nil_append, ← replicate_succ, replicate_append_replicate]
    congr 1
    omega
  have hfill := Fills.refl hmade.block
  rw [hblank] at hfill
  refine .bind ((hfill.memcpyTo (map_getD_range name.val).symm length_replicate).mono
    fun _ s2 hfill2 => ?_)
  have hlen : (name.val.map (some : Nat → Option Nat)).length = name.val.length := length_map _
  have hsign := hfill2.storeCell equalsSign
  rw [hlen] at hsign
  refine .bind (hsign.mono fun _ s3 hfill3 => ?_)
  have hcells : name.val.map some ++ some equalsSign :: List.replicate (value.val.length + 1) none =
      (name.val.map some ++ [some equalsSign]) ++
        (List.replicate (value.val.length + 1) (none : Option Nat) ++ []) := by simp
  rw [hcells] at hfill3
  have hvalue := hfill3.memcpyTo (map_getD_range_succ value.val).symm length_replicate
  rw [length_append, hlen, length_singleton] at hvalue
  refine .bind (hvalue.mono fun _ s4 hfill4 => .pure (.inr (hmade.fills ?_)))
  simpa [entryStr, strCells] using hfill4

/-! ## Moving to the heap -/

theorem copyPointers_ends (h : Rep s es) (hext : s.objs.Extends s1.objs)
    (harr : s1.objs.get p = some ⟨List.replicate (es.length + 8) none, true⟩)
    (hlater : s.objs.next ≤ p) :
    Trap.Ends (Trap.forEach (fun i => do
        let q ← loadCell s.vars.environ i
        storeCell p i q) (List.range es.length)) s1 fun _ s' =>
      Fills s1 p (es.map (fun e => some e.ptr) ++ List.replicate 8 none) s' := by
  have hcells : List.replicate (es.length + 8) none =
      [] ++ (List.replicate es.length (none : Option Nat) ++ List.replicate 8 none) := by
    rw [nil_append, replicate_append_replicate]
  have hfill := Fills.refl harr
  rw [hcells] at hfill
  have hlen : (es.map Entry.ptr).length = es.length := length_map _
  rw [range_eq_range', ← hlen]
  refine (hfill.loop _ (es.map Entry.ptr) 0 (by simp) fun k x cells s' hx h' => ?_).mono fun _ s' h' => ?_
  · rw [List.getElem?_map] at hx
    obtain ⟨e, he, rfl⟩ := map_eq_some_iff.mp hx
    rw [length_nil, Nat.zero_add]
    refine Trap.bind_of (loadCell_eq ?_) _
    rcases h.environ with ⟨_, rfl⟩ | ⟨rest, heap, hget⟩
    · cases he
    · have hlt := lt_next hget
      rw [load_eq ((h'.others _ (by omega)).trans (hext.keep _ _ hget)), arrCells,
        List.getElem?_append_left (by simpa using (List.getElem?_eq_some_iff.mp he).1), List.getElem?_map, he]
      rfl
  · rwa [List.map_map] at h'

/-- Only the two blocks have changed, and they hold `A` and `F`. -/
structure Edits (s : EnvState) (arr own : Nat) (v : EnvVars) (A F : List (Option Nat))
    (s' : EnvState) : Prop where
  vars : s'.vars = v
  pointers : s'.objs.get arr = some ⟨A, true⟩
  flags : s'.objs.get own = some ⟨F, true⟩
  others : ∀ r, r ≠ arr → r ≠ own → s'.objs.get r = s.objs.get r

theorem Edits.rep (h : Edits s arr own ⟨arr, arr, own, cap, es.length, true⟩ (arrCells es rest)
      (flagCells es tail) s')
    (hcap : es.length + 1 + rest.length = cap) (hcap' : es.length + tail.length = cap)
    (hne : arr ≠ own)
    (hstr : ∀ e ∈ es, e.ptr ≠ arr ∧ e.ptr ≠ own ∧
      ∃ heap, s.objs.get e.ptr = some ⟨strCells e.str.val, heap⟩ ∧ (e.own = true → heap = true))
    (hsingle : es.Pairwise fun a b => a.own = true ∨ b.own = true → a.ptr ≠ b.ptr) : Rep s' es := by
  refine ⟨fun e he => ?_, hsingle, fun hf => ?_, fun _ => ?_⟩
  · obtain ⟨hea, heo, heap, hget, himp⟩ := hstr e he
    exact ⟨heap, (h.others _ hea heo).trans hget, himp⟩
  · rw [h.vars] at hf
    cases hf
  · rw [h.vars]
    exact ⟨rfl, rfl, ⟨rest, h.pointers, hcap⟩, ⟨tail, h.flags, hcap'⟩, hne,
      fun e he => ⟨(hstr e he).1, (hstr e he).2.1⟩⟩

theorem promote_ends (h : Rep s es) : Trap.Ends promote s fun r s' => Rep s' es ∧
      ((r = 0 ∧ s'.vars.envIsOwned = true) ∨ (r = -1 ∧ s'.errno = some .enomem)) := by
  refine .bind ⟨_, _, vars_eq s, .ite (fun hown => .pure ⟨h, .inl ⟨rfl, hown⟩⟩) fun hown => ?_⟩
  have hgiven := h.given (Bool.eq_false_iff.mpr hown)
  refine .bind ⟨_, _, countEnv_eq h, ?_⟩
  refine .bind ((allocate_ends _ s).mono fun arr s1 h₁ => ?_)
  rcases h₁ with ⟨rfl, hk⟩ | hmade1
  · refine .bind (.change (.pure ⟨?_, .inr ⟨rfl, rfl⟩⟩))
    exact h.extend hk.vars hk.objs
  rw [if_neg hmade1.ne_zero]
  refine .bind ((allocate_ends _ s1).mono fun own s2 h₂ => ?_)
  rcases h₂ with ⟨rfl, hk⟩ | hmade2
  · refine .bind ⟨_, _, free_eq (hk.objs.keep _ _ hmade1.block), ?_⟩
    refine .bind (.change (.pure ⟨?_, .inr ⟨rfl, rfl⟩⟩))
    exact h.extend (hk.vars.trans hmade1.vars) ((hmade1.objs.trans hk.objs).set hmade1.later none)
  rw [if_neg hmade2.ne_zero]
  have hext := hmade1.objs.trans hmade2.objs
  have hvars : s2.vars = s.vars := hmade2.vars.trans hmade1.vars
  have harr := hmade2.objs.keep _ _ hmade1.block
  have hlater : s.objs.next ≤ own := Nat.le_trans hmade1.objs.next hmade2.later
  have hne : arr ≠ own := by
    have := lt_next hmade1.block
    have := hmade2.later
    omega
  refine .bind ⟨_, _, vars_eq s2, ?_⟩
  rw [hvars]
  refine .bind ((copyPointers_ends h hext harr hmade1.later).mono fun _ s3 hfill => ?_)
  have hend := hfill.storeCell (y := none) (l := es.map fun e => some e.ptr) 0
  rw [length_map] at hend
  refine .bind (hend.mono fun _ s4 hfill4 => .bind (.change (.pure ⟨?_, .inl ⟨rfl, rfl⟩⟩)))
  have hflags : List.replicate (es.length + 8) (some 0) = flagCells es (List.replicate 8 0) := by
    rw [flagCells, map_congr_left (g := fun _ => some 0) (fun e he => by rw [hgiven.own e he]; rfl),
      map_const', map_replicate, replicate_append_replicate]
  have hblock := hmade2.block
  rw [hflags] at hblock
  refine Edits.rep ⟨rfl, hfill4.block, (hfill4.others own hne.symm).trans hblock, fun _ _ _ => rfl⟩
    (by simp) (by rw [length_replicate]) hne (fun e he => ?_) h.single
  obtain ⟨heap, hget, himp⟩ := h.strings e he
  have hlt := lt_next hget
  have hla := hmade1.later
  exact ⟨by omega, by omega, heap, (hfill4.others _ (by omega)).trans (hext.keep _ _ hget), himp⟩

/-! ## Room for one more -/

theorem realloc_ends (h : s.objs.get p = some ⟨cells, true⟩) (n : Nat) :
    Trap.Ends (realloc p n) s fun q s' => s'.vars = s.vars ∧
      ((q = 0 ∧ s'.objs = s.objs) ∨
        (s'.objs.get q = some ⟨resized cells n, true⟩ ∧ (q = p ∨ s.objs.next ≤ q) ∧
          ∀ r o, r ≠ p → s.objs.get r = some o → s'.objs.get r = some o)) := by
  have hlt := lt_next h
  cases hanswer : s.answers.headD .fail with
  | fail =>
    have hrun : realloc p n s = some (0, { s with answers := s.answers.tail }) := by
      simp only [realloc, h, hanswer, bind_some, if_true]
    exact ⟨_, _, hrun, rfl, .inl ⟨rfl, rfl⟩⟩
  | fresh =>
    have hrun : realloc p n s = some (s.objs.next, { s with
        objs := (s.objs.alloc (resized cells n)).set p none, answers := s.answers.tail }) := by
      simp only [realloc, h, hanswer, bind_some, if_true]
    refine ⟨_, _, hrun, rfl, .inr ⟨?_, .inr (Nat.le_refl _), fun r o hr hget => ?_⟩⟩
    · exact (get_set_ne (by omega) _).trans (get_alloc_next _ _)
    · exact (get_set_ne hr _).trans (get_alloc hget _)
  | same =>
    have hrun : realloc p n s = some (p, { s with
        objs := s.objs.set p (some ⟨resized cells n, true⟩), answers := s.answers.tail }) := by
      simp only [realloc, h, hanswer, bind_some, if_true]
    refine ⟨_, _, hrun, rfl, .inr ⟨get_set_self h _, .inl rfl, fun r o hr hget => ?_⟩⟩
    exact (get_set_ne hr _).trans hget

theorem flagCells_eq (es : List Entry) (tail : List Nat) :
    flagCells es tail = (es.map (fun e => e.own.toNat) ++ tail).map some := by
  rw [flagCells, List.map_append, List.map_map]
  rfl

theorem copyFlags_ends
    (hmade : Made s s1 p (List.replicate (cap * 2) none))
    (hown : s.objs.get own = some ⟨flagCells es tail, true⟩) (hcap : es.length + tail.length = cap) :
    Trap.Ends (copyFlags p cap (cap * 2) own) s1 fun _ s' =>
      Made s s' p (flagCells es (tail ++ List.replicate cap 0)) := by
  have hlt := lt_next hown
  have hlater := hmade.later
  have hlen : (es.map (fun e => e.own.toNat) ++ tail).length = cap := by
    rw [length_append, length_map, hcap]
  have hblank : List.replicate (cap * 2) none =
      [] ++ (List.replicate cap (none : Option Nat) ++ List.replicate cap none) := by
    rw [nil_append, replicate_append_replicate, Nat.mul_two]
  unfold copyFlags
  rw [show cap * 2 - cap = cap by omega]
  have hfill := Fills.refl hmade.block
  rw [hblank] at hfill
  have hcopy := hfill.loop (fun i => do
    let x ← loadCell own i
    storeCell p i x) (es.map (fun e => e.own.toNat) ++ tail) 0 (by rw [hlen, length_replicate]) ?_
  · rw [hlen, ← range_eq_range'] at hcopy
    refine .bind (hcopy.mono fun _ s2 hfill2 => ?_)
    rw [nil_append, ← flagCells_eq, ← append_nil (List.replicate cap none)] at hfill2
    have hzero := hfill2.loop (fun i => storeCell p i 0) (List.replicate cap 0) cap (by simp) ?_
    · rw [length_replicate] at hzero
      refine hzero.mono fun _ s3 hfill3 => hmade.fills ?_
      simpa [flagCells] using hfill3
    · intro k x cells s' hx _
      have hx0 : x = 0 := eq_of_mem_replicate (mem_of_getElem? hx)
      rw [hx0, flagCells_eq, length_map, hlen]
  · intro k x cells s' hx h'
    rw [length_nil, Nat.zero_add]
    refine Trap.bind_of (loadCell_eq ?_) _
    rw [load_eq ((h'.others own (by omega)).trans (hmade.objs.keep _ _ hown)), flagCells_eq,
      List.getElem?_map, hx]
    rfl

theorem ensureSlot_ends (h : Rep s es) (hheap : s.vars.envIsOwned = true) :
    Trap.Ends ensureSlot s fun r s' => Rep s' es ∧
      ((r = 0 ∧ s'.vars.envIsOwned = true ∧ es.length + 2 ≤ s'.vars.envCap) ∨
        (r = -1 ∧ s'.errno = some .enomem)) := by
  obtain ⟨henv, hcount, ⟨rest, harr, hcap⟩, ⟨tail, hflags, hlen⟩, hapart, hstr⟩ := h.owned hheap
  refine .bind ⟨_, _, vars_eq s, .ite (fun hroom => .pure ⟨h, .inl ⟨rfl, hheap, by omega⟩⟩) fun _ => ?_⟩
  rw [if_pos (by omega)]
  refine .bind ((allocate_ends _ s).mono fun nown s1 h₁ => ?_)
  rcases h₁ with ⟨rfl, hk⟩ | hmade
  · exact .bind (.change (.pure ⟨h.extend hk.vars hk.objs, .inr ⟨rfl, rfl⟩⟩))
  rw [if_neg hmade.ne_zero]
  refine .bind ((copyFlags_ends hmade hflags hlen).mono fun _ s2 hmade2 => ?_)
  have harr2 := hmade2.objs.keep _ _ harr
  refine .bind ((realloc_ends harr2 (s.vars.envCap * 2)).mono fun narr s3 h3 => ?_)
  obtain ⟨hvars3, ⟨rfl, hobjs⟩ | ⟨hnarr, hwhere, hkeep⟩⟩ := h3
  · have hnown : s3.objs.get nown = some ⟨flagCells es (tail ++ List.replicate s.vars.envCap 0), true⟩ := by
      rw [hobjs]
      exact hmade2.block
    refine .bind ⟨_, _, free_eq hnown, .bind (.change (.pure ⟨?_, .inr ⟨rfl, rfl⟩⟩))⟩
    refine h.extend (hvars3.trans hmade2.vars) ?_
    simp only [hobjs]
    exact hmade2.objs.set hmade2.later none
  · rw [if_neg (ne_zero hnarr)]
    have hlt := lt_next harr
    have hlt' := lt_next hflags
    have hla := hmade2.later
    have hnown2 := lt_next hmade2.block
    have hown3 := hkeep _ _ hapart.symm (hmade2.objs.keep _ _ hflags)
    have hnown3 := hkeep nown _ (by omega) hmade2.block
    refine .bind ⟨_, _, free_eq hown3, .bind (.change (.pure ⟨?_, .inl ⟨rfl, ?_, ?_⟩⟩))⟩
    · have hgrown : resized (arrCells es rest) (s.vars.envCap * 2) =
          arrCells es (rest ++ List.replicate s.vars.envCap none) := by
        rw [resized, take_of_length_le (by rw [arrCells_length]; omega), arrCells_length, Nat.add_comm, hcap,
          show s.vars.envCap * 2 - s.vars.envCap = s.vars.envCap by omega]
        simp [arrCells]
      rw [hgrown] at hnarr
      have hcap2 : es.length + 1 + (rest ++ List.replicate s.vars.envCap none).length =
          s.vars.envCap * 2 := by
        rw [length_append, length_replicate]
        omega
      refine Edits.rep ⟨?_, (get_set_ne (by omega) _).trans hnarr, (get_set_ne (by omega) _).trans hnown3,
        fun _ _ _ => rfl⟩ hcap2 ?_ (by omega) (fun e he => ?_) h.single
      · simp only [hvars3, hmade2.vars, hcount, hheap]
      · rw [length_append, length_replicate]
        omega
      · obtain ⟨heap, hget, himp⟩ := h.strings e he
        have hlte := lt_next hget
        obtain ⟨hea, heo⟩ := hstr e he
        exact ⟨by omega, by omega, heap, (get_set_ne heo _).trans (hkeep _ _ hea (hmade2.objs.keep _ _ hget)),
          himp⟩
    · simp only [hvars3, hmade2.vars]
      exact hheap
    · simp only
      omega

end Exyde.Libc
