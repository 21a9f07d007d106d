import Exyde.Libc.EnvChange

/-! # Editing the arrays

The array of pointers and the array of flags are changed side by side. A string is given
back only if its flag says so, and then no other entry points to it. -/

namespace Exyde.Libc

open Exyde.Lib List Objects

variable {s s' s1 : EnvState} {v : EnvVars} {p i n arr own cap : Nat} {name value : CStr}
  {es pre post : List Entry} {e e' : Entry} {A F rest : List (Option Nat)} {tail : List Nat}

theorem Edits.symm (h : Edits s arr own v A F s') : Edits s own arr v F A s' :=
  ⟨h.vars, h.flags, h.pointers, fun r ho ha => h.others r ha ho⟩

theorem Edits.storeArr (h : Edits s arr own v A F s1) (hne : arr ≠ own) (hi : i < A.length) (x : Nat) :
    Trap.Ends (storeCell arr i x) s1 fun _ s' => Edits s arr own v (A.set i (some x)) F s' := by
  refine ⟨_, _, storeCell_eq h.pointers hi x, h.vars, get_set_self h.pointers _, ?_, fun r ha ho => ?_⟩
  · exact (get_set_ne hne.symm _).trans h.flags
  · exact (get_set_ne ha _).trans (h.others r ha ho)

theorem Edits.storeOwn (h : Edits s arr own v A F s1) (hne : arr ≠ own) (hi : i < F.length) (x : Nat) :
    Trap.Ends (storeCell own i x) s1 fun _ s' => Edits s arr own v A (F.set i (some x)) s' :=
  (h.symm.storeArr hne.symm hi x).mono fun _ _ h' => h'.symm

theorem Edits.setVars (h : Edits s arr own v A F s1) (f : EnvVars → EnvVars) :
    Trap.Ends (setVars f) s1 fun _ s' => Edits s arr own (f v) A F s' :=
  .change ⟨congrArg f h.vars, h.pointers, h.flags, h.others⟩

theorem Owned.vars_eq (h : Owned s.objs s.vars es) (hheap : s.vars.envIsOwned = true) :
    s.vars = ⟨s.vars.envArr, s.vars.envArr, s.vars.envOwned, s.vars.envCap, es.length, true⟩ := by
  have henv := h.environ
  have hcount := h.count
  cases hv : s.vars
  rw [hv] at henv hcount hheap
  simp only at henv hcount hheap ⊢
  rw [henv, hcount, hheap]

/-! ## One entry -/

theorem dropString_ends (h : Rep s (pre ++ e :: post)) (hheap : s.vars.envIsOwned = true) :
    Trap.Ends (dropString s.vars pre.length) s fun _ s' => s'.vars = s.vars ∧
      ∀ r, r ≠ e.ptr ∨ e.own = false → s'.objs.get r = s.objs.get r := by
  obtain ⟨_, _, ⟨rest, harr, _⟩, ⟨tail, hflags, _⟩, _, _⟩ := h.owned hheap
  obtain ⟨heap, hget, himp⟩ := h.strings e (by simp)
  have hflag : s.objs.load s.vars.envOwned pre.length = some e.own.toNat := by
    rw [load_eq hflags]
    simp [flagCells]
  refine .bind ⟨_, _, loadCell_eq hflag, ?_⟩
  cases hown : e.own with
  | false => exact .pure ⟨rfl, fun _ _ => rfl⟩
  | true =>
    rw [himp hown] at hget
    refine .bind ⟨_, _, loadCell_eq (load_arr_at harr), ?_⟩
    refine ⟨_, _, free_eq hget, rfl, fun r hr => ?_⟩
    rcases hr with hr | hr
    · exact get_set_ne hr _
    · cases hr

theorem dropString_edits (h : Rep s (pre ++ e :: post)) (hheap : s.vars.envIsOwned = true) :
    Trap.Ends (dropString s.vars pre.length) s fun _ s' =>
      (∃ rest tail, Edits s' s.vars.envArr s.vars.envOwned
        ⟨s.vars.envArr, s.vars.envArr, s.vars.envOwned, s.vars.envCap, (pre ++ e :: post).length, true⟩
        (arrCells (pre ++ e :: post) rest) (flagCells (pre ++ e :: post) tail) s' ∧
        (pre ++ e :: post).length + 1 + rest.length = s.vars.envCap ∧
        (pre ++ e :: post).length + tail.length = s.vars.envCap) ∧
      ∀ r, r ≠ e.ptr ∨ e.own = false → s'.objs.get r = s.objs.get r := by
  obtain ⟨henv, hcount, ⟨rest, harr, hcap⟩, ⟨tail, hflags, hlen⟩, hapart, hstr⟩ := h.owned hheap
  refine (dropString_ends h hheap).mono fun _ s' hs' => ⟨⟨rest, tail, ?_, hcap, hlen⟩, hs'.2⟩
  obtain ⟨hea, heo⟩ := hstr e (by simp)
  refine ⟨hs'.1.trans ((h.owned hheap).vars_eq hheap), ?_, ?_, fun _ _ _ => rfl⟩
  · exact (hs'.2 _ (.inl hea.symm)).trans harr
  · exact (hs'.2 _ (.inl heo.symm)).trans hflags

theorem Rep.strings_kept (h : Rep s (pre ++ e :: post)) (hheap : s.vars.envIsOwned = true)
    (hkeep : ∀ r, r ≠ e.ptr ∨ e.own = false → s'.objs.get r = s.objs.get r) :
    ∀ e0 ∈ pre ++ post, e0.ptr ≠ s.vars.envArr ∧ e0.ptr ≠ s.vars.envOwned ∧
      ∃ heap, s'.objs.get e0.ptr = some ⟨strCells e0.str.val, heap⟩ ∧ (e0.own = true → heap = true) := by
  intro e0 he0
  have hmem : e0 ∈ pre ++ e :: post := by
    rcases mem_append.mp he0 with hin | hin
    · exact mem_append_left _ hin
    · exact mem_append_right _ (mem_cons_of_mem _ hin)
  obtain ⟨heap, hget, himp⟩ := h.strings e0 hmem
  obtain ⟨hea, heo⟩ := (h.owned hheap).strings e0 hmem
  have hne : e0.ptr ≠ e.ptr ∨ e.own = false := by
    cases hown : e.own with
    | false => exact .inr rfl
    | true =>
      obtain ⟨_, hpost, hcross⟩ := pairwise_append.mp h.single
      rcases mem_append.mp he0 with hin | hin
      · exact .inl (hcross e0 hin e mem_cons_self (.inr hown))
      · exact .inl ((pairwise_cons.mp hpost).1 e0 hin (.inl hown)).symm
  exact ⟨hea, heo, heap, (hkeep _ hne).trans hget, himp⟩

/-- A new string of our own, that nothing points to yet. -/
structure NewString (s : EnvState) (es : List Entry) (e : Entry) : Prop where
  own : e.own = true
  str : s.objs.get e.ptr = some ⟨strCells e.str.val, true⟩
  others : ∀ e0 ∈ es, e0.ptr ≠ e.ptr
  arr : e.ptr ≠ s.vars.envArr
  flags : e.ptr ≠ s.vars.envOwned

theorem Made.newString (hmade : Made s s' p (strCells (entryStr name value).val)) (h : Rep s es)
    (hheap : s.vars.envIsOwned = true) : NewString s' es ⟨p, entryStr name value, true⟩ := by
  obtain ⟨_, _, ⟨rest, harr, _⟩, ⟨tail, hflags, _⟩, _, _⟩ := h.owned hheap
  have hla := hmade.later
  have hlt := lt_next harr
  have hlt' := lt_next hflags
  refine ⟨rfl, hmade.block, fun e0 he0 => ?_, ?_, ?_⟩
  · obtain ⟨heap, hget, _⟩ := h.strings e0 he0
    have := lt_next hget
    simp only
    omega
  · rw [hmade.vars]
    simp only
    omega
  · rw [hmade.vars]
    simp only
    omega

theorem replaceSlot_ends (h : Rep s (pre ++ e :: post)) (hheap : s.vars.envIsOwned = true)
    (hnew : NewString s (pre ++ e :: post) e') :
    Trap.Ends (do
        dropString s.vars pre.length
        storeCell s.vars.envArr pre.length e'.ptr
        storeCell s.vars.envOwned pre.length 1
        pure 0 : EnvM Int) s fun r s' => r = 0 ∧ Rep s' (pre ++ e' :: post) := by
  have hne := (h.owned hheap).apart
  refine .bind ((dropString_edits h hheap).mono fun _ s1 h1 => ?_)
  obtain ⟨⟨rest, tail, hedit, hcap, hlen⟩, hkeep⟩ := h1
  refine .bind ((hedit.storeArr hne (by rw [arrCells_length]; simp; omega) e'.ptr).mono
    fun _ s2 hedit2 => ?_)
  refine .bind ((hedit2.storeOwn hne (by simp [flagCells]) 1).mono fun _ s3 hedit3 => ?_)
  refine .pure ⟨rfl, ?_⟩
  have harr : (arrCells (pre ++ e :: post) rest).set pre.length (some e'.ptr) =
      arrCells (pre ++ e' :: post) rest := by simp [arrCells]
  have hflags : (flagCells (pre ++ e :: post) tail).set pre.length (some 1) =
      flagCells (pre ++ e' :: post) tail := by simp [flagCells, hnew.own]
  have hlength : (pre ++ e :: post).length = (pre ++ e' :: post).length := by simp
  rw [harr, hflags, hlength] at hedit3
  rw [hlength] at hcap hlen
  refine hedit3.rep hcap hlen hne (fun e0 he0 => ?_) ?_
  · rw [mem_append, mem_cons] at he0
    have hcases : e0 = e' ∨ e0 ∈ pre ++ post := by
      rw [mem_append]
      exact or_left_comm.mp he0
    rcases hcases with rfl | hin
    · refine ⟨hnew.arr, hnew.flags, true, ?_, fun _ => rfl⟩
      exact (hkeep _ (.inl (hnew.others e (by simp)).symm)).trans hnew.str
    · exact h.strings_kept hheap hkeep e0 hin
  · obtain ⟨hpre, hpost, hcross⟩ := pairwise_append.mp h.single
    refine pairwise_append.mpr ⟨hpre, pairwise_cons.mpr ⟨fun b hb _ => ?_,
      (pairwise_cons.mp hpost).2⟩, fun a ha b hb hown => ?_⟩
    · exact (hnew.others b (by simp [hb])).symm
    · rcases mem_cons.mp hb with rfl | hb
      · exact hnew.others a (by simp [ha])
      · exact hcross a ha b (mem_cons_of_mem _ hb) hown

theorem appendSlot_ends (h : Rep s es) (hheap : s.vars.envIsOwned = true)
    (hroom : es.length + 2 ≤ s.vars.envCap) (hnew : NewString s es e') :
    Trap.Ends (do
        storeCell s.vars.envArr s.vars.envCount e'.ptr
        storeCell s.vars.envOwned s.vars.envCount 1
        setVars fun v => { v with envCount := v.envCount + 1 }
        storeCell s.vars.envArr (s.vars.envCount + 1) 0
        pure 0 : EnvM Int) s fun r s' => r = 0 ∧ Rep s' (es ++ [e']) := by
  have hvars := (h.owned hheap).vars_eq hheap
  obtain ⟨henv, hcount, ⟨rest, harr, hcap⟩, ⟨tail, hflags, hlen⟩, hne, hstr⟩ := h.owned hheap
  rw [hcount]
  have hedit : Edits s s.vars.envArr s.vars.envOwned
      ⟨s.vars.envArr, s.vars.envArr, s.vars.envOwned, s.vars.envCap, es.length, true⟩
      (arrCells es rest) (flagCells es tail) s := ⟨hvars, harr, hflags, fun _ _ _ => rfl⟩
  cases rest with
  | nil =>
    rw [length_nil] at hcap
    omega
  | cons y rest =>
  cases tail with
  | nil =>
    rw [length_nil] at hlen
    omega
  | cons z tail =>
  rw [length_cons] at hcap hlen
  refine .bind ((hedit.storeArr hne (by rw [arrCells_length]; omega) e'.ptr).mono fun _ s1 h1 => ?_)
  refine .bind ((h1.storeOwn hne (by simp [flagCells]) 1).mono fun _ s2 h2 => ?_)
  refine .bind ((h2.setVars _).mono fun _ s3 h3 => ?_)
  refine .bind ((h3.storeArr hne (by rw [length_set, arrCells_length]; simp) 0).mono
    fun _ s4 h4 => .pure ⟨rfl, ?_⟩)
  have hpointers : ((arrCells es (y :: rest)).set es.length (some e'.ptr)).set (es.length + 1) (some 0) =
      arrCells (es ++ [e']) rest := by
    simp [arrCells, set_append_right]
  have hflagged : (flagCells es (z :: tail)).set es.length (some 1) = flagCells (es ++ [e']) tail := by
    simp [flagCells, hnew.own, set_append_right]
  rw [hpointers, hflagged] at h4
  have hlength : (es ++ [e']).length = es.length + 1 := by simp
  simp only [← hlength] at h4
  refine h4.rep (by rw [hlength]; omega) (by rw [hlength]; omega) hne (fun e0 he0 => ?_) ?_
  · rcases mem_append.mp he0 with hin | hin
    · obtain ⟨heap, hget, himp⟩ := h.strings e0 hin
      exact ⟨(hstr e0 hin).1, (hstr e0 hin).2, heap, hget, himp⟩
    · rw [mem_singleton.mp hin]
      exact ⟨hnew.arr, hnew.flags, true, hnew.str, fun _ => rfl⟩
  · refine pairwise_append.mpr ⟨h.single, pairwise_singleton _ _, fun a ha b hb _ => ?_⟩
    rw [mem_singleton.mp hb]
    exact hnew.others a ha

theorem Edits.loadArr (h : Edits s arr own v A F s1) {x : Nat} (hx : A[i]? = some (some x)) :
    loadCell arr i s1 = some (x, s1) :=
  loadCell_eq (by rw [load_eq h.pointers, hx]; rfl)

theorem Edits.loadOwn (h : Edits s arr own v A F s1) {x : Nat} (hx : F[i]? = some (some x)) :
    loadCell own i s1 = some (x, s1) :=
  h.symm.loadArr hx

theorem closeGap_ends {y z : Option Nat} {B G : List (Option Nat)} (hne : arr ≠ own)
    (h : Edits s arr own v (pre.map (fun e => some e.ptr) ++ y :: (post.map (fun e => some e.ptr) ++ B))
      (pre.map (fun e => some e.own.toNat) ++ z :: (post.map (fun e => some e.own.toNat) ++ G)) s1) :
    Trap.Ends (Trap.forEach (fun i => do
        let p ← loadCell arr (i + 1)
        storeCell arr i p
        let x ← loadCell own (i + 1)
        storeCell own i x) (List.range' pre.length post.length)) s1 fun _ s' =>
      ∃ y z, Edits s arr own v ((pre ++ post).map (fun e => some e.ptr) ++ y :: B)
        ((pre ++ post).map (fun e => some e.own.toNat) ++ z :: G) s' := by
  induction post generalizing pre y z s1 with
  | nil =>
    rw [append_nil]
    exact .pure ⟨y, z, h⟩
  | cons e post ih =>
    refine .bind (.bind ⟨_, _, h.loadArr (x := e.ptr) (by simp), ?_⟩)
    refine .bind ((h.storeArr hne (by simp) e.ptr).mono fun _ s2 h2 => ?_)
    refine .bind ⟨_, _, h2.loadOwn (x := e.own.toNat) (by simp), ?_⟩
    refine (h2.storeOwn hne (by simp) e.own.toNat).mono fun _ s3 h3 => ?_
    have hnext : Edits s arr own v
        ((pre ++ [e]).map (fun e => some e.ptr) ++ some e.ptr :: (post.map (fun e => some e.ptr) ++ B))
        ((pre ++ [e]).map (fun e => some e.own.toNat) ++
          some e.own.toNat :: (post.map (fun e => some e.own.toNat) ++ G)) s3 := by
      simpa using h3
    have hend := ih hnext
    simpa using hend

theorem removeSlot_ends (h : Rep s (pre ++ e :: post)) (hheap : s.vars.envIsOwned = true) :
    Trap.Ends (do
        dropString s.vars pre.length
        closeGap s.vars.envArr s.vars.envOwned pre.length s.vars.envCount
        setVars fun v => { v with envCount := v.envCount - 1 }
        storeCell s.vars.envArr (s.vars.envCount - 1) 0
        storeCell s.vars.envOwned (s.vars.envCount - 1) 0
        pure 0 : EnvM Int) s fun r s' => r = 0 ∧ Rep s' (pre ++ post) := by
  have hne := (h.owned hheap).apart
  have hcount : s.vars.envCount = (pre ++ post).length + 1 := by
    rw [(h.owned hheap).count]
    simp
    omega
  have hrounds : s.vars.envCount - 1 - pre.length = post.length := by
    rw [hcount, length_append]
    omega
  refine .bind ((dropString_edits h hheap).mono fun _ s1 h1 => ?_)
  obtain ⟨⟨rest, tail, hedit, hcap, hlen⟩, hkeep⟩ := h1
  rw [closeGap, hrounds, hcount, Nat.add_sub_cancel]
  have hlength : (pre ++ e :: post).length = (pre ++ post).length + 1 := by
    simp
    omega
  have hgapped : arrCells (pre ++ e :: post) rest = pre.map (fun e => some e.ptr) ++
      some e.ptr :: (post.map (fun e => some e.ptr) ++ some 0 :: rest) := by simp [arrCells]
  have hgapped' : flagCells (pre ++ e :: post) tail = pre.map (fun e => some e.own.toNat) ++
      some e.own.toNat :: (post.map (fun e => some e.own.toNat) ++ tail.map some) := by simp [flagCells]
  rw [hlength, hgapped, hgapped'] at hedit
  refine .bind ((closeGap_ends hne hedit).mono fun _ s2 h2 => ?_)
  obtain ⟨y, z, hedit2⟩ := h2
  refine .bind ((hedit2.setVars _).mono fun _ s3 hedit3 => ?_)
  refine .bind ((hedit3.storeArr hne (by simp) 0).mono fun _ s4 hedit4 => ?_)
  refine .bind ((hedit4.storeOwn hne (by simp) 0).mono fun _ s5 hedit5 => .pure ⟨rfl, ?_⟩)
  have harr : ((pre ++ post).map (fun e => some e.ptr) ++ y :: some 0 :: rest).set (pre ++ post).length
      (some 0) = arrCells (pre ++ post) (some 0 :: rest) := by
    simp [arrCells]
  have hflags : ((pre ++ post).map (fun e => some e.own.toNat) ++ z :: tail.map some).set
      (pre ++ post).length (some 0) = flagCells (pre ++ post) (0 :: tail) := by
    simp [flagCells]
  rw [harr, hflags] at hedit5
  simp only [Nat.add_sub_cancel] at hedit5
  refine hedit5.rep (by rw [length_cons]; omega) (by rw [length_cons]; omega) hne
    (h.strings_kept hheap hkeep) ?_
  exact h.single.sublist (List.Sublist.append_left (sublist_cons_self _ _) _)

end Exyde.Libc
