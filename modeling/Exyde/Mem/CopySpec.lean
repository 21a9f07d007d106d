import Exyde.Mem.VmmSpec

/-! # What a copy to user memory does

Copies go through the loaded page tables. Where these are the tables of the space in
question, a copy that succeeds writes the bytes of the source at their addresses and
nothing else. -/

namespace Exyde.Mem

open Function List Option State
open Exyde.Lib (Prog Lockstep)
open Pmm (pageDown)

/-! ## Pages and bytes -/

theorem idx_val (va k : Nat) : (Fin.ofNat 512 (va >>> k)).val = va / 2 ^ k % 512 := by
  rw [Fin.val_ofNat, Nat.shiftRight_eq_div_pow]

theorem vaPath_congr {a b : Nat} (h : a / 4096 = b / 4096) : vaPath a = vaPath b := by
  have hidx : ∀ k, 12 ≤ k → (Fin.ofNat 512 (a >>> k) : Fin 512) = Fin.ofNat 512 (b >>> k) := by
    intro k hk
    obtain ⟨j, rfl⟩ := Nat.exists_eq_add_of_le hk
    apply Fin.ext
    rw [idx_val, idx_val, Nat.pow_add, ← Nat.div_div_eq_div_mul, ← Nat.div_div_eq_div_mul]
    exact congrArg (fun x => x / 2 ^ j % 512) h
  simp only [vaPath, idxPt, idxPd, idxPdpt, idxPml4, hidx 12 (by decide), hidx 21 (by decide),
    hidx 30 (by decide), hidx 39 (by decide)]

theorem vaPath_inj {a b : Nat} (ha : a < 2 ^ 48) (hb : b < 2 ^ 48) (h : vaPath a = vaPath b) :
    a / 4096 = b / 4096 := by
  simp only [vaPath, List.cons.injEq, and_true, idxPt, idxPd, idxPdpt, idxPml4] at h
  have hval : ∀ {k}, (Fin.ofNat 512 (a >>> k) : Fin 512) = Fin.ofNat 512 (b >>> k) →
      a / 2 ^ k % 512 = b / 2 ^ k % 512 := by
    intro k hk
    rw [← idx_val, ← idx_val, hk]
  have h1 := hval h.1
  have h2 := hval h.2.1
  have h3 := hval h.2.2.1
  have h4 := hval h.2.2.2
  omega

theorem byte_setByte (s : State) (f g : Nat) {o o' : Nat} (ho : o < 4096) (ho' : o' < 4096)
    (b : Byte) : (s.setByte f o b).byte g o' = if g = f ∧ o' = o then b else s.byte g o' := by
  by_cases hg : g = f
  · subst hg
    by_cases hw : o' / 8 = o / 8
    · rw [byte, setByte, setWord_mem, update_self, hw,
        update_self, Lib.getByte_setByte _ _ _ _ (by omega)]
      by_cases hoo : o' = o
      · rw [if_pos (by rw [hoo]), if_pos ⟨rfl, hoo⟩]
      · rw [if_neg (by omega), if_neg fun h => hoo h.2, byte, hw]
    · have hi : (Fin.ofNat 512 (o' / 8) : Fin 512) ≠ Fin.ofNat 512 (o / 8) := by
        intro h
        have hval := congrArg Fin.val h
        simp only [Fin.val_ofNat] at hval
        omega
      rw [if_neg fun h => hw (by rw [h.2]), byte, byte, setByte,
        setWord_mem, update_self, update_of_ne hi]
  · rw [if_neg fun h => hg h.1, byte, byte, setByte, setWord_mem,
      update_of_ne hg]

theorem setByte_mem_of_ne (s : State) {f g : Nat} (h : g ≠ f) (o : Nat) (b : Byte) :
    (s.setByte f o b).mem g = s.mem g := by
  rw [setByte, setWord_mem, update_of_ne h]

/-! ## Copies -/

section Copy

variable {s t s0 : State} {r va : Nat} {space : Space} {bs : List Byte} {f : Nat}

theorem translate_eq (h : Layout s) (hs : s.space r = some space) (hcr3 : s.cr3 = space.pml4)
    (hr : r ≠ 0) (hva : UserVa va) : s.translate va = s.node r (vaPath va) := by
  have hopen : Opens r [] (idxPml4 va) := fun _ => by simp [hr, idxPml4_ne_zero hva.1 hva.2]
  have hwalk := walkFrom_open (node_root hs) hopen s.cr3 (by rw [hcr3])
  simp only [State.translate, hwalk]
  cases hf : s.node r (vaTable va) with
  | none =>
    rw [vaPath_eq, node_cons_none hf]
    rfl
  | some f =>
    have hne : f * 4096 ≠ 0 := Nat.mul_ne_zero (h.nonzero hf) (by decide)
    simp only [map_some, getD_some, if_neg hne, mul_div_page]
    rw [vaPath_eq, node_cons_of hf]
    split
    next hp =>
      exact (childOf_open (by simp) (opens_cons _ _ _ _) hp fun h3 => absurd h3 (by simp)).symm
    next hp => exact (childOf_absent (by simpa using hp)).symm

theorem Twin.setByte_self (hf : ¬ s.IsTable f) (o : Nat) (b : Byte) : Twin s (s.setByte f o b) where
  pmm := rfl
  space := rfl
  nextSpace := rfl
  heapEnd := rfl
  cr3 := rfl
  tables := by
    intro g hg
    have hgf : g ≠ f := fun hgf => hf (hgf ▸ hg)
    exact setByte_mem_of_ne s hgf o b

theorem Twin.trans {u : State} (h : Twin s t) (h' : Twin t u) : Twin s u where
  pmm := h'.pmm.trans h.pmm
  space := h'.space.trans h.space
  nextSpace := h'.nextSpace.trans h.nextSpace
  heapEnd := h'.heapEnd.trans h.heapEnd
  cr3 := h'.cr3.trans h.cr3
  tables hf := (h'.tables (h.isTable.mpr hf)).trans (h.tables hf)

theorem Twin.setByte (h : Twin s t) (hf : ¬ s.IsTable f) (o : Nat) (b : Byte) :
    Twin (s.setByte f o b) (t.setByte f o b) := by
  refine { h with tables := fun {g} hg => ?_ }
  have hg := (Twin.setByte_self hf o b).isTable.mp hg
  have hgf : g ≠ f := fun hgf => hf (hgf ▸ hg)
  rw [setByte_mem_of_ne t hgf, setByte_mem_of_ne s hgf, h.tables hg]

/-- The bytes `bs` were written at `va` in the space `r`, and nothing else. -/
structure Wrote (r va : Nat) (bs : List Byte) (s s' : State) : Prop where
  mapped : ∀ a, va ≤ a → a < va + bs.length → UserVa a ∧ ∃ g, s.node r (vaPath a) = some g
  byte : ∀ a g, UserVa a → s.node r (vaPath a) = some g →
    s'.byte g (a % 4096) =
      if va ≤ a ∧ a < va + bs.length then bs.getD (a - va) 0#8 else s.byte g (a % 4096)
  idle : ∀ g, s.forest.Unplaced g → s'.mem g = s.mem g

theorem Wrote.nil (r va : Nat) (s : State) : Wrote r va [] s s where
  mapped a h1 h2 := absurd h2 (by simp only [length_nil]; omega)
  byte a g _ _ := by rw [if_neg (by simp only [length_nil]; omega)]
  idle _ _ := rfl

theorem Wrote.cons (h : Layout s) (hva : UserVa va) (hf : s.node r (vaPath va) = some f)
    {b : Byte} {s' : State} (hw : Wrote r (va + 1) bs (s.setByte f (va % 4096) b) s') :
    Wrote r va (b :: bs) s s' := by
  have htwin : Twin s (s.setByte f (va % 4096) b) :=
    .setByte_self (h.not_table_of_leaf (vaPath_length va) hf) _ _
  have hlt : ∀ a, a % 4096 < 4096 := fun a => Nat.mod_lt a (by decide)
  refine ⟨fun a h1 h2 => ?_, fun a g ha hg => ?_, fun g hg => ?_⟩
  · rw [length_cons] at h2
    by_cases hav : a = va
    · subst hav
      exact ⟨hva, f, hf⟩
    · obtain ⟨ha, g, hg⟩ := hw.mapped a (by omega) (by omega)
      exact ⟨ha, g, by rw [← htwin.node]; exact hg⟩
  · rw [hw.byte a g ha (by rw [htwin.node]; exact hg), byte_setByte _ _ _ (hlt va) (hlt a)]
    by_cases hav : a = va
    · subst hav
      have hgf : g = f := Option.some.inj (hg.symm.trans hf)
      subst hgf
      simp
    · -- another address is another byte of this page, or a byte of another page
      have hne : ¬ (g = f ∧ a % 4096 = va % 4096) := by
        intro ⟨hgf, hoff⟩
        subst hgf
        obtain ⟨_, hpath⟩ := h.distinct hg hf
        have hpage := vaPath_inj ha.2 hva.2 hpath
        omega
      rw [if_neg hne, length_cons]
      by_cases hin : va ≤ a ∧ a < va + (bs.length + 1)
      · rw [if_pos (by omega), if_pos hin, show a - va = a - (va + 1) + 1 by omega,
          getD_cons_succ]
      · rw [if_neg (by omega), if_neg hin]
  · have hgf : g ≠ f := fun hgf => hg r _ (hgf ▸ hf)
    have hun : (s.setByte f (va % 4096) b).forest.Unplaced g :=
      fun r' p hn => hg r' p ((htwin.node r' p).symm.trans hn)
    rw [hw.idle g hun, setByte_mem_of_ne s hgf]

theorem memcpyToUser_spec (h : Layout s) (hs : s.space r = some space) (hcr3 : s.cr3 = space.pml4)
    (hr : r ≠ 0) (hva : ∀ a, va ≤ a → a < va + bs.length → UserVa a) :
    Lockstep Twin (memcpyToUser va bs) s fun ok s' =>
      Twin s s' ∧ (ok = true → Wrote r va bs s s') := by
  induction bs generalizing va s with
  | nil => exact .pure ⟨.refl s, fun _ => .nil r va s⟩
  | cons b bs ih =>
    have huser := hva va (Nat.le_refl _) (by rw [length_cons]; omega)
    refine .bind (.read (fun t ht => ?_) ?_)
    · rw [translate_eq h hs hcr3 hr huser, translate_eq (ht.layout h) (ht.space ▸ hs)
        (ht.cr3.trans hcr3) hr huser, ht.node]
    rw [translate_eq h hs hcr3 hr huser]
    cases hf : s.node r (vaPath va) with
    | none => exact .pure ⟨.refl s, fun h0 => absurd h0 (by decide)⟩
    | some f =>
      have hleaf := h.not_table_of_leaf (vaPath_length va) hf
      have htwin := Twin.setByte_self hleaf (va % 4096) b
      refine .bind (.change (fun t ht => ht.setByte hleaf _ _) ?_)
      refine (ih (htwin.layout h) hs hcr3 fun a h1 h2 => ?_).mono fun ok s' ⟨htw, hok⟩ => ?_
      · exact hva a (by omega) (by rw [length_cons]; omega)
      · exact ⟨htwin.trans htw, fun hk => (hok hk).cons h huser hf⟩

/-- **`user_range_ok` is exact**: the range is in the user window, and every page that meets it
is mapped for the user. -/
theorem userRangeOk_iff {n : Nat} (hn : n < 2 ^ 64) (hva : va < 2 ^ 64) :
    s.userRangeOk r va n = true ↔ n = 0 ∨ userVaBase ≤ va ∧ va + n ≤ userVaTop ∧
      ∀ page, page % 4096 = 0 → page < va + n → va < page + 4096 → s.userPage r page = true := by
  by_cases h0 : n = 0
  · simp [userRangeOk, h0]
  have hhalf : rangeInUserHalf va n = true ↔ userVaBase ≤ va ∧ va + n ≤ userVaTop := by
    simp only [rangeInUserHalf, if_neg h0, Bool.and_eq_true, Bool.not_eq_true', decide_eq_false_iff_not]
    simp only [userVaBase, userVaTop]
    omega
  rw [userRangeOk, if_neg h0, or_iff_right h0, ← and_assoc, ← hhalf]
  cases hin : rangeInUserHalf va n with
  | false => simp
  | true =>
    have hdown : pageDown va = va / 4096 * 4096 := rfl
    simp only [Bool.not_true, Bool.false_eq_true, if_false, List.all_eq_true, List.mem_range, true_and]
    constructor
    · intro hall page h1 h2 h3
      have hpage : page = pageDown va + (page / 4096 - va / 4096) * 4096 := by omega
      rw [hpage]
      exact hall _ (by omega)
    · exact fun hall i hi => hall _ (by omega) (by omega) (by omega)

theorem userRangeOk_user {n : Nat} (h : s.userRangeOk r va n = true) (hn : n < 2 ^ 64)
    (hva : va < 2 ^ 64) (a : Nat) (h1 : va ≤ a) (h2 : a < va + n) :
    UserVa a ∧ s.userPage r (pageDown a) = true := by
  obtain rfl | ⟨hlow, hhigh, hpages⟩ := (userRangeOk_iff hn hva).mp h
  · omega
  · have hdown : pageDown a = a / 4096 * 4096 := rfl
    refine ⟨?_, hpages _ (by omega) (by omega) (by omega)⟩
    simp only [userVaBase, userVaTop, UserVa] at hlow hhigh ⊢
    omega

theorem Twin.userRangeOk (ht : Twin s t) (h : Layout s) (r va n : Nat) :
    t.userRangeOk r va n = s.userRangeOk r va n := by
  simp only [State.userRangeOk, State.userPage, ht.vmmQuery h]

theorem copyToUser_spec (h : Layout s) (hs : s.space r = some space) (hcr3 : s.cr3 = space.pml4)
    (hr : r ≠ 0) (hlen : bs.length < 2 ^ 64) (hva : va < 2 ^ 64) :
    Lockstep Twin (copyToUser r va bs) s fun ok s' =>
      Twin s s' ∧ (ok = true → Wrote r va bs s s') := by
  refine .bind (.read (fun t ht => ht.userRangeOk h _ _ _) (.ite (fun hok => ?_) fun _ => ?_))
  · exact memcpyToUser_spec h hs hcr3 hr fun a h1 h2 => (userRangeOk_user hok hlen hva a h1 h2).1
  · exact .pure ⟨.refl s, fun h0 => absurd h0 (by decide)⟩

theorem userPage_mapped (h : Layout s) (hs : s.space r = some space) {a : Nat} (ha : UserVa a)
    (huser : s.userPage r (pageDown a) = true) : ∃ g, s.node r (vaPath a) = some g := by
  rw [userPage] at huser
  cases hq : s.vmmQuery r (pageDown a) with
  | none => rw [hq] at huser; cases huser
  | some q =>
    obtain ⟨-, f, hf, -⟩ := vmmQuery_node h hs hq
    have hpva : UserVa (pageDown a) := by
      simp only [UserVa, userVaBase, pageDown] at ha ⊢
      omega
    rw [hpva.home, vaPath_congr (show pageDown a / 4096 = a / 4096 from Nat.mul_div_cancel _ (by decide))] at hf
    exact ⟨f, hf⟩

theorem memcpyToUser_mapped (h : Layout s) (hs : s.space r = some space) (hcr3 : s.cr3 = space.pml4)
    (hr : r ≠ 0) (hva : ∀ a, va ≤ a → a < va + bs.length → UserVa a ∧ ∃ g, s.node r (vaPath a) = some g) :
    (memcpyToUser va bs s).1 = true := by
  induction bs generalizing va s with
  | nil => rfl
  | cons b bs ih =>
    obtain ⟨huser, f, hf⟩ := hva va (Nat.le_refl _) (by rw [length_cons]; omega)
    have htwin := Twin.setByte_self (h.not_table_of_leaf (vaPath_length va) hf) (va % 4096) b
    have hstep : memcpyToUser va (b :: bs) s = memcpyToUser (va + 1) bs (s.setByte f (va % 4096) b) := by
      have htr : s.translate va = some f := (translate_eq h hs hcr3 hr huser).trans hf
      rw [memcpyToUser, Prog.read_bind, htr]
      rfl
    rw [hstep]
    refine ih (htwin.layout h) hs hcr3 fun a h1 h2 => ?_
    obtain ⟨ha, g, hg⟩ := hva a (by omega) (by rw [length_cons]; omega)
    exact ⟨ha, g, (htwin.node r _).trans hg⟩

/-- **A copy succeeds exactly if its range passes the check.** -/
theorem copyToUser_ok (h : Layout s) (hs : s.space r = some space) (hcr3 : s.cr3 = space.pml4)
    (hr : r ≠ 0) (hlen : bs.length < 2 ^ 64) (hva : va < 2 ^ 64) :
    (copyToUser r va bs s).1 = s.userRangeOk r va bs.length := by
  show ((if s.userRangeOk r va bs.length then memcpyToUser va bs else pure false) s).1 = _
  cases hok : s.userRangeOk r va bs.length with
  | false => rfl
  | true =>
    refine memcpyToUser_mapped h hs hcr3 hr fun a h1 h2 => ?_
    obtain ⟨ha, hpage⟩ := userRangeOk_user hok hlen hva a h1 h2
    exact ⟨ha, userPage_mapped h hs ha hpage⟩

end Copy

end Exyde.Mem
