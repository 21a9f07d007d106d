import Exyde.Libc.QsortSteps
import Mathlib.Order.Interval.Set.Basic

/-! # Splitting a range around its pivot

The two scans run towards each other. After an exchange both step on without a look, so
they may meet at an element that neither has seen. It goes behind the pivot all the
same: the split is wrong exactly if that element is below the pivot.

The choice of the pivot, the scans and the split are given as functions of the sequence
of elements. The program computes these functions, and what they do to the order is
shown for sequences alone. -/

namespace Exyde.Libc

open Exyde.Lib Set

/-! ## The split of a sequence -/

section Sequence

variable {α : Type} (le : α → α → Prop) [DecidableRel le]

def ordered (x y : Nat) (a : Nat → α) : Nat → α :=
  if le (a x) (a y) then a else a ∘ Equiv.swap x y

/-- The median of three is the pivot and stands next to the last element. -/
def pivoted (l h : Nat) (a : Nat → α) : Nat → α :=
  let mid := l + (h - l) / 2
  ordered le mid h (ordered le l h (ordered le l mid a)) ∘ Equiv.swap mid (h - 1)

/-- Where the scan upwards from `x` stops, with the pivot at `p`. -/
def stopUp (a : Nat → α) (p z x : Nat) : Nat :=
  if x < z ∧ le (a x) (a p) then stopUp a p z (x + 1) else x
termination_by z - x

/-- Where the scan downwards from `z` stops. -/
def stopDown (a : Nat → α) (p y z : Nat) : Nat :=
  if y < z ∧ le (a p) (a z) then stopDown a p y (z - 1) else z
termination_by z - y

structure StopsUp (a : Nat → α) (p z x y : Nat) : Prop where
  start : x ≤ y
  stop : y ≤ z ∨ y = x
  passed : ∀ k, x ≤ k → k < y → le (a k) (a p)
  high : y < z → ¬ le (a y) (a p)

theorem stopUp_stops (a : Nat → α) (p z x : Nat) : StopsUp le a p z x (stopUp le a p z x) := by
  fun_induction stopUp le a p z x with
  | case1 x h ih =>
    have hstart := ih.start
    have hstop := ih.stop
    refine ⟨by omega, by omega, fun k h1 h2 => ?_, ih.high⟩
    by_cases hk : k = x
    · exact hk ▸ h.2
    · exact ih.passed k (by omega) h2
  | case2 x h => exact ⟨le_refl x, .inr rfl, fun k h1 h2 => by omega, fun hlt hle => h ⟨hlt, hle⟩⟩

structure StopsDown (a : Nat → α) (p y z w : Nat) : Prop where
  start : w ≤ z
  passed : ∀ k, w < k → k ≤ z → le (a p) (a k)
  low : y < w → ¬ le (a p) (a w)

theorem stopDown_stops (a : Nat → α) (p y z : Nat) :
    StopsDown le a p y z (stopDown le a p y z) := by
  fun_induction stopDown le a p y z with
  | case1 z h ih =>
    have hstart := ih.start
    refine ⟨by omega, fun k h1 h2 => ?_, ih.low⟩
    by_cases hk : k = z
    · exact hk ▸ h.2
    · exact ih.passed k h1 (by omega)
  | case2 z h => exact ⟨le_refl z, fun k h1 h2 => by omega, fun hlt hle => h ⟨hlt, hle⟩⟩

/-- The two scans and the exchanges, until the scans meet. -/
def parted (p x z : Nat) (a : Nat → α) : (Nat → α) × Nat :=
  let y := stopUp le a p z x
  let w := stopDown le a p y z
  if y < w then parted p (y + 1) (w - 1) (a ∘ Equiv.swap y w) else (a, y)
termination_by z - x
decreasing_by
  change w - 1 - (y + 1) < z - x
  have hy : x ≤ y := (stopUp_stops le a p z x).start
  have hw : w ≤ z := (stopDown_stops le a p y z).start
  clear_value w y
  omega

def split (l h : Nat) (a : Nat → α) : (Nat → α) × Nat :=
  let r := parted le (h - 1) l (h - 1) (pivoted le l h a)
  (r.1 ∘ Equiv.swap r.2 (h - 1), r.2)

variable {le} {a b : Nat → α} {l h x y z p : Nat}

theorem swap_of_ne (a : Nat → α) {k : Nat} (hx : k ≠ x) (hy : k ≠ y) :
    (a ∘ Equiv.swap x y) k = a k :=
  congrArg a (Equiv.swap_apply_of_ne_of_ne hx hy)

theorem swap_left (a : Nat → α) (x y : Nat) : (a ∘ Equiv.swap x y) x = a y :=
  congrArg a (Equiv.swap_apply_left x y)

theorem swap_right (a : Nat → α) (x y : Nat) : (a ∘ Equiv.swap x y) y = a x :=
  congrArg a (Equiv.swap_apply_right x y)

theorem swap_eqOn (hab : EqOn a b (Icc l h)) (hx : x ∈ Icc l h) (hy : y ∈ Icc l h) :
    EqOn (a ∘ Equiv.swap x y) (b ∘ Equiv.swap x y) (Icc l h) := by
  intro k hk
  refine hab ?_
  rw [Equiv.swap_apply_def]
  split_ifs <;> assumption

theorem parted_bounds (hx : x ≤ p) (hz : z ≤ p) :
    x ≤ (parted le p x z a).2 ∧ (parted le p x z a).2 ≤ p := by
  fun_induction parted le p x z a with
  | case1 x z a y w hyw ih =>
    have hy : x ≤ y := (stopUp_stops le a p z x).start
    have hw : w ≤ z := (stopDown_stops le a p y z).start
    have hrest := ih (by omega) (by omega)
    exact ⟨by omega, hrest.2⟩
  | case2 x z a y w hyw =>
    have hy := stopUp_stops le a p z x
    have hstop := hy.stop
    exact ⟨hy.start, by omega⟩

theorem split_bounds (hlh : l < h) : l ≤ (split le l h a).2 ∧ (split le l h a).2 < h := by
  have hb : l ≤ (parted le (h - 1) l (h - 1) (pivoted le l h a)).2 ∧ _ ≤ h - 1 :=
    parted_bounds (by omega) (le_refl _)
  exact ⟨hb.1, by rw [split]; omega⟩

variable (le) in
/-- No split leaves an element below the pivot behind it, in this range and in those that
come from it, with `sp` ranges below this one on the stack. Ranges of at most eight
elements are not split, and none is when the stack is full. -/
def cleanSplits (sp l h : Nat) (a : Nat → α) : Bool :=
  if h < l + 8 ∨ stackMax < sp + 2 then true
  else
    let r := split le l h a
    decide (le (r.1 r.2) (r.1 (h - 1))) &&
      (cleanSplits (if l < r.2 then sp + 1 else sp) (r.2 + 1) h r.1 && cleanSplits sp l (r.2 - 1) r.1)
termination_by h - l
decreasing_by
  all_goals
    have hb : l ≤ (split le l h a).2 ∧ (split le l h a).2 < h := split_bounds (by omega)
    omega

/-! ## Order -/

/-- The places before `x` are not above the pivot at `p`, those behind `z` not below it. -/
structure Sides (le : α → α → Prop) (l p x z : Nat) (a : Nat → α) : Prop where
  left : ∀ k, l ≤ k → k < x → le (a k) (a p)
  right : ∀ k, z < k → k ≤ p → le (a p) (a k)

omit [DecidableRel le] in
theorem Sides.meet (hsides : Sides le l p x z a) {w : Nat} (hup : StopsUp le a p z x y)
    (hdown : StopsDown le a p y z w) (hyw : w ≤ y) : Sides le l p y y a := by
  refine ⟨fun k h1 h2 => ?_, fun k h1 h2 => ?_⟩
  · by_cases hkx : k < x
    · exact hsides.left k h1 hkx
    · exact hup.passed k (by omega) h2
  · by_cases hkz : z < k
    · exact hsides.right k hkz h2
    · exact hdown.passed k (by omega) (by omega)

omit [DecidableRel le] in
theorem Sides.exchange (htotal : TotalOn le l p a) (hlx : l ≤ x) (hsides : Sides le l p x z a)
    {w : Nat} (hup : StopsUp le a p z x y) (hdown : StopsDown le a p y z w) (hyw : y < w)
    (hwp : w < p) : Sides le l p (y + 1) (w - 1) (a ∘ Equiv.swap y w) := by
  have hxy := hup.start
  have hwz := hdown.start
  have hhigh := hup.high (by omega)
  have hlow := hdown.low hyw
  have hpiv : (a ∘ Equiv.swap y w) p = a p := swap_of_ne a (by omega) (by omega)
  refine ⟨fun k h1 h2 => ?_, fun k h1 h2 => ?_⟩
  · rw [hpiv]
    by_cases hk : k = y
    · rw [hk, swap_left]
      exact (htotal p w (by omega) (by omega)).resolve_left hlow
    · rw [swap_of_ne a hk (by omega)]
      by_cases hkx : k < x
      · exact hsides.left k h1 hkx
      · exact hup.passed k (by omega) (by omega)
  · rw [hpiv]
    by_cases hk : k = w
    · rw [hk, swap_right]
      exact (htotal y p (by omega) (by omega)).resolve_left hhigh
    · rw [swap_of_ne a (by omega) hk]
      by_cases hkz : z < k
      · exact hsides.right k hkz h2
      · exact hdown.passed k (by omega) (by omega)

/-- **Where the scans meet**: the pivot has not moved, and it parts the places before the
meeting place from those behind it. -/
structure Parted (le : α → α → Prop) (l p : Nat) (a : Nat → α) (r : (Nat → α) × Nat) : Prop where
  kept : ∀ k, p ≤ k → r.1 k = a k
  sides : Sides le l p r.2 r.2 r.1

theorem parted_spec (htotal : TotalOn le l p a) (hlx : l ≤ x) (hxp : x ≤ p) (hzp : z ≤ p)
    (hsides : Sides le l p x z a) : Parted le l p a (parted le p x z a) := by
  fun_induction parted le p x z a with
  | case1 x z a y w hyw ih =>
    have hup : StopsUp le a p z x y := stopUp_stops le a p z x
    have hdown : StopsDown le a p y z w := stopDown_stops le a p y z
    have hxy := hup.start
    have hwz := hdown.start
    -- the pivot itself is not below the pivot
    have hwp : w < p := by
      have hne : w ≠ p := fun heq => hdown.low hyw (heq ▸ or_self_iff.mp (htotal w w (by omega) (by omega)))
      omega
    have hnext := ih ((Rearranges.swap a (by omega) (by omega)).totalOn htotal) (by omega) (by omega)
      (by omega) (hsides.exchange htotal hlx hup hdown hyw hwp)
    exact ⟨fun k hk => (hnext.kept k hk).trans (swap_of_ne a (by omega) (by omega)), hnext.sides⟩
  | case2 x z a y w hyw =>
    exact ⟨fun _ _ => rfl, hsides.meet (stopUp_stops le a p z x) (stopDown_stops le a p y z)
      (Nat.le_of_not_lt hyw)⟩

theorem ordered_rearranges (hx : l ≤ x ∧ x ≤ h) (hy : l ≤ y ∧ y ≤ h) :
    Rearranges l h a (ordered le x y a) := by
  unfold ordered
  split
  · exact .refl l h a
  · exact .swap a hx hy

theorem ordered_le (htotal : TotalOn le l h a) (hx : l ≤ x ∧ x ≤ h) (hy : l ≤ y ∧ y ≤ h) :
    le (ordered le x y a x) (ordered le x y a y) := by
  unfold ordered
  split
  next hle => exact hle
  next hnot =>
    rw [swap_left, swap_right]
    exact (htotal x y hx hy).resolve_left hnot

theorem pivoted_spec (htotal : TotalOn le l h a) (hlh : l + 8 ≤ h) :
    TotalOn le l h (pivoted le l h a) ∧ le (pivoted le l h a (h - 1)) (pivoted le l h a h) := by
  have hmid : l ≤ l + (h - l) / 2 ∧ l + (h - l) / 2 ≤ h := by omega
  let b := ordered le l h (ordered le l (l + (h - l) / 2) a)
  have hb : TotalOn le l h b :=
    (ordered_rearranges (by omega) (by omega)).totalOn
      ((ordered_rearranges (by omega) hmid).totalOn htotal)
  have hc : TotalOn le l h (ordered le _ h b) := (ordered_rearranges hmid (by omega)).totalOn hb
  refine ⟨(Rearranges.swap _ hmid (by omega)).totalOn hc, ?_⟩
  unfold pivoted
  rw [swap_right, swap_of_ne _ (by omega) (by omega)]
  exact ordered_le hb hmid (by omega)

/-- **Splitting a sequence**: nothing above the pivot stands before it, and nothing below it
behind it unless the element at which the scans met is below it. -/
theorem split_spec (htotal : TotalOn le l h a) (hlh : l + 8 ≤ h)
    (hsplit : split le l h a = (b, y)) :
    (∀ k, l ≤ k → k < y → le (b k) (b y)) ∧
    ((∀ k, y < k → k ≤ h → le (b y) (b k)) ↔ le (b y) (b (h - 1))) := by
  obtain ⟨htot, hlast⟩ := pivoted_spec htotal hlh
  have hb : l ≤ (parted le (h - 1) l (h - 1) (pivoted le l h a)).2 ∧ _ ≤ h - 1 :=
    parted_bounds (by omega) (le_refl _)
  obtain ⟨hkept, hsides⟩ := parted_spec (l := l) (x := l) (z := h - 1)
    (fun x y hx hy => htot x y (by omega) (by omega)) (le_refl l) (by omega) (le_refl (h - 1))
    ⟨fun k h1 h2 => by omega, fun k h1 h2 => by omega⟩
  rw [split, Prod.mk.injEq] at hsplit
  obtain ⟨rfl, rfl⟩ := hsplit
  generalize parted le (h - 1) l (h - 1) (pivoted le l h a) = r at hb hkept hsides
  have hpiv : le (r.1 (h - 1)) (r.1 (h - 1)) := by
    rw [hkept _ (le_refl _)]
    exact or_self_iff.mp (htot _ _ (by omega) (by omega))
  rw [swap_left, swap_right]
  refine ⟨fun k h1 h2 => ?_, fun hall => ?_, fun hmet k h1 h2 => ?_⟩
  · rw [swap_of_ne _ (by omega) (by omega)]
    exact hsides.left k h1 h2
  · by_cases hy : r.2 = h - 1
    · rwa [hy]
    · have := hall (h - 1) (by omega) (by omega)
      rwa [swap_right] at this
  · by_cases hkp : k = h - 1
    · rwa [hkp, swap_right]
    · rw [swap_of_ne _ (by omega) hkp]
      by_cases hkh : k = h
      · rw [hkh, hkept _ (le_refl _), hkept h (by omega)]
        exact hlast
      · exact hsides.right k h1 (by omega)

end Sequence

/-! ## The program -/

variable {σ : Type} {v : Vec} {compar : Compar σ} {s s' : SortState σ}
  {l h x y z p fuel rounds : Nat}

/-- From `s`, for a preorder that the comparison function answers by and for every sequence
that has the elements of the range, `P` holds. The functions look only at the range. -/
def Simulates (v : Vec) (compar : Compar σ) (l h : Nat) (s : SortState σ)
    (P : ∀ (le : List (BitVec 8) → List (BitVec 8) → Prop) [DecidableRel le],
      (Nat → List (BitVec 8)) → Prop) : Prop :=
  ∀ le [DecidableRel le], Orders v compar s.mem le → ∀ a, EqOn a (v.elem s.mem) (Icc l h) → P le a

theorem orderPair_ends (hx : x ∈ Icc l h) (hy : y ∈ Icc l h) (hh : h < v.nmemb) :
    Trap.Ends (orderPair v compar (v.ptr x) (v.ptr y)) s fun _ s' =>
      Moved v l h s s' ∧ Simulates v compar l h s fun le _ a =>
        EqOn (ordered le x y a) (v.elem s'.mem) (Icc l h) := by
  have hxh := hx.2
  have hyh := hy.2
  refine .bind ((callCompar_ends (by omega) (by omega)).mono fun c s1 hc => ?_)
  obtain ⟨hmem, hstack, hord⟩ := hc
  refine .ite (fun hpos => swapBytes_ends (by omega) (by omega) ?_) fun hneg => .pure ?_
  · refine ⟨(Moved.same hmem hstack).trans (.swap hx hy hh), fun le _ hle a ha => ?_⟩
    have hnot := mt (hord le hle).1.mpr (by omega)
    beta_reduce
    rw [v.elem_swap, hmem, ordered, ha hx, ha hy, if_neg hnot]
    exact swap_eqOn ha hx hy
  · refine ⟨.same hmem hstack, fun le _ hle a ha => ?_⟩
    beta_reduce
    rw [hmem, ordered, ha hx, ha hy, if_pos ((hord le hle).1.mp (by omega))]
    exact ha

section

variable (hsize : 0 < v.size)

include hsize

theorem medianOfThree_ends (hlh : l + 8 ≤ h) (hh : h < v.nmemb) :
    Trap.Ends (medianOfThree v compar (v.ptr l) (v.ptr h)) s fun _ s' =>
      Moved v l h s s' ∧ Simulates v compar l h s fun le _ a =>
        EqOn (pivoted le l h a) (v.elem s'.mem) (Icc l h) := by
  have hmid : v.ptr l + (v.ptr h - v.ptr l) / v.size / 2 * v.size = v.ptr (l + (h - l) / 2) := by
    rw [Vec.ptr_dist hsize, Vec.ptr, Vec.ptr, Nat.add_mul, Nat.add_assoc]
  have hlo : l ∈ Icc l h := ⟨by omega, by omega⟩
  have hm : l + (h - l) / 2 ∈ Icc l h := ⟨by omega, by omega⟩
  have hhi : h ∈ Icc l h := ⟨by omega, by omega⟩
  have hlast : h - 1 ∈ Icc l h := ⟨by omega, by omega⟩
  unfold medianOfThree
  simp only [hmid]
  refine .bind ((orderPair_ends hlo hm hh).mono fun _ s1 hs1 => ?_)
  refine .bind ((orderPair_ends hlo hhi hh).mono fun _ s2 hs2 => ?_)
  refine .bind ((orderPair_ends hm hhi hh).mono fun _ s3 hs3 => ?_)
  rw [Vec.ptr_pred (by omega)]
  refine swapBytes_ends (by omega) (by omega) ⟨?_, fun le _ hle a ha => ?_⟩
  · exact hs1.1.trans (hs2.1.trans (hs3.1.trans (.swap hm hlast hh)))
  · have hle1 := hs1.1.orders hh hle
    have hle2 := hs2.1.orders hh hle1
    rw [v.elem_swap]
    exact swap_eqOn (hs3.2 le hle2 _ (hs2.2 le hle1 _ (hs1.2 le hle a ha))) hm hlast

theorem scanUp_ends (hp : p ∈ Icc l h) (hz : z ≤ h) (hh : h < v.nmemb)
    (hlx : l ≤ x) (hfuel : z < x + fuel) (hpos : 0 < fuel) :
    Trap.Ends (scanUp v compar (v.ptr p) (v.ptr z) fuel (v.ptr x)) s fun i s' =>
      s'.mem = s.mem ∧ s'.stack = s.stack ∧ ∃ y, i = v.ptr y ∧ x ≤ y ∧ (y ≤ z ∨ y = x) ∧
        Simulates v compar l h s fun le _ a => stopUp le a p z x = y := by
  have hph := hp.2
  induction fuel generalizing x s with
  | zero => omega
  | succ fuel ih =>
    refine .ite (fun hlt => ?_) fun hge => ?_
    · have hxz : x < z := (Vec.ptr_lt_iff hsize).mp hlt
      have hx : x ∈ Icc l h := ⟨hlx, by omega⟩
      refine .bind ((callCompar_ends (by omega) (by omega)).mono fun c s1 hc => ?_)
      obtain ⟨hmem, hstack, hord⟩ := hc
      refine .ite (fun hc0 => ?_) fun hc0 => ?_
      · rw [← v.ptr_succ]
        refine (ih (by omega) (by omega) (by omega)).mono fun i s' hs' => ?_
        obtain ⟨hmem', hstack', y, hi, hstart, hstop, hup⟩ := hs'
        refine ⟨hmem'.trans hmem, hstack'.trans hstack, y, hi, by omega, by omega, fun le _ hle a ha => ?_⟩
        have hgo := (hord le hle).1.mp hc0
        rw [← ha hx, ← ha hp] at hgo
        rw [Simulates, hmem] at hup
        beta_reduce
        rw [stopUp, if_pos ⟨hxz, hgo⟩, hup le hle a ha]
      · refine .pure ⟨hmem, hstack, x, rfl, le_refl x, .inr rfl, fun le _ hle a ha => ?_⟩
        have hstop := mt (hord le hle).1.mpr hc0
        rw [← ha hx, ← ha hp] at hstop
        beta_reduce
        rw [stopUp, if_neg fun hgo => hstop hgo.2]
    · refine .pure ⟨rfl, rfl, x, rfl, le_refl x, .inr rfl, fun le _ hle a ha => ?_⟩
      beta_reduce
      rw [stopUp, if_neg fun hgo => hge ((Vec.ptr_lt_iff hsize).mpr hgo.1)]

theorem scanDown_ends (hp : p ∈ Icc l h) (hz : z ≤ h) (hh : h < v.nmemb)
    (hly : l ≤ y) (hfuel : z < y + fuel) (hpos : 0 < fuel) :
    Trap.Ends (scanDown v compar (v.ptr p) (v.ptr y) fuel (v.ptr z)) s fun j s' =>
      s'.mem = s.mem ∧ s'.stack = s.stack ∧ ∃ w, j = v.ptr w ∧ w ≤ z ∧
        Simulates v compar l h s fun le _ a => stopDown le a p y z = w := by
  have hph := hp.2
  induction fuel generalizing z s with
  | zero => omega
  | succ fuel ih =>
    refine .ite (fun hlt => ?_) fun hge => ?_
    · have hyz : y < z := (Vec.ptr_lt_iff hsize).mp hlt
      have hin : z ∈ Icc l h := ⟨by omega, hz⟩
      refine .bind ((callCompar_ends (by omega) (by omega)).mono fun c s1 hc => ?_)
      obtain ⟨hmem, hstack, hord⟩ := hc
      refine .ite (fun hc0 => ?_) fun hc0 => ?_
      · rw [Vec.ptr_pred (by omega)]
        refine (ih (by omega) (by omega) (by omega)).mono fun j s' hs' => ?_
        obtain ⟨hmem', hstack', w, hj, hstart, hdown⟩ := hs'
        refine ⟨hmem'.trans hmem, hstack'.trans hstack, w, hj, by omega, fun le _ hle a ha => ?_⟩
        have hgo := (hord le hle).2.mp hc0
        rw [← ha hin, ← ha hp] at hgo
        rw [Simulates, hmem] at hdown
        beta_reduce
        rw [stopDown, if_pos ⟨hyz, hgo⟩, hdown le hle a ha]
      · refine .pure ⟨hmem, hstack, z, rfl, le_refl z, fun le _ hle a ha => ?_⟩
        have hstop := mt (hord le hle).2.mpr hc0
        rw [← ha hin, ← ha hp] at hstop
        beta_reduce
        rw [stopDown, if_neg fun hgo => hstop hgo.2]
    · refine .pure ⟨rfl, rfl, z, rfl, le_refl z, fun le _ hle a ha => ?_⟩
      beta_reduce
      rw [stopDown, if_neg fun hgo => hge ((Vec.ptr_lt_iff hsize).mpr hgo.1)]

theorem partitionLoop_ends (hh : h < v.nmemb) (hp : p ≤ h) (hlx : l ≤ x)
    (hxp : x ≤ p) (hzp : z ≤ p) (hxz : x ≤ z + 1) (hfuel : v.nmemb < fuel)
    (hrounds : z + 1 < x + rounds) :
    Trap.Ends (partitionLoop v compar fuel (v.ptr l) (v.ptr p) rounds (v.ptr x) (v.ptr z)) s
      fun i s' => ∃ y, i = v.ptr y ∧ l ≤ y ∧ y ≤ p ∧ Moved v l h s s' ∧
        Simulates v compar l h s fun le _ a =>
          EqOn (parted le p x z a).1 (v.elem s'.mem) (Icc l h) ∧ (parted le p x z a).2 = y := by
  have hpin : p ∈ Icc l h := ⟨by omega, hp⟩
  induction rounds generalizing x z s with
  | zero => omega
  | succ rounds ih =>
    refine .bind ((scanUp_ends hsize hpin (by omega) hh hlx (by omega) (by omega)).mono fun i s1 h₁ => ?_)
    obtain ⟨hmem1, hstack1, y, rfl, hstart, hstop, hup⟩ := h₁
    refine .bind ((scanDown_ends (y := y) hsize hpin (by omega) hh (by omega) (by omega) (by omega)).mono
      fun j s2 h₂ => ?_)
    obtain ⟨hmem2, hstack2, w, rfl, hwz, hdown⟩ := h₂
    rw [Simulates, hmem1] at hdown
    have hmem : s2.mem = s.mem := hmem2.trans hmem1
    have hscan : Moved v l h s s2 := .same hmem (hstack2.trans hstack1)
    refine .ite (fun hge => ?_) fun hlt => ?_
    · have hwy : w ≤ y := (Vec.ptr_le_iff hsize).mp hge
      refine .pure ⟨y, rfl, by omega, by omega, hscan, fun le _ hle a ha => ?_⟩
      beta_reduce
      rw [parted, hup le hle a ha, hdown le hle a ha, if_neg (by omega), hmem]
      exact ⟨ha, rfl⟩
    · have hyw : y < w := by
        have := mt (Vec.ptr_le_iff hsize).mpr hlt
        omega
      have hyin : y ∈ Icc l h := ⟨by omega, by omega⟩
      have hwin : w ∈ Icc l h := ⟨by omega, by omega⟩
      refine .bind (swapBytes_ends (by omega) (by omega) ?_)
      have hjl : v.ptr w > v.ptr l := (Vec.ptr_lt_iff hsize).mpr (by omega)
      rw [if_pos hjl, ← v.ptr_succ, Vec.ptr_pred (by omega)]
      refine (ih (by omega) (by omega) (by omega) (by omega) (by omega)).mono fun i s' hs' => ?_
      obtain ⟨k, hi, hlk, hkp, hmoved, hparted⟩ := hs'
      have hswap : Moved v l h s2 (v.swap y w s2) := .swap hyin hwin hh
      refine ⟨k, hi, hlk, hkp, hscan.trans (hswap.trans hmoved), fun le _ hle a ha => ?_⟩
      beta_reduce
      rw [parted, hup le hle a ha, hdown le hle a ha, if_pos hyw]
      refine hparted le ((hscan.trans hswap).orders hh hle) _ ?_
      rw [v.elem_swap, hmem]
      exact swap_eqOn ha hyin hwin

theorem splitRange_ends (hlh : l + 8 ≤ h) (hh : h < v.nmemb)
    (hfuel : v.nmemb < fuel) :
    Trap.Ends (splitRange v compar fuel (v.ptr l) (v.ptr h)) s fun i s' =>
      ∃ y, i = v.ptr y ∧ l ≤ y ∧ y < h ∧ Moved v l h s s' ∧ Simulates v compar l h s fun le _ a =>
        ∃ b, split le l h a = (b, y) ∧ EqOn b (v.elem s'.mem) (Icc l h) := by
  refine .bind ((medianOfThree_ends hsize hlh hh).mono fun _ s1 hs1 => ?_)
  obtain ⟨hmoved1, hpivoted⟩ := hs1
  rw [Vec.ptr_pred (by omega)]
  refine .bind ((partitionLoop_ends hsize hh (Nat.sub_le h 1) (le_refl l) (by omega) (le_refl _)
    (by omega) hfuel (by omega)).mono fun i s2 hs2 => ?_)
  obtain ⟨y, rfl, hly, hyp, hmoved2, hparted⟩ := hs2
  refine .bind (swapBytes_ends (by omega) (by omega) (.pure ?_))
  have hy : y ∈ Icc l h := ⟨hly, by omega⟩
  have hlast : h - 1 ∈ Icc l h := ⟨by omega, by omega⟩
  refine ⟨y, rfl, hly, by omega, hmoved1.trans (hmoved2.trans (.swap hy hlast hh)), fun le _ hle a ha => ?_⟩
  obtain ⟨hseq, hmeet⟩ := hparted le (hmoved1.orders hh hle) _ (hpivoted le hle a ha)
  refine ⟨_, by rw [split, hmeet], ?_⟩
  rw [v.elem_swap]
  exact swap_eqOn hseq hy hlast

end

end Exyde.Libc
