import Exyde.Lib.Rearrange
import Exyde.Libc.Qsort

/-! # What the loops of `qsort` do to the elements

The loops are described on the numbers of the elements. Every loop ends without a trap
and rearranges elements of its range, whatever the comparison function answers; where
the answers are those of a total preorder, it puts them in the order it should. -/

namespace Exyde.Libc

open Function Exyde.Lib

variable {σ : Type} {v : Vec} {compar : Compar σ} {s s' : SortState σ} {m : Bytes}
  {l h x y z k n fuel rounds : Nat}

/-! ## Elements -/

def Vec.ptr (v : Vec) (k : Nat) : Nat := v.base + k * v.size

def Vec.elem (v : Vec) (m : Bytes) (k : Nat) : List (BitVec 8) :=
  (List.range v.size).map fun d => m (v.ptr k + d)

theorem Vec.ptr_succ (v : Vec) (k : Nat) : v.ptr (k + 1) = v.ptr k + v.size := by
  rw [ptr, ptr, Nat.add_mul, Nat.one_mul, Nat.add_assoc]

theorem Vec.ptr_pred (hk : 0 < k) : v.ptr k - v.size = v.ptr (k - 1) := by
  have hsucc := v.ptr_succ (k - 1)
  rw [Nat.sub_add_cancel hk] at hsucc
  omega

theorem Vec.ptr_mono (v : Vec) (hxy : x ≤ y) : v.ptr x ≤ v.ptr y :=
  Nat.add_le_add_left (Nat.mul_le_mul_right _ hxy) _

theorem Vec.ptr_succ_le (v : Vec) (hxy : x < y) : v.ptr x + v.size ≤ v.ptr y := by
  rw [← ptr_succ]
  exact v.ptr_mono hxy

theorem Vec.ptr_lt_iff (hsize : 0 < v.size) : v.ptr x < v.ptr y ↔ x < y := by
  rw [ptr, ptr, Nat.add_lt_add_iff_left, Nat.mul_lt_mul_right hsize]

theorem Vec.ptr_le_iff (hsize : 0 < v.size) : v.ptr x ≤ v.ptr y ↔ x ≤ y := by
  rw [ptr, ptr, Nat.add_le_add_iff_left, Nat.mul_le_mul_right_iff hsize]

theorem Vec.ptr_dist (hsize : 0 < v.size) : (v.ptr y - v.ptr x) / v.size = y - x := by
  rw [ptr, ptr, Nat.add_sub_add_left, ← Nat.sub_mul, Nat.mul_div_cancel _ hsize]

theorem Vec.holds_ptr (hk : k < v.nmemb) : v.Holds (v.ptr k) v.size := by
  have hend : v.ptr k + v.size ≤ v.ptr v.nmemb := v.ptr_succ_le hk
  exact ⟨Nat.le_add_right _ _, hend⟩

/-! ## Exchanging two elements -/

def exchanged (m : Bytes) (a b n : Nat) : Bytes := fun p =>
  if a ≤ p ∧ p < a + n then m (b + (p - a))
  else if b ≤ p ∧ p < b + n then m (a + (p - b)) else m p

theorem swapBytes_eq (n : Nat) {a b : Nat} (ha : v.Holds a n) (hb : v.Holds b n)
    (hab : a = b ∨ a + n ≤ b ∨ b + n ≤ a) (s : SortState σ) :
    swapBytes v a b n s = some ((), { s with mem := exchanged s.mem a b n }) := by
  obtain ⟨ha0, ha1⟩ := ha
  obtain ⟨hb0, hb1⟩ := hb
  induction n generalizing a b s with
  | zero =>
    have hsame : exchanged s.mem a b 0 = s.mem := by
      funext p
      rw [exchanged, if_neg (by omega), if_neg (by omega)]
    rw [swapBytes, hsame]
    rfl
  | succ n ih =>
    have hinA : v.Holds a 1 := ⟨ha0, by omega⟩
    have hinB : v.Holds b 1 := ⟨hb0, by omega⟩
    let m1 : Bytes := update (update s.mem a (s.mem b)) b (s.mem a)
    have hfirst : swapBytes v a b (n + 1) s = swapBytes v (a + 1) (b + 1) n { s with mem := m1 } := by
      simp only [swapBytes, loadByte, storeByte, Trap.bind_apply, Trap.read_apply, hinA, hinB,
        if_true, Option.map_some, Option.bind_some, m1]
    rw [hfirst, ih (by omega) _ (by omega) (by omega) (by omega) (by omega)]
    have hmem : exchanged m1 (a + 1) (b + 1) n = exchanged s.mem a b (n + 1) := by
      funext p
      simp only [exchanged, m1, update_apply]
      grind
    rw [hmem]

def Vec.swap (v : Vec) (x y : Nat) (s : SortState σ) : SortState σ :=
  { s with mem := exchanged s.mem (v.ptr x) (v.ptr y) v.size }

theorem swapBytes_ptr (hx : x < v.nmemb) (hy : y < v.nmemb) (s : SortState σ) :
    swapBytes v (v.ptr x) (v.ptr y) v.size s = some ((), v.swap x y s) := by
  refine swapBytes_eq v.size (Vec.holds_ptr hx) (Vec.holds_ptr hy) ?_ s
  rcases Nat.lt_trichotomy x y with hlt | heq | hgt
  · exact .inr (.inl (v.ptr_succ_le hlt))
  · exact .inl (congrArg v.ptr heq)
  · exact .inr (.inr (v.ptr_succ_le hgt))

/-- A byte of element `k` lies in element `x` only if they are the same. -/
theorem Vec.in_elem_iff {d : Nat} (hd : d < v.size) :
    (v.ptr x ≤ v.ptr k + d ∧ v.ptr k + d < v.ptr x + v.size) ↔ k = x := by
  constructor
  · intro hin
    rcases Nat.lt_trichotomy k x with hlt | heq | hgt
    · have := v.ptr_succ_le hlt
      omega
    · exact heq
    · have := v.ptr_succ_le hgt
      omega
  · rintro rfl
    omega

theorem Vec.elem_swap (v : Vec) (x y : Nat) (s : SortState σ) :
    v.elem (v.swap x y s).mem = v.elem s.mem ∘ Equiv.swap x y := by
  funext k
  refine List.map_congr_left fun d hd => ?_
  have hlt := List.mem_range.mp hd
  simp only [swap, exchanged, in_elem_iff hlt, Equiv.swap_apply_def]
  split
  next heq =>
    rw [heq, Nat.add_sub_cancel_left]
  · split
    next heq =>
      rw [heq, Nat.add_sub_cancel_left]
    · rfl

theorem Vec.elem_swap_left (v : Vec) (x y : Nat) (s : SortState σ) :
    v.elem (v.swap x y s).mem x = v.elem s.mem y := by
  rw [elem_swap, comp_apply, Equiv.swap_apply_left]

theorem Vec.elem_swap_right (v : Vec) (x y : Nat) (s : SortState σ) :
    v.elem (v.swap x y s).mem y = v.elem s.mem x := by
  rw [elem_swap, comp_apply, Equiv.swap_apply_right]

theorem Vec.elem_swap_ne (hx : k ≠ x) (hy : k ≠ y) :
    v.elem (v.swap x y s).mem k = v.elem s.mem k := by
  rw [elem_swap, comp_apply, Equiv.swap_apply_of_ne_of_ne hx hy]

/-- The elements from `l` to `h` have been rearranged, and nothing else has changed. -/
structure Permuted (v : Vec) (l h : Nat) (m m' : Bytes) : Prop where
  elems : Rearranges l h (v.elem m) (v.elem m')
  outside : ∀ p, ¬ v.Holds p 1 → m' p = m p

namespace Permuted

variable {m' m'' : Bytes}

theorem refl (v : Vec) (l h : Nat) (m : Bytes) : Permuted v l h m m :=
  ⟨.refl _ _ _, fun _ _ => rfl⟩

theorem trans (h1 : Permuted v l h m m') (h2 : Permuted v l h m' m'') : Permuted v l h m m'' :=
  ⟨h1.elems.trans h2.elems, fun p hp => (h2.outside p hp).trans (h1.outside p hp)⟩

theorem mono {l' h' : Nat} (hm : Permuted v l h m m') (hl : l' ≤ l) (hh : h ≤ h') :
    Permuted v l' h' m m' :=
  ⟨hm.elems.mono hl hh, hm.outside⟩

end Permuted

structure Moved (v : Vec) (l h : Nat) (s s' : SortState σ) : Prop
    extends Permuted v l h s.mem s'.mem where
  stack : s'.stack = s.stack

namespace Moved

theorem same (hmem : s'.mem = s.mem) (hstack : s'.stack = s.stack) : Moved v l h s s' :=
  ⟨hmem ▸ .refl _ _ _ _, hstack⟩

theorem trans {s1 : SortState σ} (h1 : Moved v l h s s1) (h2 : Moved v l h s1 s') :
    Moved v l h s s' :=
  ⟨h1.toPermuted.trans h2.toPermuted, h2.stack.trans h1.stack⟩

theorem mono {l' h' : Nat} (hm : Moved v l h s s') (hl : l' ≤ l) (hh : h ≤ h') :
    Moved v l' h' s s' :=
  ⟨hm.toPermuted.mono hl hh, hm.stack⟩

theorem swap (hx : l ≤ x ∧ x ≤ h) (hy : l ≤ y ∧ y ≤ h) (hh : h < v.nmemb) :
    Moved v l h s (v.swap x y s) := by
  refine ⟨⟨?_, fun p hp => ?_⟩, rfl⟩
  · rw [Vec.elem_swap]
    exact .swap _ hx hy
  · have hx0 : v.ptr x + v.size ≤ v.ptr v.nmemb := v.ptr_succ_le (by omega)
    have hy0 : v.ptr y + v.size ≤ v.ptr v.nmemb := v.ptr_succ_le (by omega)
    simp only [Vec.Holds, Vec.ptr] at hp hx0 hy0
    simp only [Vec.swap, exchanged, Vec.ptr]
    rw [if_neg (by omega), if_neg (by omega)]

end Moved

/-! ## Comparing -/

/-- The comparison function answers by a total preorder of the elements, as long as memory is
`m` with the array rearranged: it may follow pointers out of the array. -/
structure Orders (v : Vec) (compar : Compar σ) (m : Bytes)
    (le : List (BitVec 8) → List (BitVec 8) → Prop) : Prop where
  trans : ∀ a b c, le a b → le b c → le a c
  nonpos : ∀ e m' x y, Permuted v 0 (v.nmemb - 1) m m' → x < v.nmemb → y < v.nmemb →
    ((compar e m' (v.ptr x) (v.ptr y)).1 ≤ 0 ↔ le (v.elem m' x) (v.elem m' y))
  nonneg : ∀ e m' x y, Permuted v 0 (v.nmemb - 1) m m' → x < v.nmemb → y < v.nmemb →
    (0 ≤ (compar e m' (v.ptr x) (v.ptr y)).1 ↔ le (v.elem m' y) (v.elem m' x))

variable {le : List (BitVec 8) → List (BitVec 8) → Prop}

theorem Permuted.orders {m' : Bytes} (hm : Permuted v l h m m') (hh : h < v.nmemb)
    (hle : Orders v compar m le) : Orders v compar m' le where
  trans := hle.trans
  nonpos e m'' x y hp := hle.nonpos e m'' x y ((hm.mono (Nat.zero_le l) (by omega)).trans hp)
  nonneg e m'' x y hp := hle.nonneg e m'' x y ((hm.mono (Nat.zero_le l) (by omega)).trans hp)

theorem Orders.flip (hle : Orders v compar s.mem le) (hx : x < v.nmemb) (hy : y < v.nmemb)
    (hnot : ¬ le (v.elem s.mem x) (v.elem s.mem y)) : le (v.elem s.mem y) (v.elem s.mem x) := by
  rw [← hle.nonneg s.env s.mem x y (.refl _ _ _ _) hx hy]
  rw [← hle.nonpos s.env s.mem x y (.refl _ _ _ _) hx hy] at hnot
  omega

theorem Orders.totalOn (hle : Orders v compar s.mem le) (hh : h < v.nmemb) :
    TotalOn le l h (v.elem s.mem) := by
  intro x y hx hy
  by_contra hnot
  rw [not_or] at hnot
  exact hnot.2 (hle.flip (by omega) (by omega) hnot.1)

/-- A call changes only what the comparison function keeps; under a preorder it says how
the two elements stand. -/
theorem callCompar_ends (hx : x < v.nmemb) (hy : y < v.nmemb) :
    Trap.Ends (callCompar v compar (v.ptr x) (v.ptr y)) s fun c s' =>
      s'.mem = s.mem ∧ s'.stack = s.stack ∧ ∀ le, Orders v compar s.mem le →
        (c ≤ 0 ↔ le (v.elem s.mem x) (v.elem s.mem y)) ∧
        (0 ≤ c ↔ le (v.elem s.mem y) (v.elem s.mem x)) := by
  refine ⟨_, _, if_pos ⟨Vec.holds_ptr hx, Vec.holds_ptr hy⟩, rfl, rfl, fun le hle => ?_⟩
  exact ⟨hle.nonpos _ _ x y (.refl _ _ _ _) hx hy, hle.nonneg _ _ x y (.refl _ _ _ _) hx hy⟩

theorem swapBytes_ends {Q : Unit → SortState σ → Prop} (hx : x < v.nmemb) (hy : y < v.nmemb)
    (hQ : Q () (v.swap x y s)) : Trap.Ends (swapBytes v (v.ptr x) (v.ptr y) v.size) s Q :=
  ⟨(), _, swapBytes_ptr hx hy s, hQ⟩

/-! ## The insertion sort -/

/-- All pairs of places from `l` to `h` are in order, those with the second place `j` apart. -/
def AscendingBut (le : List (BitVec 8) → List (BitVec 8) → Prop) (l h j : Nat)
    (a : Nat → List (BitVec 8)) : Prop :=
  ∀ x y, l ≤ x → x < y → y ≤ h → y ≠ j → le (a x) (a y)

/-- Exchanging element `j` with the larger one before it moves the exception down. -/
theorem AscendingBut.swap (hle : Orders v compar s.mem le) (hh : h < v.nmemb) (hj : l < k ∧ k ≤ h)
    (hasc : AscendingBut le l h k (v.elem s.mem))
    (hnot : ¬ le (v.elem s.mem (k - 1)) (v.elem s.mem k)) :
    AscendingBut le l h (k - 1) (v.elem (v.swap (k - 1) k s).mem) := by
  have hflip := hle.flip (by omega) (by omega) hnot
  intro x y hlx hxy hyh hne
  by_cases hyk : y = k
  · rw [hyk, v.elem_swap_right]
    by_cases hxk : x = k - 1
    · rw [hxk, v.elem_swap_left]
      exact hflip
    · rw [Vec.elem_swap_ne hxk (by omega)]
      exact hasc x (k - 1) hlx (by omega) (by omega) (by omega)
  · rw [Vec.elem_swap_ne hne hyk]
    by_cases hxk : x = k
    · rw [hxk, v.elem_swap_right]
      exact hasc (k - 1) y (by omega) (by omega) hyh hyk
    · by_cases hxk' : x = k - 1
      · rw [hxk', v.elem_swap_left]
        exact hasc k y (by omega) (by omega) hyh hyk
      · rw [Vec.elem_swap_ne hxk' hxk]
        exact hasc x y hlx hxy hyh hyk

theorem sink_ends (hsize : 0 < v.size) (hh : h < v.nmemb) (hj : l ≤ k ∧ k ≤ h)
    (hfuel : k < l + fuel) :
    Trap.Ends (sink v compar (v.ptr l) fuel (v.ptr k)) s fun _ s' =>
      Moved v l h s s' ∧ ∀ le, Orders v compar s.mem le → AscendingBut le l h k (v.elem s.mem) →
        AscendingOn le l h (v.elem s'.mem) := by
  induction fuel generalizing k s with
  | zero => omega
  | succ fuel ih =>
    refine .ite (fun hlt => ?_) fun hge => ?_
    · have hlk : l < k := (Vec.ptr_lt_iff hsize).mp hlt
      rw [Vec.ptr_pred (by omega)]
      refine .bind ((callCompar_ends (by omega) (by omega)).mono fun c s1 hc => ?_)
      obtain ⟨hmem, hstack, hord⟩ := hc
      refine .ite (fun hc0 => .pure ⟨.same hmem hstack, fun le hle hasc => ?_⟩) fun hc0 => ?_
      · have hstep : le (v.elem s.mem (k - 1)) (v.elem s.mem k) := (hord le hle).1.mp hc0
        rw [hmem]
        intro x y hlx hxy hyh
        by_cases hyk : y = k
        · subst hyk
          by_cases hxk : x = y - 1
          · exact hxk ▸ hstep
          · exact hle.trans _ _ _ (hasc x (y - 1) hlx (by omega) (by omega) (by omega)) hstep
        · exact hasc x y hlx hxy hyh hyk
      · refine .bind (swapBytes_ends (by omega) (by omega) ?_)
        refine (ih ⟨by omega, by omega⟩ (by omega)).mono fun _ s' hs' => ?_
        have hswap : Moved v l h s1 (v.swap (k - 1) k s1) :=
          .swap ⟨by omega, by omega⟩ ⟨by omega, by omega⟩ hh
        refine ⟨(Moved.same hmem hstack).trans (hswap.trans hs'.1), fun le hle hasc => ?_⟩
        have hle1 : Orders v compar s1.mem le := hmem ▸ hle
        refine hs'.2 le (hswap.orders hh hle1)
          (AscendingBut.swap hle1 hh ⟨hlk, hj.2⟩ (hmem ▸ hasc) fun hstep => ?_)
        rw [hmem] at hstep
        exact hc0 ((hord le hle).1.mpr hstep)
    · have hkl : k = l := by
        have := mt (Vec.ptr_lt_iff hsize).mpr hge
        omega
      refine .pure ⟨.same rfl rfl, fun le _ hasc x y hlx hxy hyh => ?_⟩
      exact hasc x y hlx hxy hyh (by omega)

/-- **The insertion sort** rearranges its range, and sorts it under a preorder. -/
theorem insertionSort_ends (hsize : 0 < v.size) (hh : h < v.nmemb) (hk : l < k ∧ k ≤ h + 1)
    (hfuel : h < l + fuel) (hrounds : h + 1 < k + rounds) :
    Trap.Ends (insertionSort v compar fuel (v.ptr l) (v.ptr h) rounds (v.ptr k)) s fun _ s' =>
      Moved v l h s s' ∧ ∀ le, Orders v compar s.mem le → AscendingOn le l (k - 1) (v.elem s.mem) →
        AscendingOn le l h (v.elem s'.mem) := by
  induction rounds generalizing k s with
  | zero => omega
  | succ rounds ih =>
    refine .ite (fun hle => ?_) fun hgt => ?_
    · have hkh : k ≤ h := (Vec.ptr_le_iff hsize).mp hle
      refine .bind ((sink_ends (l := l) (h := k) hsize (by omega) ⟨by omega, le_refl k⟩
        (by omega)).mono fun _ s1 hs1 => ?_)
      rw [← v.ptr_succ]
      refine (ih ⟨by omega, by omega⟩ (by omega)).mono fun _ s' hs' => ?_
      refine ⟨(hs1.1.mono (le_refl l) hkh).trans hs'.1, fun le hle hasc => ?_⟩
      refine hs'.2 le (hs1.1.orders (by omega) hle) (hs1.2 le hle fun x y hlx hxy hyk hne => ?_)
      exact hasc x y hlx hxy (by omega)
    · have hkh : k = h + 1 := by
        have := mt (Vec.ptr_le_iff hsize).mpr hgt
        omega
      refine .pure ⟨.same rfl rfl, fun le _ hasc => ?_⟩
      rw [hkh] at hasc
      exact hasc

theorem insertionSort_sorts (hsize : 0 < v.size) (hh : h < v.nmemb) (hlh : l ≤ h)
    (hfuel : v.nmemb < fuel) :
    Trap.Ends (insertionSort v compar fuel (v.ptr l) (v.ptr h) fuel (v.ptr l + v.size)) s
      fun _ s' => Moved v l h s s' ∧ ∀ le, Orders v compar s.mem le →
        AscendingOn le l h (v.elem s'.mem) := by
  rw [← v.ptr_succ]
  refine (insertionSort_ends hsize hh ⟨by omega, by omega⟩ (by omega) (by omega)).mono
    fun _ s' hs' => ⟨hs'.1, fun le hle => hs'.2 le hle fun x y hlx hxy hyl => ?_⟩
  omega

end Exyde.Libc
