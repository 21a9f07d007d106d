import Exyde.Libc.QsortSteps

/-! # `bsearch`

The search halves a range of pointers. The comparison function is called on the key and
on one element; calling it on anything outside the array is a trap. -/

namespace Exyde.Libc

open Exyde.Lib

variable {σ : Type} {v : Vec} {compar : Compar σ} {m : Bytes} {key fuel x y : Nat}

section Program

variable (v : Vec) (compar : Compar σ) (m : Bytes) (key : Nat)

def compareKey (p : Nat) : Trap σ Int := fun env =>
  if v.Holds p v.size then some (compar env m key p) else none

def bsearchLoop : Nat → Nat → Nat → Trap σ (Option Nat)
  | 0, _, _ => .trap
  | fuel + 1, lo, hi =>
    if lo < hi then do
      let mid := lo + (hi - lo) / v.size / 2 * v.size
      let c ← compareKey v compar m key mid
      if c = 0 then pure (some mid)
      else if c < 0 then bsearchLoop fuel lo mid
      else bsearchLoop fuel (mid + v.size) hi
    else pure none

/-- `NULL` is `none`, for the comparison function and for the answer. -/
def bsearch (fuel : Nat) (compar : Option (Compar σ)) : Trap σ (Option Nat) :=
  match compar with
  | none => pure none
  | some compar =>
    if v.size = 0 ∨ v.nmemb = 0 then pure none
    else bsearchLoop v compar m key fuel v.base (v.base + v.nmemb * v.size)

end Program

/-- The array is sorted with respect to the key: whatever state the comparison function
is in, its answer for element `k` has the sign `f k`, and the elements below the key come
first, then those equal to it, then those above it. -/
structure KeySorted (v : Vec) (compar : Compar σ) (m : Bytes) (key : Nat) (f : Nat → Int) :
    Prop where
  answers : ∀ env k, k < v.nmemb → (compar env m key (v.ptr k)).1.sign = f k
  sorted : ∀ i j, i ≤ j → j < v.nmemb → f j ≤ f i

theorem compareKey_ptr {k : Nat} (hk : k < v.nmemb) (env : σ) :
    compareKey v compar m key (v.ptr k) env = some (compar env m key (v.ptr k)) :=
  if_pos (Vec.holds_ptr hk)

theorem Vec.ptr_mid (hsize : 0 < v.size) (hxy : x ≤ y) :
    v.ptr x + (v.ptr y - v.ptr x) / v.size / 2 * v.size = v.ptr ((x + y) / 2) := by
  have hmid : (x + y) / 2 = x + (y - x) / 2 := by omega
  rw [Vec.ptr_dist hsize, hmid, Vec.ptr, Vec.ptr, Nat.add_mul, Nat.add_assoc]

/-- Elements outside `[x, y)` are known to differ from the key. -/
theorem bsearchLoop_ends {f : Nat → Int} (h : KeySorted v compar m key f) (hsize : 0 < v.size)
    (hxy : x ≤ y) (hy : y ≤ v.nmemb) (hfuel : y - x < fuel)
    (hlow : ∀ k, k < x → f k ≠ 0) (hhigh : ∀ k, y ≤ k → k < v.nmemb → f k ≠ 0) (env : σ) :
    (bsearchLoop v compar m key fuel (v.ptr x) (v.ptr y)).Ends env fun r _ =>
      (∀ p, r = some p → ∃ k, k < v.nmemb ∧ p = v.ptr k ∧ f k = 0) ∧
      (r = none → ∀ k, k < v.nmemb → f k ≠ 0) := by
  induction fuel generalizing x y env with
  | zero => omega
  | succ fuel ih =>
    rw [bsearchLoop, Vec.ptr_mid hsize hxy]
    refine .ite (fun hlt => ?_) fun hle => ?_
    · rw [Vec.ptr_lt_iff hsize] at hlt
      have hmid : (x + y) / 2 < v.nmemb := by omega
      have hsign := h.answers env _ hmid
      refine .bind ⟨_, _, compareKey_ptr hmid env, ?_⟩
      refine .ite (fun hzero => ?_) fun hne => .ite (fun hneg => ?_) fun hnonneg => ?_
      · rw [hzero] at hsign
        exact .pure ⟨fun p hp => ⟨_, hmid, (Option.some.inj hp).symm, hsign.symm⟩, nofun⟩
      · rw [Int.sign_eq_neg_one_of_neg hneg] at hsign
        refine ih (by omega) (by omega) (by omega) hlow (fun k hk hlast => ?_) _
        have := h.sorted _ k hk hlast
        omega
      · rw [Int.sign_eq_one_of_pos (by omega)] at hsign
        rw [← Vec.ptr_succ]
        refine ih (by omega) hy (by omega) (fun k hk => ?_) hhigh _
        have := h.sorted k _ (Nat.le_of_lt_succ hk) hmid
        omega
    · rw [Vec.ptr_lt_iff hsize] at hle
      refine .pure ⟨nofun, fun _ k hk => ?_⟩
      rcases Nat.lt_or_ge k x with hkx | hxk
      · exact hlow k hkx
      · exact hhigh k (by omega) hk

/-- **The search is correct.** It ends without leaving the array, with an element equal to
the key where there is one and with `NULL` otherwise. -/
theorem bsearch_finds_key (v : Vec) (compar : Compar σ) (m : Bytes) (key : Nat) (f : Nat → Int)
    (hsize : 0 < v.size) (h : KeySorted v compar m key f) (fuel : Nat) (hfuel : v.nmemb < fuel)
    (env : σ) :
    (bsearch v m key fuel (some compar)).Ends env fun r _ =>
      (∀ p, r = some p → ∃ k, k < v.nmemb ∧ p = v.ptr k ∧ f k = 0) ∧
      (r = none → ∀ k, k < v.nmemb → f k ≠ 0) := by
  refine .ite (fun hempty => ?_) fun _ => ?_
  · exact .pure ⟨nofun, fun _ k hk => by omega⟩
  · have hbase : v.base = v.ptr 0 := by simp [Vec.ptr]
    have hall := bsearchLoop_ends h hsize (Nat.zero_le _) (Nat.le_refl _) hfuel
      (fun k hk => absurd hk (Nat.not_lt_zero k)) (fun k hk hlast => by omega) env
    rwa [← hbase] at hall

theorem bsearch_finds_second : (bsearch ⟨0, 2, 1⟩ (fun _ => 0) 7 3
    (some fun _ _ _ q => (1 - q, ()))).Ends () fun r _ => r = some 1 := by
  refine (bsearch_finds_key ⟨0, 2, 1⟩ _ _ 7 (fun k => 1 - k) (by decide)
    ⟨fun _ k hk => ?_, fun i j hij _ => ?_⟩ 3 (by decide) ()).mono fun r _ hr => ?_
  · have hcases : k = 0 ∨ k = 1 := by have : k < 2 := hk; omega
    rcases hcases with rfl | rfl <;> rfl
  · omega
  · cases r with
    | none => exact absurd rfl (hr.2 rfl 1 (by decide))
    | some p =>
      obtain ⟨k, _, rfl, hk⟩ := hr.1 p rfl
      obtain rfl : k = 1 := by omega
      rfl

end Exyde.Libc
