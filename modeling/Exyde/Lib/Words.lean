import Mathlib.Logic.Function.Basic

/-! # Bytes and bits of machine words

A word as a row of bytes, and an array of 64-bit words as a bitmap, with the shifts and
masks of the machine. -/

namespace Exyde.Lib

open Function BitVec

/-! ## Bytes of a word -/

def getByte {w : Nat} (x : BitVec w) (k : Nat) : BitVec 8 := x.extractLsb' (8 * k) 8

def setByte {w : Nat} (x : BitVec w) (k : Nat) (b : BitVec 8) : BitVec w :=
  (x &&& ~~~((BitVec.allOnes 8).setWidth w <<< (8 * k))) ||| (b.setWidth w <<< (8 * k))

variable {w : Nat}

theorem getLsbD_getByte (x : BitVec w) (k i : Nat) :
    (getByte x k).getLsbD i = (decide (i < 8) && x.getLsbD (8 * k + i)) := by
  simp [getByte, getLsbD_extractLsb']

theorem getLsbD_setByte (x : BitVec w) (k : Nat) (b : BitVec 8) (i : Nat) (hi : i < w) :
    (setByte x k b).getLsbD i =
      if 8 * k ≤ i ∧ i < 8 * k + 8 then b.getLsbD (i - 8 * k) else x.getLsbD i := by
  simp only [setByte, getLsbD_or, getLsbD_and, getLsbD_not,
    getLsbD_shiftLeft, getLsbD_setWidth, getLsbD_allOnes]
  by_cases h1 : i < 8 * k
  · simp [h1, hi, show ¬ (8 * k ≤ i) by omega]
  · by_cases h2 : i < 8 * k + 8
    · simp [h1, h2, hi, show i - 8 * k < w by omega, show i - 8 * k < 8 by omega,
        show 8 * k ≤ i by omega]
    · have hb : b.getLsbD (i - 8 * k) = false := getLsbD_of_ge _ _ (by omega)
      simp [h1, h2, hi, hb, show ¬ (i - 8 * k < 8) by omega]

theorem getByte_setByte (x : BitVec w) (k j : Nat) (b : BitVec 8) (hj : 8 * j + 8 ≤ w) :
    getByte (setByte x k b) j = if j = k then b else getByte x j := by
  apply eq_of_getLsbD_eq
  intro i hi
  rw [getLsbD_getByte, getLsbD_setByte _ _ _ _ (by omega)]
  by_cases hjk : j = k
  · subst hjk
    simp [hi]
  · rw [if_neg hjk, if_neg (by omega), getLsbD_getByte]

theorem or_and_mask (x y m : BitVec w) : (x ||| y) &&& m = (x &&& m) ||| (y &&& m) := by
  apply eq_of_getLsbD_eq
  intro i _
  simp only [getLsbD_and, getLsbD_or, Bool.and_or_distrib_right]

/-! ## Bitmaps -/

section

variable (m : Nat → BitVec 64)

def testBit (n : Nat) : Bool := (m (n / 64) >>> (n % 64)) &&& 1#64 != 0#64

def setBit (n : Nat) : Nat → BitVec 64 :=
  update m (n / 64) (m (n / 64) ||| (1#64 <<< (n % 64)))

def clearBit (n : Nat) : Nat → BitVec 64 :=
  update m (n / 64) (m (n / 64) &&& ~~~(1#64 <<< (n % 64)))

theorem testBit_eq (n : Nat) : testBit m n = (m (n / 64)).getLsbD (n % 64) := by
  rw [testBit, and_one_eq_setWidth_ofBool_getLsbD, getLsbD_ushiftRight, Nat.add_zero]
  cases (m (n / 64)).getLsbD (n % 64) <;> rfl

theorem getLsbD_one_shiftLeft (n k : Nat) (hk : k < 64) :
    (1#64 <<< n).getLsbD k = decide (k = n) := by
  rw [← twoPow_eq, getLsbD_twoPow]
  by_cases h : k = n
  · simp [h, h ▸ hk]
  · simp [h, Ne.symm h]

@[simp] theorem testBit_setBit (n k : Nat) :
    testBit (setBit m n) k = (decide (k = n) || testBit m k) := by
  rw [testBit_eq, testBit_eq, setBit]
  by_cases hw : k / 64 = n / 64
  · have hkn : k % 64 = n % 64 ↔ k = n := by omega
    rw [hw, update_self, getLsbD_or,
      getLsbD_one_shiftLeft _ _ (Nat.mod_lt _ (by decide)), Bool.or_comm, decide_eq_decide.mpr hkn]
  · have hkn : k ≠ n := fun h => hw (by rw [h])
    rw [update_of_ne hw, decide_eq_false hkn, Bool.false_or]

@[simp] theorem testBit_clearBit (n k : Nat) :
    testBit (clearBit m n) k = (!decide (k = n) && testBit m k) := by
  rw [testBit_eq, testBit_eq, clearBit]
  by_cases hw : k / 64 = n / 64
  · have hkn : k % 64 = n % 64 ↔ k = n := by omega
    have hlt : k % 64 < 64 := Nat.mod_lt _ (by decide)
    rw [hw, update_self, getLsbD_and, getLsbD_not,
      getLsbD_one_shiftLeft _ _ hlt, decide_eq_true hlt, Bool.true_and, Bool.and_comm,
      decide_eq_decide.mpr hkn]
  · have hkn : k ≠ n := fun h => hw (by rw [h])
    rw [update_of_ne hw, decide_eq_false hkn, Bool.not_false, Bool.true_and]

end

end Exyde.Lib
