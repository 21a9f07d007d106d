import Mathlib.Data.Nat.ModEq

/-! # Records in byte memory

A memory is a map from addresses to bytes. Numbers are stored with the lowest byte
first, and a record is a number of fields at fixed offsets. -/

namespace Exyde.Lib

abbrev Bytes := Nat → BitVec 8

namespace Bytes

variable {m m' : Bytes} {a b n k v x : Nat}

def load (m : Bytes) (a : Nat) : Nat → Nat
  | 0 => 0
  | n + 1 => (m a).toNat + 256 * load m (a + 1) n

def store (m : Bytes) (a n v : Nat) : Bytes := fun x =>
  if a ≤ x ∧ x < a + n then BitVec.ofNat 8 (v / 256 ^ (x - a)) else m x

theorem load_congr (h : ∀ x, a ≤ x → x < a + n → m' x = m x) : m'.load a n = m.load a n := by
  induction n generalizing a with
  | zero => rfl
  | succ n ih =>
    have htail : m'.load (a + 1) n = m.load (a + 1) n :=
      ih fun x h1 h2 => h x (by omega) (by omega)
    rw [load, load, h a (by omega) (by omega), htail]

theorem load_lt (m : Bytes) (a n : Nat) : m.load a n < 256 ^ n := by
  induction n generalizing a with
  | zero => simp [load]
  | succ n ih =>
    have hrest := ih (a + 1)
    rw [load, Nat.pow_succ]
    omega

theorem store_of_not_mem (h : x < a ∨ a + n ≤ x) : m.store a n v x = m x :=
  if_neg (by omega)

theorem store_succ (h : a < x) : m.store a (n + 1) v x = m.store (a + 1) n (v / 256) x := by
  by_cases hx : x < a + (n + 1)
  · have hexp : x - a = x - (a + 1) + 1 := by omega
    rw [store, if_pos ⟨by omega, hx⟩, store, if_pos ⟨by omega, by omega⟩, hexp, Nat.pow_succ,
      Nat.mul_comm, Nat.div_div_eq_div_mul]
  · rw [store_of_not_mem (by omega), store_of_not_mem (by omega)]

theorem load_store_self (m : Bytes) (a n v : Nat) : (m.store a n v).load a n = v % 256 ^ n := by
  induction n generalizing a v with
  | zero => simp [load, Nat.mod_one]
  | succ n ih =>
    have hhead : (m.store a (n + 1) v a).toNat = v % 256 := by
      simp [store]
    have htail : (m.store a (n + 1) v).load (a + 1) n = v / 256 % 256 ^ n := by
      rw [load_congr fun x h1 _ => store_succ (by omega), ih]
    rw [load, hhead, htail, Nat.pow_succ, Nat.mul_comm (256 ^ n), Nat.mod_mul]

theorem load_store_of_disjoint (h : a + n ≤ b ∨ b + k ≤ a) :
    (m.store b k v).load a n = m.load a n :=
  load_congr fun x h1 h2 => store_of_not_mem (by omega)

/-- `f` writes the bytes of `W`, with values that do not depend on memory, and no others. -/
structure Writes (W : Nat → Prop) (f : Bytes → Bytes) : Prop where
  inside : ∀ m m' x, W x → f m x = f m' x
  outside : ∀ m x, ¬ W x → f m x = m x

theorem Writes.store (a n v : Nat) : Writes (fun x => a ≤ x ∧ x < a + n) (·.store a n v) :=
  ⟨fun _ _ _ h => (if_pos h).trans (if_pos h).symm, fun _ _ h => if_neg h⟩

theorem Writes.congr {U W : Nat → Prop} {f : Bytes → Bytes} (h : Writes W f) (hU : ∀ x, U x ↔ W x) :
    Writes U f := by
  obtain rfl : U = W := funext fun x => propext (hU x)
  exact h

theorem Writes.comp {V W U : Nat → Prop} {f g : Bytes → Bytes} (hg : Writes V g) (hf : Writes W f)
    (hU : ∀ x, U x ↔ W x ∨ V x) : Writes U fun m => g (f m) := by
  refine ⟨fun m m' x h => ?_, fun m x h => ?_⟩
  · by_cases hV : V x
    · exact hg.inside _ _ x hV
    · rw [hg.outside _ x hV, hg.outside _ x hV]
      exact hf.inside m m' x (((hU x).mp h).resolve_right hV)
  · rw [hU, not_or] at h
    rw [hg.outside _ x h.2, hf.outside m x h.1]

end Bytes

/-- The layout of a record with the fields `F`. -/
structure Record (F : Type) where
  offset : F → Nat
  width : F → Nat
  size : Nat
  fits : ∀ f, offset f + width f ≤ size
  apart : ∀ f g, f ≠ g → offset f + width f ≤ offset g ∨ offset g + width g ≤ offset f

namespace Record

variable {F : Type} {R : Record F} {m m' : Bytes} {x y a v : Nat} {f g : F}

def get (R : Record F) (m : Bytes) (x : Nat) (f : F) : Nat := m.load (x + R.offset f) (R.width f)

def set (R : Record F) (m : Bytes) (x : Nat) (f : F) (v : Nat) : Bytes :=
  m.store (x + R.offset f) (R.width f) v

/-- Two records are the same one or do not overlap. -/
def Sep (R : Record F) (x y : Nat) : Prop := x = y ∨ x + R.size ≤ y ∨ y + R.size ≤ x

theorem get_lt (R : Record F) (m : Bytes) (x : Nat) (f : F) : R.get m x f < 256 ^ R.width f :=
  m.load_lt _ _

theorem set_of_not_mem (h : a < x ∨ x + R.size ≤ a) : R.set m x f v a = m a := by
  have hfits := R.fits f
  exact Bytes.store_of_not_mem (by omega)

theorem get_congr (h : ∀ a, x ≤ a → a < x + R.size → m' a = m a) : R.get m' x f = R.get m x f := by
  have hfits := R.fits f
  exact Bytes.load_congr fun a h1 h2 => h a (by omega) (by omega)

theorem get_set [DecidableEq F] (h : R.Sep x y) :
    R.get (R.set m y g v) x f = if x = y ∧ f = g then v % 256 ^ R.width g else R.get m x f := by
  split
  next heq =>
    rw [heq.1, heq.2]
    exact Bytes.load_store_self ..
  next hne =>
    refine Bytes.load_store_of_disjoint ?_
    have hf := R.fits f
    have hg := R.fits g
    rcases h with heq | happart
    · subst heq
      have := R.apart f g fun hfg => hne ⟨rfl, hfg⟩
      omega
    · omega

end Record

end Exyde.Lib
