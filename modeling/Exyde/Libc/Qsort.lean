import Exyde.Lib.Bytes
import Exyde.Lib.Trap

/-! # `qsort`

The sort works on pointers into an array and keeps the ranges it has still to sort on a
stack of 64 entries. Accesses outside the array, comparing what is not in it and pushing
on a full stack are traps, as is running out of fuel. Pointers are plain numbers: all
that are formed lie between the base of the array and its end. -/

namespace Exyde.Libc

open Exyde.Lib

/-- The array: `nmemb` elements of `size` bytes from `base` on. -/
structure Vec where
  base : Nat
  nmemb : Nat
  size : Nat

/-- The `n` bytes from `p` on lie in the array. -/
def Vec.Holds (v : Vec) (p n : Nat) : Prop := v.base ≤ p ∧ p + n ≤ v.base + v.nmemb * v.size

instance instDecidableHolds (v : Vec) (p n : Nat) : Decidable (v.Holds p n) :=
  inferInstanceAs (Decidable (_ ∧ _))

/-- A comparison function. It may look at all of memory and keep a state of its own from
call to call. -/
abbrev Compar (σ : Type) := σ → Bytes → Nat → Nat → Int × σ

/-- Memory, the state of the comparison function and the stack of ranges, last one first. -/
structure SortState (σ : Type) where
  mem : Bytes
  env : σ
  stack : List (Nat × Nat)

abbrev SortM (σ : Type) := Trap (SortState σ)

variable {σ : Type}

section Program

variable (v : Vec) (compar : Compar σ)

def loadByte (p : Nat) : SortM σ (BitVec 8) :=
  .read fun s => if v.Holds p 1 then some (s.mem p) else none

def storeByte (p : Nat) (x : BitVec 8) : SortM σ Unit := fun s =>
  if v.Holds p 1 then some ((), { s with mem := Function.update s.mem p x }) else none

def callCompar (p q : Nat) : SortM σ Int := fun s =>
  if v.Holds p v.size ∧ v.Holds q v.size then
    some ((compar s.env s.mem p q).1, { s with env := (compar s.env s.mem p q).2 })
  else none

def stackMax : Nat := 64

def push (r : Nat × Nat) : SortM σ Unit := fun s =>
  if s.stack.length < stackMax then some ((), { s with stack := r :: s.stack }) else none

def pushIf (c : Prop) [Decidable c] (r : Nat × Nat) : SortM σ Unit :=
  if c then push r else pure ()

def pop : SortM σ (Nat × Nat) := fun s =>
  match s.stack with
  | [] => none
  | r :: rest => some (r, { s with stack := rest })

def swapBytes (a b : Nat) : Nat → SortM σ Unit
  | 0 => pure ()
  | size + 1 => do
    let t ← loadByte v a
    let u ← loadByte v b
    storeByte v a u
    storeByte v b t
    swapBytes (a + 1) (b + 1) size

/-- The inner loop of the insertion sort, for the element at `j`. -/
def sink (l : Nat) : Nat → Nat → SortM σ Unit
  | 0, _ => .trap
  | fuel + 1, j =>
    if j > l then do
      let c ← callCompar v compar (j - v.size) j
      if c ≤ 0 then pure ()
      else
        swapBytes v (j - v.size) j v.size
        sink l fuel (j - v.size)
    else pure ()

/-- The insertion sort of `[l, h]` from `i` on. The source has it twice, for small ranges
and for a range that finds the stack full. -/
def insertionSort (fuel l h : Nat) : Nat → Nat → SortM σ Unit
  | 0, _ => .trap
  | rounds + 1, i =>
    if i ≤ h then do
      sink v compar l fuel i
      insertionSort fuel l h rounds (i + v.size)
    else pure ()

/-- `if (compar(p, q) > 0) swap_bytes(p, q, size)` -/
def orderPair (p q : Nat) : SortM σ Unit := do
  let c ← callCompar v compar p q
  if c > 0 then swapBytes v p q v.size else pure ()

/-- The pivot is chosen as the median of three and put next to the last element. -/
def medianOfThree (l h : Nat) : SortM σ Unit := do
  let mid := l + (h - l) / v.size / 2 * v.size
  orderPair v compar l mid
  orderPair v compar l h
  orderPair v compar mid h
  swapBytes v mid (h - v.size) v.size

/-- `while (i < j && compar(i, pivot) <= 0) i += size` -/
def scanUp (pivot j : Nat) : Nat → Nat → SortM σ Nat
  | 0, _ => .trap
  | fuel + 1, i =>
    if i < j then do
      let c ← callCompar v compar i pivot
      if c ≤ 0 then scanUp pivot j fuel (i + v.size) else pure i
    else pure i

/-- `while (j > i && compar(j, pivot) >= 0) j -= size` -/
def scanDown (pivot i : Nat) : Nat → Nat → SortM σ Nat
  | 0, _ => .trap
  | fuel + 1, j =>
    if j > i then do
      let c ← callCompar v compar j pivot
      if c ≥ 0 then scanDown pivot i fuel (j - v.size) else pure j
    else pure j

/-- The `for (;;)` loop around the two scans; the answer is where `i` ends. -/
def partitionLoop (fuel l pivot : Nat) : Nat → Nat → Nat → SortM σ Nat
  | 0, _, _ => .trap
  | rounds + 1, i, j => do
    let i ← scanUp v compar pivot j fuel i
    let j ← scanDown v compar pivot i fuel j
    if i ≥ j then pure i
    else
      swapBytes v i j v.size
      partitionLoop fuel l pivot rounds (i + v.size) (if j > l then j - v.size else j)

def splitRange (fuel l h : Nat) : SortM σ Nat := do
  medianOfThree v compar l h
  let i ← partitionLoop v compar fuel l (h - v.size) fuel l (h - v.size)
  swapBytes v i (h - v.size) v.size
  pure i

/-- One round of the main loop: the range on top of the stack is sorted or split. -/
def sortRound (fuel : Nat) : SortM σ Unit := do
  let r ← pop
  let l := r.1
  let h := r.2
  if (h - l) / v.size < 8 then insertionSort v compar fuel l h fuel (l + v.size)
  else
    let i ← splitRange v compar fuel l h
    let sp ← .read fun s => some s.stack.length
    if sp + 2 > stackMax then insertionSort v compar fuel l h fuel (l + v.size)
    else
      pushIf (i > l) (l, i - v.size)
      pushIf (i < h) (i + v.size, h)

def sortLoop (fuel : Nat) : Nat → SortM σ Unit
  | 0 => .trap
  | rounds + 1 => do
    let sp ← .read fun s => some s.stack.length
    if sp > 0 then do
      sortRound v compar fuel
      sortLoop fuel rounds
    else pure ()

end Program

def Vec.whole (v : Vec) : Nat × Nat := (v.base, v.base + (v.nmemb - 1) * v.size)

/-- `qsort`; `none` for `compar` is the null pointer. The answer is memory and what the
comparison function keeps. -/
def qsort (fuel : Nat) (v : Vec) (compar : Option (Compar σ)) (mem : Bytes) (env : σ) :
    Option (Bytes × σ) :=
  match compar with
  | none => some (mem, env)
  | some compar =>
    if v.nmemb < 2 ∨ v.size = 0 then some (mem, env)
    else
      (do push v.whole
          sortLoop v compar fuel fuel : SortM σ Unit) ⟨mem, env, []⟩ |>.map fun r =>
        (r.2.mem, r.2.env)

end Exyde.Libc
