import Exyde.Lib.Trap

/-! # A memory of objects

Memory is made of objects, each a row of cells that hold numbers or have never been
written. Numbers of objects given back are not used again; object 0 does not exist. -/

namespace Exyde.Lib

structure Object where
  cells : List (Option Nat)
  heap : Bool

/-- The objects of a memory; those from `next` on are still to be made. -/
structure Objects where
  get : Nat → Option Object
  next : Nat
  null : get 0 = none
  pos : 0 < next
  fresh : ∀ p, next ≤ p → get p = none

namespace Objects

variable {m m' : Objects} {p q i x : Nat} {o : Object}

def set (m : Objects) (p : Nat) (o : Option Object) : Objects where
  get q := if q = p ∧ (m.get p).isSome then o else m.get q
  next := m.next
  null := by
    split
    next h =>
      rw [← h.1, m.null] at h
      cases h.2
    · exact m.null
  pos := m.pos
  fresh q hq := by
    split
    next h =>
      rw [← h.1, m.fresh q hq] at h
      cases h.2
    · exact m.fresh q hq

def alloc (m : Objects) (cells : List (Option Nat)) : Objects where
  get q := if q = m.next then some ⟨cells, true⟩ else m.get q
  next := m.next + 1
  null := by
    rw [if_neg (Nat.ne_of_lt m.pos)]
    exact m.null
  pos := Nat.succ_pos _
  fresh q hq := by
    rw [if_neg (by omega)]
    exact m.fresh q (by omega)

theorem get_set (h : m.get p = some o) (o' : Option Object) (q : Nat) :
    (m.set p o').get q = if q = p then o' else m.get q := by
  simp only [set, h, Option.isSome_some, and_true]

theorem get_set_self (h : m.get p = some o) (o' : Option Object) : (m.set p o').get p = o' := by
  rw [get_set h, if_pos rfl]

theorem get_set_ne (hne : q ≠ p) (o' : Option Object) : (m.set p o').get q = m.get q :=
  if_neg fun h => hne h.1

theorem get_alloc_next (m : Objects) (cells : List (Option Nat)) :
    (m.alloc cells).get m.next = some ⟨cells, true⟩ :=
  if_pos rfl

theorem lt_next (h : m.get p = some o) : p < m.next := by
  by_contra hle
  rw [m.fresh p (by omega)] at h
  cases h

theorem ne_zero (h : m.get p = some o) : p ≠ 0 := by
  rintro rfl
  rw [m.null] at h
  cases h

theorem get_alloc (h : m.get p = some o) (cells : List (Option Nat)) :
    (m.alloc cells).get p = some o := by
  have hlt := lt_next h
  exact (if_neg (by omega)).trans h

/-- The objects of `m` are still there, as they were. -/
structure Extends (m m' : Objects) : Prop where
  next : m.next ≤ m'.next
  keep : ∀ p o, m.get p = some o → m'.get p = some o

theorem Extends.refl (m : Objects) : Extends m m := ⟨Nat.le_refl _, fun _ _ h => h⟩

theorem Extends.trans {m1 m2 m3 : Objects} (h : Extends m1 m2) (h' : Extends m2 m3) :
    Extends m1 m3 :=
  ⟨Nat.le_trans h.next h'.next, fun p o hp => h'.keep p o (h.keep p o hp)⟩

theorem Extends.alloc (h : Extends m m') (cells : List (Option Nat)) : Extends m (m'.alloc cells) :=
  ⟨Nat.le_succ_of_le h.next, fun p o hp => get_alloc (h.keep p o hp) cells⟩

theorem Extends.set (h : Extends m m') (hp : m.next ≤ p) (o' : Option Object) :
    Extends m (m'.set p o') := by
  refine ⟨h.next, fun q o hq => ?_⟩
  have hlt := lt_next hq
  rw [get_set_ne (by omega)]
  exact h.keep q o hq

/-- What a cell holds; `none` where there is no such cell or it has never been written. -/
def load (m : Objects) (p i : Nat) : Option Nat :=
  (m.get p).bind fun o => (o.cells[i]?).join

def store (m : Objects) (p i x : Nat) : Option Objects :=
  (m.get p).bind fun o =>
    if i < o.cells.length then some (m.set p (some { o with cells := o.cells.set i (some x) })) else none

def release (m : Objects) (p : Nat) : Option Objects :=
  (m.get p).bind fun o => if o.heap = true then some (m.set p none) else none

theorem load_eq (h : m.get p = some o) (i : Nat) : m.load p i = (o.cells[i]?).join := by
  rw [load, h, Option.bind_some]

theorem store_eq (h : m.get p = some o) (hi : i < o.cells.length) (x : Nat) :
    m.store p i x = some (m.set p (some { o with cells := o.cells.set i (some x) })) := by
  rw [store, h, Option.bind_some, if_pos hi]

theorem release_eq (h : m.get p = some o) (hheap : o.heap = true) :
    m.release p = some (m.set p none) := by
  rw [release, h, Option.bind_some, if_pos hheap]

end Objects

end Exyde.Lib
