import Mathlib.Algebra.Ring.Nat
import Mathlib.Data.List.FinRange

/-! # Handle tables

`handle.c`: a process's table of capabilities. Kernel objects are named by their
address; `owns` marks the entry whose closing releases the object. -/

namespace Exyde.Ipc

abbrev ObjId := Nat

def handleMax : Nat := 64

instance : NeZero handleMax := ⟨by decide⟩

def rightRead : UInt32 := 0x1
def rightWrite : UInt32 := 0x2
def rightTransfer : UInt32 := 0x8

def kindNone : UInt32 := 0
def kindChannel : UInt32 := 2
def kindProcess : UInt32 := 3

def handleInvalid : UInt32 := 0xFFFFFFFF

structure HandleEntry where
  kind : UInt32
  rights : UInt32
  object : ObjId
  inUse : Bool
  ownsObject : Bool
  deriving DecidableEq, Repr

def HandleEntry.empty : HandleEntry := ⟨kindNone, 0, 0, false, false⟩

structure HandleTable where
  entries : Fin handleMax → HandleEntry
  nextHint : Nat

namespace HandleTable

/-- `handle_table_init`; the release callback is the same for every table. -/
def init : HandleTable := ⟨fun _ => .empty, 0⟩

section

variable (t : HandleTable)

def set (i : Fin handleMax) (e : HandleEntry) : HandleTable :=
  { t with entries := Function.update t.entries i e }

/-- The `i`-th slot of the search, which starts at the hint and wraps. -/
def probe (i : Nat) : Fin handleMax :=
  ⟨(t.nextHint + i) % handleMax, Nat.mod_lt _ (by decide)⟩

/-- The first slot of the search that is not in use. -/
def freeSlot : Option (Fin handleMax) :=
  ((List.range handleMax).map t.probe).find? fun i => !(t.entries i).inUse

/-- `handle_create_ex`: the new handle, or `none` for `HANDLE_INVALID`. -/
def handleCreateEx (kind rights : UInt32) (object : ObjId) (owns : Bool) :
    HandleTable × Option (Fin handleMax) :=
  match t.freeSlot with
  | none => (t, none)
  | some i =>
    ({ t.set i ⟨kind, rights, object, true, owns⟩ with nextHint := (i.val + 1) % handleMax }, some i)

def handleCreate (kind rights : UInt32) (object : ObjId) : HandleTable × Option (Fin handleMax) :=
  t.handleCreateEx kind rights object true

def handleTableHasFreeSlot : Bool :=
  (List.finRange handleMax).any fun i => !(t.entries i).inUse

def entryOf (h : UInt32) : Option (Fin handleMax × HandleEntry) :=
  if hlt : h.toNat < handleMax then
    if (t.entries ⟨h.toNat, hlt⟩).inUse then some (⟨h.toNat, hlt⟩, t.entries ⟨h.toNat, hlt⟩)
    else none
  else none

/-- `handle_lookup_full`: the entry, if it has all the required rights. -/
def handleLookupFull (h required : UInt32) : Option HandleEntry :=
  match t.entryOf h with
  | none => none
  | some (_, e) => if e.rights &&& required ≠ required then none else some e

def handleDisown (h : UInt32) : HandleTable :=
  match t.entryOf h with
  | none => t
  | some (i, e) => t.set i { e with ownsObject := false }

/-- The second half of `handle_close`, after the release. -/
def clear (i : Fin handleMax) : HandleTable := t.set i .empty

/-! ## What the operations do to the entries -/

@[simp] theorem set_entries_self (i : Fin handleMax) (e : HandleEntry) :
    (t.set i e).entries i = e := by simp [set]

theorem exists_probe (i : Fin handleMax) : ∃ k, k < handleMax ∧ t.probe k = i := by
  refine ⟨(i.val + (handleMax - t.nextHint % handleMax)) % handleMax, Nat.mod_lt _ (by decide), ?_⟩
  apply Fin.ext
  have hi := i.isLt
  simp only [probe, handleMax] at hi ⊢
  omega

theorem freeSlot_isSome : t.freeSlot.isSome = t.handleTableHasFreeSlot := by
  rw [Bool.eq_iff_iff]
  simp only [freeSlot, List.find?_isSome, List.mem_map, List.mem_range, handleTableHasFreeSlot,
    List.any_eq_true, List.mem_finRange, true_and]
  constructor
  · intro ⟨i, _, hi⟩; exact ⟨i, hi⟩
  · intro ⟨i, hi⟩
    obtain ⟨k, hk, rfl⟩ := t.exists_probe i
    exact ⟨_, ⟨k, hk, rfl⟩, hi⟩

end

variable {t : HandleTable} {i : Fin handleMax} {kind rights : UInt32} {t t' : HandleTable}
  {e : HandleEntry}

theorem freeSlot_unused (h : t.freeSlot = some i) : (t.entries i).inUse = false := by
  simpa using List.find?_some h

/-- **Creating a handle.** It takes an unused slot and changes no other one. -/
theorem handleCreateEx_some {object : ObjId}
    {owns : Bool}
    (h : t.handleCreateEx kind rights object owns = (t', some i)) :
    (t.entries i).inUse = false ∧
      t'.entries = Function.update t.entries i ⟨kind, rights, object, true, owns⟩ := by
  unfold handleCreateEx at h
  split at h
  · cases h
  next j hj =>
    cases h
    exact ⟨freeSlot_unused hj, rfl⟩

theorem handleCreateEx_none {object : ObjId}
    {owns : Bool} (h : t.handleCreateEx kind rights object owns = (t', none)) : t' = t := by
  unfold handleCreateEx at h
  split at h <;> cases h
  rfl

theorem handleCreateEx_of_room (kind rights : UInt32) (object : ObjId) (owns : Bool)
    (h : t.handleTableHasFreeSlot = true) :
    ∃ t' i, t.handleCreateEx kind rights object owns = (t', some i) ∧ (t.entries i).inUse = false ∧
      t'.entries = Function.update t.entries i ⟨kind, rights, object, true, owns⟩ := by
  rw [← freeSlot_isSome] at h
  obtain ⟨i, hi⟩ := Option.isSome_iff_exists.mp h
  exact ⟨_, i, by rw [handleCreateEx, hi], freeSlot_unused hi, rfl⟩

theorem entryOf_some {h : UInt32}
    (hs : t.entryOf h = some (i, e)) : i.val = h.toNat ∧ t.entries i = e ∧ e.inUse = true := by
  unfold entryOf at hs
  split at hs
  · split at hs
    next hu => cases hs; exact ⟨rfl, rfl, hu⟩
    · cases hs
  · cases hs

theorem handleLookupFull_some {h required : UInt32}
    (hl : t.handleLookupFull h required = some e) :
    ∃ i : Fin handleMax, i.val = h.toNat ∧ t.entryOf h = some (i, e) ∧ t.entries i = e ∧
      e.inUse = true ∧ e.rights &&& required = required := by
  unfold handleLookupFull at hl
  split at hl
  · cases hl
  next i e' he =>
    split at hl
    · cases hl
    next hr =>
      cases hl
      obtain ⟨h1, h2, h3⟩ := entryOf_some he
      exact ⟨i, h1, he, h2, h3, by simpa using hr⟩

end HandleTable

end Exyde.Ipc
