import Mathlib.Data.Set.Card

/-! # Reference counts

The count of an object is exact if it is the number of its holders; then an object whose
count is zero can be freed without leaving a holder behind. -/

namespace Exyde.Lib

open Function

/-- `count o = none`: there is no object `o`. -/
structure Refs (Obj Holder : Type) where
  count : Obj → Option Nat
  holds : Holder → Option Obj

namespace Refs

variable {Obj Holder : Type} {r : Refs Obj Holder} {h : Holder} {o : Obj} {n : Nat}

def holders (r : Refs Obj Holder) (o : Obj) : Set Holder := { h | r.holds h = some o }

structure Exact (r : Refs Obj Holder) : Prop where
  live : ∀ h o, r.holds h = some o → r.count o ≠ none
  card : ∀ o n, r.count o = some n → (r.holders o).encard = n

theorem Exact.pos (hr : r.Exact) (hh : r.holds h = some o) : ∃ n, r.count o = some (n + 1) := by
  obtain ⟨n, hn⟩ := Option.ne_none_iff_exists'.mp (hr.live h o hh)
  have hcard := hr.card o n hn
  cases n with
  | succ n => exact ⟨n, hn⟩
  | zero =>
    have hempty : r.holders o = ∅ := Set.encard_eq_zero.mp hcard
    exact absurd (show h ∈ r.holders o from hh) (by simp [hempty])

theorem Exact.unheld (hr : r.Exact) (h0 : r.count o = some 0) (h : Holder) :
    r.holds h ≠ some o := by
  intro hh
  obtain ⟨n, hn⟩ := hr.pos hh
  rw [h0] at hn
  cases hn

/-- References to one object change, those to the others do not. -/
theorem Exact.change {r' : Refs Obj Holder} (hr : r.Exact) (hcount : ∀ o', o' ≠ o → r'.count o' = r.count o')
    (hholders : ∀ o', o' ≠ o → r'.holders o' = r.holders o')
    (hlive : r'.count o = none → r'.holders o = ∅)
    (hcard : ∀ n, r'.count o = some n → (r'.holders o).encard = n) : r'.Exact where
  live k o' hk hnone := by
    by_cases heq : o' = o
    · subst heq
      exact (hlive hnone ▸ hk : k ∈ (∅ : Set Holder))
    · exact hr.live k o' (hholders o' heq ▸ hk : k ∈ r.holders o') (hcount o' heq ▸ hnone)
  card o' n hn := by
    by_cases heq : o' = o
    · subst heq
      exact hcard n hn
    · rw [hholders o' heq]
      exact hr.card o' n (hcount o' heq ▸ hn)

variable [DecidableEq Obj] [DecidableEq Holder]

section

variable (r : Refs Obj Holder)

def alloc (o : Obj) : Refs Obj Holder :=
  { r with count := update r.count o (some 0) }

def acquire (h : Holder) (o : Obj) (n : Nat) : Refs Obj Holder :=
  ⟨update r.count o (some (n + 1)), update r.holds h (some o)⟩

def release (h : Holder) (o : Obj) (n : Nat) : Refs Obj Holder :=
  ⟨update r.count o (some n), update r.holds h none⟩

def free (o : Obj) : Refs Obj Holder :=
  { r with count := update r.count o none }

/-- Release, and free the object with its last reference. -/
def unref (h : Holder) (o : Obj) (n : Nat) : Refs Obj Holder :=
  ⟨update r.count o (if n = 0 then none else some n), update r.holds h none⟩

end

omit [DecidableEq Obj] in
theorem holders_update_other (v : Option Obj) (hv : v ≠ some o) (hh : r.holds h ≠ some o)
    (c : Obj → Option Nat) :
    holders ⟨c, update r.holds h v⟩ o = r.holders o := by
  ext k
  by_cases hk : k = h
  · subst hk; simp [holders, hv, hh]
  · simp [holders, update_of_ne hk]

omit [DecidableEq Holder] in
theorem Exact.alloc (hr : r.Exact) (ho : r.count o = none) : (r.alloc o).Exact := by
  refine hr.change (fun _ hne => update_of_ne hne ..) (fun _ _ => rfl) (by simp [Refs.alloc]) fun n hn => ?_
  have hempty : (r.alloc o).holders o = ∅ :=
    Set.eq_empty_of_forall_notMem fun h hh => hr.live h o hh ho
  obtain rfl : 0 = n := by simpa [Refs.alloc] using hn
  rw [hempty, Set.encard_empty]
  rfl

theorem Exact.acquire (hr : r.Exact) (hh : r.holds h = none) (ho : r.count o = some n) :
    (r.acquire h o n).Exact := by
  refine hr.change (fun _ hne => update_of_ne hne ..) (fun o' hne => ?_) (by simp [Refs.acquire]) fun m hm => ?_
  · exact holders_update_other _ (by simpa using Ne.symm hne) (by simp [hh]) _
  obtain rfl : n + 1 = m := by simpa [Refs.acquire] using hm
  have hset : (r.acquire h o n).holders o = insert h (r.holders o) := by
    ext k
    by_cases hk : k = h
    · subst hk; simp [holders, Refs.acquire]
    · simp [holders, Refs.acquire, hk]
  rw [hset, Set.encard_insert_of_notMem (by simp [holders, hh]), hr.card o n ho]
  simp

theorem Exact.release (hr : r.Exact) (hh : r.holds h = some o) (ho : r.count o = some (n + 1)) :
    (r.release h o n).Exact := by
  refine hr.change (fun _ hne => update_of_ne hne ..) (fun o' hne => ?_) (by simp [Refs.release]) fun m hm => ?_
  · exact holders_update_other _ (by simp) (by rw [hh]; simpa using Ne.symm hne) _
  obtain rfl : n = m := by simpa [Refs.release] using hm
  have hset : (r.release h o n).holders o = r.holders o \ {h} := by
    ext k
    by_cases hk : k = h
    · subst hk; simp [holders, Refs.release]
    · simp [holders, Refs.release, hk]
  have hcard := Set.encard_sdiff_singleton_add_one (show h ∈ r.holders o from hh)
  rw [hr.card o _ ho, ← hset] at hcard
  exact ENat.add_left_injective_of_ne_top ENat.one_ne_top (hcard.trans (Nat.cast_succ n))

omit [DecidableEq Holder] in
theorem Exact.free (hr : r.Exact) (ho : r.count o = some 0) : (r.free o).Exact :=
  hr.change (fun _ hne => update_of_ne hne ..) (fun _ _ => rfl)
    (fun _ => Set.eq_empty_of_forall_notMem (hr.unheld ho)) (by simp [Refs.free])

theorem Exact.unref (hr : r.Exact) (hh : r.holds h = some o) (ho : r.count o = some (n + 1)) :
    (r.unref h o n).Exact := by
  have hrel := hr.release hh ho
  cases n with
  | succ n => exact hrel
  | zero =>
    have hfree := hrel.free (update_self ..)
    rwa [Refs.free, Refs.release, update_idem] at hfree

end Refs

end Exyde.Lib
