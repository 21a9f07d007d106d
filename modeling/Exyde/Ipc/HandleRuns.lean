import Exyde.Ipc.Handle
import Exyde.Lib.Runs
import Exyde.Lib.Tables

/-! # Runs of a handle table

Any sequence of calls of `handle.c` on one table, with the calls of the release
callback. Beside the table stands a history, one record for every entry ever created;
the callback is called once for each record that ended owning its object. -/

namespace Exyde.Ipc

open List Option Function
open Exyde.Lib (System Reachable update_some_cases update_none_cases ne_of_some_of_none)

/-- A call of the release callback: the kind and the object. -/
abbrev Released := UInt32 × ObjId

def HandleEntry.release (e : HandleEntry) : Option Released :=
  if e.ownsObject then some (e.kind, e.object) else none

namespace HandleTable

section

variable (t : HandleTable)

/-- `handle_close`: whether the handle was open, and the release call. -/
def handleClose (h : UInt32) : HandleTable × Bool × Option Released :=
  match t.entryOf h with
  | none => (t, false, none)
  | some (i, e) => (t.clear i, true, e.release)

theorem clear_entries_of_ne {i j : Fin handleMax} (h : j ≠ i) :
    (t.clear i).entries j = t.entries j :=
  update_of_ne h ..

def destroyEntry (acc : HandleTable × List Released) (i : Fin handleMax) :
    HandleTable × List Released :=
  if (acc.1.entries i).inUse then (acc.1.clear i, acc.2 ++ (acc.1.entries i).release.toList) else acc

def handleTableDestroy : HandleTable × List Released :=
  let r := (List.finRange handleMax).foldl destroyEntry (t, [])
  ({ r.1 with nextHint := 0 }, r.2)

def releaseAt (i : Fin handleMax) : Option Released :=
  if (t.entries i).inUse then (t.entries i).release else none

/-- What the loop leaves of the slots it has passed, and the calls it has made. -/
theorem foldl_destroyEntry (l : List (Fin handleMax)) (hl : l.Nodup) (t : HandleTable)
    (log : List Released) :
    (∀ i, ((l.foldl destroyEntry (t, log)).1.entries i) =
      if i ∈ l ∧ (t.entries i).inUse = true then .empty else t.entries i) ∧
    (l.foldl destroyEntry (t, log)).2 = log ++ l.filterMap t.releaseAt := by
  induction l generalizing t log with
  | nil => simp
  | cons j l ih =>
    obtain ⟨hj, hl⟩ := nodup_cons.mp hl
    rw [foldl_cons, filterMap_cons]
    by_cases huse : (t.entries j).inUse = true
    · have hstep : destroyEntry (t, log) j = (t.clear j, log ++ (t.entries j).release.toList) :=
        if_pos huse
      obtain ⟨hent, hlog⟩ := ih hl (t.clear j) (log ++ (t.entries j).release.toList)
      -- the slots still to come are as they were
      have hrest : l.filterMap (t.clear j).releaseAt = l.filterMap t.releaseAt := by
        refine filterMap_congr fun i hi => ?_
        have hij : i ≠ j := fun h => hj (h ▸ hi)
        simp [releaseAt, clear, set, hij]
      have hrel : t.releaseAt j = (t.entries j).release := if_pos huse
      rw [hstep]
      refine ⟨fun i => ?_, ?_⟩
      · rw [hent i]
        by_cases hij : i = j
        · subst hij
          simp [clear, hj, huse]
        · simp [clear, set, hij]
      · rw [hlog, hrest, hrel, append_assoc]
        cases (t.entries j).release <;> rfl
    · have hstep : destroyEntry (t, log) j = (t, log) := if_neg huse
      obtain ⟨hent, hlog⟩ := ih hl t log
      have hrel : t.releaseAt j = none := if_neg huse
      rw [hstep]
      refine ⟨fun i => ?_, by rw [hlog, hrel]⟩
      rw [hent i]
      by_cases hij : i = j
      · subst hij
        simp [huse]
      · simp [hij]

/-- **Destroying a table** leaves no slot in use, and releases what the slots own. -/
theorem handleTableDestroy_spec :
    (∀ i, (t.handleTableDestroy.1.entries i).inUse = false) ∧
      t.handleTableDestroy.2 = (List.finRange handleMax).filterMap t.releaseAt := by
  obtain ⟨hent, hlog⟩ := foldl_destroyEntry _ (nodup_finRange handleMax) t []
  simp only [handleTableDestroy, hent, hlog, nil_append, and_true, mem_finRange, true_and]
  intro i
  split
  · rfl
  next h => simpa using h

end

end HandleTable

/-! ## History -/

/-- An entry that was created: its data, whether it was created owning, and what
has happened to it. -/
structure Made where
  kind : UInt32
  rights : UInt32
  object : ObjId
  owning : Bool
  disowned : Bool
  ended : Bool
  deriving DecidableEq, Repr

def Made.entry (m : Made) : HandleEntry := ⟨m.kind, m.rights, m.object, true, m.owning && !m.disowned⟩

/-- Its object is to be released: it ended, and was owning to the end. -/
def Made.Due (m : Made) : Prop := m.owning = true ∧ m.disowned = false ∧ m.ended = true

def Made.released (m : Made) : Released := (m.kind, m.object)

theorem Made.entry_release (m : Made) :
    m.entry.release = if m.owning = true ∧ m.disowned = false then some m.released else none := by
  simp [HandleEntry.release, entry, released]

structure HandleRun where
  table : HandleTable
  /-- the calls of the release callback, in order -/
  released : List Released
  /-- the entries created, numbered from 0 -/
  made : Nat → Option Made
  count : Nat
  /-- the entry in each slot -/
  slot : Fin handleMax → Option Nat

inductive HandleOp
  | create (kind rights : UInt32) (object : ObjId)
  | createEx (kind rights : UInt32) (object : ObjId) (owns : Bool)
  | disown (h : UInt32)
  | close (h : UInt32)
  | destroy
  deriving DecidableEq, Repr

namespace HandleRun

def openAt (st : HandleRun) (h : UInt32) : Option (Fin handleMax × Nat) :=
  if hlt : h.toNat < handleMax then (st.slot ⟨h.toNat, hlt⟩).map (⟨h.toNat, hlt⟩, ·) else none

def record (st : HandleRun) (m : Made) : HandleTable × Option (Fin handleMax) → HandleRun
  | (t, none) => { st with table := t }
  | (t, some i) =>
    { st with
      table := t
      made := update st.made st.count (some m)
      count := st.count + 1
      slot := update st.slot i (some st.count) }

def step (st : HandleRun) : HandleOp → HandleRun
  | .create kind rights object =>
    st.record ⟨kind, rights, object, true, false, false⟩ (st.table.handleCreate kind rights object)
  | .createEx kind rights object owns =>
    st.record ⟨kind, rights, object, owns, false, false⟩
      (st.table.handleCreateEx kind rights object owns)
  | .disown h =>
    { st with
      table := st.table.handleDisown h
      made :=
        match st.openAt h with
        | none => st.made
        | some (_, n) =>
          update st.made n ((st.made n).map fun m => { m with disowned := true }) }
  | .close h =>
    let r := st.table.handleClose h
    match st.openAt h with
    | none => { st with table := r.1, released := st.released ++ r.2.2.toList }
    | some (i, n) =>
      { st with
        table := r.1
        released := st.released ++ r.2.2.toList
        made := update st.made n ((st.made n).map fun m => { m with ended := true })
        slot := update st.slot i none }
  | .destroy =>
    { st with
      table := st.table.handleTableDestroy.1
      released := st.released ++ st.table.handleTableDestroy.2
      made := fun n => (st.made n).map fun m => { m with ended := true }
      slot := fun _ => none }

end HandleRun

def handleSys : System HandleRun HandleOp where
  start st := st = ⟨.init, [], fun _ => none, 0, fun _ => none⟩
  step st op := some (st.step op)

/-! ## The table is what the history says -/

structure Tracks (st : HandleRun) : Prop where
  unused : ∀ {i}, st.slot i = none → (st.table.entries i).inUse = false
  used : ∀ {i n}, st.slot i = some n →
    ∃ m, st.made n = some m ∧ m.ended = false ∧ st.table.entries i = m.entry
  inj : ∀ {i j n}, st.slot i = some n → st.slot j = some n → i = j
  live : ∀ {n m}, st.made n = some m → m.ended = false → ∃ i, st.slot i = some n
  fresh : ∀ {n}, st.count ≤ n → st.made n = none

def DueAt (made : Nat → Option Made) (n : Nat) : Prop := ∃ m, made n = some m ∧ m.Due

/-- The calls of the callback are for the entries that are due, once for each. -/
def Settled (released : List Released) (made : Nat → Option Made) : Prop :=
  ∃ order : List Nat, order.Nodup ∧
    released.map some = order.map (fun n => (made n).map Made.released) ∧
    ∀ n, n ∈ order ↔ DueAt made n

section Steps

variable {st : HandleRun} {h : UInt32} {i : Fin handleMax} {n : Nat}

section

variable (ht : Tracks st) {t' : HandleTable}

include ht

theorem Tracks.entryOf (h : UInt32) : (st.openAt h = none ∧ st.table.entryOf h = none) ∨
      ∃ i n m, st.openAt h = some (i, n) ∧ st.slot i = some n ∧ st.made n = some m ∧
        m.ended = false ∧ st.table.entries i = m.entry ∧ st.table.entryOf h = some (i, m.entry) := by
  unfold HandleRun.openAt HandleTable.entryOf
  split
  next hlt =>
    cases hs : st.slot ⟨h.toNat, hlt⟩ with
    | none => exact .inl ⟨rfl, by rw [ht.unused hs]; rfl⟩
    | some n =>
      obtain ⟨m, hm, hend, hent⟩ := ht.used hs
      exact .inr ⟨_, n, m, rfl, hs, hm, hend, hent, by rw [hent]; rfl⟩
  · exact .inl ⟨rfl, rfl⟩

theorem Tracks.slot_none (hi : (st.table.entries i).inUse = false) : st.slot i = none := by
  cases hs : st.slot i with
  | none => rfl
  | some n =>
    obtain ⟨m, _, _, hent⟩ := ht.used hs
    rw [hent] at hi
    cases hi

theorem Tracks.slot_ne_count (i : Fin handleMax) : st.slot i ≠ some st.count := by
  intro hs
  obtain ⟨m, hm, _⟩ := ht.used hs
  exact ne_of_some_of_none hm (ht.fresh (Nat.le_refl _)) rfl

theorem Tracks.record {m : Made} (hs : st.slot i = none)
    (hm : m.ended = false) (hent : t'.entries = update st.table.entries i m.entry) :
    Tracks (st.record m (t', some i)) where
  unused {j} hj := by
    have hij : j ≠ i := by
      rintro rfl
      cases (update_self ..).symm.trans hj
    change (t'.entries j).inUse = false
    rw [hent, update_of_ne hij]
    exact ht.unused ((update_of_ne hij ..).symm.trans hj)
  used {j n} hj := by
    change ∃ m', update st.made st.count (some m) n = some m' ∧ _ ∧ t'.entries j = _
    rw [hent]
    rcases update_some_cases hj with ⟨rfl, rfl⟩ | ⟨hij, hj⟩
    · exact ⟨m, update_self .., hm, update_self ..⟩
    · obtain ⟨m', hm', hend, hent'⟩ := ht.used hj
      have hne := ne_of_some_of_none hm' (ht.fresh (Nat.le_refl _))
      exact ⟨m', (update_of_ne hne ..).trans hm', hend,
        (update_of_ne hij ..).trans hent'⟩
  inj {j k n} hj hk := by
    rcases update_some_cases hj with ⟨rfl, rfl⟩ | ⟨_, hj'⟩
    · rcases update_some_cases hk with ⟨rfl, _⟩ | ⟨_, hk'⟩
      · rfl
      · exact absurd hk' (ht.slot_ne_count k)
    · rcases update_some_cases hk with ⟨rfl, rfl⟩ | ⟨_, hk'⟩
      · exact absurd hj' (ht.slot_ne_count j)
      · exact ht.inj hj' hk'
  live {n m'} hm' hend := by
    rcases update_some_cases hm' with ⟨rfl, _⟩ | ⟨_, hm'⟩
    · exact ⟨i, update_self ..⟩
    · obtain ⟨j, hj⟩ := ht.live hm' hend
      exact ⟨j, (update_of_ne (ne_of_some_of_none hj hs) ..).trans hj⟩
  fresh {n} hn := by
    have hn : st.count + 1 ≤ n := hn
    exact (update_of_ne (by omega) ..).trans (ht.fresh (by omega))

theorem Tracks.fresh_update {m : Made} (hm : st.made n = some m) (o : Option Made)
    {k : Nat} (hk : st.count ≤ k) : update st.made n o k = none :=
  (update_of_ne (ne_of_some_of_none hm (ht.fresh hk)).symm ..).trans (ht.fresh hk)

theorem Tracks.used_update (hs : st.slot i = some n) (o : Option Made)
    {j : Fin handleMax} {k : Nat} (hij : j ≠ i) (hj : st.slot j = some k) :
    ∃ m, update st.made n o k = some m ∧ m.ended = false ∧ st.table.entries j = m.entry := by
  obtain ⟨m, hm, hend, hent⟩ := ht.used hj
  refine ⟨m, (update_of_ne ?_ ..).trans hm, hend, hent⟩
  rintro rfl
  exact hij (ht.inj hj hs)

theorem Tracks.amend {m m' : Made} (hs : st.slot i = some n)
    (hm : st.made n = some m) (hend : m'.ended = false)
    (hent : t'.entries = update st.table.entries i m'.entry) :
    Tracks { st with table := t', made := update st.made n (some m') } where
  unused {j} hj := by
    rw [hent, update_of_ne (ne_of_some_of_none hs hj).symm]
    exact ht.unused hj
  used {j k} hj := by
    rw [hent]
    by_cases hij : j = i
    · subst hij
      cases hs.symm.trans hj
      exact ⟨m', update_self .., hend, update_self ..⟩
    · rw [update_of_ne hij]
      exact ht.used_update hs _ hij hj
  inj := ht.inj
  live {k m0} hk hend0 := by
    rcases update_some_cases hk with ⟨rfl, _⟩ | ⟨_, hk⟩
    · exact ⟨i, hs⟩
    · exact ht.live hk hend0
  fresh := ht.fresh_update hm _

theorem Tracks.finish {m m' : Made} (hs : st.slot i = some n)
    (hm : st.made n = some m) (hend : m'.ended = true) :
    Tracks { st with
      table := st.table.clear i
      made := update st.made n (some m')
      slot := update st.slot i none } where
  unused {j} hj := by
    by_cases hij : j = i
    · subst hij
      simp [HandleTable.clear, HandleEntry.empty]
    · dsimp only at hj ⊢
      rw [update_of_ne hij] at hj
      rw [HandleTable.clear_entries_of_ne _ hij]
      exact ht.unused hj
  used {j k} hj := by
    obtain ⟨hij, hj⟩ := update_none_cases hj
    rw [HandleTable.clear_entries_of_ne _ hij]
    exact ht.used_update hs _ hij hj
  inj hj hk := ht.inj (update_none_cases hj).2 (update_none_cases hk).2
  live {k m0} hk hend0 := by
    rcases update_some_cases hk with ⟨_, rfl⟩ | ⟨hkn, hk⟩
    · rw [hend] at hend0
      cases hend0
    · obtain ⟨j, hj⟩ := ht.live hk hend0
      refine ⟨j, (update_of_ne ?_ ..).trans hj⟩
      rintro rfl
      exact hkn (Option.some.inj (hj.symm.trans hs))
  fresh := ht.fresh_update hm _

theorem Tracks.createEx {kind rights : UInt32} {object : ObjId} {owns : Bool} :
    Tracks (st.record ⟨kind, rights, object, owns, false, false⟩
      (st.table.handleCreateEx kind rights object owns)) := by
  cases hr : st.table.handleCreateEx kind rights object owns with
  | mk t' o =>
    cases o with
    | none =>
      obtain rfl := HandleTable.handleCreateEx_none hr
      exact ht
    | some i =>
      obtain ⟨hunused, hent⟩ := HandleTable.handleCreateEx_some hr
      refine ht.record (ht.slot_none hunused) rfl ?_
      rw [hent, Made.entry]
      simp

theorem Tracks.destroy : Tracks (st.step .destroy) := by
  obtain ⟨hunused, _⟩ := st.table.handleTableDestroy_spec
  simp only [HandleRun.step]
  exact
    { unused := fun _ => hunused _
      used := fun hno => (nomatch hno)
      inj := fun hno => (nomatch hno)
      live := fun {n m} hm hend => by
        obtain ⟨m0, _, rfl⟩ := map_eq_some_iff.mp hm
        cases hend
      fresh := fun hn => by
        change (st.made _).map _ = none
        rw [ht.fresh hn, map_none] }

end

/-! ## Every release is due -/

theorem Settled.extend {released calls : List Released} {made made' : Nat → Option Made}
    (hset : Settled released made) (new : List Nat) (hnd : new.Nodup)
    (hcalls : calls.map some = new.map fun k => (made' k).map Made.released)
    (hfresh : ∀ k ∈ new, ¬ DueAt made k) (hkeep : ∀ k, DueAt made k → made' k = made k)
    (hdue : ∀ k, DueAt made' k ↔ DueAt made k ∨ k ∈ new) : Settled (released ++ calls) made' := by
  obtain ⟨order, hnd', hcalls', hmem⟩ := hset
  refine ⟨order ++ new, ?_, ?_, fun k => ?_⟩
  · exact hnd'.append hnd fun k hk hk' => hfresh k hk' ((hmem k).mp hk)
  · rw [map_append, map_append, hcalls, hcalls']
    congr 1
    exact map_congr_left fun k hk => by rw [hkeep k ((hmem k).mp hk)]
  · rw [mem_append, hmem, hdue]

variable {made : Nat → Option Made} {released : List Released} {m : Made}

theorem Settled.update
    (hset : Settled released made) {o : Option Made} (hbefore : ¬ DueAt made n)
    (hafter : ∀ m, o = some m → ¬ m.Due) : Settled released (Function.update made n o) := by
  have hsame : ∀ k, DueAt made k → Function.update made n o k = made k := by
    intro k hk
    refine Function.update_of_ne ?_ ..
    rintro rfl
    exact hbefore hk
  have hdue : ∀ k, DueAt (Function.update made n o) k ↔ DueAt made k ∨ k ∈ ([] : List Nat) := by
    intro k
    rw [or_iff_left not_mem_nil]
    constructor
    · intro ⟨m, hm, hdue⟩
      by_cases hk : k = n
      · subst hk
        rw [Function.update_self] at hm
        exact absurd hdue (hafter m hm)
      · rw [Function.update_of_ne hk] at hm
        exact ⟨m, hm, hdue⟩
    · intro ⟨m, hm, hdue⟩
      exact ⟨m, (hsame k ⟨m, hm, hdue⟩).trans hm, hdue⟩
  have hext : Settled (released ++ []) (Function.update made n o) :=
    hset.extend [] nodup_nil rfl (fun k hk => absurd hk not_mem_nil) hsame hdue
  rwa [append_nil] at hext

theorem Made.not_due (h : m.ended = false) : ¬ m.Due := fun hdue => by
  rw [hdue.2.2] at h
  cases h

theorem not_dueAt (hm : made n = some m) (hend : m.ended = false) : ¬ DueAt made n := by
  intro ⟨m', hm', hdue⟩
  cases hm.symm.trans hm'
  exact Made.not_due hend hdue

theorem Settled.createEx (hset : Settled st.released st.made) (ht : Tracks st)
    (kind rights : UInt32) (object : ObjId) (owns : Bool) (r : HandleTable × Option (Fin handleMax)) :
    Settled (st.record ⟨kind, rights, object, owns, false, false⟩ r).released
      (st.record ⟨kind, rights, object, owns, false, false⟩ r).made := by
  obtain ⟨t', o⟩ := r
  cases o with
  | none => exact hset
  | some i =>
    refine hset.update (fun ⟨m, hm, _⟩ => ?_) fun m hm => ?_
    · rw [ht.fresh (Nat.le_refl _)] at hm
      cases hm
    · cases hm
      exact Made.not_due rfl

/-- An entry ends, and is released if it owns its object. -/
theorem Settled.finish
    (hset : Settled released made) (hm : made n = some m) (hend : m.ended = false) :
    Settled (released ++ m.entry.release.toList)
      (Function.update made n (some { m with ended := true })) := by
  by_cases howns : m.owning = true ∧ m.disowned = false
  · have hdue : ({ m with ended := true } : Made).Due := ⟨howns.1, howns.2, rfl⟩
    rw [Made.entry_release, if_pos howns]
    refine hset.extend [n] (nodup_singleton n) ?_ ?_ (fun k hk => ?_) fun k => ?_
    · simp [Made.released]
    · intro k hk
      rw [mem_singleton.mp hk]
      exact not_dueAt hm hend
    · refine Function.update_of_ne ?_ ..
      rintro rfl
      exact not_dueAt hm hend hk
    · rw [mem_singleton, DueAt, DueAt]
      by_cases hk : k = n
      · subst hk
        simp [hdue]
      · simp [hk]
  · rw [Made.entry_release, if_neg howns, toList_none, append_nil]
    refine hset.update (not_dueAt hm hend) fun m' hm' hdue => howns ?_
    cases hm'
    exact ⟨hdue.1, hdue.2.1⟩

/-- What a slot releases: nothing, or the object of the entry in it. -/
theorem Tracks.releaseAt (ht : Tracks st) (i : Fin handleMax) :
    st.table.releaseAt i = none ∨ ∃ n m, st.slot i = some n ∧ st.made n = some m ∧
      m.ended = false ∧ (m.owning = true ∧ m.disowned = false) ∧
      st.table.releaseAt i = some m.released := by
  cases hs : st.slot i with
  | none => exact .inl (if_neg (by rw [ht.unused hs]; decide))
  | some n =>
    obtain ⟨m, hm, hend, hent⟩ := ht.used hs
    rw [HandleTable.releaseAt, hent, if_pos (show m.entry.inUse = true from rfl), m.entry_release]
    by_cases howns : m.owning = true ∧ m.disowned = false
    · exact .inr ⟨n, m, rfl, hm, hend, howns, if_pos howns⟩
    · exact .inl (if_neg howns)

theorem Settled.destroy (hset : Settled st.released st.made) (ht : Tracks st) :
    Settled (st.released ++ st.table.handleTableDestroy.2)
      (fun n => (st.made n).map fun m => { m with ended := true }) := by
  -- the entries that own their objects, in the order of their slots
  obtain ⟨new, hnew⟩ : ∃ new, new = (List.finRange handleMax).filterMap fun i =>
      (st.table.releaseAt i).bind fun _ => st.slot i := ⟨_, rfl⟩
  have hmem : ∀ n, n ∈ new ↔ ∃ m, st.made n = some m ∧ m.ended = false ∧
      (m.owning = true ∧ m.disowned = false) := by
    intro n
    rw [hnew, mem_filterMap]
    constructor
    · intro ⟨i, _, hn⟩
      obtain ⟨call, hcall, hs⟩ := bind_eq_some_iff.mp hn
      rcases ht.releaseAt i with hno | ⟨n', m, hs', hm, hend, howns, _⟩
      · rw [hcall] at hno
        cases hno
      · cases hs.symm.trans hs'
        exact ⟨m, hm, hend, howns⟩
    · intro ⟨m, hm, hend, howns⟩
      obtain ⟨i, hs⟩ := ht.live hm hend
      obtain ⟨m', hm', _, hent⟩ := ht.used hs
      cases hm.symm.trans hm'
      have hrel : st.table.releaseAt i = m.entry.release := by
        rw [HandleTable.releaseAt, hent]
        rfl
      refine ⟨i, mem_finRange i, ?_⟩
      rw [hrel, m.entry_release, if_pos howns, bind_some, hs]
  rw [st.table.handleTableDestroy_spec.2]
  refine hset.extend new ?_ ?_ (fun n hn => ?_) (fun n hn => ?_) fun n => ?_
  · rw [hnew]
    refine (nodup_finRange handleMax).filterMap fun i j n hi hj => ?_
    obtain ⟨_, _, hi⟩ := bind_eq_some_iff.mp hi
    obtain ⟨_, _, hj⟩ := bind_eq_some_iff.mp hj
    exact ht.inj hi hj
  · rw [hnew, map_filterMap, map_filterMap]
    refine filterMap_congr fun i _ => ?_
    rcases ht.releaseAt i with hrel | ⟨n, m, hs, hm, _, _, hrel⟩
    · rw [hrel]
      rfl
    · simp [hrel, hs, hm, Made.released]
  · obtain ⟨m, hm, hend, _⟩ := (hmem n).mp hn
    exact not_dueAt hm hend
  · obtain ⟨m, hm, _, _, hend⟩ := hn
    rw [hm, map_some, ← hend]
  · rw [hmem]
    constructor
    · intro ⟨m', hm', hdue⟩
      obtain ⟨m, hm, rfl⟩ := map_eq_some_iff.mp hm'
      cases hend : m.ended with
      | true => exact .inl ⟨m, hm, hdue.1, hdue.2.1, hend⟩
      | false => exact .inr ⟨m, hm, hend, hdue.1, hdue.2.1⟩
    · intro hor
      rcases hor with ⟨m, hm, hdue⟩ | ⟨m, hm, _, howns⟩
      · exact ⟨_, map_eq_some_iff.mpr ⟨m, hm, rfl⟩, hdue.1, hdue.2.1, rfl⟩
      · exact ⟨_, map_eq_some_iff.mpr ⟨m, hm, rfl⟩, howns.1, howns.2, rfl⟩

theorem Settled.step (hset : Settled st.released st.made) (ht : Tracks st) (op : HandleOp) :
    Tracks (st.step op) ∧ Settled (st.step op).released (st.step op).made := by
  cases op with
  | create kind rights object | createEx kind rights object owns =>
    exact ⟨ht.createEx, hset.createEx ht ..⟩
  | disown h =>
    simp only [HandleRun.step, HandleTable.handleDisown]
    rcases ht.entryOf h with ⟨ho, he⟩ | ⟨i, n, m, ho, hs, hm, hend, _, he⟩
    · rw [ho, he]
      exact ⟨ht, hset⟩
    · rw [ho, he]
      dsimp only
      rw [hm]
      refine ⟨ht.amend hs hm hend ?_, hset.update (not_dueAt hm hend) fun m' hm' => ?_⟩
      · simp [HandleTable.set, Made.entry]
      · cases hm'
        exact Made.not_due hend
  | close h =>
    simp only [HandleRun.step, HandleTable.handleClose]
    rcases ht.entryOf h with ⟨ho, he⟩ | ⟨i, n, m, ho, hs, hm, hend, _, he⟩
    · rw [ho, he]
      exact ⟨{ ht with }, by simpa using hset⟩
    · rw [ho, he]
      dsimp only
      rw [hm]
      have hfin := ht.finish hs hm (rfl : ({ m with ended := true } : Made).ended = true)
      exact ⟨{ hfin with }, hset.finish hm hend⟩
  | destroy => exact ⟨ht.destroy, hset.destroy ht⟩

end Steps

/-! ## The law -/

section Law

variable {st : HandleRun}

theorem handleSys_invariant (h : Reachable handleSys st) :
    Tracks st ∧ Settled st.released st.made := by
  refine h.invariant (I := fun st => Tracks st ∧ Settled st.released st.made) (fun st hst => ?_)
    fun st op st' ⟨ht, hset⟩ _ hstep => ?_
  · subst hst
    refine ⟨⟨fun _ => rfl, fun hno => (nomatch hno), fun hno => (nomatch hno),
      fun hno => (nomatch hno), fun _ => rfl⟩, [], nodup_nil, rfl, fun n => ?_⟩
    exact ⟨fun hno => absurd hno not_mem_nil, fun ⟨_, hno, _⟩ => (nomatch hno)⟩
  · cases hstep
    exact hset.step ht op

theorem handleLookupFull_congr {t t' : HandleTable} {h : UInt32}
    (hent : ∀ i : Fin handleMax, i.val = h.toNat → t'.entries i = t.entries i) (required : UInt32) :
    t'.handleLookupFull h required = t.handleLookupFull h required := by
  have he : t'.entryOf h = t.entryOf h := by
    unfold HandleTable.entryOf
    split
    next hlt => rw [hent ⟨h.toNat, hlt⟩ rfl]
    · rfl
  rw [HandleTable.handleLookupFull, HandleTable.handleLookupFull, he]

theorem handleLookupFull_set (t : HandleTable) {i : Fin handleMax} (e : HandleEntry) {h : UInt32}
    (hne : h.toNat ≠ i.val) (required : UInt32) :
    (t.set i e).handleLookupFull h required = t.handleLookupFull h required :=
  handleLookupFull_congr (fun j hj => update_of_ne (fun hij => hne (by rw [← hj, hij])) ..) _

/-- **The law of handle tables**, in every state of every run on one table.
Creation finds an unused slot if there is one. An operation on a handle leaves
the lookups of all others as they are. A lookup finds what is open with enough
rights. The release callback has been called once for every entry that was closed
or destroyed after it had been created owning and not disowned since, and for no
other. -/
theorem handle_table_law (h : Reachable handleSys st) : (∀ kind rights object owns,
      ((st.table.handleCreateEx kind rights object owns).2.isSome =
        st.table.handleTableHasFreeSlot) ∧
      ∀ t' i, st.table.handleCreateEx kind rights object owns = (t', some i) →
        st.slot i = none ∧ ∀ h' required, h'.toNat ≠ i.val →
          t'.handleLookupFull h' required = st.table.handleLookupFull h' required) ∧
    (∀ h h' required, h' ≠ h →
      (st.table.handleDisown h).handleLookupFull h' required =
        st.table.handleLookupFull h' required ∧
      (st.table.handleClose h).1.handleLookupFull h' required =
        st.table.handleLookupFull h' required) ∧
    (∀ h required e, st.table.handleLookupFull h required = some e ↔
      ∃ i n m, st.openAt h = some (i, n) ∧ st.made n = some m ∧
        m.rights &&& required = required ∧ e = m.entry) ∧
    Settled st.released st.made := by
  obtain ⟨ht, hset⟩ := handleSys_invariant h
  refine ⟨fun kind rights object owns => ⟨?_, fun t' i hc => ?_⟩, fun h h' required hne => ?_,
    fun h required e => ?_, hset⟩
  · rw [← HandleTable.freeSlot_isSome, HandleTable.handleCreateEx]
    cases st.table.freeSlot <;> rfl
  · obtain ⟨hunused, hent⟩ := HandleTable.handleCreateEx_some hc
    refine ⟨ht.slot_none hunused, fun h' required hne => handleLookupFull_congr (fun j hj => ?_) _⟩
    rw [hent, update_of_ne]
    rintro rfl
    exact hne hj.symm
  · have hval : h'.toNat ≠ h.toNat := fun heq => hne (UInt32.toNat_inj.mp heq)
    simp only [HandleTable.handleDisown, HandleTable.handleClose]
    cases he : st.table.entryOf h with
    | none => exact ⟨rfl, rfl⟩
    | some x =>
      have hi := (HandleTable.entryOf_some he).1
      exact ⟨handleLookupFull_set _ _ (by omega) _, handleLookupFull_set _ _ (by omega) _⟩
  · rw [HandleTable.handleLookupFull]
    rcases ht.entryOf h with ⟨ho, he⟩ | ⟨i, n, m, ho, _, hm, _, _, he⟩
    · rw [he, ho]
      simp
    rw [he]
    constructor
    · intro hl
      obtain ⟨hr, hl⟩ := Option.ite_none_left_eq_some.mp hl
      cases hl
      exact ⟨i, n, m, ho, hm, by simpa [Made.entry] using hr, rfl⟩
    · rintro ⟨i', n', m', ho', hm', hr, rfl⟩
      obtain ⟨rfl, rfl⟩ := Prod.mk.inj (Option.some.inj (ho.symm.trans ho'))
      cases hm.symm.trans hm'
      dsimp only
      rw [if_neg]
      simpa [Made.entry] using hr

/-- Of two owning entries and a copy, one is disowned and closed, one is closed,
and the copy goes with the table: one release. -/
theorem handle_table_law_disown : ∃ st, Reachable handleSys st ∧
    st.released = [(kindProcess, 7)] ∧ Settled st.released st.made := by
  obtain ⟨st, hst, hreleased⟩ :
      ∃ st ∈ handleSys.run ⟨.init, [], fun _ => none, 0, fun _ => none⟩
        [.create kindChannel 3 5, .create kindProcess 15 7, .createEx kindChannel 3 5 false,
          .disown 0, .close 0, .close 1, .close 0xFFFFFFFF, .destroy],
        st.released = [(kindProcess, 7)] := by decide +kernel
  have h : Reachable handleSys st := Reachable.run hst (.start rfl)
  exact ⟨st, h, hreleased, (handle_table_law h).2.2.2⟩

end Law

end Exyde.Ipc
