import Exyde.Lib.Runs
import Exyde.Libc.EnvEdit
import Mathlib.Data.List.Nodup

/-! # The environment is a finite map

Beside every run of the three functions, with any arguments and any answers of the
allocator, runs a map from names to values, changed by the calls that answer 0; `getenv`
always agrees with it. -/

namespace Exyde.Libc

open Function Exyde.Lib List Option

variable {s s' : EnvState} {n name value : CStr} {es pre post : List Entry} {e e' : Entry}

/-! ## The map -/

abbrev EnvMap := CStr → Option CStr

def EnvMap.set (M : EnvMap) (name value : CStr) (overwrite : Bool) : EnvMap :=
  if (M name).isSome ∧ overwrite = false then M else update M name (some value)

def EnvMap.unset (M : EnvMap) (name : CStr) : EnvMap := update M name none

/-- The part of an entry before the first `=`, if it has one. -/
def namePart (str : CStr) : Option (List Nat) :=
  if equalsSign ∈ str.val then some (str.val.takeWhile (· ≠ equalsSign)) else none

/-- The part of an entry behind the first `k` characters and the sign. -/
def valueFrom (str : CStr) (k : Nat) : CStr :=
  ⟨str.val.drop (k + 1), fun h => str.2 (mem_of_mem_drop h)⟩

def Entry.says (e : Entry) (name : CStr) : Option CStr :=
  if namePart e.str = some name.val then some (valueFrom e.str name.val.length) else none

def envMap (es : List Entry) : EnvMap := fun name =>
  if BadName name then none else es.findSome? fun e => e.says name

def DistinctNames (es : List Entry) : Prop := (es.filterMap fun e => namePart e.str).Nodup

theorem takeWhile_name {name tail : List Nat} (h : equalsSign ∉ name) :
    (name ++ equalsSign :: tail).takeWhile (· ≠ equalsSign) = name := by
  rw [takeWhile_append_of_pos (fun c hc => by
    have hne : c ≠ equalsSign := fun heq => h (heq ▸ hc)
    simpa using hne)]
  simp

theorem takeWhile_sign {str : List Nat} (h : equalsSign ∈ str) :
    ∃ tail, str = str.takeWhile (· ≠ equalsSign) ++ equalsSign :: tail := by
  induction str with
  | nil => cases h
  | cons c str ih =>
    by_cases hc : c = equalsSign
    · exact ⟨str, by simp [hc]⟩
    · obtain ⟨tail, htail⟩ := ih ((mem_cons.mp h).resolve_left (Ne.symm hc))
      refine ⟨tail, ?_⟩
      rw [takeWhile_cons_of_pos (by simpa using hc), cons_append, ← htail]

theorem namePart_eq_iff {str : CStr} (h : equalsSign ∉ name.val) :
    namePart str = some name.val ↔ Matches name.val str.val := by
  rw [namePart]
  constructor
  · intro hpart
    split at hpart
    next hmem =>
      obtain ⟨tail, htail⟩ := takeWhile_sign hmem
      rw [Option.some.inj hpart] at htail
      exact ⟨tail, by rw [htail]; simp⟩
    · cases hpart
  · rintro ⟨tail, htail⟩
    have hstr : str.val = name.val ++ equalsSign :: tail := by rw [← htail]; simp
    rw [if_pos (by rw [hstr]; simp), hstr, takeWhile_name h]

theorem not_badName (h : ¬ BadName name) : equalsSign ∉ name.val := fun hmem => h (.inr hmem)

theorem Entry.says_of_matches (h : equalsSign ∉ name.val) (hm : Matches name.val e.str.val) :
    e.says name = some (valueFrom e.str name.val.length) :=
  if_pos ((namePart_eq_iff h).mpr hm)

theorem Entry.says_of_not_matches (h : equalsSign ∉ name.val) (hm : ¬ Matches name.val e.str.val) :
    e.says name = none :=
  if_neg (mt (namePart_eq_iff h).mp hm)

theorem Entry.says_of_other (h : equalsSign ∉ name.val) (hm : Matches name.val e.str.val)
    (hne : n ≠ name) : e.says n = none := by
  refine if_neg fun heq => hne ?_
  rw [(namePart_eq_iff h).mpr hm] at heq
  exact Subtype.ext (Option.some.inj heq).symm

theorem matches_entryStr (name value : CStr) : Matches name.val (entryStr name value).val :=
  ⟨value.val, by simp [entryStr]⟩

theorem valueFrom_entryStr (name value : CStr) :
    valueFrom (entryStr name value) name.val.length = value := by
  refine Subtype.ext ?_
  simp [valueFrom, entryStr]

/-! ## Finding -/

theorem slotOf_eq_none (h : slotOf name es = none) : ∀ e ∈ es, ¬ Matches name.val e.str.val := by
  intro e he
  have := List.findIdx?_eq_none_iff.mp h e he
  simpa using this

theorem slotOf_eq_some {i : Nat} (h : slotOf name es = some i) :
    ∃ pre e post, es = pre ++ e :: post ∧ i = pre.length ∧ Matches name.val e.str.val ∧
      ∀ e0 ∈ pre, ¬ Matches name.val e0.str.val := by
  obtain ⟨hlt, hhit, hfirst⟩ := List.findIdx?_eq_some_iff_getElem.mp h
  refine ⟨es.take i, es[i], es.drop (i + 1), ?_, ?_, by simpa using hhit, fun e0 he0 => ?_⟩
  · rw [← drop_eq_getElem_cons hlt, take_append_drop]
  · rw [length_take]
    omega
  · obtain ⟨j, hj, rfl⟩ := getElem_of_mem he0
    rw [length_take] at hj
    have := hfirst j (by omega)
    simpa using this

theorem findSome_none (h : equalsSign ∉ name.val) (hno : ∀ e ∈ es, ¬ Matches name.val e.str.val) :
    (es.findSome? fun e => e.says name) = none :=
  List.findSome?_eq_none_iff.mpr fun e he => Entry.says_of_not_matches h (hno e he)

section

variable (hname : ¬ BadName name)

include hname

theorem envMap_none (hno : ∀ e ∈ es, ¬ Matches name.val e.str.val) : envMap es name = none := by
  rw [envMap, if_neg hname]
  exact findSome_none (not_badName hname) hno

theorem envMap_hit (hpre : ∀ e ∈ pre, ¬ Matches name.val e.str.val)
    (hm : Matches name.val e.str.val) :
    envMap (pre ++ e :: post) name = some (valueFrom e.str name.val.length) := by
  have hsign := not_badName hname
  rw [envMap, if_neg hname, List.findSome?_append, findSome_none hsign hpre, none_or,
    List.findSome?_cons, Entry.says_of_matches hsign hm]

theorem envMap_other (hm : Matches name.val e.str.val) (hne : n ≠ name) :
    envMap (pre ++ e :: post) n = envMap (pre ++ post) n := by
  have hnone := Entry.says_of_other (not_badName hname) hm hne
  simp only [envMap, List.findSome?_append, List.findSome?_cons, hnone]

/-! ## What the changes of the entries do to the map -/

theorem envMap_replace (hpre : ∀ e ∈ pre, ¬ Matches name.val e.str.val)
    (hm : Matches name.val e.str.val) (he' : e'.str = entryStr name value) :
    envMap (pre ++ e' :: post) = update (envMap (pre ++ e :: post)) name (some value) := by
  have hm' : Matches name.val e'.str.val := he' ▸ matches_entryStr name value
  funext n
  by_cases hn : n = name
  · rw [hn, update_self, envMap_hit hname hpre hm', he', valueFrom_entryStr]
  · rw [update_of_ne hn, envMap_other hname hm' hn, envMap_other hname hm hn]

theorem envMap_append (hno : ∀ e ∈ es, ¬ Matches name.val e.str.val)
    (he' : e'.str = entryStr name value) :
    envMap (es ++ [e']) = update (envMap es) name (some value) := by
  have hm' : Matches name.val e'.str.val := he' ▸ matches_entryStr name value
  funext n
  by_cases hn : n = name
  · rw [hn, update_self, envMap_hit hname hno hm', he', valueFrom_entryStr]
  · rw [update_of_ne hn, envMap_other hname hm' hn, append_nil]

theorem envMap_remove (hno : ∀ e ∈ pre ++ post, ¬ Matches name.val e.str.val)
    (hm : Matches name.val e.str.val) :
    envMap (pre ++ post) = update (envMap (pre ++ e :: post)) name none := by
  funext n
  by_cases hn : n = name
  · rw [hn, update_self, envMap_none hname hno]
  · rw [update_of_ne hn, envMap_other hname hm hn]

end

theorem DistinctNames.only (h : DistinctNames (pre ++ e :: post)) (hname : ¬ BadName name)
    (hm : Matches name.val e.str.val) : ∀ e0 ∈ pre ++ post, ¬ Matches name.val e0.str.val := by
  have hsign := not_badName hname
  have hpart := (namePart_eq_iff hsign).mpr hm
  intro e0 he0 hm0
  have hpart0 := (namePart_eq_iff hsign).mpr hm0
  have hmem : name.val ∈ (pre ++ post).filterMap fun e => namePart e.str :=
    mem_filterMap.mpr ⟨e0, he0, hpart0⟩
  rw [DistinctNames, filterMap_append, filterMap_cons_some (f := fun e : Entry => namePart e.str) hpart, nodup_middle,
    ← filterMap_append] at h
  exact (nodup_cons.mp h).1 hmem

theorem DistinctNames.insert (h : DistinctNames (pre ++ post)) (hname : ¬ BadName name)
    (hno : ∀ e ∈ pre ++ post, ¬ Matches name.val e.str.val) (hm : Matches name.val e.str.val) :
    DistinctNames (pre ++ e :: post) := by
  have hsign := not_badName hname
  rw [DistinctNames, filterMap_append, filterMap_cons_some
      (f := fun e : Entry => namePart e.str) ((namePart_eq_iff hsign).mpr hm),
    nodup_middle, ← filterMap_append]
  refine nodup_cons.mpr ⟨fun hmem => ?_, h⟩
  obtain ⟨e0, he0, hpart⟩ := mem_filterMap.mp hmem
  exact hno e0 he0 ((namePart_eq_iff hsign).mp hpart)

theorem DistinctNames.remove (h : DistinctNames (pre ++ e :: post)) : DistinctNames (pre ++ post) :=
  h.sublist ((List.Sublist.append_left (sublist_cons_self _ _) _).filterMap _)

/-! ## The functions -/

/-- A pointer to a character of a string, with `v` from there on; or the null pointer for
no value. -/
def Denotes (s : EnvState) : Option (Nat × Nat) → Option CStr → Prop
  | none, v => v = none
  | some q, v => ∃ o w, s.objs.get q.1 = some o ∧ o.cells.drop q.2 = strCells w.val ∧ v = some w

/-- **`getenv`** changes nothing and answers by the map. -/
theorem getenv_eq (h : Rep s es) (name : Option CStr) :
    ∃ p, getenv name s = some (p, s) ∧ Denotes s p (name.bind (envMap es)) := by
  cases name with
  | none => exact ⟨none, rfl, rfl⟩
  | some name =>
    rw [bind_some]
    by_cases hbad : BadName name
    · refine ⟨none, ?_, ?_⟩
      · simp only [getenv, if_pos hbad]
        rfl
      · rw [Denotes, envMap, if_pos hbad]
    · simp only [getenv, if_neg hbad]
      cases hslot : slotOf name es with
      | none =>
        refine ⟨none, (Trap.bind_of (findEntry_eq h name) _).trans ?_, ?_⟩
        · rw [hslot]
          rfl
        · exact envMap_none hbad (slotOf_eq_none hslot)
      | some i =>
        obtain ⟨pre, e, post, rfl, rfl, hm, hpre⟩ := slotOf_eq_some hslot
        obtain ⟨rest, heap, harr⟩ := h.environ.resolve_left fun hnil => by simp at hnil
        obtain ⟨heap', hstr, _⟩ := h.strings e (by simp)
        refine ⟨some (e.ptr, name.val.length + 1), (Trap.bind_of (findEntry_eq h name) _).trans ?_,
          _, valueFrom e.str name.val.length, hstr, ?_, envMap_hit hbad hpre hm⟩
        · rw [hslot]
          refine (Trap.bind_of (vars_eq s) _).trans ?_
          exact (Trap.bind_of (loadCell_eq (load_arr_at harr)) _).trans rfl
        · have hlen := hm.length_le
          rw [length_append, length_singleton] at hlen
          rw [strCells, drop_append_of_le_length (by rw [length_map]; exact hlen),
            ← map_drop]
          rfl

/-- What a call that changes the environment leaves. -/
def Leaves (es : List Entry) (M : EnvMap) (r : Int) (s' : EnvState) : Prop :=
  ∃ es', Rep s' es' ∧ DistinctNames es' ∧
    ((r = 0 ∧ envMap es' = M) ∨ (r = -1 ∧ envMap es' = envMap es))

theorem Leaves.failed {M : EnvMap} (h : Rep s es) (hd : DistinctNames es) : Leaves es M (-1) s :=
  ⟨es, h, hd, .inr ⟨rfl, rfl⟩⟩

/-- All three changes start with `promote`. -/
theorem promoted {k : EnvM Int} {M : EnvMap} (h : Rep s es) (hd : DistinctNames es)
    (hk : ∀ s1, Rep s1 es → s1.vars.envIsOwned = true → Trap.Ends k s1 (Leaves es M)) :
    Trap.Ends (promote >>= fun r => if r < 0 then pure (-1) else k) s (Leaves es M) := by
  refine .bind ((promote_ends h).mono fun r s1 h1 => ?_)
  obtain ⟨hrep1, ⟨rfl, hheap⟩ | ⟨rfl, _⟩⟩ := h1
  · exact hk s1 hrep1 hheap
  · exact .pure (.failed hrep1 hd)

theorem replaceEntry_ends (h : Rep s (pre ++ e :: post)) (hd : DistinctNames (pre ++ e :: post))
    (hname : ¬ BadName name) (hm : Matches name.val e.str.val)
    (hpre : ∀ e0 ∈ pre, ¬ Matches name.val e0.str.val) :
    Trap.Ends (replaceEntry pre.length name value) s
      (Leaves (pre ++ e :: post) (update (envMap (pre ++ e :: post)) name (some value))) := by
  refine promoted h hd fun s1 hrep1 hheap => ?_
  refine .bind ((makeEntry_ends name value s1).mono fun p s2 h2 => ?_)
  rcases h2 with ⟨rfl, hk⟩ | hmade
  · exact .bind (.change (.pure (.failed (hrep1.extend hk.vars hk.objs) hd)))
  · rw [if_neg hmade.ne_zero]
    have hrep2 := hrep1.extend hmade.vars hmade.objs
    have hnew := hmade.newString hrep1 hheap
    refine .bind ⟨_, _, vars_eq s2, ?_⟩
    refine (replaceSlot_ends hrep2 (by rw [hmade.vars]; exact hheap) hnew).mono fun r s' hs' => ?_
    refine ⟨_, hs'.2, ?_, .inl ⟨hs'.1, envMap_replace hname hpre hm rfl⟩⟩
    exact hd.remove.insert hname (hd.only hname hm) (matches_entryStr name value)

theorem appendEntry_ends (h : Rep s es) (hd : DistinctNames es) (hname : ¬ BadName name)
    (hno : ∀ e ∈ es, ¬ Matches name.val e.str.val) :
    Trap.Ends (appendEntry name value) s
      (Leaves es (update (envMap es) name (some value))) := by
  refine promoted h hd fun s1 hrep1 hheap => ?_
  refine .bind ((ensureSlot_ends hrep1 hheap).mono fun r s2 h2 => ?_)
  obtain ⟨hrep2, ⟨rfl, hheap2, hroom⟩ | ⟨rfl, _⟩⟩ := h2
  · refine .bind ((makeEntry_ends name value s2).mono fun p s3 h3 => ?_)
    rcases h3 with ⟨rfl, hk⟩ | hmade
    · exact .bind (.change (.pure (.failed (hrep2.extend hk.vars hk.objs) hd)))
    rw [if_neg hmade.ne_zero]
    have hrep3 := hrep2.extend hmade.vars hmade.objs
    have hnew := hmade.newString hrep2 hheap2
    refine .bind ⟨_, _, vars_eq s3, ?_⟩
    refine (appendSlot_ends hrep3 (by rw [hmade.vars]; exact hheap2)
      (by rw [hmade.vars]; exact hroom) hnew).mono fun r s' hs' => ?_
    refine ⟨_, hs'.2, ?_, .inl ⟨hs'.1, envMap_append hname hno rfl⟩⟩
    rw [← append_nil es] at hd hno
    exact hd.insert hname hno (matches_entryStr name value)
  · exact .pure (.failed hrep2 hd)

theorem removeEntry_ends (h : Rep s (pre ++ e :: post)) (hd : DistinctNames (pre ++ e :: post))
    (hname : ¬ BadName name) (hm : Matches name.val e.str.val) :
    Trap.Ends (removeEntry pre.length) s
      (Leaves (pre ++ e :: post) ((envMap (pre ++ e :: post)).unset name)) := by
  refine promoted h hd fun s1 hrep1 hheap => ?_
  refine .bind ⟨_, _, vars_eq s1, ?_⟩
  refine (removeSlot_ends hrep1 hheap).mono fun r s' hs' => ?_
  exact ⟨_, hs'.2, hd.remove, .inl ⟨hs'.1, envMap_remove hname (hd.only hname hm) hm⟩⟩

theorem refuse_ends {M : EnvMap} (h : Rep s es) (hd : DistinctNames es) :
    Trap.Ends refuse s (Leaves es M) :=
  .bind (.change (.pure (.failed (h.extend rfl (.refl _)) hd)))

inductive EnvCall
  | getenv (name : Option CStr)
  | setenv (name value : Option CStr) (overwrite : Bool)
  | unsetenv (name : Option CStr)

/-- The call, with its answer as a number. -/
def EnvCall.run : EnvCall → EnvM Int
  | .getenv name => do
    let _ ← Libc.getenv name
    pure 0
  | .setenv name value overwrite => Libc.setenv name value overwrite
  | .unsetenv name => Libc.unsetenv name

/-- What a call that answers 0 does to the map. -/
def EnvCall.apply : EnvCall → EnvMap → EnvMap
  | .setenv (some name) (some value) overwrite, M => M.set name value overwrite
  | .unsetenv (some name), M => M.unset name
  | _, M => M

/-- **Every call keeps the entries and the map together.** -/
theorem EnvCall.run_ends (call : EnvCall) (h : Rep s es) (hd : DistinctNames es) :
    Trap.Ends call.run s (Leaves es (call.apply (envMap es))) := by
  cases call with
  | getenv name =>
    obtain ⟨p, hp, _⟩ := getenv_eq h name
    exact .bind ⟨_, _, hp, .pure ⟨es, h, hd, .inl ⟨rfl, rfl⟩⟩⟩
  | setenv name value overwrite =>
    cases name with
    | none => exact refuse_ends h hd
    | some name =>
      refine .ite (fun _ => refuse_ends h hd) fun hname => ?_
      cases value with
      | none => exact refuse_ends h hd
      | some value =>
        simp only [apply, EnvMap.set]
        refine .bind ⟨_, _, findEntry_eq h name, ?_⟩
        cases hslot : slotOf name es with
        | none =>
          have hno := slotOf_eq_none hslot
          rw [envMap_none hname hno, if_neg (by simp)]
          exact appendEntry_ends h hd hname hno
        | some i =>
          obtain ⟨pre, e, post, rfl, rfl, hm, hpre⟩ := slotOf_eq_some hslot
          rw [envMap_hit hname hpre hm]
          refine .ite (fun hover => ?_) fun hkeep => ?_
          · rw [if_neg (by simp [hover])]
            exact replaceEntry_ends h hd hname hm hpre
          · rw [if_pos ⟨rfl, Bool.eq_false_iff.mpr hkeep⟩]
            exact .pure ⟨_, h, hd, .inl ⟨rfl, rfl⟩⟩
  | unsetenv name =>
    cases name with
    | none => exact refuse_ends h hd
    | some name =>
      refine .ite (fun _ => refuse_ends h hd) fun hname => ?_
      refine .bind ⟨_, _, findEntry_eq h name, ?_⟩
      cases hslot : slotOf name es with
      | none =>
        have hsame : (envMap es).unset name = envMap es := by
          rw [EnvMap.unset, ← envMap_none hname (slotOf_eq_none hslot), update_eq_self]
        refine .pure ⟨es, h, hd, .inl ⟨rfl, hsame.symm⟩⟩
      | some i =>
        obtain ⟨pre, e, post, rfl, rfl, hm, _⟩ := slotOf_eq_some hslot
        exact removeEntry_ends h hd hname hm

/-! ## Runs -/

/-- The environment, and beside it the map it should be. -/
structure EnvRun where
  state : EnvState
  map : EnvMap

/-- The calls, each with the answers of the allocator during it. The map is changed by the
calls that answer 0. The start is any array as the process is given it, if no two entries
have the same name part. -/
def envSys : System EnvRun (EnvCall × List Answer) where
  start r := r.state.vars.envIsOwned = false ∧
    ∃ es, Rep r.state es ∧ DistinctNames es ∧ r.map = envMap es
  step r c := (c.1.run { r.state with answers := c.2 }).map fun x =>
    ⟨x.2, if x.1 = 0 then c.1.apply r.map else r.map⟩

def EnvRun.Agrees (r : EnvRun) : Prop :=
  ∃ es, Rep r.state es ∧ DistinctNames es ∧ r.map = envMap es

theorem Rep.withAnswers (h : Rep s es) (answers : List Answer) :
    Rep { s with answers := answers } es :=
  h.extend rfl (.refl _)

theorem EnvRun.Agrees.reachable {r : EnvRun} (h : Reachable envSys r) : r.Agrees := by
  refine h.invariant (I := EnvRun.Agrees) (fun r hr => hr.2) fun r c r' hr _ hstep => ?_
  obtain ⟨es, hrep, hd, hmap⟩ := hr
  obtain ⟨code, s', hrun, es', hrep', hd', hcode⟩ := c.1.run_ends (hrep.withAnswers c.2) hd
  simp only [envSys, hrun, map_some, Option.some.injEq] at hstep
  subst hstep
  refine ⟨es', hrep', hd', ?_⟩
  simp only [hmap]
  rcases hcode with ⟨rfl, hmap'⟩ | ⟨rfl, hmap'⟩
  · rw [if_pos rfl, hmap']
  · rw [if_neg (by decide), hmap']

/-- The array ends with the null pointer, within its capacity once it is ours. -/
structure Terminated (s : EnvState) : Prop where
  environ : s.vars.environ = s.vars.envArr
  count : s.vars.envCount < s.vars.envCap
  block : ∃ cells, s.objs.get s.vars.envArr = some ⟨cells, true⟩ ∧ cells.length = s.vars.envCap ∧
    cells[s.vars.envCount]? = some (some 0) ∧ ∀ i < s.vars.envCount, ∃ p, p ≠ 0 ∧ cells[i]? = some (some p)

theorem Rep.terminated (h : Rep s es) (hheap : s.vars.envIsOwned = true) : Terminated s := by
  obtain ⟨henv, hcount, ⟨rest, harr, hcap⟩, _, _, _⟩ := h.owned hheap
  refine ⟨henv, by omega, _, harr, by rw [arrCells_length, Nat.add_comm, hcap], ?_, fun i hi => ?_⟩
  · rw [hcount]
    simp [arrCells]
  · rw [hcount] at hi
    refine ⟨es[i].ptr, h.ptr_ne_zero (getElem_mem hi), ?_⟩
    rw [arrCells, List.getElem?_append_left (by simpa using hi)]
    simp [hi]

/-- **The environment refines a finite map.** In every state of every run `getenv` answers by
the map; a name that is empty or contains `=` is rejected; the array on the heap is
null-terminated within its capacity; and every call answers 0 or -1, without a trap. -/
theorem environment_refines_map {r : EnvRun} (h : Reachable envSys r) :
    (∀ name, ∃ p, getenv name r.state = some (p, r.state) ∧ Denotes r.state p (name.bind r.map)) ∧
    (∀ name, BadName name → getenv (some name) r.state = some (none, r.state) ∧
      ∀ value overwrite, setenv (some name) value overwrite r.state =
          some (-1, { r.state with errno := some .einval }) ∧
        unsetenv (some name) r.state = some (-1, { r.state with errno := some .einval })) ∧
    (r.state.vars.envIsOwned = true → Terminated r.state) ∧
    ∀ call answers, ∃ code s', EnvCall.run call { r.state with answers := answers } = some (code, s') ∧
      (code = 0 ∨ code = -1) := by
  obtain ⟨es, hrep, hd, hmap⟩ := EnvRun.Agrees.reachable h
  rw [hmap]
  refine ⟨fun name => getenv_eq hrep name, fun name hbad => ⟨?_, fun value overwrite => ⟨?_, ?_⟩⟩,
    hrep.terminated, fun call answers => ?_⟩
  · simp only [getenv, if_pos hbad]
    rfl
  · simp only [setenv, if_pos hbad]
    rfl
  · simp only [unsetenv, if_pos hbad]
    rfl
  · obtain ⟨code, s', hrun, _, _, _, hcode⟩ := call.run_ends (hrep.withAnswers answers) hd
    exact ⟨code, s', hrun, hcode.imp And.left And.left⟩

/-- `PATH=/` -/
def pathEntry : CStr := ⟨[80, 65, 84, 72, 61, 47], by decide⟩

def givenEntries (strs : List CStr) : List Entry := strs.mapIdx fun k str => ⟨k + 2, str, false⟩

/-- The environment as a process is given it: the array is object 1, the strings follow. -/
def givenState (strs : List CStr) : EnvState where
  objs := {
    get
      | 0 => none
      | 1 => some ⟨arrCells (givenEntries strs) [], false⟩
      | k + 2 => strs[k]?.map fun str => ⟨strCells str.val, false⟩
    next := strs.length + 2
    null := rfl
    pos := Nat.succ_pos _
    fresh
      | 0 | 1 => fun hp => by omega
      | k + 2 => fun hp => by simp only [getElem?_eq_none (Nat.le_of_add_le_add_right hp), map_none] }
  answers := []
  errno := none
  vars := ⟨1, 0, 0, 0, 0, false⟩

theorem givenState_rep (strs : List CStr) : Rep (givenState strs) (givenEntries strs) := by
  have hmem : ∀ e ∈ givenEntries strs, e.own = false ∧
      (givenState strs).objs.get e.ptr = some ⟨strCells e.str.val, false⟩ := by
    intro e he
    obtain ⟨k, hk, rfl⟩ := mem_mapIdx.mp he
    exact ⟨rfl, congrArg (Option.map _) (getElem?_eq_getElem hk)⟩
  refine ⟨fun e he => ⟨false, (hmem e he).2, fun hown => ?_⟩, ?_, fun _ => ⟨fun e he => (hmem e he).1, ?_⟩,
    fun hown => by cases hown⟩
  · rw [(hmem e he).1] at hown
    exact hown
  · refine pairwise_of_forall_mem_list fun a ha b hb hown => ?_
    rw [(hmem a ha).1, (hmem b hb).1] at hown
    simp at hown
  · exact .inr ⟨[], false, rfl⟩

def pathRun : EnvRun := ⟨givenState [pathEntry], envMap (givenEntries [pathEntry])⟩

theorem pathRun_start : Reachable envSys pathRun :=
  .start ⟨rfl, _, givenState_rep [pathEntry], nodup_singleton _, rfl⟩

/-- `setenv("A", "1", 0)` and `setenv("PATH", "", 1)`; the allocator fails in the second. -/
theorem environment_refines_map_path : ∃ r, Reachable envSys r ∧ r.state.vars.envIsOwned = true ∧
      r.map ⟨[65], by decide⟩ = some ⟨[49], by decide⟩ ∧
      r.map ⟨[80, 65, 84, 72], by decide⟩ = some ⟨[47], by decide⟩ ∧ Terminated r.state ∧
      ∀ name, ∃ p, getenv name r.state = some (p, r.state) ∧ Denotes r.state p (name.bind r.map) := by
  obtain ⟨r, hrun, howned, hA, hpath⟩ : ∃ r ∈ envSys.run pathRun
      [(.setenv (some ⟨[65], by decide⟩) (some ⟨[49], by decide⟩) false, [.fresh, .fresh, .fresh]),
        (.setenv (some ⟨[80, 65, 84, 72], by decide⟩) (some ⟨[], by decide⟩) true, [.fail])],
      r.state.vars.envIsOwned = true ∧ r.map ⟨[65], by decide⟩ = some ⟨[49], by decide⟩ ∧
        r.map ⟨[80, 65, 84, 72], by decide⟩ = some ⟨[47], by decide⟩ := by decide +kernel
  have hr := pathRun_start.run hrun
  have hall := environment_refines_map hr
  exact ⟨r, hr, howned, hA, hpath, hall.2.2.1 howned, hall.1⟩

end Exyde.Libc
