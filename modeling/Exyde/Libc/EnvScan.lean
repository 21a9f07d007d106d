import Exyde.Libc.Env
import Mathlib.Data.List.GetD

/-! # How the environment lies in memory

The entries in the order of the array. The scans of the array read them and change
nothing. -/

namespace Exyde.Libc

open Exyde.Lib List Option Trap

variable {s s' : EnvState} {m : Objects} {p i n : Nat} {str : List Nat} {name : CStr}

structure Entry where
  ptr : Nat
  str : CStr
  own : Bool

variable {es pre post : List Entry} {e : Entry} {rest : List (Option Nat)} {heap : Bool}

def strCells (str : List Nat) : List (Option Nat) := str.map some ++ [some 0]

/-- The cells of the array: the pointers, the null pointer and the slots behind it. -/
def arrCells (es : List Entry) (rest : List (Option Nat)) : List (Option Nat) :=
  es.map (fun e => some e.ptr) ++ some 0 :: rest

def flagCells (es : List Entry) (rest : List Nat) : List (Option Nat) :=
  es.map (fun e => some e.own.toNat) ++ rest.map some

structure Owned (m : Objects) (v : EnvVars) (es : List Entry) : Prop where
  environ : v.environ = v.envArr
  count : v.envCount = es.length
  arr : ∃ rest, m.get v.envArr = some ⟨arrCells es rest, true⟩ ∧ es.length + 1 + rest.length = v.envCap
  flags : ∃ rest, m.get v.envOwned = some ⟨flagCells es rest, true⟩ ∧ es.length + rest.length = v.envCap
  apart : v.envArr ≠ v.envOwned
  strings : ∀ e ∈ es, e.ptr ≠ v.envArr ∧ e.ptr ≠ v.envOwned

/-- The array as the process was given it. -/
structure Given (m : Objects) (v : EnvVars) (es : List Entry) : Prop where
  own : ∀ e ∈ es, e.own = false
  arr : (v.environ = 0 ∧ es = []) ∨ ∃ rest heap, m.get v.environ = some ⟨arrCells es rest, heap⟩

/-- The environment consists of the entries `es`. -/
structure Rep (s : EnvState) (es : List Entry) : Prop where
  strings : ∀ e ∈ es, ∃ heap, s.objs.get e.ptr = some ⟨strCells e.str.val, heap⟩ ∧
    (e.own = true → heap = true)
  single : es.Pairwise fun a b => a.own = true ∨ b.own = true → a.ptr ≠ b.ptr
  given : s.vars.envIsOwned = false → Given s.objs s.vars es
  owned : s.vars.envIsOwned = true → Owned s.objs s.vars es

theorem Rep.environ (h : Rep s es) : (s.vars.environ = 0 ∧ es = []) ∨
    ∃ rest heap, s.objs.get s.vars.environ = some ⟨arrCells es rest, heap⟩ := by
  cases hown : s.vars.envIsOwned with
  | false => exact (h.given hown).arr
  | true =>
    obtain ⟨rest, harr, _⟩ := (h.owned hown).arr
    rw [(h.owned hown).environ]
    exact .inr ⟨rest, true, harr⟩

theorem Rep.ptr_ne_zero (h : Rep s es) (he : e ∈ es) : e.ptr ≠ 0 := by
  obtain ⟨heap, hget, _⟩ := h.strings e he
  exact Objects.ne_zero hget

/-! ## Comparing names -/

theorem load_str (hp : m.get p = some ⟨strCells str, heap⟩) (hi : i ≤ str.length) :
    m.load p i = some (str.getD i 0) := by
  rw [Objects.load_eq hp]
  simp only [strCells]
  by_cases hlt : i < str.length
  · rw [List.getElem?_append_left (by simpa using hlt)]
    simp [List.getElem?_eq_getElem hlt]
  · have heq : i = str.length := by omega
    subst heq
    simp

theorem loadCell_eq {x : Nat} (h : s.objs.load p i = some x) : loadCell p i s = some (x, s) :=
  read_of (f := fun s : EnvState => s.objs.load p i) h

/-- `strncmp` says whether the rest of the name is how the rest of the string begins. -/
theorem strncmp_eq {name : List Nat} (hname : 0 ∉ name)
    (hp : s.objs.get p = some ⟨strCells str, heap⟩) (hi : i ≤ str.length) (hn : i + n = name.length) :
    ∃ c, strncmp p name n i s = some (c, s) ∧ (c = 0 ↔ name.drop i <+: str.drop i) := by
  induction n generalizing i with
  | zero =>
    refine ⟨0, rfl, iff_of_true rfl ?_⟩
    rw [drop_of_length_le (by omega)]
    exact nil_prefix
  | succ n ih =>
    have hlt : i < name.length := by omega
    have hnz : name[i] ≠ 0 := fun h0 => hname (h0 ▸ getElem_mem hlt)
    have hcb : name.getD i 0 = name[i] := getD_eq_getElem _ _ hlt
    have hstep : strncmp p name (n + 1) i s =
        (if str.getD i 0 ≠ name.getD i 0 then pure ((str.getD i 0 : Int) - name.getD i 0)
          else if str.getD i 0 = 0 then pure 0 else strncmp p name n (i + 1) : EnvM Int) s := by
      exact bind_of (loadCell_eq (load_str hp hi)) _
    rw [hstep, drop_eq_getElem_cons hlt]
    by_cases hend : i = str.length
    · have hzero : str.getD i 0 = 0 := getD_eq_default _ _ (by omega)
      have hnil : str.drop i = [] := drop_of_length_le (by omega)
      rw [if_pos (by rw [hzero, hcb]; exact hnz.symm), hzero, hcb, hnil]
      refine ⟨_, rfl, iff_of_false (by omega) fun hpre => ?_⟩
      exact absurd (prefix_nil.mp hpre) (cons_ne_nil _ _)
    · have hlt' : i < str.length := by omega
      have hca : str.getD i 0 = str[i] := getD_eq_getElem _ _ hlt'
      rw [hca, hcb, drop_eq_getElem_cons hlt', cons_prefix_cons]
      by_cases heq : str[i] = name[i]
      · obtain ⟨c, hc, hiff⟩ := ih (i := i + 1) (by omega) (by omega)
        rw [if_neg (not_not.mpr heq), if_neg (by rw [heq]; exact hnz)]
        refine ⟨c, hc, hiff.trans ⟨fun h => ⟨heq.symm, h⟩, fun h => h.2⟩⟩
      · rw [if_pos heq]
        refine ⟨_, rfl, iff_of_false (by omega) fun h => heq h.1.symm⟩

def Matches (name str : List Nat) : Prop := name ++ [equalsSign] <+: str

instance instDecidableMatches (name str : List Nat) : Decidable (Matches name str) :=
  inferInstanceAs (Decidable (_ <+: _))

theorem matches_iff {name str : List Nat} :
    Matches name str ↔ name <+: str ∧ str.getD name.length 0 = equalsSign := by
  constructor
  · rintro ⟨tail, rfl⟩
    refine ⟨⟨equalsSign :: tail, by simp⟩, ?_⟩
    simp [getD_eq_getElem?_getD]
  rintro ⟨⟨tail, rfl⟩, heq⟩
  cases tail with
  | nil =>
    rw [append_nil, getD_eq_default _ _ (Nat.le_refl _)] at heq
    cases heq
  | cons c tail =>
    have hc : c = equalsSign := by
      rw [← heq]
      simp [getD_eq_getElem?_getD]
    subst hc
    exact ⟨tail, by simp⟩

theorem entryIs_eq (name : CStr) (hp : s.objs.get p = some ⟨strCells str, heap⟩) :
    entryIs p name s = some (decide (Matches name.val str), s) := by
  obtain ⟨c, hc, hiff⟩ := strncmp_eq name.2 hp (Nat.zero_le _) (Nat.zero_add _)
  refine (bind_of hc _).trans ?_
  by_cases hpre : name.val <+: str
  · rw [if_pos (hiff.mpr hpre)]
    refine (bind_of (loadCell_eq (load_str hp hpre.length_le)) _).trans ?_
    have hdec : decide (str.getD name.val.length 0 = equalsSign) = decide (Matches name.val str) :=
      decide_eq_decide.mpr (by rw [matches_iff]; exact ⟨fun h => ⟨hpre, h⟩, fun h => h.2⟩)
    rw [← hdec]
    rfl
  · rw [if_neg (mt hiff.mp hpre)]
    have hdec : decide (Matches name.val str) = false :=
      decide_eq_false fun h => hpre (matches_iff.mp h).1
    rw [hdec]
    rfl

/-! ## Scanning the array -/

theorem load_arr_at (hp : m.get p = some ⟨arrCells (pre ++ e :: post) rest, heap⟩) :
    m.load p pre.length = some e.ptr := by
  rw [Objects.load_eq hp]
  simp [arrCells]

theorem load_arr_end (hp : m.get p = some ⟨arrCells es rest, heap⟩) :
    m.load p es.length = some 0 := by
  rw [Objects.load_eq hp]
  simp [arrCells]

theorem countFrom_eq (pre post : List Entry)
    (hp : s.objs.get p = some ⟨arrCells (pre ++ post) rest, heap⟩)
    (hne : ∀ e ∈ post, e.ptr ≠ 0) (n : Nat) :
    countFrom p (n + (post.length + 1)) pre.length s = some ((pre ++ post).length, s) := by
  induction post generalizing pre with
  | nil =>
    rw [append_nil] at hp ⊢
    exact bind_of (loadCell_eq (load_arr_end hp)) _
  | cons e post ih =>
    refine (bind_of (loadCell_eq (load_arr_at hp)) _).trans ?_
    rw [if_pos (hne e mem_cons_self)]
    have hnext := ih (pre ++ [e]) (by rwa [append_assoc]) fun e' he' => hne e' (mem_cons_of_mem _ he')
    rwa [append_assoc, length_append, length_singleton] at hnext

theorem slots_eq {o : Object} (hp : s.objs.get p = some o) : slots p s = some (o.cells.length, s) :=
  read_of (f := fun s : EnvState => (s.objs.get p).map fun o : Object => o.cells.length)
    (by rw [hp, map_some])

theorem vars_eq (s : EnvState) : vars s = some (s.vars, s) := rfl

theorem arrCells_length (es : List Entry) (rest : List (Option Nat)) :
    (arrCells es rest).length = rest.length + (es.length + 1) := by
  simp only [arrCells, length_append, length_map, length_cons]
  omega

theorem countEnv_eq (h : Rep s es) : countEnv s.vars.environ s = some (es.length, s) := by
  unfold countEnv
  rcases h.environ with ⟨hzero, rfl⟩ | ⟨rest, heap, hget⟩
  · rw [if_neg (not_not.mpr hzero)]
    rfl
  · rw [if_pos (Objects.ne_zero hget)]
    refine (bind_of (slots_eq hget) _).trans ?_
    rw [arrCells_length]
    exact countFrom_eq [] es hget (fun e he => h.ptr_ne_zero he) _

theorem findFrom_eq (pre : List Entry) (name : CStr) (post : List Entry)
    (hp : s.objs.get p = some ⟨arrCells (pre ++ post) rest, heap⟩)
    (hstr : ∀ e ∈ post, ∃ heap, s.objs.get e.ptr = some ⟨strCells e.str.val, heap⟩)
    (n : Nat) : findFrom p name (n + (post.length + 1)) pre.length s =
      some ((post.findIdx? fun e => decide (Matches name.val e.str.val)).map (· + pre.length), s) := by
  induction post generalizing pre with
  | nil =>
    rw [append_nil] at hp
    exact bind_of (loadCell_eq (load_arr_end hp)) _
  | cons e post ih =>
    obtain ⟨heap', hget⟩ := hstr e mem_cons_self
    refine (bind_of (loadCell_eq (load_arr_at hp)) _).trans ?_
    rw [if_neg (Objects.ne_zero hget)]
    refine (bind_of (entryIs_eq name hget) _).trans ?_
    rw [List.findIdx?_cons]
    by_cases hit : Matches name.val e.str.val
    · simp only [hit, decide_true, if_true, map_some, Nat.zero_add]
      rfl
    have hnext := ih (pre ++ [e]) (by rwa [append_assoc]) fun e' he' => hstr e' (mem_cons_of_mem _ he')
    rw [length_append, length_singleton] at hnext
    simp only [hit, decide_false, Bool.false_eq_true, if_false]
    refine hnext.trans ?_
    rw [Option.map_map]
    congr 3
    funext k
    simp only [Function.comp_apply]
    omega

def slotOf (name : CStr) (es : List Entry) : Option Nat :=
  es.findIdx? fun e => decide (Matches name.val e.str.val)

theorem findEntry_eq (h : Rep s es) (name : CStr) : findEntry name s = some (slotOf name es, s) := by
  refine (bind_of (vars_eq s) _).trans ?_
  rcases h.environ with ⟨hzero, rfl⟩ | ⟨rest, heap, hget⟩
  · rw [if_pos hzero]
    rfl
  rw [if_neg (Objects.ne_zero hget)]
  refine (bind_of (slots_eq hget) _).trans ?_
  have hstr : ∀ e ∈ es, ∃ heap, s.objs.get e.ptr = some ⟨strCells e.str.val, heap⟩ := by
    intro e he
    obtain ⟨heap, hptr, _⟩ := h.strings e he
    exact ⟨heap, hptr⟩
  rw [slotOf, arrCells_length]
  simpa using findFrom_eq [] name es hget hstr rest.length

end Exyde.Libc
