import Mathlib.Data.List.Nodup

/-! # Forests stored in a memory of nodes

A forest has roots and, at every node, a table of children: `child r p f i` is what
entry `i` of node `f` means when `f` is read at the place `p` below the root `r`. A
place is a path, last index first. `Distinct` says that no node is at two places; `walk`
lists the nodes below a place, children first. -/

namespace Exyde.Lib

open List Option

structure Forest (R I F : Type) where
  root : R → Option F
  child : R → List I → F → I → Option F

namespace Forest

variable {R I F : Type} {T U : Forest R I F} {r r' : R} {p q : List I} {i j : I} {f c : F}

def node (T : Forest R I F) (r : R) : List I → Option F
  | [] => T.root r
  | i :: p => (T.node r p).bind fun f => T.child r p f i

@[simp] theorem node_nil (T : Forest R I F) (r : R) : T.node r [] = T.root r := rfl

theorem node_cons (T : Forest R I F) (r : R) (i : I) (p : List I) :
    T.node r (i :: p) = (T.node r p).bind fun f => T.child r p f i := rfl

theorem node_cons_of (h : T.node r p = some f) (i : I) : T.node r (i :: p) = T.child r p f i := by
  rw [node_cons, h, bind_some]

theorem node_cons_eq_some : T.node r (i :: p) = some c ↔
    ∃ f, T.node r p = some f ∧ T.child r p f i = some c := by
  rw [node_cons, bind_eq_some_iff]

theorem node_of_suffix (hq : p <:+ q) (hc : T.node r q = some c) : ∃ f, T.node r p = some f := by
  obtain ⟨t, rfl⟩ := hq
  induction t generalizing c with
  | nil => exact ⟨c, hc⟩
  | cons i t ih =>
    obtain ⟨f, hf, _⟩ := node_cons_eq_some.mp hc
    exact ih hf

def Distinct (T : Forest R I F) : Prop :=
  ∀ ⦃r p r' q f⦄, T.node r p = some f → T.node r' q = some f → r = r' ∧ p = q

def Unplaced (T : Forest R I F) (f : F) : Prop := ∀ r p, T.node r p ≠ some f

/-! ## Keeping nodes distinct -/

theorem Distinct.mono (hd : T.Distinct) (h : ∀ r p f, U.node r p = some f → T.node r p = some f) :
    U.Distinct :=
  fun _ _ _ _ _ h1 h2 => hd (h _ _ _ h1) (h _ _ _ h2)

theorem Distinct.insert (hd : T.Distinct) (hc : T.Unplaced c)
    (h : ∀ r' q f, U.node r' q = some f → T.node r' q = some f ∨ (r' = r ∧ q = p ∧ f = c)) :
    U.Distinct := by
  intro r1 p1 r2 p2 g h1 h2
  rcases h _ _ _ h1 with h1 | ⟨rfl, rfl, rfl⟩ <;> rcases h _ _ _ h2 with h2 | ⟨rfl, rfl, h2⟩
  · exact hd h1 h2
  · exact absurd (h2 ▸ h1) (hc _ _)
  · exact absurd h2 (hc _ _)
  · exact ⟨rfl, rfl⟩

/-! ## Which places change -/

/-- Where the roots and the entries of placed nodes are the same, so are the places. -/
theorem node_congr (hroot : ∀ r, U.root r = T.root r)
    (hchild : ∀ r p f, T.node r p = some f → ∀ i, U.child r p f i = T.child r p f i)
    (r : R) (p : List I) : U.node r p = T.node r p := by
  induction p with
  | nil => exact hroot r
  | cons i p ih =>
    rw [node_cons, node_cons, ih]
    cases hf : T.node r p with
    | none => rfl
    | some f => exact hchild r p f hf i

/-- Where only entry `i` of the node at `p` changes, and nothing hangs below it before or
after, no other place changes. -/
theorem node_replaced {o : Option F} (hd : T.Distinct) (hroot : ∀ r, U.root r = T.root r)
    (hp : T.node r p = some f) (ho : U.child r p f i = o)
    (hbelow : ∀ j, (o.bind fun c => U.child r (i :: p) c j) = T.node r (j :: i :: p))
    (hrest : ∀ r' q g j, T.node r' q = some g → (g ≠ f ∨ j ≠ i) → U.child r' q g j = T.child r' q g j)
    (r' : R) (q : List I) : (r' = r ∧ q = i :: p → U.node r' q = o) ∧
      (¬ (r' = r ∧ q = i :: p) → U.node r' q = T.node r' q) := by
  induction q with
  | nil => exact ⟨fun h0 => absurd h0.2 (by simp), fun _ => hroot r'⟩
  | cons j q ih =>
    constructor
    · intro ⟨hr, hq⟩
      obtain ⟨rfl, rfl⟩ := List.cons.inj hq
      subst hr
      rw [node_cons, ih.2 fun h0 => absurd h0.2 (by simp), hp, bind_some, ho]
    · intro hne
      by_cases hq : r' = r ∧ q = i :: p
      · obtain ⟨rfl, rfl⟩ := hq
        rw [node_cons, ih.1 ⟨rfl, rfl⟩, hbelow]
      rw [node_cons, node_cons, ih.2 hq]
      cases hg : T.node r' q with
      | none => rfl
      | some g =>
        by_cases hgf : g = f
        · subst hgf
          obtain ⟨rfl, rfl⟩ := hd hg hp
          exact hrest r' q g j hg (.inr fun hji => hne ⟨rfl, by rw [hji]⟩)
        · exact hrest r' q g j hg (.inl hgf)

/-- `U` is `T` with the unplaced node `c` hung at entry `i` of the node at `p`. -/
structure Hang (T U : Forest R I F) (r : R) (p : List I) (i : I) (f c : F) : Prop where
  root : ∀ r, U.root r = T.root r
  parent : T.node r p = some f
  vacant : T.child r p f i = none
  unplaced : T.Unplaced c
  hung : U.child r p f i = some c
  bare : ∀ j, U.child r (i :: p) c j = none
  rest : ∀ r' q g j, g ≠ c → (g ≠ f ∨ j ≠ i) → U.child r' q g j = T.child r' q g j

namespace Hang

variable (h : Hang T U r p i f c)
include h

theorem vacant_node : T.node r (i :: p) = none := by rw [node_cons_of h.parent, h.vacant]

theorem node_both (hd : T.Distinct) (r' : R) (q : List I) :
    (r' = r ∧ q = i :: p → U.node r' q = some c) ∧
      (¬ (r' = r ∧ q = i :: p) → U.node r' q = T.node r' q) := by
  refine node_replaced hd h.root h.parent h.hung (fun j => ?_) (fun r' q g j hg => ?_) r' q
  · rw [bind_some, h.bare, node_cons, h.vacant_node, bind_none]
  · exact h.rest r' q g j fun hc => h.unplaced r' q (hc ▸ hg)

theorem node_new (hd : T.Distinct) : U.node r (i :: p) = some c :=
  (h.node_both hd _ _).1 ⟨rfl, rfl⟩

theorem node_cases (hd : T.Distinct) {r' : R} {q : List I} {g : F} (hg : U.node r' q = some g) :
    T.node r' q = some g ∨ (r' = r ∧ q = i :: p ∧ g = c) := by
  by_cases hq : r' = r ∧ q = i :: p
  · exact .inr ⟨hq.1, hq.2, Option.some.inj (hg.symm.trans ((h.node_both hd _ _).1 hq))⟩
  · exact .inl ((h.node_both hd _ _).2 hq ▸ hg)

theorem node_keep (hd : T.Distinct) {r' : R} {q : List I} {g : F} (hg : T.node r' q = some g) :
    U.node r' q = some g := by
  rw [(h.node_both hd _ _).2 ?_, hg]
  intro ⟨hr, hq⟩
  subst hr hq
  rw [h.vacant_node] at hg
  cases hg

theorem distinct (hd : T.Distinct) : U.Distinct :=
  hd.insert h.unplaced fun _ _ _ => h.node_cases hd

end Hang

/-- `U` is `T` with entry `i` of the node at `p`, which held a node without children, emptied. -/
structure Cut (T U : Forest R I F) (r : R) (p : List I) (i : I) (f : F) : Prop where
  root : ∀ r, U.root r = T.root r
  parent : T.node r p = some f
  emptied : U.child r p f i = none
  bare : ∀ c j, T.child r (i :: p) c j = none
  rest : ∀ r' q g j, (g ≠ f ∨ j ≠ i) → U.child r' q g j = T.child r' q g j

namespace Cut

variable (h : Cut T U r p i f)
include h

theorem node_both (hd : T.Distinct) (r' : R) (q : List I) :
    (r' = r ∧ q = i :: p → U.node r' q = none) ∧
      (¬ (r' = r ∧ q = i :: p) → U.node r' q = T.node r' q) := by
  refine node_replaced hd h.root h.parent h.emptied (fun j => ?_) (fun r' q g j _ => h.rest r' q g j) r' q
  rw [bind_none, node_cons, bind_congr fun c _ => h.bare c j, bind_fun_none]

theorem node_cases (hd : T.Distinct) {r' : R} {q : List I} {g : F} (hg : U.node r' q = some g) :
    T.node r' q = some g ∧ ¬ (r' = r ∧ q = i :: p) := by
  by_cases hq : r' = r ∧ q = i :: p
  · rw [(h.node_both hd _ _).1 hq] at hg
    cases hg
  · exact ⟨(h.node_both hd _ _).2 hq ▸ hg, hq⟩

theorem distinct (hd : T.Distinct) : U.Distinct :=
  hd.mono fun _ _ _ hg => (h.node_cases hd hg).1

theorem unplaced (hd : T.Distinct) (hc : T.node r (i :: p) = some c) : U.Unplaced c := by
  intro r' q hg
  obtain ⟨hg, hne⟩ := h.node_cases hd hg
  obtain ⟨hr, hq⟩ := hd hc hg
  exact hne ⟨hr.symm, hq.symm⟩

end Cut

/-- `U` is `T` with a new root, an unplaced node without children. -/
structure Plant (T U : Forest R I F) (r : R) (c : F) : Prop where
  absent : T.root r = none
  planted : U.root r = some c
  others : ∀ r', r' ≠ r → U.root r' = T.root r'
  unplaced : T.Unplaced c
  bare : ∀ j, U.child r [] c j = none
  rest : ∀ r' q g j, g ≠ c → U.child r' q g j = T.child r' q g j

theorem node_of_root_none (h : T.root r = none) (p : List I) : T.node r p = none := by
  induction p with
  | nil => exact h
  | cons i p ih => rw [node_cons, ih, bind_none]

namespace Plant

variable (h : Plant T U r c)
include h

theorem node_of_ne (hne : r' ≠ r) (q : List I) : U.node r' q = T.node r' q := by
  induction q with
  | nil => exact h.others r' hne
  | cons j q ih =>
    rw [node_cons, node_cons, ih]
    cases hg : T.node r' q with
    | none => rfl
    | some g => exact h.rest r' q g j fun hc => h.unplaced r' q (hc ▸ hg)

theorem node_below (j : I) (q : List I) : U.node r (j :: q) = none := by
  induction q generalizing j with
  | nil => rw [node_cons, node_nil, h.planted, bind_some, h.bare]
  | cons k q ih => rw [node_cons, ih, bind_none]

theorem node_cases {r' : R} {q : List I} {g : F} (hg : U.node r' q = some g) :
    T.node r' q = some g ∨ (r' = r ∧ q = [] ∧ g = c) := by
  by_cases hr : r' = r
  · subst hr
    cases q with
    | nil => exact .inr ⟨rfl, rfl, Option.some.inj (hg.symm.trans h.planted)⟩
    | cons j q => rw [h.node_below] at hg; cases hg
  · exact .inl (h.node_of_ne hr q ▸ hg)

theorem distinct (hd : T.Distinct) : U.Distinct :=
  hd.insert h.unplaced fun _ _ _ => h.node_cases

end Plant

structure Fell (T U : Forest R I F) (r : R) : Prop where
  felled : U.root r = none
  others : ∀ r', r' ≠ r → U.root r' = T.root r'
  child : U.child = T.child

namespace Fell

variable (h : Fell T U r)
include h

theorem node_of_ne (hne : r' ≠ r) (q : List I) : U.node r' q = T.node r' q := by
  induction q with
  | nil => exact h.others r' hne
  | cons j q ih => rw [node_cons, node_cons, ih, h.child]

theorem node_cases {r' : R} {q : List I} {g : F} (hg : U.node r' q = some g) :
    r' ≠ r ∧ T.node r' q = some g := by
  by_cases hr : r' = r
  · subst hr
    rw [node_of_root_none h.felled] at hg
    cases hg
  · exact ⟨hr, h.node_of_ne hr q ▸ hg⟩

theorem distinct (hd : T.Distinct) : U.Distinct :=
  hd.mono fun _ _ _ hg => (h.node_cases hg).2

theorem unplaced (hd : T.Distinct) (hc : T.node r q = some c) : U.Unplaced c := by
  intro r' q' hg
  obtain ⟨hne, hg⟩ := h.node_cases hg
  exact hne (hd hg hc).1

end Fell

/-! ## Walks -/

/-- The nodes at most `n` levels below the node `f` at the place `p`, children
first; `idx` are the indices of a table. -/
def walk (T : Forest R I F) (idx : List I) (r : R) : Nat → List I → F → List F
  | 0, _, f => [f]
  | n + 1, p, f =>
    (idx.flatMap fun i => ((T.child r p f i).map (T.walk idx r n (i :: p))).getD []) ++ [f]

variable {idx : List I} {n : Nat} {g : F}

theorem mem_walk_child : g ∈ ((T.child r p f i).map (T.walk idx r n (i :: p))).getD [] ↔
    ∃ c, T.child r p f i = some c ∧ g ∈ T.walk idx r n (i :: p) c := by
  cases T.child r p f i with
  | none | some c => simp

theorem walk_congr (h : U.child = T.child) (n : Nat) (p : List I) (f : F) :
    U.walk idx r n p f = T.walk idx r n p f := by
  induction n generalizing p f with
  | zero => rfl
  | succ n ih =>
    have hih : ∀ p, U.walk idx r n p = T.walk idx r n p := fun p => funext (ih p)
    simp only [walk, h, hih]

theorem walk_below (hf : T.node r p = some f) (hg : g ∈ T.walk idx r n p f) :
    ∃ q, p <:+ q ∧ T.node r q = some g := by
  induction n generalizing p f with
  | zero =>
    obtain rfl := mem_singleton.mp hg
    exact ⟨p, suffix_refl p, hf⟩
  | succ n ih =>
    rcases mem_append.mp hg with hg | hg
    · obtain ⟨i, _, hg⟩ := mem_flatMap.mp hg
      obtain ⟨c, hc, hg⟩ := mem_walk_child.mp hg
      obtain ⟨q, hq, hn⟩ := ih ((node_cons_of hf i).trans hc) hg
      exact ⟨q, (suffix_cons i p).trans hq, hn⟩
    · obtain rfl := mem_singleton.mp hg
      exact ⟨p, suffix_refl p, hf⟩

theorem mem_walk (hidx : ∀ i, i ∈ idx) (hf : T.node r p = some f) (hq : p <:+ q)
    (hlen : q.length ≤ p.length + n) (hg : T.node r q = some g) : g ∈ T.walk idx r n p f := by
  induction n generalizing p f with
  | zero =>
    obtain rfl := hq.eq_of_length_le hlen
    exact mem_singleton.mpr (Option.some.inj (hg.symm.trans hf))
  | succ n ih =>
    obtain ⟨t, rfl⟩ := hq
    rcases eq_nil_or_concat t with rfl | ⟨t, i, rfl⟩
    · refine mem_append_right _ (mem_singleton.mpr ?_)
      exact Option.some.inj (hg.symm.trans hf)
    -- the path goes on through a child
    have hsuf : (i :: p) <:+ (t.concat i ++ p) := ⟨t, by simp⟩
    obtain ⟨c, hc⟩ : ∃ c, T.node r (i :: p) = some c := node_of_suffix hsuf hg
    have hchild : T.child r p f i = some c := (node_cons_of hf i).symm.trans hc
    refine mem_append_left _ (mem_flatMap.mpr ⟨i, hidx i, mem_walk_child.mpr ?_⟩)
    refine ⟨c, hchild, ih hc hsuf ?_⟩
    rw [length_cons]
    omega

theorem nodup_walk (hd : T.Distinct) (hidx : idx.Nodup) (hf : T.node r p = some f) :
    (T.walk idx r n p f).Nodup := by
  induction n generalizing p f with
  | zero => exact nodup_singleton f
  | succ n ih =>
    have hbelow : ∀ {i g}, g ∈ ((T.child r p f i).map (T.walk idx r n (i :: p))).getD [] →
        ∃ q, (i :: p) <:+ q ∧ T.node r q = some g := by
      intro i g hg
      obtain ⟨c, hc, hg⟩ := mem_walk_child.mp hg
      exact walk_below ((node_cons_of hf i).trans hc) hg
    refine List.Nodup.append ?_ (nodup_singleton f) fun g hg hgf => ?_
    · refine nodup_flatMap.mpr ⟨fun i _ => ?_, hidx.imp fun {i j} hij g hgi hgj => ?_⟩
      · cases hc : T.child r p f i with
        | none => exact nodup_nil
        | some c => exact ih ((node_cons_of hf i).trans hc)
      · -- a node below two children would be at two places, or the children are one
        obtain ⟨q, hq, hn⟩ := hbelow hgi
        obtain ⟨q', hq', hn'⟩ := hbelow hgj
        obtain rfl := (hd hn hn').2
        have heq := (suffix_of_suffix_length_le hq hq' (Nat.le_refl _)).eq_of_length rfl
        exact hij (List.cons.inj heq).1
    · obtain ⟨i, _, hg⟩ := mem_flatMap.mp hg
      obtain ⟨q, hq, hn⟩ := hbelow hg
      rw [mem_singleton.mp hgf] at hn
      obtain rfl := (hd hn hf).2
      have hlen := hq.length_le
      rw [length_cons] at hlen
      omega

end Forest

end Exyde.Lib
