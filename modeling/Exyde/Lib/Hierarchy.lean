import Mathlib.Order.WellFounded
import Exyde.Lib.Forest

/-! # Trees of named nodes

Nodes with a name, a pointer to the parent and a list of children, in a memory that may
also hold nodes that are no longer listed. `Hierarchy` makes the listed nodes a tree:
every one is at one path of names. A child is made after its parent, and `<` says so. -/

namespace Exyde.Lib

open List Option

structure Entry (N A : Type) where
  parent : Option N
  name : A
  children : List N

variable {N A : Type} {T : N → Option (Entry N A)} {root c d v : N} {a : A} {e x : Entry N A}

def Listed (T : N → Option (Entry N A)) (root v : N) : Prop :=
  v = root ∨ ∃ d e, T d = some e ∧ v ∈ e.children

structure Hierarchy [LT N] (T : N → Option (Entry N A)) (root : N) : Prop where
  top : ∃ e, T root = some e ∧ e.parent = some root
  child : ∀ {d e c}, T d = some e → c ∈ e.children →
    ∃ x, T c = some x ∧ x.parent = some d ∧ d < c
  nodup : ∀ {d e}, T d = some e → e.children.Nodup
  names : ∀ {d e c c' x x'}, T d = some e → c ∈ e.children → c' ∈ e.children →
    T c = some x → T c' = some x' → x.name = x'.name → c = c'
  attached : ∀ {d e}, T d = some e → e.children ≠ [] → Listed T root d

namespace Hierarchy

def lookup [DecidableEq A] (T : N → Option (Entry N A)) (d : N) (a : A) : Option N :=
  (T d).bind fun e => e.children.find? fun c => (T c).any fun x => x.name = a

/-- The tree below the root, by names. -/
def forest [DecidableEq A] (T : N → Option (Entry N A)) (root : N) : Forest Unit A N where
  root _ := some root
  child _ _ d a := lookup T d a

variable [Preorder N]

theorem live (h : Hierarchy T root) (hv : Listed T root v) : ∃ x, T v = some x := by
  rcases hv with rfl | ⟨d, e, hd, hv⟩
  · obtain ⟨e, he, _⟩ := h.top
    exact ⟨e, he⟩
  · obtain ⟨x, hx, _⟩ := h.child hd hv
    exact ⟨x, hx⟩

theorem ne_root (h : Hierarchy T root) (hd : T d = some e) (hc : c ∈ e.children) : c ≠ root := by
  rintro rfl
  obtain ⟨x, hx, hpar, hlt⟩ := h.child hd hc
  obtain ⟨y, hy, hroot⟩ := h.top
  cases hx.symm.trans hy
  rw [hroot] at hpar
  exact lt_irrefl _ ((Option.some.inj hpar).symm ▸ hlt)

theorem parent_unique (h : Hierarchy T root) {d' : N} {e' : Entry N A} (hd : T d = some e)
    (hc : c ∈ e.children) (hd' : T d' = some e') (hc' : c ∈ e'.children) : d' = d := by
  obtain ⟨x, hx, hpar, _⟩ := h.child hd hc
  obtain ⟨y, hy, hpar', _⟩ := h.child hd' hc'
  cases hx.symm.trans hy
  exact Option.some.inj (hpar'.symm.trans hpar)

theorem listed_parent (h : Hierarchy T root) (hv : Listed T root v) (hx : T v = some x) :
    ∃ d, x.parent = some d ∧ Listed T root d := by
  rcases hv with rfl | ⟨d, e, hd, hv⟩
  · obtain ⟨e, he, hpar⟩ := h.top
    cases hx.symm.trans he
    exact ⟨_, hpar, .inl rfl⟩
  · obtain ⟨y, hy, hpar, _⟩ := h.child hd hv
    cases hx.symm.trans hy
    exact ⟨d, hpar, h.attached hd (ne_nil_of_mem hv)⟩

variable [DecidableEq A]

theorem lookup_eq_some (h : Hierarchy T root) : lookup T d a = some c ↔
    ∃ e x, T d = some e ∧ c ∈ e.children ∧ T c = some x ∧ x.name = a := by
  rw [lookup, bind_eq_some_iff]
  constructor
  · intro ⟨e, hd, hfind⟩
    have hc := mem_of_find?_eq_some hfind
    obtain ⟨x, hx, _⟩ := h.child hd hc
    have hname := List.find?_some hfind
    rw [hx] at hname
    exact ⟨e, x, hd, hc, hx, of_decide_eq_true hname⟩
  · intro ⟨e, x, hd, hc, hx, hxa⟩
    refine ⟨e, hd, ?_⟩
    have hsome : (e.children.find? fun c => (T c).any fun x => x.name = a).isSome :=
      List.find?_isSome.mpr ⟨c, hc, by simp [hx, hxa]⟩
    obtain ⟨c', hfind⟩ := isSome_iff_exists.mp hsome
    have hc' := mem_of_find?_eq_some hfind
    obtain ⟨x', hx', _⟩ := h.child hd hc'
    have hname := List.find?_some hfind
    rw [hx'] at hname
    have hxa' : x'.name = a := of_decide_eq_true hname
    rw [hfind, h.names hd hc' hc hx' hx (hxa'.trans hxa.symm)]

theorem lookup_eq_none (h : Hierarchy T root) (hd : T d = some e) : lookup T d a = none ↔
    ∀ c ∈ e.children, ∀ x, T c = some x → x.name ≠ a := by
  constructor
  · intro hnone c hc x hx hxa
    have hsome := h.lookup_eq_some.mpr ⟨e, x, hd, hc, hx, hxa⟩
    rw [hnone] at hsome
    cases hsome
  · intro hall
    cases hl : lookup T d a with
    | none => rfl
    | some c =>
      obtain ⟨e', x, hd', hc, hx, hxa⟩ := h.lookup_eq_some.mp hl
      cases hd.symm.trans hd'
      exact absurd hxa (hall c hc x hx)

theorem listed_lookup (h : Hierarchy T root) (hl : lookup T d a = some c) : Listed T root c := by
  obtain ⟨e, _, hd, hc, _⟩ := h.lookup_eq_some.mp hl
  exact .inr ⟨d, e, hd, hc⟩

/-! ## Paths -/

theorem distinct (h : Hierarchy T root) : (forest T root).Distinct := by
  intro r p r' q f hp hq
  refine ⟨rfl, ?_⟩
  induction p generalizing q f with
  | nil =>
    obtain rfl : root = f := Option.some.inj hp
    cases q with
    | nil => rfl
    | cons j q =>
      obtain ⟨g, _, hchild⟩ := Forest.node_cons_eq_some.mp hq
      obtain ⟨e, _, hg, hmem, _⟩ := h.lookup_eq_some.mp hchild
      exact absurd rfl (h.ne_root hg hmem)
  | cons i p ih =>
    obtain ⟨g, hg, hchild⟩ := Forest.node_cons_eq_some.mp hp
    obtain ⟨e, x, hTg, hmem, hx, hname⟩ := h.lookup_eq_some.mp hchild
    cases q with
    | nil =>
      obtain rfl : root = f := Option.some.inj hq
      exact absurd rfl (h.ne_root hTg hmem)
    | cons j q =>
      obtain ⟨g', hg', hchild'⟩ := Forest.node_cons_eq_some.mp hq
      obtain ⟨e', x', hTg', hmem', hx', hname'⟩ := h.lookup_eq_some.mp hchild'
      obtain rfl := h.parent_unique hTg hmem hTg' hmem'
      cases hx.symm.trans hx'
      rw [ih hg hg', ← hname, ← hname']

/-- **The listed nodes are a tree**: they are those at a path from the root. -/
theorem listed_iff [WellFoundedLT N] (h : Hierarchy T root) :
    Listed T root v ↔ ∃ p, (forest T root).node () p = some v := by
  constructor
  · induction v using WellFoundedLT.induction with
    | ind v ih =>
      intro hv
      rcases hv with rfl | ⟨d, e, hd, hv⟩
      · exact ⟨[], rfl⟩
      · obtain ⟨x, hx, _, hlt⟩ := h.child hd hv
        obtain ⟨p, hp⟩ := ih d hlt (h.attached hd (ne_nil_of_mem hv))
        have hlook := h.lookup_eq_some.mpr ⟨e, x, hd, hv, hx, rfl⟩
        exact ⟨x.name :: p, (Forest.node_cons_of hp x.name).trans hlook⟩
  · intro ⟨p, hp⟩
    cases p with
    | nil => exact .inl (Option.some.inj hp).symm
    | cons i p =>
      obtain ⟨g, _, hchild⟩ := Forest.node_cons_eq_some.mp hp
      exact h.listed_lookup hchild

end Hierarchy

/-! ## Changes -/

/-- `U` is `T` with the new node `c` on top of the list of `d`. -/
structure HangIn [LT N] (T U : N → Option (Entry N A)) (root d c : N) (a : A) (e : Entry N A) :
    Prop where
  parent : T d = some e
  listed : Listed T root d
  absent : T c = none
  younger : d < c
  vacant : ∀ c' ∈ e.children, ∀ x, T c' = some x → x.name ≠ a
  hung : U c = some ⟨some d, a, []⟩
  grown : U d = some { e with children := c :: e.children }
  rest : ∀ v, v ≠ c → v ≠ d → U v = T v

namespace HangIn

variable [Preorder N] {U : N → Option (Entry N A)} (h : HangIn T U root d c a e)

include h

theorem ne_of_some (hv : T v = some x) : v ≠ c := by
  rintro rfl
  rw [h.absent] at hv
  cases hv

theorem cases {y : Entry N A} (hv : U v = some y) :
    (v = c ∧ y = ⟨some d, a, []⟩) ∨ (v = d ∧ y = { e with children := c :: e.children }) ∨
      (v ≠ c ∧ v ≠ d ∧ T v = some y) := by
  by_cases hvc : v = c
  · subst hvc
    exact .inl ⟨rfl, Option.some.inj (hv.symm.trans h.hung)⟩
  by_cases hvd : v = d
  · subst hvd
    exact .inr (.inl ⟨rfl, Option.some.inj (hv.symm.trans h.grown)⟩)
  · exact .inr (.inr ⟨hvc, hvd, h.rest v hvc hvd ▸ hv⟩)

theorem keep (hv : T v = some x) :
    ∃ y, U v = some y ∧ y.parent = x.parent ∧ y.name = x.name ∧ x.children ⊆ y.children := by
  by_cases hvd : v = d
  · subst hvd
    cases hv.symm.trans h.parent
    exact ⟨_, h.grown, rfl, rfl, subset_cons_self _ _⟩
  · exact ⟨x, (h.rest v (h.ne_of_some hv) hvd).trans hv, rfl, rfl, List.Subset.refl _⟩

theorem listed_of (hv : Listed T root v) : Listed U root v := by
  rcases hv with rfl | ⟨d', e', hd', hv⟩
  · exact .inl rfl
  · obtain ⟨y, hy, _, _, hsub⟩ := h.keep hd'
    exact .inr ⟨d', y, hy, hsub hv⟩

theorem listed_new : Listed U root c :=
  .inr ⟨d, _, h.grown, mem_cons_self⟩

theorem child_cases {d' c' : N} {y : Entry N A} (hd' : U d' = some y) (hc' : c' ∈ y.children) :
    (d' = d ∧ c' = c) ∨ ∃ e', T d' = some e' ∧ c' ∈ e'.children := by
  rcases h.cases hd' with ⟨_, rfl⟩ | ⟨rfl, rfl⟩ | ⟨_, _, hT'⟩
  · cases hc'
  · rcases mem_cons.mp hc' with rfl | hc'
    · exact .inl ⟨rfl, rfl⟩
    · exact .inr ⟨e, h.parent, hc'⟩
  · exact .inr ⟨y, hT', hc'⟩

theorem listed_cases (hv : Listed U root v) : v = c ∨ Listed T root v := by
  rcases hv with rfl | ⟨d', y, hd', hv⟩
  · exact .inr (.inl rfl)
  · rcases h.child_cases hd' hv with ⟨_, rfl⟩ | ⟨e', he', hv⟩
    · exact .inl rfl
    · exact .inr (.inr ⟨d', e', he', hv⟩)

variable (hT : Hierarchy T root)
include hT

theorem fresh (hv : T v = some x) : c ∉ x.children := by
  intro hc
  obtain ⟨y, hy, _⟩ := hT.child hv hc
  exact h.ne_of_some hy rfl

theorem name_of_child {d' c' : N} {e' x' : Entry N A} (he' : T d' = some e') (hc' : c' ∈ e'.children)
    (hx' : U c' = some x') : ∃ x, T c' = some x ∧ x'.name = x.name := by
  obtain ⟨x, hx, _⟩ := hT.child he' hc'
  obtain ⟨z, hz, _, hname, _⟩ := h.keep hx
  cases hz.symm.trans hx'
  exact ⟨x, hx, hname⟩

theorem hierarchy : Hierarchy U root where
  top := by
    obtain ⟨r, hr, hpar⟩ := hT.top
    obtain ⟨y, hy, hypar, _⟩ := h.keep hr
    exact ⟨y, hy, hypar.trans hpar⟩
  child {d' y c'} hd' hc' := by
    rcases h.child_cases hd' hc' with ⟨rfl, rfl⟩ | ⟨e', he', hc'⟩
    · exact ⟨_, h.hung, rfl, h.younger⟩
    · obtain ⟨x, hx, hpar, hlt⟩ := hT.child he' hc'
      obtain ⟨z, hz, hzpar, _⟩ := h.keep hx
      exact ⟨z, hz, hzpar.trans hpar, hlt⟩
  nodup {d' y} hd' := by
    rcases h.cases hd' with ⟨_, rfl⟩ | ⟨rfl, rfl⟩ | ⟨_, _, hT'⟩
    · exact nodup_nil
    · exact nodup_cons.mpr ⟨h.fresh hT h.parent, hT.nodup h.parent⟩
    · exact hT.nodup hT'
  names {d' y c1 c2 x1 x2} hd' h1 h2 hx1 hx2 hname := by
    -- an old member of the list is not called like the new one
    have hold : ∀ {c' e' x'}, T d = some e' → c' ∈ e'.children → U c' = some x' → x'.name ≠ a := by
      intro c' e' x' he' hc' hx' hxa
      obtain ⟨x, hx, hname⟩ := h.name_of_child hT he' hc' hx'
      cases he'.symm.trans h.parent
      exact h.vacant c' hc' x hx (hname.symm.trans hxa)
    have hnew : ∀ {x'}, U c = some x' → x'.name = a := by
      intro x' hx'
      cases hx'.symm.trans h.hung
      rfl
    rcases h.child_cases hd' h1 with ⟨rfl, rfl⟩ | ⟨e1, he1, hm1⟩ <;>
      rcases h.child_cases hd' h2 with ⟨hd2, rfl⟩ | ⟨e2, he2, hm2⟩
    · rfl
    · exact absurd (hname.symm.trans (hnew hx1)) (hold he2 hm2 hx2)
    · subst hd2
      exact absurd (hname.trans (hnew hx2)) (hold he1 hm1 hx1)
    · cases he1.symm.trans he2
      obtain ⟨z1, hz1, hn1⟩ := h.name_of_child hT he1 hm1 hx1
      obtain ⟨z2, hz2, hn2⟩ := h.name_of_child hT he1 hm2 hx2
      exact hT.names he1 hm1 hm2 hz1 hz2 (by rw [← hn1, hname, hn2])
  attached {d' y} hd' hne := by
    rcases h.cases hd' with ⟨_, rfl⟩ | ⟨rfl, rfl⟩ | ⟨_, _, hT'⟩
    · exact absurd rfl hne
    · exact h.listed_of h.listed
    · exact h.listed_of (hT.attached hT' hne)

variable [DecidableEq A]

theorem lookup_new : Hierarchy.lookup U d a = some c :=
  (h.hierarchy hT).lookup_eq_some.mpr ⟨_, _, h.grown, mem_cons_self, h.hung, rfl⟩

theorem lookup_old {d' : N} {a' : A} (hne : ¬ (d' = d ∧ a' = a)) :
    Hierarchy.lookup U d' a' = Hierarchy.lookup T d' a' := by
  apply Option.ext
  intro c'
  rw [(h.hierarchy hT).lookup_eq_some, hT.lookup_eq_some]
  constructor
  · intro ⟨y, z, hy, hc', hz, hza⟩
    rcases h.child_cases hy hc' with ⟨rfl, rfl⟩ | ⟨e', he', hc'⟩
    · cases hz.symm.trans h.hung
      exact absurd ⟨rfl, hza.symm⟩ hne
    · obtain ⟨w, hw, hname⟩ := h.name_of_child hT he' hc' hz
      exact ⟨e', w, he', hc', hw, hname.symm.trans hza⟩
  · intro ⟨e', w, he', hc', hw, hwa⟩
    obtain ⟨y, hy, _, _, hsub⟩ := h.keep he'
    obtain ⟨z, hz, _, hname, _⟩ := h.keep hw
    exact ⟨y, z, hy, hsub hc', hz, hname.trans hwa⟩

end HangIn

/-- `U` is `T` without the node `c` on the list of `d`; `c` has no children. -/
structure CutFrom [DecidableEq N] (T U : N → Option (Entry N A)) (d c : N) (e x : Entry N A) :
    Prop where
  parent : T d = some e
  member : c ∈ e.children
  node : T c = some x
  bare : x.children = []
  cut : U d = some { e with children := e.children.erase c }
  rest : ∀ v, v ≠ d → U v = T v

namespace CutFrom

variable [DecidableEq N] {U : N → Option (Entry N A)} (h : CutFrom T U d c e x)

include h

theorem keep {y : Entry N A} (hv : T v = some y) :
    ∃ z, U v = some z ∧ z.parent = y.parent ∧ z.name = y.name ∧
      ((v = d ∧ z.children = e.children.erase c) ∨ (v ≠ d ∧ z = y)) := by
  by_cases hvd : v = d
  · subst hvd
    cases hv.symm.trans h.parent
    exact ⟨_, h.cut, rfl, rfl, .inl ⟨rfl, rfl⟩⟩
  · exact ⟨y, (h.rest v hvd).trans hv, rfl, rfl, .inr ⟨hvd, rfl⟩⟩

theorem back {y : Entry N A} (hv : U v = some y) : ∃ z, T v = some z ∧ y.name = z.name := by
  by_cases hvd : v = d
  · subst hvd
    cases hv.symm.trans h.cut
    exact ⟨e, h.parent, rfl⟩
  · exact ⟨y, h.rest v hvd ▸ hv, rfl⟩

variable [Preorder N] (hT : Hierarchy T root)
include hT

theorem ne : c ≠ d := by
  intro heq
  obtain ⟨_, _, _, hlt⟩ := hT.child h.parent h.member
  rw [heq] at hlt
  exact lt_irrefl _ hlt

theorem mem_iff {v c' : N} {y z : Entry N A} (hy : T v = some y) (hz : U v = some z) :
    c' ∈ z.children ↔ c' ∈ y.children ∧ c' ≠ c := by
  obtain ⟨z', hz', _, _, hcase⟩ := h.keep hy
  cases hz.symm.trans hz'
  rcases hcase with ⟨rfl, hch⟩ | ⟨hvd, rfl⟩
  · cases hy.symm.trans h.parent
    rw [hch, (hT.nodup h.parent).mem_erase_iff, and_comm]
  · refine ⟨fun hc' => ⟨hc', fun heq => ?_⟩, fun hc' => hc'.1⟩
    subst heq
    exact hvd (hT.parent_unique h.parent h.member hy hc')

theorem of_mem {v c' : N} {z : Entry N A} (hz : U v = some z) (hc' : c' ∈ z.children) :
    ∃ y, T v = some y ∧ c' ∈ y.children ∧ c' ≠ c := by
  obtain ⟨y, hy, _⟩ := h.back hz
  exact ⟨y, hy, (h.mem_iff hT hy hz).mp hc'⟩

theorem listed_iff : Listed U root v ↔ Listed T root v ∧ v ≠ c := by
  constructor
  · intro hv
    rcases hv with rfl | ⟨d', z, hz, hv⟩
    · exact ⟨.inl rfl, (hT.ne_root h.parent h.member).symm⟩
    · obtain ⟨y, hy, hmem, hne⟩ := h.of_mem hT hz hv
      exact ⟨.inr ⟨d', y, hy, hmem⟩, hne⟩
  · intro hv
    obtain ⟨hv, hne⟩ := hv
    rcases hv with rfl | ⟨d', y, hy, hv⟩
    · exact .inl rfl
    · obtain ⟨z, hz, _⟩ := h.keep hy
      exact .inr ⟨d', z, hz, (h.mem_iff hT hy hz).mpr ⟨hv, hne⟩⟩

theorem hierarchy : Hierarchy U root where
  top := by
    obtain ⟨r, hr, hpar⟩ := hT.top
    obtain ⟨z, hz, hzpar, _⟩ := h.keep hr
    exact ⟨z, hz, hzpar.trans hpar⟩
  child {d' z c'} hz hc' := by
    obtain ⟨y, hy, hmem, _⟩ := h.of_mem hT hz hc'
    obtain ⟨x', hx', hpar, hlt⟩ := hT.child hy hmem
    obtain ⟨w, hw, hwpar, _⟩ := h.keep hx'
    exact ⟨w, hw, hwpar.trans hpar, hlt⟩
  nodup {d' z} hz := by
    obtain ⟨y, hy, _⟩ := h.back hz
    obtain ⟨z', hz', _, _, hcase⟩ := h.keep hy
    cases hz.symm.trans hz'
    rcases hcase with ⟨_, hch⟩ | ⟨_, rfl⟩
    · rw [hch]
      exact (hT.nodup h.parent).erase c
    · exact hT.nodup hy
  names {d' z c1 c2 x1 x2} hz h1 h2 hx1 hx2 hname := by
    obtain ⟨y, hy, hm1, _⟩ := h.of_mem hT hz h1
    have hm2 := ((h.mem_iff hT hy hz).mp h2).1
    obtain ⟨w1, hw1, hn1⟩ := h.back hx1
    obtain ⟨w2, hw2, hn2⟩ := h.back hx2
    exact hT.names hy hm1 hm2 hw1 hw2 (by rw [← hn1, hname, hn2])
  attached {d' z} hz hne := by
    obtain ⟨c', hc'⟩ := exists_mem_of_ne_nil _ hne
    obtain ⟨y, hy, hmem, _⟩ := h.of_mem hT hz hc'
    refine (h.listed_iff hT).mpr ⟨hT.attached hy (ne_nil_of_mem hmem), fun heq => ?_⟩
    subst heq
    cases hy.symm.trans h.node
    rw [h.bare] at hmem
    cases hmem

variable [DecidableEq A]

theorem lookup_cut : Hierarchy.lookup U d x.name = none := by
  rw [(h.hierarchy hT).lookup_eq_none h.cut]
  intro c' hc' w hw hname
  obtain ⟨hmem, hne⟩ := (h.mem_iff hT h.parent h.cut).mp hc'
  obtain ⟨y, hy, hn⟩ := h.back hw
  exact hne (hT.names h.parent hmem h.member hy h.node (hn.symm.trans hname))

theorem lookup_other {d' : N} {a' : A} (hne : ¬ (d' = d ∧ a' = x.name)) :
    Hierarchy.lookup U d' a' = Hierarchy.lookup T d' a' := by
  apply Option.ext
  intro c'
  rw [(h.hierarchy hT).lookup_eq_some, hT.lookup_eq_some]
  constructor
  · intro ⟨z, w, hz, hc', hw, hwa⟩
    obtain ⟨y, hy, hmem, _⟩ := h.of_mem hT hz hc'
    obtain ⟨v, hv, hn⟩ := h.back hw
    exact ⟨y, v, hy, hmem, hv, hn.symm.trans hwa⟩
  · intro ⟨y, v, hy, hc', hv, hva⟩
    obtain ⟨z, hz, _⟩ := h.keep hy
    obtain ⟨w, hw, _, hn, _⟩ := h.keep hv
    refine ⟨z, w, hz, (h.mem_iff hT hy hz).mpr ⟨hc', fun heq => hne ?_⟩, hw, hn.trans hva⟩
    subst heq
    cases hv.symm.trans h.node
    exact ⟨hT.parent_unique h.parent h.member hy hc', hva.symm⟩

end CutFrom

/-- `U` is `T` without the node `c`, which is not listed and has no children. -/
structure DropOf (T U : N → Option (Entry N A)) (root c : N) (x : Entry N A) : Prop where
  node : T c = some x
  bare : x.children = []
  unlisted : ¬ Listed T root c
  gone : U c = none
  rest : ∀ v, v ≠ c → U v = T v

namespace DropOf

variable {U : N → Option (Entry N A)} (h : DropOf T U root c x)

include h

theorem of_some {y : Entry N A} (hv : U v = some y) : v ≠ c ∧ T v = some y := by
  by_cases hvc : v = c
  · subst hvc
    rw [h.gone] at hv
    cases hv
  · exact ⟨hvc, h.rest v hvc ▸ hv⟩

theorem of_mem {y : Entry N A} (hy : T d = some y) (hv : v ∈ y.children) : U d = some y ∧ v ≠ c := by
  have hdc : d ≠ c := by
    rintro rfl
    cases hy.symm.trans h.node
    rw [h.bare] at hv
    cases hv
  refine ⟨(h.rest d hdc).trans hy, fun heq => h.unlisted ?_⟩
  subst heq
  exact .inr ⟨d, y, hy, hv⟩

theorem listed_iff : Listed U root v ↔ Listed T root v := by
  constructor
  · intro hv
    rcases hv with rfl | ⟨d', y, hy, hv⟩
    · exact .inl rfl
    · exact .inr ⟨d', y, (h.of_some hy).2, hv⟩
  · intro hv
    rcases hv with rfl | ⟨d', y, hy, hv⟩
    · exact .inl rfl
    · exact .inr ⟨d', y, (h.of_mem hy hv).1, hv⟩

variable [Preorder N] (hT : Hierarchy T root)
include hT

theorem hierarchy : Hierarchy U root where
  top := by
    obtain ⟨r, hr, hpar⟩ := hT.top
    have hne : root ≠ c := fun heq => h.unlisted (.inl heq.symm)
    exact ⟨r, (h.rest root hne).trans hr, hpar⟩
  child {d' y c'} hy hc' := by
    have hy' := (h.of_some hy).2
    obtain ⟨z, hz, hpar, hlt⟩ := hT.child hy' hc'
    exact ⟨z, (h.rest c' (h.of_mem hy' hc').2).trans hz, hpar, hlt⟩
  nodup hy := hT.nodup (h.of_some hy).2
  names hy h1 h2 hx1 hx2 hname :=
    hT.names (h.of_some hy).2 h1 h2 (h.of_some hx1).2 (h.of_some hx2).2 hname
  attached hy hne := h.listed_iff.mpr (hT.attached (h.of_some hy).2 hne)

theorem lookup_eq [DecidableEq A] {d' : N} {a' : A} :
    Hierarchy.lookup U d' a' = Hierarchy.lookup T d' a' := by
  apply Option.ext
  intro c'
  rw [(h.hierarchy hT).lookup_eq_some, hT.lookup_eq_some]
  constructor
  · intro ⟨y, z, hy, hc', hz, hza⟩
    exact ⟨y, z, (h.of_some hy).2, hc', (h.of_some hz).2, hza⟩
  · intro ⟨y, z, hy, hc', hz, hza⟩
    obtain ⟨hy', hne⟩ := h.of_mem hy hc'
    exact ⟨y, z, hy', hc', (h.rest c' hne).trans hz, hza⟩

end DropOf

end Exyde.Lib
