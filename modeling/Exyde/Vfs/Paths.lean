import Mathlib.Data.List.DropRight
import Exyde.Vfs.FsSpec

/-! # Paths when an entry changes

The operations that make and remove entries split a path at its last slash, while
`vfs_resolve` reads it component by component and gives `.` and `..` a meaning. Once an
entry has come or gone, the paths that look it up lead elsewhere. -/

namespace Exyde.Vfs

open List Option
open Exyde.Lib (Hierarchy HangIn CutFrom DropOf fields)

/-- The names that a path does not look up. -/
def IsDots (name : Name) : Prop := name = [dot] ∨ name = [dot, dot]

instance decidableIsDots (name : Name) : Decidable (IsDots name) :=
  inferInstanceAs (Decidable (_ ∨ _))

def lastName (path : List UInt8) : Name := path.rtakeWhile (· != slash)

/-- The path starts at the root and does not end in `.` or `..`. -/
def Proper (path : List UInt8) : Prop := path.head? = some slash ∧ ¬ IsDots (lastName path)

theorem lastName_self {name : Name} (h : slash ∉ name) : lastName name = name := by
  refine rtakeWhile_eq_self_iff.mpr fun b hb => ?_
  have hne : b ≠ slash := fun heq => h (heq ▸ hb)
  simpa using hne

theorem lastName_append {name : Name} (h : slash ∉ name) (pre : List UInt8) :
    lastName (pre ++ slash :: name) = name := by
  have hall : ∀ b ∈ name.reverse, (b != slash) = true := by
    intro b hb
    have hne : b ≠ slash := fun heq => h (heq ▸ mem_reverse.mp hb)
    simpa using hne
  rw [lastName, List.rtakeWhile, reverse_append, reverse_cons, append_assoc,
    takeWhile_append_of_pos hall, singleton_append,
    takeWhile_cons_of_neg (by simp), append_nil, reverse_reverse]

namespace Fs

variable {s s' : Fs} {u v d c : NodeId} {n m : Vnode} {name a : Name} {path : List UInt8}
  {l : List Name} {type : VType}

def resolves (s : Fs) (path : List UInt8) : Option (Except Errno NodeId) :=
  (vfsResolve path s).map Prod.fst

theorem Wf.resolves_eq (h : s.Wf none) (path : List UInt8) :
    s.resolves path = some (s.resolve path) := by
  rw [resolves, h.resolve_eq]
  cases s.resolve path <;> rfl

/-- On its way the path looks up the entry `name` of the directory `d`. -/
def Passes (s : Fs) (path : List UInt8) (d : NodeId) (name : Name) : Prop :=
  ¬ IsDots name ∧ ∃ l l', fields slash path = l ++ name :: l' ∧ s.walk s.top l = .ok d

/-! ## One component -/

theorem enter_ok (h : s.enter v a = .ok u) : (a = [dot] ∧ u = v) ∨ (a = [dot, dot] ∧ u = s.up v) ∨
      (¬ IsDots a ∧ Hierarchy.lookup s.tree v a = some u) := by
  unfold enter at h
  split at h
  · cases h
  split at h
  · exact .inl ⟨‹_›, (Except.ok.inj h).symm⟩
  split at h
  · exact .inr (.inl ⟨‹_›, (Except.ok.inj h).symm⟩)
  split at h
  · cases h
  split at h
  · cases h
  next c hc =>
    cases h
    exact .inr (.inr ⟨not_or.mpr ⟨‹_›, ‹_›⟩, hc⟩)

theorem enter_some (hdir : (s.nodes v).map Vnode.type = some .dir) (hlen : a.length ≤ nameMax)
    (ha : ¬ IsDots a) (hc : Hierarchy.lookup s.tree v a = some c) : s.enter v a = .ok c := by
  obtain ⟨hdot, hdots⟩ := not_or.mp ha
  rw [enter, if_neg (Nat.not_lt_of_le hlen), if_neg hdot, if_neg hdots, if_neg (not_not_intro hdir), hc]

theorem enter_none (hdir : (s.nodes v).map Vnode.type = some .dir) (hlen : a.length ≤ nameMax)
    (ha : ¬ IsDots a) (hc : Hierarchy.lookup s.tree v a = none) : s.enter v a = .error .ENOENT := by
  obtain ⟨hdot, hdots⟩ := not_or.mp ha
  rw [enter, if_neg (Nat.not_lt_of_le hlen), if_neg hdot, if_neg hdots, if_neg (not_not_intro hdir), hc]

theorem enter_dots (ha : IsDots a) : ∃ u, s.enter v a = .ok u ∧ (u = v ∨ u = s.up v) := by
  rcases ha with rfl | rfl
  · exact ⟨v, rfl, .inl rfl⟩
  · exact ⟨s.up v, rfl, .inr rfl⟩

theorem enter_congr (hnode : (s'.nodes v).map (fun k => (k.type, k.parent)) =
      (s.nodes v).map fun k => (k.type, k.parent))
    (hlook : ¬ IsDots a → Hierarchy.lookup s'.tree v a = Hierarchy.lookup s.tree v a) :
    s'.enter v a = s.enter v a := by
  have hup : s'.up v = s.up v := by
    have hpar := congrArg (Option.bind · Prod.snd) hnode
    rw [bind_map, bind_map] at hpar
    exact congrArg (Option.getD · v) hpar
  have htype := congrArg (Option.map Prod.fst) hnode
  rw [Option.map_map, Option.map_map] at htype
  have htype : (s'.nodes v).map Vnode.type = (s.nodes v).map Vnode.type := htype
  by_cases ha : IsDots a
  · rcases ha with rfl | rfl
    · rfl
    · exact congrArg Except.ok hup
  · obtain ⟨hdot, hdots⟩ := not_or.mp ha
    rw [enter, enter, if_neg hdot, if_neg hdots, if_neg hdot, if_neg hdots, htype, hlook ha]

theorem SameShape.resolve_eq (h : SameShape s s') (path : List UInt8) :
    s'.resolve path = s.resolve path := by
  have henter : ∀ v a, s'.enter v a = s.enter v a := by
    intro v a
    refine enter_congr ?_ fun _ => by rw [h.tree_eq]
    have hv := congrArg (Option.map fun p => (p.1, p.2.parent)) (h.nodes v)
    rwa [Option.map_map, Option.map_map] at hv
  have hwalk : s'.enter = s.enter := funext fun v => funext (henter v)
  rw [resolve, resolve, h.top_eq, walk, walk, hwalk]

/-! ## Walking through directories only -/

/-- What a component means in a directory; anywhere else it means nothing. -/
def descend (s : Fs) (v : NodeId) (a : Name) : Except Errno NodeId :=
  if (s.nodes v).map Vnode.type ≠ some .dir then .error .ENOTDIR
  else if nameMax < a.length then .error .ENAMETOOLONG
  else if a = [dot] then .ok v
  else if a = [dot, dot] then .ok (s.up v)
  else
    match Hierarchy.lookup s.tree v a with
    | none => .error .ENOENT
    | some c => .ok c

def meaning (s : Fs) (path : List UInt8) : Except Errno NodeId :=
  (fields slash path).foldlM s.descend s.top

/-- A name that can only be looked up. -/
def Ordinary (a : Name) : Prop := ¬ IsDots a ∧ a.length ≤ nameMax

/-- On the way from `v`, where `.` stays and `..` goes up, a component with `P` comes
after a node that is no directory. -/
def PastFile (s : Fs) (P : Name → Prop) : NodeId → List Name → Prop
  | _, [] => False
  | v, a :: l => ((s.nodes v).map Vnode.type ≠ some .dir ∧ P a) ∨
      ∃ u, s.enter v a = .ok u ∧ s.PastFile P u l

theorem descend_eq (hdir : (s.nodes v).map Vnode.type = some .dir) : s.descend v a = s.enter v a := by
  cases hchild : Hierarchy.lookup s.tree v a <;>
    simp only [descend, enter, hchild, if_neg (not_not_intro hdir)]

theorem enter_notdir :
    s.enter v a = .error .ENOTDIR ↔ (s.nodes v).map Vnode.type ≠ some .dir ∧ Ordinary a := by
  unfold enter
  split
  next hlong => simp [Ordinary, Nat.not_le_of_lt hlong]
  next hshort =>
  split
  next hdot => simp [Ordinary, IsDots, hdot]
  next hdot =>
  split
  next hdots => simp [Ordinary, IsDots, hdots]
  next hdots =>
  have hord : Ordinary a := ⟨not_or.mpr ⟨hdot, hdots⟩, Nat.le_of_not_lt hshort⟩
  split
  next hfile => exact iff_of_true rfl ⟨hfile, hord⟩
  next hdir =>
    split
    · simp [hdir]
    · simp [hdir]

theorem walk_notdir : s.walk v l = .error .ENOTDIR ↔ s.PastFile Ordinary v l := by
  induction l generalizing v with
  | nil => exact ⟨nofun, False.elim⟩
  | cons a l ih =>
    rw [PastFile, ← enter_notdir, walk_cons]
    cases s.enter v a with
    | error e => simp [bind, Except.bind]
    | ok u => simp [bind, Except.bind, ih]

/-- The walk that keeps to directories is the other one, or stops at a file. -/
theorem descend_cases : (l.foldlM s.descend v = s.walk v l ∧ ¬ s.PastFile (fun _ => True) v l) ∨
      (l.foldlM s.descend v = .error .ENOTDIR ∧ s.PastFile (fun _ => True) v l) := by
  induction l generalizing v with
  | nil => exact .inl ⟨rfl, id⟩
  | cons a l ih =>
    rw [foldlM_cons, PastFile]
    by_cases hdir : (s.nodes v).map Vnode.type = some .dir
    · rw [descend_eq hdir, walk_cons]
      cases s.enter v a with
      | error e => exact .inl ⟨rfl, by simp [hdir]⟩
      | ok u => simpa [hdir, bind, Except.bind] using ih
    · rw [descend, if_pos hdir]
      exact .inr ⟨rfl, .inl ⟨hdir, trivial⟩⟩

/-! ## A change of one entry

`Alters` says what hanging a new node `c` into `d` and taking `c` off `d` have in
common: away from `c`, only the entry `name` of `d` is looked up differently. -/

structure Alters (s s' : Fs) (d : NodeId) (name : Name) (c : NodeId) : Prop where
  top : s'.top = s.top
  away : s.top ≠ c
  enter : ∀ {v a}, s.Listed v → v ≠ c → ¬ (v = d ∧ a = name ∧ ¬ IsDots a) →
    s'.enter v a = s.enter v a
  leave : ∀ {v a u}, s.Listed v → v ≠ c → ¬ (v = d ∧ a = name ∧ ¬ IsDots a) →
    s.enter v a = .ok u → u ≠ c

namespace Alters

variable (h : Alters s s' d name c) (hs : Shape s)

include h hs

/-- A walk that does not pass the entry leads where it led. -/
theorem walk_eq (hv : s.Listed v) (hvc : v ≠ c)
    (hno : ¬ IsDots name → ∀ l1 l2, l = l1 ++ name :: l2 → s.walk v l1 ≠ .ok d) :
    s'.walk v l = s.walk v l := by
  induction l generalizing v with
  | nil => rfl
  | cons a rest ih =>
    have hlook : ¬ (v = d ∧ a = name ∧ ¬ IsDots a) := by
      rintro ⟨rfl, rfl, ha⟩
      exact hno ha [] rest rfl rfl
    rw [walk_cons, walk_cons, h.enter hv hvc hlook]
    cases he : s.enter v a with
    | error e => rfl
    | ok u =>
      refine ih (hs.listed_enter hv he) (h.leave hv hvc hlook he) fun hname l1 l2 hl hw => ?_
      apply hno hname (a :: l1) l2 (by rw [hl, cons_append])
      rw [walk_cons, he]
      exact hw

theorem resolve_eq (hno : ¬ s.Passes path d name) : s'.resolve path = s.resolve path := by
  rw [resolve, resolve, h.top]
  split
  · rfl
  · refine h.walk_eq hs s.listed_top h.away fun hname l1 l2 hl hw => hno ⟨hname, l1, l2, hl, hw⟩

/-- A walk to the directory of the entry still leads there, or passes the entry. -/
theorem walk_cases (hname : ¬ IsDots name) (hv : s.Listed v) (hvc : v ≠ c) (hw : s.walk v l = .ok d) :
    s'.walk v l = .ok d ∨ ∃ l1 l2, l = l1 ++ name :: l2 ∧ s.walk v l1 = .ok d ∧ s'.walk v l1 = .ok d := by
  induction l generalizing v with
  | nil => exact .inl hw
  | cons a rest ih =>
    by_cases hlook : v = d ∧ a = name ∧ ¬ IsDots a
    · obtain ⟨rfl, rfl, _⟩ := hlook
      exact .inr ⟨[], rest, rfl, rfl, rfl⟩
    have henter := h.enter hv hvc hlook
    rw [walk_cons] at hw
    cases he : s.enter v a with
    | error e =>
      rw [he] at hw
      cases hw
    | ok u =>
      rw [he] at hw henter
      rcases ih (hs.listed_enter hv he) (h.leave hv hvc hlook he) hw with hw' | ⟨l1, l2, rfl, h1, h2⟩
      · left
        rw [walk_cons, henter]
        exact hw'
      · refine .inr ⟨a :: l1, l2, rfl, ?_, ?_⟩
        · rw [walk_cons, he]
          exact h1
        · rw [walk_cons, henter]
          exact h2

end Alters

/-! ## The entry that a path ends in -/

theorem walk_snoc (hw : s.walk v l = .ok d) (a : Name) (rest : List Name) :
    s.walk v (l ++ a :: rest) = s.enter d a >>= fun u => s.walk u rest := by
  rw [walk_append, hw]
  rfl

theorem walk_one (s : Fs) (v : NodeId) (a : Name) : s.walk v [a] = s.enter v a := by
  rw [walk_cons]
  cases s.enter v a <;> rfl

namespace Parent

variable (hp : Parent s path d n name)

include hp

theorem type_eq : (s.nodes d).map Vnode.type = some .dir := by
  rw [hp.node, map_some, hp.dir]

theorem lastName_eq : lastName path = name := by
  obtain ⟨dir, hsplit, _⟩ := hp.split
  obtain ⟨hvalid, ⟨rfl, _⟩ | ⟨pre, rfl, _⟩⟩ := splitPath_ok hsplit
  · exact lastName_self hvalid.2.1
  · exact lastName_append hvalid.2.1 pre

/-- An absolute path leads to the directory, and then to the name. -/
theorem walks (habs : path.head? = some slash) :
    ∃ l, fields slash path = l ++ [name] ∧ s.walk s.top l = .ok d := by
  obtain ⟨dir, hsplit, hres⟩ := hp.split
  obtain ⟨hvalid, ⟨rfl, _⟩ | ⟨pre, rfl, rfl⟩⟩ := splitPath_ok hsplit
  · exact absurd (mem_of_head? habs) hvalid.2.1
  · refine ⟨fields slash pre, ?_, ?_⟩
    · rw [Lib.fields_append, Lib.fields_run hvalid.1 hvalid.2.1]
    · unfold resolve at hres
      split at hres
      · cases hres
      · rwa [Lib.fields_append, Lib.fields_nil, append_nil] at hres

theorem resolve_eq (habs : path.head? = some slash) : s.resolve path = s.enter d name := by
  obtain ⟨l, hl, hw⟩ := hp.walks habs
  rw [resolve, if_neg (not_not_intro habs), hl, walk_append, hw]
  exact s.walk_one d name

end Parent

theorem resolve_relative (h : path.head? ≠ some slash) : s.resolve path = .error .EINVAL := by
  rw [resolve, if_pos h]

/-! ## New entries -/

section

variable (h : s.Wf none) (hp : Parent s path d n name)
  (hvacant : Hierarchy.lookup s.tree d name = none)

include h hp hvacant

theorem link_alters (type : VType) : Alters s (s.link d type name) d name s.nextNode := by
  have hhang : HangIn s.tree (s.link d type name).tree s.top d s.nextNode name n.entry :=
    link_hang h hp.node (hp.listed h) hvacant
  have hold : ∀ {v}, s.Listed v → v ≠ s.nextNode := by
    intro v hv
    obtain ⟨k, hk⟩ := h.shape.listed_live hv
    exact Nat.ne_of_lt (h.shape.below hk)
  refine ⟨rfl, hold s.listed_top, fun {v a} hv hvc hlook => ?_, fun hv _ _ he =>
    hold (h.shape.listed_enter hv he)⟩
  have hnode : ((s.link d type name).nodes v).map (fun k => (k.type, k.parent)) =
      (s.nodes v).map fun k => (k.type, k.parent) := by
    by_cases hvd : v = d
    · subst hvd
      rw [link_parent h hp.node, hp.node, map_some, map_some]
    · rw [link_other hvc hvd]
  refine enter_congr hnode fun ha => hhang.lookup_old h.shape.hier ?_
  rintro ⟨rfl, rfl⟩
  exact hlook ⟨rfl, rfl, ha⟩

theorem link_lookup (type : VType) :
    Hierarchy.lookup (s.link d type name).tree d name = some s.nextNode := by
  have hhang : HangIn s.tree (s.link d type name).tree s.top d s.nextNode name n.entry :=
    link_hang h hp.node (hp.listed h) hvacant
  exact hhang.lookup_new h.shape.hier

/-- **A new entry is found** where it was missing. -/
theorem link_resolve (habs : path.head? = some slash) (hname : ¬ IsDots name) (type : VType) :
    s.resolve path = .error .ENOENT ∧ (s.link d type name).resolve path = .ok s.nextNode := by
  have hbefore : s.enter d name = .error .ENOENT := enter_none hp.type_eq hp.valid.2.2 hname hvacant
  obtain ⟨l, hl, hw⟩ := hp.walks habs
  have hdir : ((s.link d type name).nodes d).map Vnode.type = some .dir := by
    rw [link_parent h hp.node, map_some, ← hp.dir]
  have hafter : (s.link d type name).enter d name = .ok s.nextNode :=
    enter_some hdir hp.valid.2.2 hname (link_lookup h hp hvacant type)
  refine ⟨(hp.resolve_eq habs).trans hbefore, ?_⟩
  have halters := link_alters h hp hvacant type
  rw [resolve, if_neg (not_not_intro habs), halters.top, hl]
  rcases halters.walk_cases h.shape hname s.listed_top halters.away hw with hw' | ⟨l1, l2, rfl, h1, _⟩
  · rw [walk_append, hw']
    exact (walk_one _ d name).trans hafter
  · -- the way to the directory would pass the missing entry
    rw [walk_snoc h1, hbefore] at hw
    cases hw

end

/-! ## Entries that are gone -/

section

variable (h : s.Wf none) (hp : Parent s path d n name)
  (hc : c ∈ n.children) (hm : s.nodes c = some m) (hbare : m.children = [])

include h hp hc hm hbare

theorem cut_node_ne : c ≠ d := (cut_from hp.node hc hm hbare).ne h.shape.hier

theorem dropRef_lookup (v : NodeId) (a : Name) :
    Hierarchy.lookup ((s.cut d c).dropRef c).tree v a = Hierarchy.lookup (s.cut d c).tree v a := by
  have hcut := Wf.cut h hp.node hc hm hbare
  have hmc : (s.cut d c).nodes c = some m := by
    rw [cut_eq hp.node, setNode_of_ne s (cut_node_ne h hp hc hm hbare), hm]
  by_cases hone : m.refcount = 1
  · have hun := (hcut.last hmc hone).1
    have hdrop : DropOf (s.cut d c).tree ((s.cut d c).setNode c none).tree (s.cut d c).top c m.entry := by
      refine ⟨tree_of hmc, hbare, hun, ?_, fun u hu => ?_⟩
      · rw [tree, setNode_self, map_none]
      · rw [tree, setNode_of_ne _ hu, tree]
    rw [dropRef_last hmc hone]
    exact hdrop.lookup_eq hcut.shape.hier
  · rw [dropRef_more hmc hone]
    have hsame : SameShape (s.cut d c)
        ((s.cut d c).setNode c (some { m with refcount := m.refcount - 1 })) := .setNode hmc rfl rfl
    rw [hsame.tree_eq]

omit h hc hm hbare in
theorem removed_node (hvc : v ≠ c) : (((s.cut d c).dropRef c).nodes v).map (fun k => (k.type, k.parent)) =
    (s.nodes v).map fun k => (k.type, k.parent) := by
  rw [dropRef_of_ne _ hvc, cut_eq hp.node]
  by_cases hvd : v = d
  · subst hvd
    rw [setNode_self, hp.node, map_some, map_some]
  · rw [setNode_of_ne s hvd]

/-- A component leads to the node that goes only through its entry. -/
theorem enter_ne (hname : m.name = name) (hv : s.Listed v) (hvc : v ≠ c)
    (hlook : ¬ (v = d ∧ a = name ∧ ¬ IsDots a)) (he : s.enter v a = .ok u) : u ≠ c := by
  rintro rfl
  rcases enter_ok he with ⟨_, rfl⟩ | ⟨_, hup⟩ | ⟨ha, hfound⟩
  · exact hvc rfl
  · rcases hv with rfl | ⟨g, e, hg, hmem⟩
    · obtain ⟨e, he, hpar⟩ := h.shape.hier.top
      obtain ⟨k, hk, rfl⟩ := tree_eq_some.mp he
      have hparent : k.parent = some s.top := hpar
      rw [up, hk, bind_some, hparent] at hup
      exact hvc hup.symm
    · obtain ⟨x, hx, hpar, _⟩ := h.shape.hier.child hg hmem
      obtain ⟨k, hk, rfl⟩ := tree_eq_some.mp hx
      have hparent : k.parent = some g := hpar
      rw [up, hk, bind_some, hparent] at hup
      -- the node that goes would have the child `v`
      obtain rfl : u = g := hup
      cases hg.symm.trans (tree_of hm)
      rw [show m.entry.children = [] from hbare] at hmem
      cases hmem
  · obtain ⟨e, x, hve, hmem, hx, hxa⟩ := h.shape.hier.lookup_eq_some.mp hfound
    cases hx.symm.trans (tree_of hm)
    have hvd := h.shape.hier.parent_unique (tree_of hp.node) hc hve hmem
    exact hlook ⟨hvd, hxa.symm.trans hname, ha⟩

theorem removed_alters (hname : m.name = name) : Alters s ((s.cut d c).dropRef c) d name c := by
  have hcut : CutFrom s.tree (s.cut d c).tree d c n.entry m.entry := cut_from hp.node hc hm hbare
  refine ⟨rfl, (h.shape.hier.ne_root (tree_of hp.node) hc).symm, fun {v a} hv hvc hlook => ?_,
    fun hv hvc hlook he => enter_ne h hp hc hm hbare hname hv hvc hlook he⟩
  refine enter_congr (removed_node hp hvc) fun ha => ?_
  rw [dropRef_lookup h hp hc hm hbare]
  apply hcut.lookup_other h.shape.hier
  rintro ⟨rfl, rfl⟩
  exact hlook ⟨rfl, hname, ha⟩

/-- **A removed entry was found** and is missing. -/
theorem removed_resolve (hname : m.name = name) (habs : path.head? = some slash)
    (hdots : ¬ IsDots name) :
    s.resolve path = .ok c ∧ ((s.cut d c).dropRef c).resolve path = .error .ENOENT := by
  have hfound : Hierarchy.lookup s.tree d name = some c :=
    h.shape.hier.lookup_eq_some.mpr ⟨_, _, tree_of hp.node, hc, tree_of hm, hname⟩
  have hbefore : s.enter d name = .ok c := enter_some hp.type_eq hp.valid.2.2 hdots hfound
  have hcut : CutFrom s.tree (s.cut d c).tree d c n.entry m.entry := cut_from hp.node hc hm hbare
  have hgone : Hierarchy.lookup ((s.cut d c).dropRef c).tree d name = none := by
    rw [dropRef_lookup h hp hc hm hbare, ← hname]
    exact hcut.lookup_cut h.shape.hier
  have hdir : (((s.cut d c).dropRef c).nodes d).map Vnode.type = some .dir := by
    rw [dropRef_of_ne _ (cut_node_ne h hp hc hm hbare).symm, cut_eq hp.node, setNode_self,
      map_some, ← hp.dir]
  have hafter : ((s.cut d c).dropRef c).enter d name = .error .ENOENT :=
    enter_none hdir hp.valid.2.2 hdots hgone
  refine ⟨(hp.resolve_eq habs).trans hbefore, ?_⟩
  obtain ⟨l, hl, hw⟩ := hp.walks habs
  have halters := removed_alters h hp hc hm hbare hname
  rw [resolve, if_neg (not_not_intro habs), halters.top, hl]
  rcases halters.walk_cases h.shape hdots s.listed_top halters.away hw with hw' | ⟨l1, l2, rfl, _, h2⟩
  · rw [walk_snoc hw', hafter]
    rfl
  · -- already on the way to the directory the entry is missing
    rw [append_assoc, cons_append, walk_snoc h2, hafter]
    rfl

end

end Fs

/-- **An absolute path is walked through directories** if and only if it has no component
after a file, or has one there that is neither `.` nor `..` nor too long. -/
theorem resolve_through_directories {s : Fs} (h : s.Wf none) {path : List UInt8}
    (habs : path.head? = some slash) : s.resolves path = some (s.meaning path) ↔
      (s.PastFile (fun _ => True) s.top (fields slash path) →
        s.PastFile Fs.Ordinary s.top (fields slash path)) := by
  rw [h.resolves_eq, Option.some.injEq, Fs.resolve, if_neg (not_not_intro habs), Fs.meaning]
  rcases Fs.descend_cases (s := s) (v := s.top) (l := fields slash path) with ⟨heq, hno⟩ | ⟨heq, hfile⟩
  · rw [heq]
    exact iff_of_true rfl fun hfile => absurd hfile hno
  · rw [heq, Fs.walk_notdir]
    exact ⟨fun hord _ => hord, fun hord => hord hfile⟩

/-- The file `/f`, and nothing else. -/
def Fs.oneFile : Fs := Fs.mounted.link 0 .reg [102]

theorem Fs.oneFile_wf : Fs.oneFile.Wf none :=
  Wf.link mounted_wf mounted_root mounted.listed_top rfl rfl ⟨by decide, by decide, by decide⟩

theorem resolve_through_directories_file :
    Fs.oneFile.resolves [slash, 102, slash, dot, slash, 120] =
      some (Fs.oneFile.meaning [slash, 102, slash, dot, slash, 120]) := by
  refine (resolve_through_directories Fs.oneFile_wf rfl).mpr fun _ => ?_
  exact .inr ⟨1, rfl, .inr ⟨1, rfl, .inl ⟨by decide, by decide, by decide⟩⟩⟩

/-- `/f/.` and `/f/..` lead to nodes. -/
theorem dots_after_file_resolve : Fs.oneFile.Wf none ∧
    Fs.oneFile.resolves [slash, 102, slash, dot] = some (.ok 1) ∧
    Fs.oneFile.resolves [slash, 102, slash, dot, dot] = some (.ok 0) ∧
    Fs.oneFile.meaning [slash, 102, slash, dot] = .error .ENOTDIR ∧
    Fs.oneFile.meaning [slash, 102, slash, dot, dot] = .error .ENOTDIR :=
  ⟨Fs.oneFile_wf, rfl, rfl, rfl, rfl⟩

end Exyde.Vfs
