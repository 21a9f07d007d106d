import Exyde.Lib.Fields
import Exyde.Vfs.Tree

/-! # What the file system operations do

Resolving a path takes and drops a reference at every component and in the end holds the
one on the node that the path leads to. `walk` says which node that is. Every operation
of `vfs.c` is then one of the changes of `Tree`, or an error and no change at all. -/

namespace Exyde.Vfs

open List Option
open Exyde.Lib (Entry Hierarchy Trap fields update_some_cases)
open Exyde.Lib.Trap (bind_of)

namespace Fs

variable {s s' : Fs} {u v d c : NodeId} {n n' : Vnode} {f : FileId} {x : File}
  {hand : Option NodeId} {name : Name} {path : List UInt8} {a : Alloc}

/-! ## Paths without references -/

def up (s : Fs) (v : NodeId) : NodeId := ((s.nodes v).bind Vnode.parent).getD v

def enter (s : Fs) (v : NodeId) (name : Name) : Except Errno NodeId :=
  if nameMax < name.length then .error .ENAMETOOLONG
  else if name = [dot] then .ok v
  else if name = [dot, dot] then .ok (s.up v)
  else if (s.nodes v).map Vnode.type ≠ some .dir then .error .ENOTDIR
  else
    match Hierarchy.lookup s.tree v name with
    | none => .error .ENOENT
    | some c => .ok c

def walk (s : Fs) (v : NodeId) (names : List Name) : Except Errno NodeId := names.foldlM s.enter v

def resolve (s : Fs) (path : List UInt8) : Except Errno NodeId :=
  if path.head? ≠ some slash then .error .EINVAL else s.walk s.top (fields slash path)

theorem walk_cons (s : Fs) (v : NodeId) (name : Name) (rest : List Name) :
    s.walk v (name :: rest) = s.enter v name >>= fun u => s.walk u rest := rfl

theorem walk_append (s : Fs) (v : NodeId) (l l' : List Name) :
    s.walk v (l ++ l') = s.walk v l >>= fun u => s.walk u l' := by
  simp only [walk, foldlM_append]

theorem Shape.listed_up (h : Shape s) (hv : s.Listed v) : s.Listed (s.up v) := by
  obtain ⟨n, hn⟩ := h.listed_live hv
  obtain ⟨d, hd, hl⟩ := h.hier.listed_parent hv (tree_of hn)
  have hpar : n.parent = some d := hd
  rw [up, hn, bind_some, hpar]
  exact hl

theorem Shape.listed_enter (h : Shape s) (hv : s.Listed v) (hu : s.enter v name = .ok u) :
    s.Listed u := by
  unfold enter at hu
  split at hu
  · cases hu
  split at hu
  · cases hu
    exact hv
  split at hu
  · cases hu
    exact h.listed_up hv
  split at hu
  · cases hu
  split at hu
  · cases hu
  next c hc =>
    cases hu
    exact h.hier.listed_lookup hc

theorem Shape.listed_walk (h : Shape s) {names : List Name} (hv : s.Listed v)
    (hu : s.walk v names = .ok u) : s.Listed u := by
  induction names generalizing v with
  | nil =>
    cases hu
    exact hv
  | cons name rest ih =>
    rw [walk_cons] at hu
    cases he : s.enter v name with
    | error e => rw [he] at hu; cases hu
    | ok w =>
      rw [he] at hu
      exact ih (h.listed_enter hv he) hu

theorem listed_top (s : Fs) : s.Listed s.top := .inl rfl

theorem Shape.listed_resolve (h : Shape s) (hu : s.resolve path = .ok u) : s.Listed u := by
  unfold resolve at hu
  split at hu
  · cases hu
  · exact h.listed_walk s.listed_top hu

/-! ## References -/

theorem node_of (h : s.nodes v = some n) : node v s = some (n, s) := Trap.read_of h

theorem file_of (h : s.files f = some x) : file f s = some (x, s) := Trap.read_of h

theorem SameShape.addRef (h : s.nodes v = some n) : SameShape s (s.addRef v) := by
  rw [addRef_of h]
  exact .setNode h rfl rfl

theorem addRef_self (h : s.nodes v = some n) :
    (s.addRef v).nodes v = some { n with refcount := n.refcount + 1 } := by
  rw [addRef_of h, setNode_self]

theorem addRef_of_ne (s : Fs) (h : u ≠ v) : (s.addRef v).nodes u = s.nodes u := by
  rw [addRef, modify, setNode_of_ne _ h]

theorem addRef_comm (s : Fs) (h : u ≠ v) : (s.addRef u).addRef v = (s.addRef v).addRef u := by
  simp only [addRef, modify]
  rw [setNode_of_ne _ h.symm, setNode_of_ne _ h, setNode_comm s h]

theorem dropRef_of_ne (s : Fs) (h : u ≠ v) : (s.dropRef v).nodes u = s.nodes u := by
  rw [dropRef, setNode_of_ne _ h]

theorem dropRef_addRef_comm (s : Fs) (h : u ≠ v) : (s.addRef v).dropRef u = (s.dropRef u).addRef v := by
  simp only [dropRef, addRef, modify]
  rw [setNode_of_ne _ h, setNode_of_ne _ h.symm, setNode_comm _ h.symm]

theorem vnodeRef_eq (hv : s.nodes v = some n) (hlt : n.refcount + 1 < 2 ^ 32) :
    vnodeRef v s = some ((), s.addRef v) := by
  rw [vnodeRef, bind_of (node_of hv), addRef_of hv, Nat.mod_eq_of_lt hlt]
  rfl

theorem vnodeUnref_eq (hv : s.nodes v = some n) (hpos : 0 < n.refcount)
    (hbare : n.refcount = 1 → n.children = []) : vnodeUnref v s = some ((), s.dropRef v) := by
  rw [vnodeUnref, unrefTo, bind_of (node_of hv), if_neg (Nat.ne_of_gt hpos)]
  by_cases hone : n.refcount = 1
  · rw [if_pos (by omega), putNode, Trap.change_bind, ramfsDestroy, bind_of (node_of (setNode_self ..)), hbare hone, dropRef_last hv hone]
    change some ((), _) = _
    dsimp only
    rw [setNode_setNode]
  · rw [if_neg (by omega), putNode, Trap.change_bind, dropRef_more hv hone]
    rfl

theorem vnodeUnref_addRef (hv : s.nodes v = some n) (hpos : 0 < n.refcount) :
    vnodeUnref v (s.addRef v) = some ((), s) := by
  rw [vnodeUnref_eq (addRef_self hv) (Nat.succ_pos _) (by dsimp only; omega), dropRef_addRef hv hpos]

/-! ## Looking up -/

theorem findIn_eq {l : List NodeId} (hl : ∀ c ∈ l, ∃ n, s.nodes c = some n) :
    findIn name l s = some (l.find? fun c => (s.tree c).any fun e => e.name = name, s) := by
  induction l with
  | nil => rfl
  | cons c l ih =>
    obtain ⟨n, hn⟩ := hl c mem_cons_self
    have hentry : n.entry.name = n.name := rfl
    rw [findIn, bind_of (node_of hn), List.find?_cons, tree_of hn, any_some, hentry]
    by_cases hname : n.name = name
    · rw [if_pos hname, decide_eq_true hname]
      rfl
    · rw [if_neg hname, decide_eq_false hname]
      exact ih fun c' hc' => hl c' (mem_cons_of_mem _ hc')

theorem Shape.child_live (h : Shape s) (hd : s.nodes d = some n) (hc : c ∈ n.children) :
    ∃ m, s.nodes c = some m := by
  obtain ⟨e, he, _⟩ := h.hier.child (tree_of hd) hc
  obtain ⟨m, hm, _⟩ := tree_eq_some.mp he
  exact ⟨m, hm⟩

theorem Shape.find_eq (h : Shape s) (hd : s.nodes d = some n) (name : Name) :
    ramfsFind d name s = some (Hierarchy.lookup s.tree d name, s) := by
  rw [ramfsFind, bind_of (node_of hd), findIn_eq fun c hc => h.child_live hd hc,
    Hierarchy.lookup, tree_of hd]
  rfl

theorem Shape.lookup_ne (h : Shape s) (hc : Hierarchy.lookup s.tree d name = some c) : c ≠ d := by
  rintro rfl
  obtain ⟨e, _, he, hmem, _⟩ := h.hier.lookup_eq_some.mp hc
  obtain ⟨_, _, _, hlt⟩ := h.hier.child he hmem
  exact Nat.lt_irrefl _ hlt

theorem Wf.lookup_eq (h : s.Wf none) (hd : s.nodes d = some n) (name : Name) :
    ramfsLookup d name (s.addRef d) =
      some (match Hierarchy.lookup s.tree d name with
        | none => (.error .ENOENT, s.addRef d)
        | some c => (.ok c, (s.addRef c).addRef d)) := by
  have hsame := SameShape.addRef hd
  rw [ramfsLookup, bind_of ((hsame.shape h.shape).find_eq (addRef_self hd) name),
    hsame.tree_eq]
  cases hc : Hierarchy.lookup s.tree d name with
  | none => rfl
  | some c =>
    obtain ⟨e, _, he, hmem, _⟩ := h.shape.hier.lookup_eq_some.mp hc
    obtain ⟨n', hn', rfl⟩ := tree_eq_some.mp he
    obtain ⟨m, hm⟩ := h.shape.child_live hn' hmem
    have hcd : c ≠ d := h.shape.lookup_ne hc
    have hlt := h.refcount_lt hm
    have hm' : (s.addRef d).nodes c = some m := (addRef_of_ne s hcd).trans hm
    dsimp only
    rw [bind_of (vnodeRef_eq hm' (by omega)), addRef_comm s hcd.symm]
    rfl

/-! ## Resolving -/

/-- What resolving leaves: a reference to the node found. -/
def holding (s : Fs) : Except Errno NodeId → Except Errno NodeId × Fs
  | .ok v => (.ok v, s.addRef v)
  | .error e => (.error e, s)

theorem Wf.resolveLoop_eq (h : s.Wf none) {fuel : Nat} (hfuel : path.length < fuel) (hv : s.Listed v) :
    resolveLoop fuel v path (s.addRef v) = some (s.holding (s.walk v (fields slash path))) := by
  induction fuel generalizing v path with
  | zero => omega
  | succ fuel ih =>
    obtain ⟨n, hn⟩ := h.shape.listed_live hv
    have hpos := h.counted.pos hn
    have hnode : (s.addRef v).nodes v = some { n with refcount := n.refcount + 1 } := addRef_self hn
    have hdrop := vnodeUnref_addRef hn hpos
    rw [resolveLoop]
    by_cases hend : path.dropWhile (· == slash) = []
    · rw [if_pos hend, Lib.fields_of_dropWhile hend]
      rfl
    rw [if_neg hend, Lib.fields_scan path hend, walk_cons]
    have hrest : ((path.dropWhile (· == slash)).dropWhile (· != slash)).length < fuel := by
      have hlen := Lib.length_scan hend
      omega
    -- from here on the first component and the rest are just names
    generalize (path.dropWhile (· == slash)).takeWhile (· != slash) = name
    rw [enter]
    by_cases hlong : nameMax < name.length
    · rw [if_pos hlong, if_pos hlong, bind_of hdrop]
      rfl
    rw [if_neg hlong, if_neg hlong]
    by_cases hdot : name = [dot]
    · rw [if_pos hdot, if_pos hdot]
      exact ih hrest hv
    rw [if_neg hdot, if_neg hdot]
    by_cases hdots : name = [dot, dot]
    · rw [if_pos hdots, if_pos hdots, bind_of (node_of hnode)]
      have hup : s.up v = n.parent.getD v := by rw [up, hn, bind_some]
      have hlup := h.shape.listed_up hv
      rw [hup] at hlup ⊢
      by_cases hself : n.parent.getD v = v
      · rw [if_neg (not_not_intro hself), hself]
        exact ih hrest hv
      rw [if_pos hself]
      obtain ⟨m, hm⟩ := h.shape.listed_live hlup
      have hm' : (s.addRef v).nodes (n.parent.getD v) = some m := (addRef_of_ne s hself).trans hm
      have hv' : (s.addRef (n.parent.getD v)).nodes v = some n :=
        (addRef_of_ne s (Ne.symm hself)).trans hn
      have hlt := h.refcount_lt hm
      rw [bind_of (vnodeRef_eq hm' (by omega)), addRef_comm s (Ne.symm hself),
        bind_of (vnodeUnref_addRef hv' hpos)]
      exact ih hrest hlup
    rw [if_neg hdots, if_neg hdots, bind_of (node_of hnode), hn, map_some]
    by_cases hdir : n.type = .dir
    · rw [if_neg (not_not_intro hdir), if_neg (by simp [hdir]), bind_of (h.lookup_eq hn name)]
      cases hc : Hierarchy.lookup s.tree v name with
      | none =>
        dsimp only
        rw [bind_of hdrop]
        rfl
      | some c =>
        have hcl : s.Listed c := h.shape.hier.listed_lookup hc
        have hv' : (s.addRef c).nodes v = some n :=
          (addRef_of_ne s (h.shape.lookup_ne hc).symm).trans hn
        dsimp only
        rw [bind_of (vnodeUnref_addRef hv' hpos)]
        exact ih hrest hcl
    · rw [if_pos hdir, if_pos (by simp [hdir]), bind_of hdrop]
      rfl

/-- **Resolving a path** takes one reference, to the node at the path. -/
theorem Wf.resolve_eq (h : s.Wf none) (path : List UInt8) :
    vfsResolve path s = some (s.holding (s.resolve path)) := by
  have hroot : (Trap.read fun s : Fs => some s.root) s = some (some s.top, s) := by
    rw [Trap.read_apply, h.shape.mounted]
    rfl
  rw [vfsResolve, bind_of hroot, resolve]
  dsimp only
  by_cases habs : path.head? = some slash
  · obtain ⟨n, hn⟩ := h.shape.listed_live s.listed_top
    have hlt := h.refcount_lt hn
    rw [if_neg (not_not_intro habs), if_neg (not_not_intro habs), resolveFrom,
      bind_of (vnodeRef_eq hn (by omega))]
    exact h.resolveLoop_eq (Nat.lt_succ_self _) s.listed_top
  · rw [if_pos habs, if_pos habs]
    rfl

/-! ## The last component -/

theorem nameStart_spec (path : List UInt8) (i : Nat) :
    nameStart path i ≤ i ∧ (∀ k, nameStart path i ≤ k → k < i → path[k]? ≠ some slash) ∧
      (nameStart path i = 0 ∨ ∃ j, nameStart path i = j + 1 ∧ path[j]? = some slash) := by
  induction i with
  | zero => exact ⟨Nat.le_refl _, fun k _ hk => absurd hk (Nat.not_lt_zero _), .inl rfl⟩
  | succ i ih =>
    rw [nameStart]
    by_cases hi : path[i]? = some slash
    · rw [if_neg (not_not_intro hi)]
      exact ⟨Nat.le_refl _, fun k h1 h2 => absurd h1 (Nat.not_le_of_lt h2), .inr ⟨i, rfl, hi⟩⟩
    · rw [if_pos hi]
      obtain ⟨hle, hno, hcase⟩ := ih
      refine ⟨Nat.le_succ_of_le hle, fun k h1 h2 => ?_, hcase⟩
      rcases Nat.lt_succ_iff_lt_or_eq.mp h2 with hlt | rfl
      · exact hno k h1 hlt
      · exact hi

/-- **Splitting a path**: the name is what follows the last slash, and the directory
is what stands before it. A path without a slash counts as one below the root. -/
theorem splitPath_ok {dir : List UInt8} (h : splitPath path = .ok (dir, name)) :
    ValidName name ∧ ((path = name ∧ dir = [slash]) ∨
      ∃ pre, path = pre ++ slash :: name ∧ dir = pre ++ [slash]) := by
  obtain ⟨hle, hno, hcase⟩ := nameStart_spec path path.length
  simp only [splitPath] at h
  split at h
  · cases h
  split at h
  · cases h
  split at h
  · cases h
  next hlong =>
  obtain ⟨rfl, rfl⟩ := Prod.mk.inj (Except.ok.inj h)
  have hlen : (path.drop (nameStart path path.length)).length =
      path.length - nameStart path path.length := length_drop
  refine ⟨⟨?_, ?_, by omega⟩, ?_⟩
  · intro hnil
    rw [hnil, length_nil] at hlen
    omega
  · intro hmem
    obtain ⟨k, hk⟩ := mem_iff_getElem?.mp hmem
    rw [List.getElem?_drop] at hk
    have hlt := (List.getElem?_eq_some_iff.mp hk).1
    exact hno _ (Nat.le_add_right _ _) hlt hk
  · rcases hcase with hzero | ⟨j, hj, hslash⟩
    · left
      rw [hzero, drop_zero, if_pos rfl]
      exact ⟨rfl, rfl⟩
    · right
      obtain ⟨hjlt, hjs⟩ := List.getElem?_eq_some_iff.mp hslash
      rw [hj, if_neg (Nat.succ_ne_zero j)]
      refine ⟨path.take j, ?_, ?_⟩
      · rw [← hjs, cons_getElem_drop_succ, take_append_drop]
      · rw [take_add_one, hslash]
        rfl

/-! ## Acting in the parent -/

/-- Where a path's last component is entered: the directory that the rest leads to. -/
structure Parent (s : Fs) (path : List UInt8) (d : NodeId) (n : Vnode) (name : Name) : Prop where
  split : ∃ dir, splitPath path = .ok (dir, name) ∧ s.resolve dir = .ok d
  node : s.nodes d = some n
  dir : n.type = .dir

namespace Parent

variable (h : s.Wf none) (hp : Parent s path d n name)

include h hp

theorem listed : s.Listed d := by
  obtain ⟨dir, _, hres⟩ := hp.split
  exact h.shape.listed_resolve hres

omit h in
theorem valid : ValidName name := by
  obtain ⟨dir, hsplit, _⟩ := hp.split
  exact (splitPath_ok hsplit).1

end Parent

variable {α : Type} {act : FM (Except Errno α)}

theorem Wf.inParent_eq (h : s.Wf none) (hp : Parent s path d n name)
    (act : NodeId → Name → FM (Except Errno α)) :
    inParent path act s = (do
      let r ← act d name
      vnodeUnref d
      pure r : FM _) (s.addRef d) := by
  obtain ⟨dir, hsplit, hres⟩ := hp.split
  have hresolve := h.resolve_eq dir
  rw [hres] at hresolve
  have hs : splitParent path s = some (.ok (d, name), s.addRef d) := by
    rw [splitParent, hsplit]
    dsimp only
    rw [bind_of hresolve]
    rfl
  rw [inParent, bind_of hs]
  dsimp only
  rw [bind_of (node_of (addRef_self hp.node)), if_neg (not_not_intro hp.dir)]

/-- The parent cannot be reached and nothing happens, or there is one. -/
theorem Wf.inParent_cases (h : s.Wf none) (path : List UInt8)
    (act : NodeId → Name → FM (Except Errno α)) :
    (∃ e, inParent path act s = some (.error e, s)) ∨ ∃ d n name, Parent s path d n name := by
  rw [inParent]
  cases hsplit : splitPath path with
  | error e =>
    have hs : splitParent path s = some (.error e, s) := by rw [splitParent, hsplit]; rfl
    rw [bind_of hs]
    exact .inl ⟨e, rfl⟩
  | ok q =>
    obtain ⟨dir, name⟩ := q
    have hs : splitParent path s = some ((s.holding (s.resolve dir)).1.map (·, name),
        (s.holding (s.resolve dir)).2) := by
      rw [splitParent, hsplit]
      dsimp only
      rw [bind_of (h.resolve_eq dir)]
      cases s.resolve dir <;> rfl
    rw [bind_of hs]
    cases hres : s.resolve dir with
    | error e => exact .inl ⟨e, rfl⟩
    | ok d =>
      obtain ⟨n, hn⟩ := h.shape.listed_live (h.shape.listed_resolve hres)
      by_cases hdir : n.type = .dir
      · exact .inr ⟨d, n, name, ⟨dir, hsplit, hres⟩, hn, hdir⟩
      · refine .inl ⟨.ENOTDIR, ?_⟩
        dsimp only [holding, Except.map]
        rw [bind_of (node_of (addRef_self hn)), if_pos hdir,
          bind_of (vnodeUnref_addRef hn (h.counted.pos hn))]
        rfl

theorem inParent_failed {e : Errno} (hd : s.nodes d = some n)
    (hpos : 0 < n.refcount) (hact : act (s.addRef d) = some (.error e, s.addRef d)) :
    (do
      let r ← act
      vnodeUnref d
      pure r : FM _) (s.addRef d) = some (.error e, s) := by
  rw [bind_of hact, bind_of (vnodeUnref_addRef hd hpos)]
  rfl

theorem inParent_done {r : α} {m : Vnode}
    (hm : s'.nodes d = some m) (hpos : 0 < m.refcount)
    (hact : act (s.addRef d) = some (.ok r, s'.addRef d)) :
    (do
      let r ← act
      vnodeUnref d
      pure r : FM _) (s.addRef d) = some (.ok r, s') := by
  rw [bind_of hact, bind_of (vnodeUnref_addRef hm hpos)]
  rfl

/-! ## New entries -/

section

variable (h : s.Wf none) (hp : Parent s path d n name)

include h hp

theorem addRef_link (type : VType) : (s.addRef d).link d type name = (s.link d type name).addRef d := by
  have hne := link_ne h hp.node
  have hlink : (s.link d type name).nodes d = _ := link_parent h hp.node
  have hnext : (s.addRef d).nextNode = s.nextNode := rfl
  rw [addRef_of hlink, link, link, modify, modify, hnext, setNode_of_ne _ hne, addRef_self hp.node,
    setNode_of_ne _ hne, hp.node, bumpNode_setNode, setNode_setNode, addRef_of hp.node,
    setNode_comm s hne, setNode_setNode]
  rfl

theorem ramfsAdd_eq (a : Alloc) (type : VType) : ramfsAdd a type d name (s.addRef d) = some (
      if Hierarchy.lookup s.tree d name ≠ none then (.error .EEXIST, s.addRef d)
      else if a.node = false then (.error .ENOMEM, s.addRef d)
      else (.ok s.nextNode, (s.link d type name).addRef d)) := by
  have hsame := SameShape.addRef hp.node
  have hnode := addRef_self hp.node
  have hfind := (hsame.shape h.shape).find_eq hnode name
  rw [hsame.tree_eq] at hfind
  rw [ramfsAdd, bind_of hfind]
  by_cases hsome : Hierarchy.lookup s.tree d name = none
  · rw [if_neg (by simp [hsome]), if_neg (not_not_intro hsome)]
    cases hnew : a.node with
    | false =>
      have hnone : ramfsNewNode a type (s.addRef d) = some (none, s.addRef d) :=
        if_neg (by simp [hnew])
      rw [bind_of hnone]
      rfl
    | true =>
      have hne := link_ne h hp.node
      have hmade : ramfsNewNode a type (s.addRef d) =
          some (some s.nextNode, ((s.addRef d).setNode s.nextNode (some (.new type))).bumpNode) :=
        if_pos hnew
      have hnamed : name.take nameMax = name := take_of_length_le hp.valid.2.2
      have hnode' : (((s.addRef d).setNode s.nextNode
          (some { Vnode.new type with name := name, parent := some d })).bumpNode).nodes d =
          some { n with refcount := n.refcount + 1 } := by
        rw [bumpNode_nodes, setNode_of_ne _ hne, hnode]
      have hnext : (s.addRef d).nextNode = s.nextNode := rfl
      rw [bind_of hmade, ← addRef_link h hp type]
      dsimp only
      rw [bind_of (node_of ((bumpNode_nodes _).symm ▸ setNode_self ..)), putNode,
        Trap.change_bind, bumpNode_setNode, setNode_setNode, hnamed, bind_of (node_of hnode'),
        putNode, Trap.change_bind, bumpNode_setNode, link, modify, hnext, setNode_of_ne _ hne, hnode]
      rfl
  · obtain ⟨c, hc⟩ := ne_none_iff_exists'.mp hsome
    rw [if_pos (by simp [hc]), if_pos hsome]
    rfl

end

/-- An action in the parent that begins with a new entry ends in `t`, if there is room for it. -/
theorem Wf.add_eq {α : Type} (h : s.Wf none) {type : VType} {act : NodeId → Name → FM (Except Errno α)}
    {r : α} {t : Fs} (hp : Parent s path d n name) (hvacant : Hierarchy.lookup s.tree d name = none)
    (hnew : a.node = true)
    (hok : ramfsAdd a type d name (s.addRef d) =
        some (.ok s.nextNode, (s.link d type name).addRef d) →
      t.nodes d = (s.link d type name).nodes d ∧
        act d name (s.addRef d) = some (.ok r, t.addRef d)) :
    inParent path act s = some (.ok r, t) := by
  have hadd := ramfsAdd_eq h hp a type
  rw [if_neg (not_not_intro hvacant), if_neg (by simp [hnew])] at hadd
  obtain ⟨hnode, hact⟩ := hok hadd
  have hpos : 0 < n.refcount := h.counted.pos hp.node
  rw [h.inParent_eq hp]
  exact inParent_done (hnode.trans (link_parent h hp.node)) hpos hact

/-- It fails and changes nothing, or there is room. -/
theorem Wf.add_cases {α : Type} (h : s.Wf none) (a : Alloc) (path : List UInt8) (type : VType)
    {act : NodeId → Name → FM (Except Errno α)}
    (herr : ∀ {d name e s'}, ramfsAdd a type d name s' = some (.error e, s') →
      act d name s' = some (.error e, s')) :
    (∃ e, inParent path act s = some (.error e, s)) ∨ ∃ d n name, Parent s path d n name ∧
      Hierarchy.lookup s.tree d name = none ∧ a.node = true := by
  rcases h.inParent_cases path act with hfail | ⟨d, n, name, hp⟩
  · exact .inl hfail
  have hpos : 0 < n.refcount := h.counted.pos hp.node
  have hadd := ramfsAdd_eq h hp a type
  rw [h.inParent_eq hp]
  by_cases hvacant : Hierarchy.lookup s.tree d name = none
  · cases hnew : a.node with
    | false =>
      rw [if_neg (not_not_intro hvacant), if_pos hnew] at hadd
      exact .inl ⟨_, inParent_failed hp.node hpos (herr hadd)⟩
    | true => exact .inr ⟨d, n, name, hp, hvacant, rfl⟩
  · rw [if_pos hvacant] at hadd
    exact .inl ⟨_, inParent_failed hp.node hpos (herr hadd)⟩

/-- **`vfs_mkdir`** fails and changes nothing, or links a new directory. -/
theorem Wf.mkdir_cases (h : s.Wf none) (a : Alloc) (path : List UInt8) :
    (∃ e, vfsMkdir a path s = some (.error e, s)) ∨
      ∃ d n name, Parent s path d n name ∧ Hierarchy.lookup s.tree d name = none ∧
        vfsMkdir a path s = some (.ok (), s.link d .dir name) := by
  refine (h.add_cases a path .dir fun hadd => ?_).imp_right ?_
  · rw [ramfsMkdir, bind_of hadd]
    rfl
  · rintro ⟨d, n, name, hp, hvacant, hnew⟩
    refine ⟨d, n, name, hp, hvacant, h.add_eq hp hvacant hnew fun hadd => ⟨rfl, ?_⟩⟩
    rw [ramfsMkdir, bind_of hadd]
    rfl

theorem Wf.linked (h : s.Wf none) (hp : Parent s path d n name)
    (hvacant : Hierarchy.lookup s.tree d name = none) (type : VType) :
    (s.link d type name).Wf none :=
  Wf.link h hp.node (hp.listed h) hvacant hp.dir hp.valid

theorem Wf.create_eq (h : s.Wf none) (hp : Parent s path d n name)
    (hvacant : Hierarchy.lookup s.tree d name = none) (hnew : a.node = true) :
    inParent path (ramfsCreate a) s =
      some (.ok s.nextNode, (s.link d .reg name).addRef s.nextNode) := by
  refine h.add_eq hp hvacant hnew fun (hadd : ramfsAdd a .reg d name _ = _) => ?_
  have hne := link_ne h hp.node
  have hmade : ((s.link d .reg name).addRef d).nodes s.nextNode = some (newIn d .reg name) :=
    (addRef_of_ne _ hne.symm).trans (link_new h hp.node)
  refine ⟨addRef_of_ne _ hne, ?_⟩
  rw [ramfsCreate, bind_of hadd]
  dsimp only
  rw [bind_of (vnodeRef_eq hmade (show 2 < 2 ^ 32 by decide)), addRef_comm _ hne]
  rfl

/-! ## Entries that go -/

def Childless (refuse : Vnode → Option Errno) : Prop :=
  ∀ n, refuse n = none → (n.children ≠ [] → n.type = .dir) → n.children = []

theorem Wf.remove_cases (h : s.Wf none) {refuse : Vnode → Option Errno} (hrefuse : Childless refuse)
    (path : List UInt8) :
    (∃ e, inParent path (ramfsRemove refuse) s = some (.error e, s)) ∨
      ∃ d n name c m, Parent s path d n name ∧ Hierarchy.lookup s.tree d name = some c ∧
        c ∈ n.children ∧ s.nodes c = some m ∧ m.name = name ∧ refuse m = none ∧ m.children = [] ∧
        inParent path (ramfsRemove refuse) s = some (.ok (), (s.cut d c).dropRef c) := by
  rcases h.inParent_cases path (ramfsRemove refuse) with herr | ⟨d, n, name, hp⟩
  · exact .inl herr
  rw [h.inParent_eq hp]
  have hpos := h.counted.pos hp.node
  have hsame := SameShape.addRef hp.node
  have hnode := addRef_self hp.node
  have hfind := (hsame.shape h.shape).find_eq hnode name
  rw [hsame.tree_eq] at hfind
  cases hlook : Hierarchy.lookup s.tree d name with
  | none =>
    rw [hlook] at hfind
    refine .inl ⟨.ENOENT, inParent_failed hp.node hpos ?_⟩
    rw [ramfsRemove, bind_of hfind]
    rfl
  | some c =>
    rw [hlook] at hfind
    obtain ⟨e, e', hd, hmem, hc, hname⟩ := h.shape.hier.lookup_eq_some.mp hlook
    cases hd.symm.trans (tree_of hp.node)
    obtain ⟨m, hm, rfl⟩ := tree_eq_some.mp hc
    have hcd : c ≠ d := h.shape.lookup_ne hlook
    have hm' : (s.addRef d).nodes c = some m := (addRef_of_ne s hcd).trans hm
    cases href : refuse m with
    | some e =>
      refine .inl ⟨e, inParent_failed hp.node hpos ?_⟩
      rw [ramfsRemove, bind_of hfind]
      dsimp only
      rw [bind_of (node_of hm'), href]
      rfl
    | none =>
      have hbare : m.children = [] := hrefuse m href (h.shape.dirs hm)
      -- the list is cut while the directory is held, then the node loses its reference
      have hcut : (s.addRef d).setNode d (some { n with
          refcount := n.refcount + 1, children := n.children.erase c }) = (s.cut d c).addRef d := by
        have hcn : (s.cut d c).nodes d = some { n with children := n.children.erase c } := by
          rw [cut_eq hp.node, setNode_self]
        rw [addRef_of hcn, cut_eq hp.node, addRef_of hp.node, setNode_setNode, setNode_setNode]
      have hmcut : ((s.cut d c).addRef d).nodes c = some m := by
        rw [addRef_of_ne _ hcd, cut_eq hp.node, setNode_of_ne s hcd, hm]
      have hdrop : ((s.cut d c).addRef d).dropRef c = ((s.cut d c).dropRef c).addRef d := by
        exact dropRef_addRef_comm _ hcd
      have hdnode : ((s.cut d c).dropRef c).nodes d =
          some { n with children := n.children.erase c } := by
        rw [dropRef_of_ne _ hcd.symm, cut_eq hp.node, setNode_self]
      refine .inr ⟨d, n, name, c, m, hp, hlook, hmem, hm, hname, href, hbare, inParent_done hdnode hpos ?_⟩
      rw [ramfsRemove, bind_of hfind]
      dsimp only
      rw [bind_of (node_of hm'), href]
      dsimp only
      rw [bind_of (node_of hnode), putNode, Trap.change_bind, hcut,
        bind_of (vnodeUnref_eq hmcut (h.counted.pos hm) fun _ => hbare), hdrop]
      rfl

theorem childless_unlink : Childless fun c => if c.type = .dir then some .EISDIR else none := by
  intro n hn hdir
  by_contra hne
  simp [hdir hne] at hn

theorem childless_rmdir : Childless fun c =>
    if c.type ≠ .dir then some .ENOTDIR else if c.children ≠ [] then some .ENOTEMPTY else none := by
  intro n hn _
  by_contra hne
  by_cases hdir : n.type = .dir <;> simp [hdir, hne] at hn

theorem Wf.removed (h : s.Wf none) {m : Vnode} (hp : Parent s path d n name) (hc : c ∈ n.children)
    (hm : s.nodes c = some m) (hbare : m.children = []) : ((s.cut d c).dropRef c).Wf none :=
  (Wf.cut h hp.node hc hm hbare).dropRef

/-! ## Nodes that come and go -/

/-- A new node has a name in `P`; the others have kept their type and name. -/
structure Evolves (P : Name → Prop) (s s' : Fs) : Prop where
  root : s'.root = s.root
  nodes : ∀ {v n'}, s'.nodes v = some n' → (s.nodes v = none ∧ P n'.name) ∨
    ∃ n, s.nodes v = some n ∧ n.type = n'.type ∧ n.name = n'.name

abbrev Thins : Fs → Fs → Prop := Evolves fun _ => False

namespace Evolves

variable {P : Name → Prop}

theorem refl (s : Fs) : Evolves P s s := ⟨rfl, fun hv => .inr ⟨_, hv, rfl, rfl⟩⟩

theorem trans {s'' : Fs} (h : Evolves P s s') (h' : Thins s' s'') : Evolves P s s'' where
  root := h'.root.trans h.root
  nodes hv := by
    rcases h'.nodes hv with ⟨_, hno⟩ | ⟨n', hn', htype', hname'⟩
    · exact hno.elim
    · rcases h.nodes hn' with ⟨hnew, hP⟩ | ⟨n, hn, htype, hname⟩
      · exact .inl ⟨hnew, hname' ▸ hP⟩
      · exact .inr ⟨n, hn, htype.trans htype', hname.trans hname'⟩

theorem of_same (h : SameShape s s') : Evolves P s s' where
  root := h.root
  nodes hv := by
    obtain ⟨n, hn, htype, hentry⟩ := h.back hv
    exact .inr ⟨n, hn, htype, congrArg Entry.name hentry⟩

theorem dropRef (s : Fs) (v : NodeId) : Evolves P s (s.dropRef v) where
  root := rfl
  nodes {u n'} hu := by
    by_cases huv : u = v
    · subst huv
      rw [Fs.dropRef, setNode_self, bind_eq_some_iff] at hu
      obtain ⟨n, hn, hn'⟩ := hu
      split at hn'
      · cases hn'
      · cases hn'
        exact .inr ⟨n, hn, rfl, rfl⟩
    · rw [dropRef_of_ne s huv] at hu
      exact .inr ⟨n', hu, rfl, rfl⟩

theorem cut (hd : s.nodes d = some n) (c : NodeId) : Evolves P s (s.cut d c) where
  root := rfl
  nodes {u n'} hu := by
    rw [cut_eq hd] at hu
    rcases update_some_cases hu with ⟨rfl, rfl⟩ | ⟨-, hu⟩
    · exact .inr ⟨n, hd, rfl, rfl⟩
    · exact .inr ⟨n', hu, rfl, rfl⟩

theorem closed (s : Fs) (f : FileId) (v : NodeId) : Evolves P s ((s.setFile f none).dropRef v) :=
  (of_same ⟨rfl, rfl, fun _ => rfl⟩ : Evolves P s (s.setFile f none)).trans (.dropRef _ v)

theorem link (h : s.Wf none) (hd : s.nodes d = some n) (hname : P name) (type : VType) :
    Evolves P s (s.link d type name) where
  root := rfl
  nodes {v n'} hv := by
    by_cases hnew : v = s.nextNode
    · subst hnew
      cases (link_new h hd).symm.trans hv
      exact .inl ⟨h.shape.fresh, hname⟩
    by_cases hvd : v = d
    · subst hvd
      cases (link_parent h hd).symm.trans hv
      exact .inr ⟨n, hd, rfl, rfl⟩
    · rw [link_other hnew hvd] at hv
      exact .inr ⟨n', hv, rfl, rfl⟩

end Evolves

/-- The operation runs, opens and closes no file, and gives new nodes names in `P`. -/
def Reshapes {α : Type} (P : Name → Prop) (p : FM α) (s : Fs) : Prop :=
  ∃ r s', p s = some (r, s') ∧ s'.Wf none ∧ s'.files = s.files ∧ Evolves P s s'

theorem Wf.path_runs (h : s.Wf none) (a : Alloc) (path : List UInt8) :
    Reshapes (fun name => ∃ d n, Parent s path d n name) (vfsMkdir a path) s ∧
    Reshapes (fun _ => False) (vfsUnlink path) s ∧ Reshapes (fun _ => False) (vfsRmdir path) s := by
  have hremove : ∀ {refuse}, Childless refuse →
      Reshapes (fun _ => False) (inParent path (ramfsRemove refuse)) s := by
    intro refuse hrefuse
    rcases h.remove_cases hrefuse path with ⟨e, heq⟩ | ⟨d, n, name, c, m, hp, _, hc, hm, _, _, hb, heq⟩
    · exact ⟨_, s, heq, h, rfl, .refl s⟩
    · exact ⟨_, _, heq, h.removed hp hc hm hb, rfl, (Evolves.cut hp.node c).trans (.dropRef _ c)⟩
  refine ⟨?_, hremove childless_unlink, hremove childless_rmdir⟩
  rcases h.mkdir_cases a path with ⟨e, heq⟩ | ⟨d, n, name, hp, hvacant, heq⟩
  · exact ⟨_, s, heq, h, rfl, .refl s⟩
  · exact ⟨_, _, heq, h.linked hp hvacant .dir, rfl, .link h hp.node ⟨d, n, hp⟩ .dir⟩

/-! ## Opening and closing -/

theorem onNode_eq {α : Type} {p : Trap Vnode α} {r : α} (hv : s.nodes v = some n)
    (hp : p n = some (r, n')) : onNode v p s = some (r, s.setNode v (some n')) := by
  rw [onNode, bind_of (node_of hv), hp]
  rfl

/-- The node that `vfs_open` finds or makes, and the file system with it. -/
inductive Reaches (s : Fs) (a : Alloc) (path : List UInt8) (flags : UInt32) : Fs → NodeId → Prop
  | found {v : NodeId} : s.resolve path = .ok v →
      flags &&& (O_CREAT ||| O_EXCL) ≠ O_CREAT ||| O_EXCL → Reaches s a path flags s v
  | made {d : NodeId} {n : Vnode} {name : Name} : s.resolve path = .error .ENOENT →
      flags &&& O_CREAT ≠ 0 → Parent s path d n name → Hierarchy.lookup s.tree d name = none →
      a.node = true → Reaches s a path flags (s.link d .reg name) s.nextNode

section

variable {flags : UInt32} {t : Fs} (h : s.Wf none) (ht : Reaches s a path flags t v)

include ht

theorem Reaches.files : t.files = s.files ∧ t.nextFile = s.nextFile := by
  cases ht with
  | found | made => exact ⟨rfl, rfl⟩

include h

theorem Reaches.wf : t.Wf none ∧ ∃ n, t.nodes v = some n := by
  cases ht with
  | found hres => exact ⟨h, h.shape.listed_live (h.shape.listed_resolve hres)⟩
  | made _ _ hp hvacant => exact ⟨h.linked hp hvacant .reg, _, link_new h hp.node⟩

theorem Reaches.evolves :
    Evolves (fun name => s.resolve path = .error .ENOENT ∧ ∃ d n, Parent s path d n name) s t := by
  cases ht with
  | found => exact .refl s
  | made hres _ hp => exact .link h hp.node ⟨hres, _, _, hp⟩ .reg

theorem Wf.openNode_eq : openNode a path flags s = some (.ok v, t.addRef v) := by
  rw [openNode, bind_of (h.resolve_eq path)]
  cases ht with
  | found hres hexcl =>
    rw [hres]
    exact congrFun (if_neg hexcl) _
  | made hres hcreat hp hvacant hnew =>
    rw [hres]
    exact (congrFun (if_pos ⟨rfl, hcreat⟩) _).trans (h.create_eq hp hvacant hnew)

end

theorem Wf.openNode_cases (h : s.Wf none) (a : Alloc) (path : List UInt8) (flags : UInt32) :
    (∃ e, openNode a path flags s = some (.error e, s)) ∨ ∃ t v, Reaches s a path flags t v := by
  rw [openNode, bind_of (h.resolve_eq path)]
  cases hres : s.resolve path with
  | error e =>
    dsimp only [holding]
    by_cases hcreat : e = .ENOENT ∧ flags &&& O_CREAT ≠ 0
    · rw [if_pos hcreat]
      refine (h.add_cases a path .reg fun hadd => ?_).imp_right ?_
      · rw [ramfsCreate, bind_of hadd]
        rfl
      · rintro ⟨d, n, name, hp, hvacant, hnew⟩
        exact ⟨_, _, .made (hcreat.1 ▸ hres) hcreat.2 hp hvacant hnew⟩
    · rw [if_neg hcreat]
      exact .inl ⟨e, rfl⟩
  | ok v =>
    obtain ⟨n, hn⟩ := h.shape.listed_live (h.shape.listed_resolve hres)
    dsimp only [holding]
    split
    · rw [bind_of (vnodeUnref_addRef hn (h.counted.pos hn))]
      exact .inl ⟨_, rfl⟩
    next hexcl => exact .inr ⟨s, v, .found hres hexcl⟩

def Empties (flags : UInt32) (n : Vnode) : Prop :=
  flags &&& O_TRUNC ≠ 0 ∧ accWrite flags = true ∧ n.type = .reg
  deriving Decidable

theorem Wf.openTruncate_eq (h : s.Wf none) (hv : s.nodes v = some n) (a : Alloc) (flags : UInt32) :
    ∃ n', n.Rewrites n' ∧ n'.bytes = (if Empties flags n then [] else n.bytes) ∧
      openTruncate a v flags (s.addRef v) = some (.ok (), (s.setNode v (some n')).addRef v) := by
  have hkeep : ¬ Empties flags n →
      ∃ n', n.Rewrites n' ∧ n'.bytes = (if Empties flags n then [] else n.bytes) ∧
        some ((.ok () : Except Errno Unit), s.addRef v) =
          some (.ok (), (s.setNode v (some n')).addRef v) :=
    fun hno => ⟨n, .refl (h.fits hv), (if_neg hno).symm, by rw [setNode_eq hv]⟩
  by_cases hflags : flags &&& O_TRUNC ≠ 0 ∧ accWrite flags = true
  · rw [openTruncate, if_pos hflags, bind_of (node_of (addRef_self hv))]
    by_cases hreg : n.type = .reg
    · have hfits : ({ n with refcount := n.refcount + 1 } : Vnode).Fits := { h.fits hv with }
      obtain ⟨m, hm, hrw, hbytes⟩ := hfits.truncate_zero hreg a
      refine ⟨{ n with data := m.data, size := m.size, capacity := m.capacity },
        ⟨{ hrw.fits with }, rfl⟩, ?_, ?_⟩
      · rw [if_pos ⟨hflags.1, hflags.2, hreg⟩]
        exact hbytes
      · rw [if_pos hreg, onNode_eq (addRef_self hv) hm, addRef_of (setNode_self ..), addRef_of hv, setNode_setNode,
          setNode_setNode, hrw.same]
    · rw [if_neg hreg]
      exact hkeep fun hcut => hreg hcut.2.2
  · rw [openTruncate, if_neg hflags]
    exact hkeep fun hcut => hflags ⟨hcut.1, hcut.2.1⟩

def RoomFor (s : Fs) (a : Alloc) : Prop :=
  a.file = true ∧ (s.liveFiles.card + 1) * fileBlock ≤ arenaSize
  deriving Decidable

/-- **`vfs_open` that reaches a node** perhaps empties it, and opens it or finds no
memory for the open file. -/
theorem Wf.open_eq {flags : UInt32} {t : Fs} (h : s.Wf none) (ht : Reaches s a path flags t v) :
    ∃ n n', t.nodes v = some n ∧ n.Rewrites n' ∧
      n'.bytes = (if Empties flags n then [] else n.bytes) ∧
      vfsOpen a path flags s = some (
        if t.RoomFor a then
          (.ok t.nextFile, ((t.setNode v (some n')).addRef v).addFile ⟨v, 0, flags, 1⟩)
        else (.error .ENOMEM, t.setNode v (some n'))) := by
  obtain ⟨hwf, n, hn⟩ := ht.wf h
  obtain ⟨n', hrw, hbytes, htrunc⟩ := hwf.openTruncate_eq hn a flags
  refine ⟨n, n', hn, hrw, hbytes, ?_⟩
  rw [vfsOpen, bind_of (h.openNode_eq ht)]
  dsimp only
  rw [bind_of htrunc]
  dsimp only
  by_cases hroom : t.RoomFor a
  · have hnew : newFile a ⟨v, 0, flags, 1⟩ ((t.setNode v (some n')).addRef v) =
        some (some t.nextFile, ((t.setNode v (some n')).addRef v).addFile ⟨v, 0, flags, 1⟩) :=
      if_pos hroom
    rw [bind_of hnew, if_pos hroom]
    rfl
  · have hnone : newFile a ⟨v, 0, flags, 1⟩ ((t.setNode v (some n')).addRef v) =
        some (none, (t.setNode v (some n')).addRef v) :=
      if_neg hroom
    have hpos : 0 < n'.refcount := by
      rw [hrw.refcount]
      exact hwf.counted.pos hn
    rw [bind_of hnone, if_neg hroom]
    dsimp only
    rw [bind_of (vnodeUnref_addRef (setNode_self ..) hpos)]
    rfl

theorem Wf.open_cases (h : s.Wf none) (a : Alloc) (path : List UInt8) (flags : UInt32) :
    (∃ e, vfsOpen a path flags s = some (.error e, s)) ∨
      ∃ t v n n', Reaches s a path flags t v ∧ t.nodes v = some n ∧ n.Rewrites n' ∧
        ((t.RoomFor a ∧ vfsOpen a path flags s =
            some (.ok t.nextFile, ((t.setNode v (some n')).addRef v).addFile ⟨v, 0, flags, 1⟩)) ∨
          vfsOpen a path flags s = some (.error .ENOMEM, t.setNode v (some n'))) := by
  rcases h.openNode_cases a path flags with ⟨e, heq⟩ | ⟨t, v, ht⟩
  · rw [vfsOpen, bind_of heq]
    exact .inl ⟨e, rfl⟩
  obtain ⟨n, n', hn, hrw, _, heq⟩ := h.open_eq ht
  refine .inr ⟨t, v, n, n', ht, hn, hrw, ?_⟩
  split at heq
  next hroom => exact .inl ⟨hroom, heq⟩
  · exact .inr heq

theorem Wf.opened_wf {flags : UInt32} {t : Fs} (h : s.Wf none) (ht : Reaches s a path flags t v)
    (hn : t.nodes v = some n) (hrw : n.Rewrites n') (hroom : t.RoomFor a) :
    (((t.setNode v (some n')).addRef v).addFile ⟨v, 0, flags, 1⟩).Wf none := by
  have hwf := (ht.wf h).1.rewrite hn hrw
  have hheld := hwf.addRef (setNode_self ..)
  exact Wf.addFile (x := ⟨v, 0, flags, 1⟩) hheld ⟨rfl, show 0 < 2 ^ 64 by decide⟩ hroom.2

/-- **`vfs_close`** frees the file and drops its reference. -/
theorem Wf.close_eq (h : s.Wf none) (hx : s.files f = some x) :
    vfsClose f s = some ((), (s.setFile f none).dropRef x.vn) := by
  have hdropped := h.dropFile hx
  obtain ⟨n, hn⟩ := h.behind hx
  have hlast : n.refcount = 1 → n.children = [] := fun hone =>
    hdropped.shape.bare hn (hdropped.last hn hone).1
  rw [vfsClose, bind_of (file_of hx), if_neg (by rw [(h.opened.ok hx).1]; omega),
    bind_of (vnodeUnref_eq hn (h.counted.pos hn) hlast)]
  rfl

theorem Wf.closed (h : s.Wf none) (hx : s.files f = some x) :
    ((s.setFile f none).dropRef x.vn).Wf none :=
  (h.dropFile hx).dropRef

/-! ## Reading, writing, seeking -/

/-- Only the bytes of the node behind a file and the offset of the file have changed. -/
inductive Touches (s : Fs) (f : FileId) : Fs → Prop
  | mk {x x' : File} {n n' : Vnode} : s.files f = some x → s.nodes x.vn = some n → n.Rewrites n' →
      x'.vn = x.vn → x'.Ok → Touches s f ((s.setNode x.vn (some n')).setFile f (some x'))

theorem Touches.wf (h : s.Wf none) (ht : Touches s f s') : s'.Wf none := by
  cases ht with
  | mk hx hn hrw hvn hok => exact (h.rewrite hn hrw).putFile hx hvn hok

theorem Touches.same (ht : Touches s f s') : SameShape s s' := by
  cases ht with
  | @mk x x' n n' hx hn hrw hvn hok =>
    have hsame : SameShape s (s.setNode x.vn (some n')) := .rewrite hn hrw
    exact ⟨hsame.root, hsame.next, hsame.nodes⟩

theorem setFile_eq (h : s.files f = some x) : s.setFile f (some x) = s := by
  rw [setFile, ← h, Function.update_eq_self]

section

variable (h : s.Wf none)

include h

section

variable (hx : s.files f = some x)

include hx

theorem Touches.refl : Touches s f s := by
  obtain ⟨n, hn⟩ := h.behind hx
  have hmk := Touches.mk hx hn (.refl (h.fits hn)) rfl (h.opened.ok hx)
  rwa [setNode_eq hn, setFile_eq hx] at hmk

theorem Touches.move {off : Nat} (hoff : off < 2 ^ 64) :
    Touches s f (s.setFile f (some { x with offset := off })) := by
  obtain ⟨n, hn⟩ := h.behind hx
  have hok : ({ x with offset := off } : File).Ok := ⟨(h.opened.ok hx).1, hoff⟩
  have hmk : Touches s f ((s.setNode x.vn (some n)).setFile f (some { x with offset := off })) :=
    .mk hx hn (.refl (h.fits hn)) rfl hok
  rwa [setNode_eq hn] at hmk

theorem Wf.read_runs (k : Nat) :
    Trap.Ends (vfsRead f k) s fun _ s' => Touches s f s' := by
  obtain ⟨n, hn⟩ := h.behind hx
  obtain ⟨r, hr⟩ := (h.fits hn).read_runs k x.offset
  have hread := onNode_eq hn hr
  rw [setNode_eq hn] at hread
  refine .bind (.read hx (.ite (fun _ => .pure (.refl h hx)) fun _ => .bind ⟨r, s, hread, ?_⟩))
  cases r with
  | error e => exact .pure (.refl h hx)
  | ok bytes =>
    exact .ite (fun _ => ⟨_, _, rfl, .move h hx (Nat.mod_lt _ (by decide))⟩) fun _ => .pure (.refl h hx)

theorem Wf.write_runs (a : Alloc) {buf : List UInt8}
    (hbuf : buf.length < 2 ^ 64) : Trap.Ends (vfsWrite a f buf) s fun _ s' => Touches s f s' := by
  obtain ⟨n, hn⟩ := h.behind hx
  refine .bind (.read hx (.ite (fun _ => .pure (.refl h hx)) fun _ => .bind (.read hn ?_)))
  have hoff : (if x.flags &&& O_APPEND ≠ 0 then n.size else x.offset) < 2 ^ 64 := by
    have h1 := (h.fits hn).size_le
    have h2 := (h.fits hn).small
    have harena : arenaSize = 4194304 := rfl
    split
    · omega
    · exact (h.opened.ok hx).2
  generalize (if x.flags &&& O_APPEND ≠ 0 then n.size else x.offset) = off at hoff
  obtain ⟨r, n', hr, hrw⟩ := (h.fits hn).write_runs a hoff hbuf
  refine .bind ⟨r, _, onNode_eq hn hr, ?_⟩
  have hsame : Touches s f (s.setNode x.vn (some n')) := by
    have hmk := Touches.mk hx hn hrw rfl (h.opened.ok hx)
    rwa [setFile_eq (s := s.setNode x.vn (some n')) hx] at hmk
  cases r with
  | error e => exact .pure hsame
  | ok k =>
    have hok : ({ x with offset := (off + k) % 2 ^ 64 } : File).Ok :=
      ⟨(h.opened.ok hx).1, Nat.mod_lt _ (by decide)⟩
    exact .ite (fun _ => ⟨_, _, rfl, .mk hx hn hrw rfl hok⟩) fun _ => .pure hsame

theorem Wf.seek_runs (off whence : Int) :
    Trap.Ends (vfsSeek f off whence) s fun _ s' => Touches s f s' := by
  obtain ⟨n, hn⟩ := h.behind hx
  have hbase : Trap.Ends (seekBase x whence) s fun _ s' => s' = s := by
    refine .ite (fun _ => .pure rfl) fun _ => .ite (fun _ => .pure rfl) fun _ => ?_
    exact .ite (fun _ => .bind (.read hn (.pure rfl))) fun _ => .pure rfl
  refine .bind (.read hx (.bind (hbase.mono fun base s' hs' => ?_)))
  subst hs'
  cases base with
  | none => exact .pure (.refl h hx)
  | some b =>
    refine .ite (fun _ => .pure (.refl h hx)) fun hneg => ⟨_, _, rfl, .move h hx ?_⟩
    have hlt : (BitVec.ofInt 64 (b + off)).toInt < 2 ^ 63 := BitVec.toInt_lt
    omega

end

theorem Wf.readdir_runs (hd : s.nodes d = some n) (index k : Nat) :
    ∃ r, ramfsReaddir d index k s = some (r, s) := by
  rw [ramfsReaddir, bind_of (node_of hd)]
  cases hc : n.children[index]? with
  | none => exact ⟨_, rfl⟩
  | some c =>
    obtain ⟨m, hm⟩ := h.shape.child_live hd (mem_of_getElem? hc)
    dsimp only
    rw [bind_of (node_of hm)]
    split
    · exact ⟨_, rfl⟩
    · exact ⟨_, rfl⟩

end

end Fs

end Exyde.Vfs
