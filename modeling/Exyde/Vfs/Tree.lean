import Mathlib.Data.Nat.Basic
import Exyde.Lib.Hierarchy
import Exyde.Lib.Tables
import Exyde.Vfs.FileBytes
import Exyde.Vfs.Fs

/-! # Well-formed file systems

What holds between two operations, or with one reference in hand: the listed nodes are a
tree of names, a node counts its place in the tree, the open files on it and the hand,
and nothing points to what is freed. Each elementary change keeps this and moves one
reference. -/

namespace Exyde.Vfs

open Function List Option Finset
open Exyde.Lib (Entry Hierarchy Listed HangIn CutFrom DropOf update_some_cases update_none_cases)

def Vnode.entry (n : Vnode) : Entry NodeId Name := ⟨n.parent, n.name, n.children⟩

/-- A name that a path can hold between two slashes. -/
def ValidName (n : Name) : Prop := n ≠ [] ∧ slash ∉ n ∧ n.length ≤ nameMax

/-- An open file is never shared, and its offset is a 64-bit word. -/
def File.Ok (x : File) : Prop := x.refcount = 1 ∧ x.offset < 2 ^ 64

namespace Fs

variable {s s' : Fs} {v d c : NodeId} {n n' : Vnode} {f : FileId} {x : File} {hand : Option NodeId}

def tree (s : Fs) (v : NodeId) : Option (Entry NodeId Name) := (s.nodes v).map Vnode.entry

def top (s : Fs) : NodeId := s.root.getD 0

def Listed (s : Fs) (v : NodeId) : Prop := Lib.Listed s.tree s.top v

open Classical in
noncomputable def links (s : Fs) (v : NodeId) : Nat := if s.Listed v then 1 else 0

def openOn (s : Fs) (v : NodeId) : Finset FileId :=
  (Finset.range s.nextFile).filter fun f => (s.files f).map File.vn = some v

theorem tree_of (h : s.nodes v = some n) : s.tree v = some n.entry := by rw [tree, h, map_some]

theorem tree_eq_some {e : Entry NodeId Name} :
    s.tree v = some e ↔ ∃ n, s.nodes v = some n ∧ n.entry = e :=
  map_eq_some_iff

theorem links_of (h : s.Listed v) : s.links v = 1 := if_pos h

theorem links_of_not (h : ¬ s.Listed v) : s.links v = 0 := if_neg h

theorem links_congr (h : s'.Listed v ↔ s.Listed v) : s'.links v = s.links v := by
  by_cases hv : s.Listed v
  · rw [links_of hv, links_of (h.mpr hv)]
  · rw [links_of_not hv, links_of_not fun hv' => hv (h.mp hv')]

theorem links_le (s : Fs) (v : NodeId) : s.links v ≤ 1 := by
  unfold links
  split <;> omega

structure Shape (s : Fs) : Prop where
  mounted : s.root = some s.top
  hier : Hierarchy s.tree s.top
  below : ∀ {v n}, s.nodes v = some n → v < s.nextNode
  dirs : ∀ {v n}, s.nodes v = some n → n.children ≠ [] → n.type = .dir
  named : ∀ {v n}, s.nodes v = some n → v = s.top ∨ ValidName n.name

structure Opened (s : Fs) : Prop where
  ok : ∀ {f x}, s.files f = some x → x.Ok
  below : ∀ {f x}, s.files f = some x → f < s.nextFile
  room : s.liveFiles.card * fileBlock ≤ arenaSize

/-- Every reference is counted: that of the tree, those of the open files and the one in hand. -/
structure Counted (s : Fs) (hand : Option NodeId) : Prop where
  count : ∀ {v n}, s.nodes v = some n →
    n.refcount = s.links v + (s.openOn v).card + if hand = some v then 1 else 0
  pos : ∀ {v n}, s.nodes v = some n → 0 < n.refcount
  open_live : ∀ {f x}, s.files f = some x → s.nodes x.vn ≠ none
  hand_live : ∀ {v}, hand = some v → s.nodes v ≠ none

structure Wf (s : Fs) (hand : Option NodeId) : Prop where
  shape : Shape s
  opened : Opened s
  counted : Counted s hand
  fits : ∀ {v n}, s.nodes v = some n → n.Fits

structure NodeOk (s : Fs) (hand : Option NodeId) (v : NodeId) (n : Vnode) : Prop where
  below : v < s.nextNode
  dirs : n.children ≠ [] → n.type = .dir
  named : v = s.top ∨ ValidName n.name
  count : n.refcount = s.links v + (s.openOn v).card + if hand = some v then 1 else 0
  pos : 0 < n.refcount
  fits : n.Fits

theorem Wf.node (h : s.Wf hand) (hv : s.nodes v = some n) : NodeOk s hand v n :=
  ⟨h.shape.below hv, h.shape.dirs hv, h.shape.named hv, h.counted.count hv, h.counted.pos hv, h.fits hv⟩

theorem Wf.of_nodes (hroot : s.root = some s.top) (hhier : Hierarchy s.tree s.top) (hopened : Opened s)
    (hopen : ∀ {f x}, s.files f = some x → s.nodes x.vn ≠ none)
    (hhand : ∀ {v}, hand = some v → s.nodes v ≠ none)
    (hnode : ∀ {v n}, s.nodes v = some n → NodeOk s hand v n) : s.Wf hand :=
  ⟨⟨hroot, hhier, fun hv => (hnode hv).below, fun hv => (hnode hv).dirs, fun hv => (hnode hv).named⟩,
    hopened, ⟨fun hv => (hnode hv).count, fun hv => (hnode hv).pos, hopen, hhand⟩,
    fun hv => (hnode hv).fits⟩

theorem Wf.behind (h : s.Wf hand) (hx : s.files f = some x) : ∃ n, s.nodes x.vn = some n :=
  ne_none_iff_exists'.mp (h.counted.open_live hx)

/-! ## Counting open files -/

theorem Opened.mem_openOn (h : Opened s) : f ∈ s.openOn v ↔ ∃ x, s.files f = some x ∧ x.vn = v := by
  rw [openOn, Finset.mem_filter, Finset.mem_range, map_eq_some_iff]
  refine ⟨fun hf => hf.2, fun hf => ⟨?_, hf⟩⟩
  obtain ⟨x, hx, _⟩ := hf
  exact h.below hx

theorem Opened.mem_liveFiles (h : Opened s) : f ∈ s.liveFiles ↔ ∃ x, s.files f = some x := by
  rw [liveFiles, Finset.mem_filter, Finset.mem_range, ne_none_iff_exists']
  refine ⟨fun hf => hf.2, fun hf => ⟨?_, hf⟩⟩
  obtain ⟨x, hx⟩ := hf
  exact h.below hx

theorem openOn_subset (s : Fs) (v : NodeId) : s.openOn v ⊆ s.liveFiles := by
  intro f hf
  rw [openOn, Finset.mem_filter, map_eq_some_iff] at hf
  obtain ⟨hlt, x, hx, _⟩ := hf
  rw [liveFiles, Finset.mem_filter]
  exact ⟨hlt, by simp [hx]⟩

/-- The arena bounds the open files, and so the counts. -/
theorem Wf.refcount_lt (h : s.Wf hand) (hv : s.nodes v = some n) : n.refcount + 2 < 2 ^ 32 := by
  have hcount := h.counted.count hv
  have hlinks := s.links_le v
  have hsub := card_le_card (s.openOn_subset v)
  have hroom := h.opened.room
  have harena : arenaSize = 4194304 := rfl
  have hblock : fileBlock = 48 := rfl
  rw [harena, hblock] at hroom
  have hhand : (if hand = some v then 1 else 0) ≤ 1 := by split <;> omega
  omega

theorem Shape.fresh (h : Shape s) : s.nodes s.nextNode = none := by
  cases hn : s.nodes s.nextNode with
  | none => rfl
  | some n => exact absurd (h.below hn) (Nat.lt_irrefl _)

theorem Opened.fresh (h : Opened s) : s.files s.nextFile = none := by
  cases hx : s.files s.nextFile with
  | none => rfl
  | some x => exact absurd (h.below hx) (Nat.lt_irrefl _)

theorem Shape.listed_live (h : Shape s) (hv : s.Listed v) : ∃ n, s.nodes v = some n := by
  obtain ⟨e, he⟩ := h.hier.live hv
  obtain ⟨n, hn, _⟩ := tree_eq_some.mp he
  exact ⟨n, hn⟩

theorem Shape.bare (h : Shape s) (hv : s.nodes v = some n) (hun : ¬ s.Listed v) : n.children = [] := by
  by_contra hne
  exact hun (h.hier.attached (tree_of hv) hne)

/-! ## Changes of one node -/

section

variable (s : Fs)

section

variable (v : NodeId)

def modify (g : Vnode → Vnode) : Fs := s.setNode v ((s.nodes v).map g)

def addRef : Fs := s.modify v fun n => { n with refcount := n.refcount + 1 }

/-- Drop a reference, and the node with its last one. -/
def dropRef : Fs :=
  s.setNode v ((s.nodes v).bind fun n =>
    if n.refcount = 1 then none else some { n with refcount := n.refcount - 1 })

@[simp] theorem setNode_self (n : Option Vnode) : (s.setNode v n).nodes v = n :=
  update_self ..

@[simp] theorem openOn_setNode (u v : NodeId) (n : Option Vnode) :
    (s.setNode v n).openOn u = s.openOn u := rfl

theorem setNode_of_ne {u v : NodeId} (h : u ≠ v) (n : Option Vnode) :
    (s.setNode v n).nodes u = s.nodes u :=
  update_of_ne h ..

@[simp] theorem bumpNode_nodes : s.bumpNode.nodes = s.nodes := rfl

theorem bumpNode_setNode (n : Option Vnode) :
    s.bumpNode.setNode v n = (s.setNode v n).bumpNode := rfl

@[simp] theorem setFile_self (f : FileId) (x : Option File) : (s.setFile f x).files f = x :=
  update_self ..

theorem setFile_of_ne {f g : FileId} (h : g ≠ f) (x : Option File) :
    (s.setFile f x).files g = s.files g :=
  update_of_ne h ..

theorem setNode_setNode (n n' : Option Vnode) :
    (s.setNode v n).setNode v n' = s.setNode v n' := by
  rw [setNode, setNode, update_idem]
  rfl

end

theorem setNode_comm {u v : NodeId} (h : u ≠ v) (n n' : Option Vnode) :
    (s.setNode u n).setNode v n' = (s.setNode v n').setNode u n := by
  rw [setNode, setNode, setNode, setNode]
  rw [update_comm h]

end

section

variable (h : s.nodes v = some n)

include h

theorem setNode_eq : s.setNode v (some n) = s := by
  rw [setNode, ← h, update_eq_self]

theorem addRef_of : s.addRef v = s.setNode v (some { n with refcount := n.refcount + 1 }) := by
  rw [addRef, modify, h, map_some]

theorem dropRef_more (hn : n.refcount ≠ 1) :
    s.dropRef v = s.setNode v (some { n with refcount := n.refcount - 1 }) := by
  rw [dropRef, h, bind_some, if_neg hn]

theorem dropRef_last (hn : n.refcount = 1) : s.dropRef v = s.setNode v none := by
  rw [dropRef, h, bind_some, if_pos hn]

theorem dropRef_addRef (hn : 0 < n.refcount) : (s.addRef v).dropRef v = s := by
  have hv : (s.addRef v).nodes v = some { n with refcount := n.refcount + 1 } := by
    rw [addRef_of h, setNode_self]
  rw [dropRef_more hv (by dsimp only; omega), addRef_of h, setNode_setNode]
  exact setNode_eq h

end

/-! ## Changes that keep the tree -/

/-- The states differ in counts, bytes and open files only. -/
structure SameShape (s s' : Fs) : Prop where
  root : s'.root = s.root
  next : s'.nextNode = s.nextNode
  nodes : ∀ v, (s'.nodes v).map (fun n => (n.type, n.entry)) =
    (s.nodes v).map fun n => (n.type, n.entry)

namespace SameShape

theorem setNode (hv : s.nodes v = some n) (htype : n'.type = n.type) (hentry : n'.entry = n.entry) :
    SameShape s (s.setNode v (some n')) where
  root := rfl
  next := rfl
  nodes u := by
    by_cases hu : u = v
    · subst hu
      rw [setNode_self, hv, map_some, map_some, htype, hentry]
    · rw [setNode_of_ne s hu]

theorem trans {s'' : Fs} (h : SameShape s s') (h' : SameShape s' s'') : SameShape s s'' :=
  ⟨h'.root.trans h.root, h'.next.trans h.next, fun v => (h'.nodes v).trans (h.nodes v)⟩

theorem rewrite (hv : s.nodes v = some n) (hrw : n.Rewrites n') : SameShape s (s.setNode v (some n')) := by
  have hentry : n'.entry = n.entry := by
    rw [hrw.same]
    rfl
  exact .setNode hv hrw.type hentry

variable (h : SameShape s s')

include h

theorem top_eq : s'.top = s.top := by rw [top, h.root, top]

theorem tree_eq : s'.tree = s.tree := by
  funext v
  have hv := congrArg (Option.map Prod.snd) (h.nodes v)
  rwa [Option.map_map, Option.map_map] at hv

theorem listed_iff : s'.Listed v ↔ s.Listed v := by rw [Listed, Listed, h.tree_eq, h.top_eq]

theorem back (hv : s'.nodes v = some n') :
    ∃ n, s.nodes v = some n ∧ n.type = n'.type ∧ n.entry = n'.entry := by
  have hmap := h.nodes v
  rw [hv, map_some] at hmap
  obtain ⟨n, hn, heq⟩ := map_eq_some_iff.mp hmap.symm
  exact ⟨n, hn, (Prod.mk.inj heq).1, (Prod.mk.inj heq).2⟩

theorem shape (hs : Shape s) : Shape s' where
  mounted := by rw [h.root, h.top_eq]; exact hs.mounted
  hier := by rw [h.tree_eq, h.top_eq]; exact hs.hier
  below hv := by
    obtain ⟨n, hn, _⟩ := h.back hv
    rw [h.next]
    exact hs.below hn
  dirs hv hne := by
    obtain ⟨n, hn, htype, hentry⟩ := h.back hv
    rw [← htype]
    apply hs.dirs hn
    intro hnil
    exact hne ((congrArg Entry.children hentry).symm.trans hnil)
  named {v n'} hv := by
    obtain ⟨n, hn, _, hentry⟩ := h.back hv
    have hname : n.name = n'.name := congrArg Entry.name hentry
    rw [h.top_eq, ← hname]
    exact hs.named hn

end SameShape

theorem Wf.recount (h : s.Wf hand) {hand' : Option NodeId} (hv : s.nodes v = some n)
    (htype : n'.type = n.type) (hentry : n'.entry = n.entry) (hfits : n'.Fits) (hpos : 0 < n'.refcount)
    (hcount : n'.refcount + (if hand = some v then 1 else 0) =
      n.refcount + if hand' = some v then 1 else 0)
    (hothers : ∀ u, u ≠ v → (hand' = some u ↔ hand = some u)) :
    (s.setNode v (some n')).Wf hand' := by
  have hsame := SameShape.setNode hv htype hentry
  have hshape := hsame.shape h.shape
  have hlive : ∀ {u}, u = v ∨ s.nodes u ≠ none → (s.setNode v (some n')).nodes u ≠ none := by
    intro u hu
    by_cases huv : u = v
    · subst huv
      simp
    · rw [setNode_of_ne s huv]
      exact hu.resolve_left huv
  refine .of_nodes hshape.mounted hshape.hier ⟨h.opened.ok, h.opened.below, h.opened.room⟩
    (fun hf => hlive (.inr (h.counted.open_live hf))) (fun {u} hu => hlive ?_) fun {u m} hu => ?_
  · by_cases huv : u = v
    · exact .inl huv
    · exact .inr (h.counted.hand_live ((hothers u huv).mp hu))
  · have hlinks : (s.setNode v (some n')).links u = s.links u := links_congr hsame.listed_iff
    rcases update_some_cases hu with ⟨rfl, rfl⟩ | ⟨huv, hm⟩
    · refine ⟨hshape.below hu, hshape.dirs hu, hshape.named hu, ?_, hpos, hfits⟩
      rw [hlinks, openOn_setNode]
      have hold := h.counted.count hv
      omega
    · refine { h.node hm with count := ?_ }
      rw [hlinks, openOn_setNode, h.counted.count hm]
      simp only [hothers u huv]

/-- **Taking a reference** puts it into the hand. -/
theorem Wf.addRef (h : s.Wf none) (hv : s.nodes v = some n) : (s.addRef v).Wf (some v) := by
  rw [addRef_of hv]
  refine h.recount hv rfl rfl { h.fits hv with } (Nat.succ_pos _) (by simp) fun u hu => ?_
  simp [Ne.symm hu]

theorem Wf.rewrite (h : s.Wf hand) (hv : s.nodes v = some n) (hrw : n.Rewrites n') :
    (s.setNode v (some n')).Wf hand := by
  have hcount : n'.refcount = n.refcount := by rw [hrw.same]
  have hentry : n'.entry = n.entry := by
    rw [hrw.same]
    rfl
  refine h.recount hv hrw.type hentry hrw.fits ?_ (by rw [hcount]) fun _ _ => Iff.rfl
  rw [hcount]
  exact h.counted.pos hv

/-! ## Dropping the reference in hand -/

/-- With its last reference a node is off the tree, and no file is open on it. -/
theorem Wf.last (h : s.Wf (some v)) (hv : s.nodes v = some n) (hone : n.refcount = 1) :
    ¬ s.Listed v ∧ s.openOn v = ∅ := by
  have hcount := h.counted.count hv
  rw [if_pos rfl] at hcount
  constructor
  · intro hl
    rw [links_of hl] at hcount
    omega
  · apply card_eq_zero.mp
    omega

theorem Wf.destroy (h : s.Wf (some v)) (hv : s.nodes v = some n) (hone : n.refcount = 1) :
    (s.setNode v none).Wf none := by
  obtain ⟨hun, hclosed⟩ := h.last hv hone
  have hdrop : DropOf s.tree (s.setNode v none).tree s.top v n.entry := by
    refine ⟨tree_of hv, h.shape.bare hv hun, hun, ?_, fun u hu => ?_⟩
    · rw [tree, setNode_self, map_none]
    · rw [tree, setNode_of_ne s hu, tree]
  refine .of_nodes h.shape.mounted (hdrop.hierarchy h.shape.hier)
    ⟨h.opened.ok, h.opened.below, h.opened.room⟩ (fun {f x} hf => ?_) nofun fun {u m} hu => ?_
  · have hne : x.vn ≠ v := by
      intro heq
      have hmem : f ∈ s.openOn v := h.opened.mem_openOn.mpr ⟨x, hf, heq⟩
      rw [hclosed] at hmem
      simp at hmem
    rw [setNode_of_ne s hne]
    exact h.counted.open_live hf
  · obtain ⟨huv, hu⟩ := update_none_cases hu
    have hcount := h.counted.count hu
    refine { h.node hu with count := ?_ }
    rw [links_congr hdrop.listed_iff, openOn_setNode]
    simpa [Ne.symm huv] using hcount

/-- **Dropping the reference in hand**, and the node with it if it was the last. -/
theorem Wf.dropRef (h : s.Wf (some v)) : (s.dropRef v).Wf none := by
  obtain ⟨n, hv⟩ := ne_none_iff_exists'.mp (h.counted.hand_live rfl)
  by_cases hone : n.refcount = 1
  · rw [dropRef_last hv hone]
    exact h.destroy hv hone
  · have hpos := h.counted.pos hv
    rw [dropRef_more hv hone]
    refine h.recount hv rfl rfl { h.fits hv with } (by dsimp only; omega)
      (by simp only [if_true, reduceCtorEq, if_false]; omega) fun u hu => ?_
    simp [Ne.symm hu]

/-! ## Entries come and go -/

def newIn (d : NodeId) (type : VType) (name : Name) : Vnode :=
  { Vnode.new type with parent := some d, name := name }

def link (s : Fs) (d : NodeId) (type : VType) (name : Name) : Fs :=
  ((s.setNode s.nextNode (some (newIn d type name))).modify d fun n =>
    { n with children := s.nextNode :: n.children }).bumpNode

def cut (s : Fs) (d c : NodeId) : Fs := s.modify d fun n => { n with children := n.children.erase c }

section

variable {type : VType} {name : Name} (h : s.Wf hand) (hd : s.nodes d = some n)

include h hd

theorem link_ne : d ≠ s.nextNode := Nat.ne_of_lt (h.shape.below hd)

theorem link_parent : (s.link d type name).nodes d = some { n with children := s.nextNode :: n.children } := by
  rw [link, bumpNode_nodes, modify]
  rw [setNode_self, setNode_of_ne s (link_ne h hd), hd, map_some]

theorem link_new : (s.link d type name).nodes s.nextNode = some (newIn d type name) := by
  rw [link, bumpNode_nodes, modify]
  rw [setNode_of_ne _ (link_ne h hd).symm, setNode_self]

omit h hd in
theorem link_other {u : NodeId} (hu : u ≠ s.nextNode) (hud : u ≠ d) :
    (s.link d type name).nodes u = s.nodes u := by
  rw [link, bumpNode_nodes, modify]
  rw [setNode_of_ne _ hud, setNode_of_ne s hu]

variable (hl : s.Listed d) (hvacant : Hierarchy.lookup s.tree d name = none)

include hl hvacant

theorem link_hang : HangIn s.tree (s.link d type name).tree s.top d s.nextNode name n.entry where
  parent := tree_of hd
  listed := hl
  absent := by rw [tree, h.shape.fresh, map_none]
  younger := h.shape.below hd
  vacant := (h.shape.hier.lookup_eq_none (tree_of hd)).mp hvacant
  hung := tree_of (link_new h hd)
  grown := tree_of (link_parent h hd)
  rest u hu hud := by rw [tree, link_other hu hud, tree]

/-- **A new entry**: the new node has the reference of the list. -/
theorem Wf.link (hdir : n.type = .dir) (hname : ValidName name) : (s.link d type name).Wf hand := by
  have hhang : HangIn s.tree (s.link d type name).tree s.top d s.nextNode name n.entry :=
    link_hang h hd hl hvacant
  have hlive : ∀ {u}, s.nodes u ≠ none → u ≠ s.nextNode ∧ (s.link d type name).nodes u ≠ none := by
    intro u hu
    obtain ⟨m, hm⟩ := ne_none_iff_exists'.mp hu
    have hun : u ≠ s.nextNode := Nat.ne_of_lt (h.shape.below hm)
    refine ⟨hun, ?_⟩
    by_cases hud : u = d
    · subst hud
      simp [link_parent h hd]
    · rwa [link_other hun hud]
  have hopen : ∀ u, (s.link d type name).openOn u = s.openOn u := fun _ => rfl
  refine .of_nodes h.shape.mounted (hhang.hierarchy h.shape.hier)
    ⟨h.opened.ok, h.opened.below, h.opened.room⟩ (fun hf => (hlive (h.counted.open_live hf)).2)
    (fun hu => (hlive (h.counted.hand_live hu)).2) fun {u m} hu => ?_
  by_cases hun : u = s.nextNode
  · subst hun
    cases (link_new h hd).symm.trans hu
    have hlist : (s.link d type name).Listed s.nextNode := hhang.listed_new
    have hnone : s.openOn s.nextNode = ∅ := by
      apply eq_empty_of_forall_notMem
      intro f hf
      obtain ⟨x, hx, hxv⟩ := h.opened.mem_openOn.mp hf
      exact (hlive (h.counted.open_live hx)).1 hxv
    have hhand : hand ≠ some s.nextNode := fun heq => (hlive (h.counted.hand_live heq)).1 rfl
    refine ⟨Nat.lt_succ_self _, fun hne => absurd rfl hne, .inr hname, ?_, Nat.one_pos,
      { Vnode.Fits.new type with }⟩
    rw [hopen, links_of hlist, hnone, if_neg hhand]
    rfl
  · -- an old node, the directory among them, keeps its references
    have hlinks : (s.link d type name).links u = s.links u := by
      refine links_congr ⟨fun hu' => ?_, fun hu' => hhang.listed_of hu'⟩
      exact (hhang.listed_cases hu').resolve_left hun
    by_cases hud : u = d
    · subst hud
      cases (link_parent h hd).symm.trans hu
      have hn := h.node hd
      refine ⟨Nat.lt_succ_of_lt hn.below, fun _ => hdir, hn.named, ?_, hn.pos, { hn.fits with }⟩
      rw [hopen, hlinks]
      exact hn.count
    · rw [link_other hun hud] at hu
      have hm := h.node hu
      refine { hm with below := Nat.lt_succ_of_lt hm.below, count := ?_ }
      rw [hopen, hlinks]
      exact hm.count

end

section

variable {m : Vnode} (h : s.Wf none) (hd : s.nodes d = some n) (hc : c ∈ n.children)
  (hm : s.nodes c = some m) (hbare : m.children = [])

include h hd hc hm hbare

omit hc hm hbare h in
theorem cut_eq : s.cut d c = s.setNode d (some { n with children := n.children.erase c }) := by
  rw [cut, modify, hd, map_some]

omit h in
theorem cut_from : CutFrom s.tree (s.cut d c).tree d c n.entry m.entry where
  parent := tree_of hd
  member := hc
  node := tree_of hm
  bare := hbare
  cut := by
    rw [cut_eq hd]
    exact tree_of (setNode_self ..)
  rest u hu := by rw [tree, cut_eq hd, setNode_of_ne s hu, tree]

/-- **An entry goes**: the reference of the list is in hand. -/
theorem Wf.cut : (s.cut d c).Wf (some c) := by
  have hcut : CutFrom s.tree (s.cut d c).tree d c n.entry m.entry := cut_from hd hc hm hbare
  have hlive : ∀ {u}, s.nodes u ≠ none → (s.cut d c).nodes u ≠ none := by
    intro u hu
    rw [cut_eq hd]
    by_cases hud : u = d
    · subst hud
      simp
    · rwa [setNode_of_ne s hud]
  have hlisted : ∀ u, (s.cut d c).Listed u ↔ s.Listed u ∧ u ≠ c := fun u =>
    hcut.listed_iff h.shape.hier
  have hcount : ∀ {u k}, s.nodes u = some k → k.refcount = (s.cut d c).links u +
      ((s.cut d c).openOn u).card + if some c = some u then 1 else 0 := by
    intro u k hu
    have hopen : (s.cut d c).openOn u = s.openOn u := rfl
    rw [hopen, h.counted.count hu]
    by_cases huc : u = c
    · subst huc
      have hl : s.Listed u := .inr ⟨d, n.entry, tree_of hd, hc⟩
      have hun : ¬ (s.cut d u).Listed u := fun hu' => ((hlisted u).mp hu').2 rfl
      rw [links_of hl, links_of_not hun, if_pos rfl, if_neg (by simp)]
      omega
    · have hlinks : (s.cut d c).links u = s.links u :=
        links_congr ⟨fun hu' => ((hlisted u).mp hu').1, fun hu' => (hlisted u).mpr ⟨hu', huc⟩⟩
      rw [hlinks]
      simp [Ne.symm huc]
  refine .of_nodes h.shape.mounted (hcut.hierarchy h.shape.hier)
    ⟨h.opened.ok, h.opened.below, h.opened.room⟩ (fun hf => hlive (h.counted.open_live hf))
    (fun hu => hlive ?_) fun {u k} hu => ?_
  · rw [← Option.some.inj hu, hm]
    simp
  · rw [cut_eq hd] at hu
    rcases update_some_cases hu with ⟨rfl, rfl⟩ | ⟨-, hk⟩
    · have hn := h.node hd
      have hkept := hcount hd
      exact ⟨hn.below, fun _ => hn.dirs (ne_nil_of_mem hc), hn.named, hkept, hn.pos,
        { hn.fits with }⟩
    · exact { h.node hk with count := hcount hk }

end

/-! ## Open files come and go -/

def addFile (s : Fs) (x : File) : Fs := { s.setFile s.nextFile (some x) with nextFile := s.nextFile + 1 }

theorem Opened.card_openOn (h : Opened s) (f : FileId) (v : NodeId) : (s.openOn v).card =
      ((s.openOn v).erase f).card + if (s.files f).map File.vn = some v then 1 else 0 := by
  split
  next hf =>
    exact (card_erase_add_one (h.mem_openOn.mpr (map_eq_some_iff.mp hf))).symm
  next hf =>
    rw [erase_eq_of_notMem fun hm => hf (map_eq_some_iff.mpr (h.mem_openOn.mp hm)),
      Nat.add_zero]

/-- **A reference moves** between the file `f` and the hand. -/
theorem Wf.refile (h : s.Wf hand) {hand' : Option NodeId} {o : Option File} {k : FileId}
    (hopened : Opened { s.setFile f o with nextFile := k })
    (hlive : ∀ v, o.map File.vn = some v ∨ hand' = some v → s.nodes v ≠ none)
    (hmoves : ∀ v, (if o.map File.vn = some v then 1 else 0) + (if hand' = some v then 1 else 0) =
      (if (s.files f).map File.vn = some v then 1 else 0) + if hand = some v then 1 else 0) :
    ({ s.setFile f o with nextFile := k } : Fs).Wf hand' := by
  have hsame : SameShape s { s.setFile f o with nextFile := k } := ⟨rfl, rfl, fun _ => rfl⟩
  have hshape := hsame.shape h.shape
  have hself : (s.setFile f o).files f = o := setFile_self ..
  refine .of_nodes hshape.mounted hshape.hier hopened (fun {g x} hg => ?_)
    (fun hv => hlive _ (.inr hv)) fun {v n} hv => ?_
  · by_cases hgf : g = f
    · subst hgf
      exact hlive x.vn (.inl (by rw [← hself, hg, map_some]))
    · exact h.counted.open_live ((setFile_of_ne s hgf o).symm.trans hg)
  · have hrest : (openOn { s.setFile f o with nextFile := k } v).erase f = (s.openOn v).erase f := by
      ext g
      rw [mem_erase, mem_erase, h.opened.mem_openOn, hopened.mem_openOn]
      exact and_congr_right fun hg => by rw [show (s.setFile f o).files g = _ from setFile_of_ne s hg o]
    have hnew := hopened.card_openOn f v
    have hold := h.opened.card_openOn f v
    have hcount := h.counted.count hv
    have hmove := hmoves v
    rw [hrest, show ((s.setFile f o).files f).map File.vn = o.map File.vn by rw [hself]] at hnew
    refine { h.node hv with count := ?_ }
    rw [links_congr hsame.listed_iff]
    omega

/-- **A file is opened**: it takes over the reference in hand. -/
theorem Wf.addFile (h : s.Wf (some x.vn)) (hok : x.Ok)
    (hroom : (s.liveFiles.card + 1) * fileBlock ≤ arenaSize) : (s.addFile x).Wf none := by
  have hopened : Opened (s.addFile x) := by
    refine ⟨fun hf => ?_, fun hf => ?_, Nat.le_trans (Nat.mul_le_mul_right _ ?_) hroom⟩
    · rcases update_some_cases hf with ⟨_, rfl⟩ | ⟨_, hf⟩
      · exact hok
      · exact h.opened.ok hf
    · rcases update_some_cases hf with ⟨rfl, _⟩ | ⟨_, hf⟩
      · exact Nat.lt_succ_self _
      · exact Nat.lt_succ_of_lt (h.opened.below hf)
    · have hsub : (s.addFile x).liveFiles ⊆ insert s.nextFile s.liveFiles := by
        intro f hf
        rw [liveFiles, Finset.mem_filter, ne_none_iff_exists'] at hf
        obtain ⟨_, y, hy⟩ := hf
        rcases update_some_cases hy with ⟨rfl, _⟩ | ⟨_, hy⟩
        · exact Finset.mem_insert_self ..
        · exact Finset.mem_insert_of_mem (h.opened.mem_liveFiles.mpr ⟨y, hy⟩)
      exact Nat.le_trans (card_le_card hsub) (card_insert_le ..)
  refine h.refile hopened (fun v hv => ?_) fun v => ?_
  · rcases hv with hv | hv
    · exact h.counted.hand_live hv
    · cases hv
  · simp [h.opened.fresh]

theorem Opened.setFile (h : Opened s) (hx : s.files f = some x) {o : Option File}
    (hok : ∀ y, o = some y → y.Ok) : Opened (s.setFile f o) := by
  have hback : ∀ {g y}, (s.setFile f o).files g = some y → y.Ok ∧ ∃ z, s.files g = some z := by
    intro g y hg
    by_cases hgf : g = f
    · subst hgf
      exact ⟨hok y ((setFile_self s g o).symm.trans hg), x, hx⟩
    · rw [setFile_of_ne s hgf] at hg
      exact ⟨h.ok hg, y, hg⟩
  refine ⟨fun hg => (hback hg).1, fun hg => ?_, ?_⟩
  · obtain ⟨_, z, hz⟩ := hback hg
    exact h.below hz
  · have hsub : (s.setFile f o).liveFiles ⊆ s.liveFiles := by
      intro g hg
      rw [liveFiles, Finset.mem_filter, ne_none_iff_exists'] at hg
      obtain ⟨_, y, hy⟩ := hg
      exact h.mem_liveFiles.mpr (hback hy).2
    exact Nat.le_trans (Nat.mul_le_mul_right _ (card_le_card hsub)) h.room

/-- **A file is freed**: its reference is in hand. -/
theorem Wf.dropFile (h : s.Wf none) (hx : s.files f = some x) : (s.setFile f none).Wf (some x.vn) := by
  refine h.refile (h.opened.setFile hx nofun) (fun v hv => ?_) fun v => ?_
  · cases hv.resolve_left nofun
    exact h.counted.open_live hx
  · simp [hx]

theorem Wf.putFile (h : s.Wf hand) (hx : s.files f = some x) {y : File} (hvn : y.vn = x.vn)
    (hok : y.Ok) : (s.setFile f (some y)).Wf hand := by
  refine h.refile (h.opened.setFile hx fun z hz => Option.some.inj hz ▸ hok) (fun v hv => ?_) fun v => ?_
  · rcases hv with hv | hv
    · rw [← Option.some.inj hv, hvn]
      exact h.counted.open_live hx
    · exact h.counted.hand_live hv
  · simp [hx, hvn]

/-! ## The file system at the start -/

def rootNode : Vnode := { Vnode.new .dir with parent := some 0 }

def mounted : Fs := { empty.setNode 0 (some rootNode) with root := some 0, nextNode := 1 }

theorem mounted_root : mounted.nodes 0 = some rootNode := setNode_self empty 0 (some rootNode)

theorem mounted_node (h : mounted.nodes v = some n) : v = 0 ∧ n = rootNode := by
  by_cases hv : v = 0
  · subst hv
    exact ⟨rfl, Option.some.inj (h.symm.trans mounted_root)⟩
  · have hnone : mounted.nodes v = none := setNode_of_ne empty hv (some rootNode)
    rw [hnone] at h
    cases h

theorem mounted_wf : mounted.Wf none := by
  have hempty : ∀ {d e}, mounted.tree d = some e → e.children = [] := by
    intro d e hd
    obtain ⟨n, hn, rfl⟩ := tree_eq_some.mp hd
    rw [(mounted_node hn).2]
    rfl
  have hbare : ∀ {d e c}, mounted.tree d = some e → c ∉ e.children := by
    intro d e c hd
    rw [hempty hd]
    exact not_mem_nil
  have hfile : ∀ {f x}, mounted.files f ≠ some x := by
    intro f x hf
    cases hf
  have hshape : Shape mounted := by
    refine ⟨rfl, ⟨⟨_, tree_of mounted_root, rfl⟩, fun hd hc => absurd hc (hbare hd), fun hd => ?_,
      fun hd hc => absurd hc (hbare hd), fun hd hne => absurd (hempty hd) hne⟩, fun hv => ?_,
      fun hv _ => ?_, fun hv => .inl (mounted_node hv).1⟩
    · rw [hempty hd]
      exact nodup_nil
    · rw [(mounted_node hv).1]
      exact Nat.one_pos
    · rw [(mounted_node hv).2]
      rfl
  have hcounted : Counted mounted none := by
    refine ⟨fun hv => ?_, fun hv => ?_, fun hf => absurd hf hfile, fun hv => absurd hv (by simp)⟩
    · obtain ⟨rfl, rfl⟩ := mounted_node hv
      have hroot : mounted.links 0 = 1 := links_of (.inl rfl)
      rw [hroot]
      rfl
    · rw [(mounted_node hv).2]
      exact Nat.one_pos
  refine ⟨hshape, ⟨fun hf => absurd hf hfile, fun hf => absurd hf hfile, Nat.zero_le _⟩, hcounted,
    fun hv => ?_⟩
  rw [(mounted_node hv).2]
  exact { Vnode.Fits.new .dir with }

end Fs

end Exyde.Vfs
