import Exyde.Vfs.Lifetime
import Exyde.Vfs.Paths

/-! # The name space

What `vfs_mkdir`, `vfs_unlink`, `vfs_rmdir` and a creating `vfs_open` say about paths
when they succeed. A directory can be made and removed under the names `.` and `..`, and
under a path without a leading slash; `vfs_resolve` reads all of these differently. -/

namespace Exyde.Vfs

open List Option
open Exyde.Lib (Entry Forest Hierarchy Reach System Trap fields)

namespace Fs

variable {s s' : Fs} {u v d c : NodeId} {n m : Vnode} {name a : Name} {path : List UInt8}
  {type : VType} {al : Alloc} {P : Vnode → Prop}

/-- The path is missing before, and leads to a new and empty node of the type after. -/
def Makes (s : Fs) (path : List UInt8) (type : VType) (s' : Fs) : Prop :=
  s.resolves path = some (.error .ENOENT) ∧
    ∃ v n, s'.resolves path = some (.ok v) ∧ s.nodes v = none ∧ s'.nodes v = some n ∧
      n.type = type ∧ n.children = []

/-- The path leads to such a node before, and is missing after. -/
def Removes (s : Fs) (path : List UInt8) (P : Vnode → Prop) (s' : Fs) : Prop :=
  (∃ v n, s.resolves path = some (.ok v) ∧ s.nodes v = some n ∧ P n) ∧
    s'.resolves path = some (.error .ENOENT)

/-- Every path that does not pass the entry in which `path` ends resolves as before. -/
def OthersSame (s : Fs) (path : List UInt8) (s' : Fs) : Prop :=
  ∃ dir d, splitPath path = .ok (dir, lastName path) ∧ s.resolves dir = some (.ok d) ∧
    ∀ q, ¬ s.Passes q d (lastName path) → s'.resolves q = s.resolves q

theorem Alters.others (h : Alters s s' d name c) (hs : s.Wf none) (hs' : s'.Wf none)
    (hp : Parent s path d n name) : s.OthersSame path s' := by
  obtain ⟨dir, hsplit, hres⟩ := hp.split
  rw [← hp.lastName_eq] at hsplit h
  refine ⟨dir, d, hsplit, by rw [hs.resolves_eq, hres], fun q hq => ?_⟩
  rw [hs'.resolves_eq, hs.resolves_eq, h.resolve_eq hs.shape hq]

/-! ## Making -/

/-- Where a path is missing although its directory is there, it is a proper one. -/
theorem Parent.proper (hp : Parent s path d n name) (hres : s.resolve path = .error .ENOENT) :
    Proper path := by
  have habs : path.head? = some slash := by
    by_contra hrel
    rw [resolve_relative hrel] at hres
    cases hres
  refine ⟨habs, ?_⟩
  rw [hp.lastName_eq]
  intro hdots
  obtain ⟨u, hu, _⟩ := enter_dots (s := s) (v := d) hdots
  rw [hp.resolve_eq habs, hu] at hres
  cases hres

/-- **`vfs_mkdir`** makes the path lead to a new directory if and only if it is proper. -/
theorem Wf.mkdir_makes (h : s.Wf none) (hok : vfsMkdir al path s = some (.ok (), s')) :
    (s.Makes path .dir s' ↔ Proper path) ∧ s.OthersSame path s' := by
  rcases h.mkdir_cases al path with ⟨e, heq⟩ | ⟨d, n, name, hp, hvacant, heq⟩
  · rw [heq] at hok
    cases hok
  obtain rfl : s.link d .dir name = s' := by
    rw [heq] at hok
    exact (Prod.mk.inj (Option.some.inj hok)).2
  have hwf := h.linked hp hvacant .dir
  refine ⟨⟨fun hmakes => ?_, fun hproper => ?_⟩, (link_alters h hp hvacant .dir).others h hwf hp⟩
  · rw [Makes, h.resolves_eq] at hmakes
    exact hp.proper (Option.some.inj hmakes.1)
  · have hname := hproper.2
    rw [hp.lastName_eq] at hname
    obtain ⟨hbefore, hafter⟩ := link_resolve h hp hvacant hproper.1 hname .dir
    exact ⟨by rw [h.resolves_eq, hbefore], s.nextNode, newIn d .dir name,
      by rw [hwf.resolves_eq, hafter], h.shape.fresh, link_new h hp.node, rfl, rfl⟩

/-- **A `vfs_open` that creates** always makes the path lead to the new file. -/
theorem Wf.open_makes (h : s.Wf none) {flags : UInt32} {r : Except Errno FileId}
    (hrun : vfsOpen al path flags s = some (r, s')) (hnew : s'.nextNode ≠ s.nextNode) :
    s.Makes path .reg s' ∧ s.OthersSame path s' ∧
      ∀ f, r = .ok f → ∃ x, s'.files f = some x ∧ s'.resolves path = some (.ok x.vn) := by
  rcases h.open_cases al path flags with ⟨e, heq⟩ | ⟨t, v, n, n', hreach, hn, hrw, hend⟩
  · rw [heq] at hrun
    obtain ⟨_, rfl⟩ := Prod.mk.inj (Option.some.inj hrun)
    exact absurd rfl hnew
  -- whatever comes of it, the paths are those of the state with the new entry
  have hend' : SameShape t s' ∧ s'.Wf none ∧
      ∀ f, r = .ok f → ∃ x, s'.files f = some x ∧ x.vn = v := by
    have hsame := SameShape.rewrite hn hrw
    rcases hend with ⟨hroom, heq⟩ | heq
    · rw [heq] at hrun
      cases hrun
      refine ⟨(hsame.trans (.addRef (setNode_self ..))).trans ⟨rfl, rfl, fun _ => rfl⟩,
        h.opened_wf hreach hn hrw hroom, fun f hf => ⟨⟨v, 0, flags, 1⟩, ?_, rfl⟩⟩
      cases hf
      exact setFile_self t t.nextFile (some ⟨v, 0, flags, 1⟩)
    · rw [heq] at hrun
      cases hrun
      exact ⟨hsame, (hreach.wf h).1.rewrite hn hrw, fun f hf => nomatch hf⟩
  obtain ⟨hsame, hwf', hfile⟩ := hend'
  cases hreach with
  | found => exact absurd hsame.next hnew
  | @made d k name hmissing _ hp hvacant =>
    have hproper := hp.proper hmissing
    have hname := hproper.2
    rw [hp.lastName_eq] at hname
    have hwf := h.linked hp hvacant .reg
    obtain ⟨_, hafter⟩ := link_resolve h hp hvacant hproper.1 hname .reg
    have hres : s'.resolves path = some (.ok s.nextNode) := by
      rw [hwf'.resolves_eq, hsame.resolve_eq, hafter]
    obtain ⟨n1, hn1, htype, hentry⟩ : ∃ n1, s'.nodes s.nextNode = some n1 ∧ n1.type = .reg ∧
        n1.entry.children = [] := by
      have hmap := hsame.nodes s.nextNode
      rw [link_new h hp.node, map_some] at hmap
      obtain ⟨n1, hn1, heq⟩ := map_eq_some_iff.mp hmap
      obtain ⟨htype, hentry⟩ := Prod.mk.inj heq
      exact ⟨n1, hn1, htype, congrArg Entry.children hentry⟩
    refine ⟨⟨by rw [h.resolves_eq, hmissing], s.nextNode, n1, hres, h.shape.fresh, hn1, htype, hentry⟩,
      ?_, fun f hf => ?_⟩
    · obtain ⟨dir, d', hsplit, hdir, hothers⟩ := (link_alters h hp hvacant .reg).others h hwf hp
      refine ⟨dir, d', hsplit, hdir, fun q hq => ?_⟩
      rw [← hothers q hq, hwf'.resolves_eq, hwf.resolves_eq, hsame.resolve_eq]
    · obtain ⟨x, hx, hvn⟩ := hfile f hf
      exact ⟨x, hx, by rw [hvn, hres]⟩

/-! ## Removing -/

/-- The parent of a directory with an entry is a directory with an entry. -/
theorem Shape.up_busy (h : Shape s) (hl : s.Listed d) (hd : s.nodes d = some n) (hne : n.children ≠ []) :
    ∃ k, s.nodes (s.up d) = some k ∧ k.type = .dir ∧ k.children ≠ [] := by
  rcases hl with rfl | ⟨g, e, hg, hmem⟩
  · obtain ⟨e, he, hpar⟩ := h.hier.top
    cases he.symm.trans (tree_of hd)
    have hparent : n.parent = some s.top := hpar
    rw [up, hd, bind_some, hparent]
    exact ⟨n, hd, h.dirs hd hne, hne⟩
  · obtain ⟨x, hx, hpar, _⟩ := h.hier.child hg hmem
    cases hx.symm.trans (tree_of hd)
    have hparent : n.parent = some g := hpar
    obtain ⟨k, hk, rfl⟩ := tree_eq_some.mp hg
    have hkne : k.children ≠ [] := ne_nil_of_mem hmem
    rw [up, hd, bind_some, hparent]
    exact ⟨k, hk, h.dirs hk hkne, hkne⟩

/-- **Removing an entry** makes the path go missing if and only if it is proper. -/
theorem Wf.remove_removes (h : s.Wf none) {refuse : Vnode → Option Errno} (hrefuse : Childless refuse)
    (hP : ∀ k, refuse k = none → k.children = [] → P k)
    (hbusy : ∀ k, k.type = .dir → k.children ≠ [] → ¬ P k)
    (hok : inParent path (ramfsRemove refuse) s = some (.ok (), s')) :
    (s.Removes path P s' ↔ Proper path) ∧ s.OthersSame path s' := by
  rcases h.remove_cases hrefuse path with
    ⟨e, heq⟩ | ⟨d, n, name, c, m, hp, _, hc, hm, hname, href, hbare, heq⟩
  · rw [heq] at hok
    cases hok
  obtain rfl : (s.cut d c).dropRef c = s' := by
    rw [heq] at hok
    exact (Prod.mk.inj (Option.some.inj hok)).2
  have hwf := h.removed hp hc hm hbare
  refine ⟨⟨fun hremoves => ?_, fun hproper => ?_⟩,
    (removed_alters h hp hc hm hbare hname).others h hwf hp⟩
  · obtain ⟨⟨v, k, hv, hk, hPk⟩, _⟩ := hremoves
    rw [h.resolves_eq, some_inj] at hv
    have habs : path.head? = some slash := by
      by_contra hrel
      rw [resolve_relative hrel] at hv
      cases hv
    refine ⟨habs, fun hdots => ?_⟩
    -- the path leads to the directory or to its parent, and neither is empty
    rw [hp.lastName_eq] at hdots
    obtain ⟨u, hu, hcase⟩ := enter_dots (s := s) (v := d) hdots
    rw [hp.resolve_eq habs, hu] at hv
    cases hv
    have hne : n.children ≠ [] := ne_nil_of_mem hc
    rcases hcase with rfl | rfl
    · cases hk.symm.trans hp.node
      exact hbusy _ hp.dir hne hPk
    · obtain ⟨k', hk', hdir, hkne⟩ := h.shape.up_busy (hp.listed h) hp.node hne
      cases hk.symm.trans hk'
      exact hbusy _ hdir hkne hPk
  · have hdots := hproper.2
    rw [hp.lastName_eq] at hdots
    obtain ⟨hbefore, hafter⟩ := removed_resolve h hp hc hm hbare hname hproper.1 hdots
    exact ⟨⟨c, m, by rw [h.resolves_eq, hbefore], hm, hP m href hbare⟩, by rw [hwf.resolves_eq, hafter]⟩

theorem Wf.unlink_removes (h : s.Wf none) (hok : vfsUnlink path s = some (.ok (), s')) :
    (s.Removes path (fun n => n.type = .reg) s' ↔ Proper path) ∧ s.OthersSame path s' := by
  refine h.remove_removes childless_unlink (fun k hk _ => ?_) (fun k hdir _ hreg => ?_) hok
  · cases htype : k.type with
    | reg => rfl
    | dir => simp [htype] at hk
  · rw [hdir] at hreg
    cases hreg

theorem Wf.rmdir_removes (h : s.Wf none) (hok : vfsRmdir path s = some (.ok (), s')) :
    (s.Removes path (fun n => n.type = .dir ∧ n.children = []) s' ↔ Proper path) ∧
      s.OthersSame path s' := by
  refine h.remove_removes childless_rmdir (fun k hk hbare => ⟨?_, hbare⟩) (fun k _ hne hk => hne hk.2) hok
  by_contra htype
  simp [htype] at hk

/-! ## Which nodes a path leads to -/

theorem Shape.found (h : Shape s) (hv : Hierarchy.lookup s.tree d a = some v) :
    v ≠ s.top ∧ (s.nodes d).map Vnode.type = some .dir ∧
      ∃ n, s.nodes v = some n ∧ n.name = a ∧ n.parent = some d := by
  obtain ⟨e, x, hd, hmem, hx, hname⟩ := h.hier.lookup_eq_some.mp hv
  obtain ⟨y, hy, hpar, _⟩ := h.hier.child hd hmem
  cases hx.symm.trans hy
  obtain ⟨k, hk, rfl⟩ := tree_eq_some.mp hd
  obtain ⟨n, hn, rfl⟩ := tree_eq_some.mp hx
  refine ⟨h.hier.ne_root hd hmem, ?_, n, hn, hname, hpar⟩
  rw [hk, map_some, h.dirs hk (ne_nil_of_mem hmem)]

/-- The names on the way from the node up to the root. -/
def At (s : Fs) (p : List Name) (v : NodeId) : Prop :=
  (Hierarchy.forest s.tree s.top).node () p = some v

theorem at_cons {p : List Name} : s.At (a :: p) v ↔ ∃ d, s.At p d ∧ Hierarchy.lookup s.tree d a = some v :=
  Forest.node_cons_eq_some

theorem Shape.walk_down (h : Shape s) {p : List Name} (hv : s.At p v) (hp : ∀ a ∈ p, ¬ IsDots a) :
    s.walk s.top p.reverse = .ok v ∧ ∀ a ∈ p, ValidName a := by
  induction p generalizing v with
  | nil =>
    obtain rfl : s.top = v := Option.some.inj hv
    exact ⟨rfl, fun a ha => absurd ha not_mem_nil⟩
  | cons a p ih =>
    obtain ⟨d, hd, hlook⟩ := at_cons.mp hv
    obtain ⟨hne, hdir, n, hn, rfl, _⟩ := h.found hlook
    obtain ⟨hwalk, hvalid⟩ := ih hd fun b hb => hp b (mem_cons_of_mem _ hb)
    have hname : ValidName n.name := (h.named hn).resolve_left hne
    have henter : s.enter d n.name = .ok v :=
      enter_some hdir hname.2.2 (hp _ mem_cons_self) hlook
    refine ⟨?_, fun b hb => ?_⟩
    · rw [reverse_cons, walk_append, hwalk]
      exact (walk_one s d n.name).trans henter
    · rcases mem_cons.mp hb with rfl | hb
      · exact hname
      · exact hvalid b hb

/-- **A path leads only to nodes below plain names.** -/
theorem Shape.walk_plain (h : Shape s) {l p : List Name} (hv : s.At p v) (hp : ∀ a ∈ p, ¬ IsDots a)
    (hw : s.walk v l = .ok u) : ∃ q, s.At q u ∧ ∀ a ∈ q, ¬ IsDots a := by
  induction l generalizing v p with
  | nil =>
    cases hw
    exact ⟨p, hv, hp⟩
  | cons a l ih =>
    rw [walk_cons] at hw
    cases he : s.enter v a with
    | error e =>
      rw [he] at hw
      cases hw
    | ok w =>
      rw [he] at hw
      rcases enter_ok he with ⟨_, rfl⟩ | ⟨_, rfl⟩ | ⟨ha, hlook⟩
      · exact ih hv hp hw
      · -- up one name, or nowhere from the root
        cases p with
        | nil =>
          obtain rfl : s.top = v := Option.some.inj hv
          obtain ⟨e, he, hpar⟩ := h.hier.top
          obtain ⟨k, hk, rfl⟩ := tree_eq_some.mp he
          have hparent : k.parent = some s.top := hpar
          have hup : s.up s.top = s.top := by rw [up, hk, bind_some, hparent]; rfl
          rw [hup] at hw
          exact ih hv hp hw
        | cons b p =>
          obtain ⟨d, hd, hlook⟩ := at_cons.mp hv
          obtain ⟨_, _, k, hk, _, hparent⟩ := h.found hlook
          have hup : s.up v = d := by rw [up, hk, bind_some, hparent]; rfl
          rw [hup] at hw
          exact ih hd (fun c hc => hp c (mem_cons_of_mem _ hc)) hw
      · refine ih (p := a :: p) (at_cons.mpr ⟨v, hv, hlook⟩) (fun c hc => ?_) hw
        rcases mem_cons.mp hc with rfl | hc
        · exact ha
        · exact hp c hc

def AllReached (s : Fs) : Prop := ∀ v, s.linked v = true → ∃ path, s.resolves path = some (.ok v)

def NoDots (s : Fs) : Prop :=
  ∀ v n, s.linked v = true → s.root ≠ some v → s.nodes v = some n → ¬ IsDots n.name

/-- A node that is called `.` or `..` is at the end of no path. -/
theorem Wf.dots_unreached (h : s.Wf none) (hroot : s.root ≠ some v) (hv : s.nodes v = some n)
    (hdots : IsDots n.name) (path : List UInt8) : s.resolves path ≠ some (.ok v) := by
  intro hres
  rw [h.resolves_eq, some_inj, resolve] at hres
  split at hres
  · cases hres
  obtain ⟨q, hq, hplain⟩ := h.shape.walk_plain (p := []) (Forest.node_nil ..)
    (fun a ha => absurd ha not_mem_nil) hres
  cases q with
  | nil =>
    obtain rfl : s.top = v := Option.some.inj hq
    exact hroot h.shape.mounted
  | cons a q =>
    obtain ⟨d, _, hlook⟩ := at_cons.mp hq
    obtain ⟨_, _, k, hk, rfl, _⟩ := h.shape.found hlook
    cases hv.symm.trans hk
    exact hplain _ mem_cons_self hdots

/-- **Every node is reached if and only if none is called `.` or `..`.** -/
theorem Wf.allReached_iff (h : s.Wf none) : s.AllReached ↔ s.NoDots := by
  constructor
  · intro hall v n hv hroot hn hdots
    obtain ⟨path, hpath⟩ := hall v hv
    exact h.dots_unreached hroot hn hdots path hpath
  intro hnone v hv
  obtain ⟨n, hn⟩ := h.linked_live hv
  obtain ⟨p, hp⟩ := h.shape.hier.listed_iff.mp ((h.shape.linked_iff hn).mp hv)
  -- the names on the way are those of nodes in the tree
  have hplain : ∀ {p v}, s.At p v → ∀ a ∈ p, ¬ IsDots a := by
    intro p
    induction p with
    | nil => intro v _ a ha; cases ha
    | cons b p ih =>
      intro v hv a ha
      obtain ⟨d, hd, hlook⟩ := at_cons.mp hv
      rcases mem_cons.mp ha with rfl | ha
      · obtain ⟨hne, _, k, hk, rfl, _⟩ := h.shape.found hlook
        have hlinked := (h.shape.linked_iff hk).mpr (h.shape.hier.listed_lookup hlook)
        refine hnone v k hlinked (fun hroot => hne ?_) hk
        rw [h.shape.mounted] at hroot
        exact (Option.some.inj hroot).symm
      · exact ih hd a ha
  obtain ⟨hwalk, hvalid⟩ := h.shape.walk_down hp (hplain hp)
  refine ⟨slash :: p.reverse.flatMap (slash :: ·), ?_⟩
  rw [h.resolves_eq, resolve, if_neg (by simp), Lib.fields_sep, Lib.fields_flatMap, hwalk]
  intro a ha
  have ha := hvalid a (mem_reverse.mp ha)
  exact ⟨ha.1, ha.2.1⟩

/-! ## Plain names along a run -/

def PlainNames (s : Fs) : Prop := ∀ v n, s.nodes v = some n → s.root = some v ∨ ¬ IsDots n.name

theorem Evolves.plain {P : Name → Prop} (h : Evolves P s s') (hP : ∀ name, P name → ¬ IsDots name)
    (hs : s.PlainNames) : s'.PlainNames := by
  intro v n' hv
  rcases h.nodes hv with ⟨_, hnew⟩ | ⟨n, hn, _, hname⟩
  · exact .inr (hP _ hnew)
  · rw [h.root, ← hname]
    exact hs v n hn

theorem Wf.allReached (h : s.Wf none) (hs : s.PlainNames) : s.AllReached :=
  h.allReached_iff.mpr fun v n _ hroot hn => (hs v n hn).resolve_left hroot

end Fs

def PlainMkdir : Call → Prop
  | .vfsMkdir _ path => ¬ IsDots (lastName path)
  | _ => True

namespace Server

variable {s s' : Server} {e : Call}

theorem names_plain (hmk : PlainMkdir e) {name : Name} (h : s.Names e name) : ¬ IsDots name := by
  cases e with
  | vfsOpen a path flags =>
    obtain ⟨hmissing, d, n, hp⟩ := h
    exact hp.lastName_eq ▸ (hp.proper hmissing).2
  | vfsMkdir a path =>
    obtain ⟨d, n, hp⟩ := h
    exact hp.lastName_eq ▸ hmk
  | _ => exact h.elim

/-- **Every run** without such a call keeps the names plain. -/
theorem plain_of_reach (h : Reach lifeSys (fun s e => Callable s e ∧ PlainMkdir e) s) :
    s.fs.PlainNames := by
  have hboth : s.Wf ∧ s.fs.PlainNames := by
    refine h.invariant (I := fun s => s.Wf ∧ s.fs.PlainNames) ?_ fun s e s' hI hok hstep => ?_
    · intro s hs
      obtain ⟨a, ha⟩ := hs
      rw [boot_some ha]
      refine ⟨fresh_wf, fun v n hv => .inl ?_⟩
      rw [(Fs.mounted_node hv).1]
      rfl
    · obtain ⟨hwf, hnames⟩ := hI
      obtain ⟨s1, hrun, hleaves⟩ := hwf.keeps_call hok.1
      simp only [lifeSys, hrun, map_some, Option.some.injEq] at hstep
      subst hstep
      exact ⟨hleaves.wf, hleaves.nodes.plain (fun _ => names_plain hok.2) hnames⟩
  exact hboth.2

end Server

/-! ## Every file system that the calls make -/

/-- **The operations and the paths agree** on the proper paths and no others; a
creating `vfs_open` always agrees, and the paths that do not pass the entry that
changes are not affected. Every node is at the end of a path as long as no directory
is made under a path that ends in `.` or `..`. -/
theorem namespace_agrees {s : Server} (h : Reach lifeSys Callable s) :
    (∀ {a path fs}, vfsMkdir a path s.fs = some (.ok (), fs) →
      (s.fs.Makes path .dir fs ↔ Proper path) ∧ s.fs.OthersSame path fs) ∧
    (∀ {path fs}, vfsUnlink path s.fs = some (.ok (), fs) →
      (s.fs.Removes path (fun n => n.type = .reg) fs ↔ Proper path) ∧ s.fs.OthersSame path fs) ∧
    (∀ {path fs}, vfsRmdir path s.fs = some (.ok (), fs) →
      (s.fs.Removes path (fun n => n.type = .dir ∧ n.children = []) fs ↔ Proper path) ∧
        s.fs.OthersSame path fs) ∧
    (∀ {a path flags r fs}, vfsOpen a path flags s.fs = some (r, fs) →
      fs.nextNode ≠ s.fs.nextNode → s.fs.Makes path .reg fs ∧ s.fs.OthersSame path fs ∧
        ∀ f, r = .ok f → ∃ x, fs.files f = some x ∧ fs.resolves path = some (.ok x.vn)) ∧
    (s.fs.AllReached ↔ s.fs.NoDots) ∧
    (Reach lifeSys (fun s e => Callable s e ∧ PlainMkdir e) s → s.fs.AllReached) := by
  have hwf := (Server.Wf.of_reach h).fs
  exact ⟨hwf.mkdir_makes, hwf.unlink_removes, hwf.rmdir_removes, hwf.open_makes, hwf.allReached_iff,
    fun hplain => hwf.allReached (Server.plain_of_reach hplain)⟩

theorem namespace_agrees_mkdir : Reach lifeSys Callable Server.fresh ∧
    ∃ fs, vfsMkdir (.filled 0) [slash, 97] Server.fresh.fs = some (.ok (), fs) ∧
      Server.fresh.fs.Makes [slash, 97] .dir fs := by
  have hreach : Reach lifeSys Callable Server.fresh := .start ⟨.filled 0, Server.boot_eq _⟩
  have hproper : Proper [slash, 97] := ⟨rfl, by decide⟩
  obtain ⟨fs, hrun⟩ : ∃ fs, vfsMkdir (.filled 0) [slash, 97] Server.fresh.fs = some (.ok (), fs) :=
    ⟨_, rfl⟩
  obtain ⟨hmkdir, _⟩ := namespace_agrees hreach
  exact ⟨hreach, fs, hrun, (hmkdir hrun).1.mpr hproper⟩

/-- The path `/.` leads to the root, and still a directory can be made under it, to
which no path leads; and one can be made under `a`, which `vfs_resolve` refuses. -/
theorem mkdir_dot_unreached : Reach lifeSys Callable Server.fresh ∧
    (∃ fs, vfsMkdir (.filled 0) [slash, dot] Server.fresh.fs = some (.ok (), fs) ∧
      Server.fresh.fs.resolves [slash, dot] = some (.ok 0) ∧ fs.resolves [slash, dot] = some (.ok 0) ∧
      fs.linked 1 = true ∧ ∀ path, fs.resolves path ≠ some (.ok 1)) ∧
    ∃ fs, vfsMkdir (.filled 0) [97] Server.fresh.fs = some (.ok (), fs) ∧
      Server.fresh.fs.resolves [97] = some (.error .EINVAL) ∧ fs.linked 1 = true ∧
      fs.resolves [97] = some (.error .EINVAL) ∧ fs.resolves [slash, 97] = some (.ok 1) := by
  have hreach : Reach lifeSys Callable Server.fresh := .start ⟨.filled 0, Server.boot_eq _⟩
  -- the two runs, evaluated
  have hdot : (vfsMkdir (.filled 0) [slash, dot] Fs.mounted).map (fun r => (r.1, r.2.root, r.2.linked 1,
      (r.2.nodes 1).map Vnode.name)) = some (.ok (), some 0, true, some [dot]) := by decide +kernel
  have hpath : (vfsMkdir (.filled 0) [slash, dot] Fs.mounted).map (fun r =>
      r.2.resolves [slash, dot]) = some (some (.ok 0)) := by decide +kernel
  have hrel : (vfsMkdir (.filled 0) [97] Fs.mounted).map (fun r => (r.1, r.2.linked 1)) =
      some (.ok (), true) := by decide +kernel
  have hpath' : (vfsMkdir (.filled 0) [97] Fs.mounted).map (fun r =>
      (r.2.resolves [97], r.2.resolves [slash, 97])) =
      some (some (.error .EINVAL), some (.ok 1)) := by decide +kernel
  obtain ⟨r, fs, hrun, hwf, _⟩ := (Fs.mounted_wf.path_runs (.filled 0) [slash, dot]).1
  obtain ⟨r', fs', hrun', _⟩ := (Fs.mounted_wf.path_runs (.filled 0) [97]).1
  rw [hrun] at hdot hpath
  rw [hrun'] at hrel hpath'
  obtain ⟨rfl, hroot, hlinked, n, hn, hname⟩ : r = .ok () ∧ fs.root = some 0 ∧ fs.linked 1 = true ∧
      ∃ n, fs.nodes 1 = some n ∧ n.name = [dot] := by simpa using hdot
  obtain ⟨rfl, hlinked'⟩ : r' = .ok () ∧ fs'.linked 1 = true := by simpa using hrel
  obtain ⟨hres', habs'⟩ : fs'.resolves [97] = some (.error .EINVAL) ∧
      fs'.resolves [slash, 97] = some (.ok 1) := by simpa using hpath'
  refine ⟨hreach, ⟨fs, hrun, rfl, Option.some.inj hpath, hlinked, ?_⟩, fs', hrun', rfl, hlinked',
    hres', habs'⟩
  exact hwf.dots_unreached (by rw [hroot]; decide) hn (.inl hname)

end Exyde.Vfs
