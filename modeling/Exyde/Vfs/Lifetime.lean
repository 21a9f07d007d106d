import Exyde.Lib.Runs
import Exyde.Vfs.ServerSpec

/-! # The lifetime of nodes and open files

Any sequence of calls into the file system and the descriptor tables. The calls that
take a `file_t` are made with one that is open; closing it or putting it into a table is
for one that no table holds. The reference counts are then exact after every call, and
no call traps. -/

namespace Exyde.Vfs

open List Option
open Exyde.Lib (Hierarchy Reach System Trap)

inductive Call
  | vfsOpen (a : Alloc) (path : List UInt8) (flags : UInt32)
  | vfsClose (f : FileId)
  | vfsRead (f : FileId) (n : Nat)
  | vfsWrite (a : Alloc) (f : FileId) (buf : Buffer)
  | vfsSeek (f : FileId) (off whence : Int)
  | vfsMkdir (a : Alloc) (path : List UInt8)
  | vfsUnlink (path : List UInt8)
  | vfsRmdir (path : List UInt8)
  | vfsFdAlloc (i : Fin maxClients) (f : FileId)
  | vfsFdClose (i : Fin maxClients) (fd : UInt32)
  | clientDetach (i : Fin maxClients)

/-- A call into the file system, whatever it returns. -/
def callFs {α : Type} (p : FM α) : SM Unit := do
  let _ ← onFs p
  pure ()

def fdAlloc (i : Fin maxClients) (f : FileId) : SM Unit := do
  let c ← client i
  match c.fdtab.alloc f with
  | .error _ => pure ()
  | .ok (_, t) => putClient i { c with fdtab := t }

def fdClose (i : Fin maxClients) (fd : UInt32) : SM Unit := do
  let c ← client i
  match ← onFs (c.fdtab.close fd) with
  | .error _ => pure ()
  | .ok t => putClient i { c with fdtab := t }

def Call.run : Call → SM Unit
  | .vfsOpen a path flags => callFs (Vfs.vfsOpen a path flags)
  | .vfsClose f => callFs (Vfs.vfsClose f)
  | .vfsRead f n => callFs (Vfs.vfsRead f n)
  | .vfsWrite a f buf => callFs (Vfs.vfsWrite a f buf.1)
  | .vfsSeek f off whence => callFs (Vfs.vfsSeek f off whence)
  | .vfsMkdir a path => callFs (Vfs.vfsMkdir a path)
  | .vfsUnlink path => callFs (Vfs.vfsUnlink path)
  | .vfsRmdir path => callFs (Vfs.vfsRmdir path)
  | .vfsFdAlloc i f => fdAlloc i f
  | .vfsFdClose i fd => fdClose i fd
  | .clientDetach i => Vfs.clientDetach i

def Server.Loose (s : Server) (f : FileId) : Prop :=
  (s.fs.files f).isSome ∧ ∀ i fd, s.table i fd ≠ some f

/-- What a caller must see to. -/
def Callable (s : Server) : Call → Prop
  | .vfsClose f | .vfsFdAlloc _ f => s.Loose f
  | .vfsRead f _ | .vfsWrite _ f _ | .vfsSeek f _ _ => (s.fs.files f).isSome
  | _ => True

instance decidableLoose (s : Server) (f : FileId) : Decidable (s.Loose f) :=
  inferInstanceAs (Decidable (_ ∧ _))

instance decidableCallable (s : Server) : (e : Call) → Decidable (Callable s e)
  | .vfsClose f => decidableLoose s f
  | .vfsFdAlloc _ f => decidableLoose s f
  | .vfsRead f _ => inferInstanceAs (Decidable ((s.fs.files f).isSome = true))
  | .vfsWrite _ f _ => inferInstanceAs (Decidable ((s.fs.files f).isSome = true))
  | .vfsSeek f _ _ => inferInstanceAs (Decidable ((s.fs.files f).isSome = true))
  | .vfsOpen .. => .isTrue trivial
  | .vfsMkdir .. => .isTrue trivial
  | .vfsUnlink .. => .isTrue trivial
  | .vfsRmdir .. => .isTrue trivial
  | .vfsFdClose .. => .isTrue trivial
  | .clientDetach .. => .isTrue trivial

def lifeSys : System Server Call where
  start s := ∃ a, boot a = some s
  step s e := (e.run s).map Prod.snd

/-! ## One call -/

namespace Server

variable {s s' : Server} {i : Fin maxClients} {f : FileId} {α : Type} {new : Name → Prop}
  {p : FM α}

theorem callFs_eq {r : α} {fs : Fs} (h : p s.fs = some (r, fs)) :
    callFs p s = some ((), { s with fs := fs }) := by
  rw [callFs, onFs_bind, h]
  rfl

theorem Wf.withFs (h : s.Wf) {fs : Fs} (hfs : fs.Wf none)
    (hlive : ∀ {i fd f}, s.table i fd = some f → ∃ x, fs.files f = some x) : { s with fs := fs }.Wf :=
  ⟨hfs, hlive, h.once⟩

/-- What a call leaves: the open files that it does not use, and the nodes, with new
ones under names in `new`. -/
structure Leaves (used : FileId → Prop) (new : Name → Prop) (s s' : Server) : Prop where
  wf : s'.Wf
  files : ∀ {g y}, s.fs.files g = some y → ¬ used g → s'.fs.files g = some y
  nodes : s.fs.Evolves new s'.fs

def Keeps (s : Server) (p : SM Unit) (used : FileId → Prop) (new : Name → Prop) : Prop :=
  ∃ s', p s = some ((), s') ∧ Leaves used new s s'

theorem Wf.keeps_files (h : s.Wf) (hp : s.fs.Reshapes new p) :
    s.Keeps (callFs p) (fun _ => False) new := by
  obtain ⟨r, fs, hrun, hfs, hfiles, hnodes⟩ := hp
  refine ⟨_, callFs_eq hrun, h.withFs hfs fun hf => ?_, fun hy _ => ?_, hnodes⟩
  · rw [hfiles]
    exact h.live hf
  · exact hfiles ▸ hy

theorem Wf.keeps_touch (h : s.Wf)
    (hp : ∃ r fs, p s.fs = some (r, fs) ∧ s.fs.Touches f fs) : s.Keeps (callFs p) (· = f) new := by
  obtain ⟨r, fs, hrun, htouch⟩ := hp
  have hother : ∀ {g y}, s.fs.files g = some y → g ≠ f → fs.files g = some y := by
    intro g y hy hgf
    cases htouch with
    | mk => exact (Fs.setFile_of_ne _ hgf _).trans hy
  refine ⟨_, callFs_eq hrun, h.withFs (htouch.wf h.fs) fun {i fd g} hg => ?_, hother, .of_same htouch.same⟩
  by_cases hgf : g = f
  · subst hgf
    cases htouch with
    | mk => exact ⟨_, Fs.setFile_self ..⟩
  · obtain ⟨y, hy⟩ := h.live hg
    exact ⟨y, hother hy hgf⟩

theorem Wf.keeps_open (h : s.Wf) (a : Alloc) (path : List UInt8) (flags : UInt32) :
    s.Keeps (callFs (vfsOpen a path flags)) (fun _ => False) fun name =>
      s.fs.resolve path = .error .ENOENT ∧ ∃ d n, s.fs.Parent path d n name := by
  rcases h.fs.open_cases a path flags with ⟨e, heq⟩ | ⟨t, v, n, n', hreach, hn, hrw, hend⟩
  · exact h.keeps_files ⟨_, _, heq, h.fs, rfl, .refl _⟩
  obtain ⟨hfiles, hnext⟩ := hreach.files
  have hsame := Fs.SameShape.rewrite hn hrw
  rcases hend with ⟨hroom, heq⟩ | heq
  · have hother : ∀ {g y}, s.fs.files g = some y →
        (((t.setNode v (some n')).addRef v).addFile ⟨v, 0, flags, 1⟩).files g = some y := by
      intro g y hy
      have hne : g ≠ t.nextFile := by
        rw [hnext]
        exact Nat.ne_of_lt (h.fs.opened.below hy)
      exact (Function.update_of_ne hne ..).trans (hfiles ▸ hy)
    have hopened : t.SameShape (((t.setNode v (some n')).addRef v).addFile ⟨v, 0, flags, 1⟩) :=
      (hsame.trans (.addRef (Fs.setNode_self ..))).trans ⟨rfl, rfl, fun _ => rfl⟩
    exact ⟨_, callFs_eq heq, h.withFs (h.fs.opened_wf hreach hn hrw hroom)
      fun hg => (h.live hg).imp fun _ hy => hother hy, fun hy _ => hother hy,
      (hreach.evolves h.fs).trans (.of_same hopened)⟩
  · exact h.keeps_files ⟨_, _, heq, (hreach.wf h.fs).1.rewrite hn hrw, hfiles,
      (hreach.evolves h.fs).trans (.of_same hsame)⟩

theorem Wf.keeps_close (h : s.Wf) (hf : s.Loose f) : s.Keeps (callFs (vfsClose f)) (· = f) new := by
  obtain ⟨x, hx⟩ := isSome_iff_exists.mp hf.1
  refine ⟨_, callFs_eq (h.fs.close_eq hx), h.withFs (h.fs.closed hx) fun {i fd g} hg => ?_,
    fun hy hgf => (Fs.setFile_of_ne s.fs hgf none).trans hy, .closed _ f x.vn⟩
  have hgf : g ≠ f := fun heq => hf.2 i fd (heq ▸ hg)
  obtain ⟨y, hy⟩ := h.live hg
  exact ⟨y, (Fs.setFile_of_ne s.fs hgf none).trans hy⟩

theorem Wf.give (h : s.Wf) (hf : s.Loose f) {fd : Fin fdMax} :
    (s.put i { s.clients i with fdtab := (s.table i).set fd (some f) } s.fs).Wf := by
  -- what a slot holds is the file given, or what it held before
  have hback : ∀ {j fd' g}, (s.put i { s.clients i with
      fdtab := (s.table i).set fd (some f) } s.fs).table j fd' = some g →
      (j = i ∧ fd' = fd ∧ g = f) ∨ s.table j fd' = some g := by
    intro j fd' g hg
    by_cases hj : j = i
    · subst hj
      rw [table, put_self] at hg
      by_cases hfd : fd' = fd
      · subst hfd
        dsimp only at hg
        rw [FdTable.set_self] at hg
        exact .inl ⟨rfl, rfl, (Option.some.inj hg).symm⟩
      · dsimp only at hg
        rw [FdTable.set_of_ne _ hfd] at hg
        exact .inr hg
    · rw [table, put_other s hj] at hg
      exact .inr hg
  refine ⟨h.fs, fun hg => ?_, fun {j k fd1 fd2 g} hj hk => ?_⟩
  · rcases hback hg with ⟨_, _, rfl⟩ | hg
    · exact isSome_iff_exists.mp hf.1
    · exact h.live hg
  · rcases hback hj with ⟨rfl, rfl, rfl⟩ | hj <;> rcases hback hk with ⟨hki, hfd, hgf⟩ | hk
    · exact ⟨hki.symm, hfd.symm⟩
    · exact absurd hk (hf.2 k fd2)
    · exact absurd (hgf ▸ hj) (hf.2 j fd1)
    · exact h.once hj hk

theorem Wf.keeps_fdAlloc (h : s.Wf) (hf : s.Loose f) {used : FileId → Prop} :
    s.Keeps (fdAlloc i f) used new := by
  change ∃ s', (match (s.table i).alloc f with
    | .error _ => pure ()
    | .ok (_, t) => _ : SM Unit) s = _ ∧ _
  cases halloc : (s.table i).alloc f with
  | error e => exact ⟨s, rfl, h, fun hy _ => hy, .refl _⟩
  | ok r =>
    obtain ⟨fd, t⟩ := r
    obtain ⟨_, rfl⟩ := FdTable.alloc_ok halloc
    exact ⟨_, rfl, h.give hf, fun hy _ => hy, .refl _⟩

theorem Wf.keeps_fdClose (h : s.Wf) (fd : UInt32) :
    s.Keeps (fdClose i fd) (fun g => (s.table i).get fd = some g) new := by
  rw [Keeps, fdClose, Trap.bind_of (client_eq s i), onFs_bind]
  change ∃ s', (((s.table i).close fd s.fs).bind _ = _) ∧ _
  rw [FdTable.close]
  cases hslot : FdTable.slot fd with
  | none => exact ⟨s, rfl, h, fun hy _ => hy, .refl _⟩
  | some k =>
    dsimp only
    cases hf : s.table i k with
    | none => exact ⟨s, rfl, h, fun hy _ => hy, .refl _⟩
    | some f =>
      obtain ⟨x, hx⟩ := h.live hf
      dsimp only
      rw [Trap.bind_of (h.fs.close_eq hx)]
      refine ⟨_, rfl, (h.put (c := { s.clients i with fdtab := (s.table i).set k none })
        (.close (h.holds i) h.fs hf hx)).1, fun {g y} hy hno => ?_, .closed _ f x.vn⟩
      have hgf : g ≠ f := by
        rintro rfl
        rw [FdTable.get, hslot] at hno
        exact hno hf
      exact (Fs.setFile_of_ne s.fs hgf none).trans hy

def Uses (s : Server) : Call → FileId → Prop
  | .vfsClose f | .vfsRead f _ | .vfsWrite _ f _ | .vfsSeek f _ _ => (· = f)
  | .vfsFdClose i fd => fun g => (s.table i).get fd = some g
  | .clientDetach i => fun g => ∃ fd, s.table i fd = some g
  | _ => fun _ => False

def Names (s : Server) : Call → Name → Prop
  | .vfsOpen _ path _ => fun name =>
    s.fs.resolve path = .error .ENOENT ∧ ∃ d n, s.fs.Parent path d n name
  | .vfsMkdir _ path => fun name => ∃ d n, s.fs.Parent path d n name
  | _ => fun _ => False

/-- **One call** runs to its end and leaves the server well-formed. -/
theorem Wf.keeps_call (h : s.Wf) {e : Call} (hok : Callable s e) :
    s.Keeps e.run (s.Uses e) (s.Names e) := by
  cases e with
  | vfsOpen a path flags => exact h.keeps_open a path flags
  | vfsClose f => exact h.keeps_close hok
  | vfsRead f n =>
    obtain ⟨x, hx⟩ := isSome_iff_exists.mp hok
    exact h.keeps_touch (h.fs.read_runs hx n)
  | vfsWrite a f buf =>
    obtain ⟨x, hx⟩ := isSome_iff_exists.mp hok
    exact h.keeps_touch (h.fs.write_runs hx a buf.2)
  | vfsSeek f off whence =>
    obtain ⟨x, hx⟩ := isSome_iff_exists.mp hok
    exact h.keeps_touch (h.fs.seek_runs hx off whence)
  | vfsMkdir a path => exact h.keeps_files (h.fs.path_runs a path).1
  | vfsUnlink path => exact h.keeps_files (h.fs.path_runs ⟨true, true, true, fun _ => 0⟩ path).2.1
  | vfsRmdir path => exact h.keeps_files (h.fs.path_runs ⟨true, true, true, fun _ => 0⟩ path).2.2
  | vfsFdAlloc i f => exact h.keeps_fdAlloc hok
  | vfsFdClose i fd => exact h.keeps_fdClose fd
  | clientDetach i =>
    obtain ⟨s', hrun, hwf, hdetached⟩ := h.clientDetach i
    exact ⟨s', hrun, hwf, fun hy hno => hdetached.others hy fun fd hf => hno ⟨fd, hf⟩, hdetached.thins⟩

/-- **Every run** of such calls goes through well-formed servers. -/
theorem Wf.of_reach (h : Reach lifeSys Callable s) : s.Wf := by
  refine h.invariant ?_ fun s e s' hwf hok hstep => ?_
  · intro s hs
    obtain ⟨a, ha⟩ := hs
    rw [boot_some ha]
    exact fresh_wf
  · obtain ⟨s1, hrun, hleaves⟩ := hwf.keeps_call hok
    simp only [lifeSys, hrun, map_some, Option.some.injEq] at hstep
    exact hstep ▸ hleaves.wf

end Server

/-! ## What is counted -/

namespace Fs

variable {s : Fs} {v : NodeId} {n : Vnode}

/-- The node is the root or on the list of its parent. -/
def linked (s : Fs) (v : NodeId) : Bool :=
  s.root == some v || ((s.nodes v).bind Vnode.parent).any fun d =>
    (s.nodes d).any fun m => m.children.contains v

theorem Shape.linked_iff (h : Shape s) (hv : s.nodes v = some n) : s.linked v = true ↔ s.Listed v := by
  rw [linked, h.mounted, hv, Bool.or_eq_true, beq_iff_eq, some_inj, bind_some]
  constructor
  · rintro (rfl | hlist)
    · exact s.listed_top
    · obtain ⟨d, _, hd⟩ := (any_eq_true _ _).mp hlist
      obtain ⟨m, hm, hmem⟩ := (any_eq_true _ _).mp hd
      exact .inr ⟨d, m.entry, tree_of hm, contains_iff_mem.mp hmem⟩
  · rintro (htop | ⟨d, e, hd, hmem⟩)
    · exact .inl htop.symm
    obtain ⟨x, hx, hpar, _⟩ := h.hier.child hd hmem
    cases hx.symm.trans (tree_of hv)
    obtain ⟨m, hm, rfl⟩ := tree_eq_some.mp hd
    have hparent : n.parent = some d := hpar
    rw [hparent]
    refine .inr ?_
    rw [any_some, hm, any_some]
    exact contains_iff_mem.mpr hmem

/-- The references to a node: its place in the tree and the open files on it. -/
def refs (s : Fs) (v : NodeId) : Nat := (if s.linked v then 1 else 0) + (s.openOn v).card

theorem Wf.refcount_eq (h : s.Wf none) (hv : s.nodes v = some n) : n.refcount = s.refs v := by
  have hlinks : s.links v = if s.linked v then 1 else 0 := by
    by_cases hl : s.Listed v
    · rw [links_of hl, if_pos ((h.shape.linked_iff hv).mpr hl)]
    · rw [links_of_not hl, if_neg fun htrue => hl ((h.shape.linked_iff hv).mp htrue)]
  have hcount := h.counted.count hv
  rw [hlinks] at hcount
  exact hcount

theorem Wf.destroyed_iff (h : s.Wf none) : s.nodes v = none ↔ s.refs v = 0 := by
  constructor
  · intro hnone
    have hlinked : ¬ s.linked v = true := by
      rw [Fs.linked, h.shape.mounted, hnone, Bool.or_eq_true, beq_iff_eq, some_inj]
      rintro (rfl | hfalse)
      · obtain ⟨n, hn⟩ := h.shape.listed_live s.listed_top
        rw [hn] at hnone
        cases hnone
      · cases hfalse
    have hclosed : s.openOn v = ∅ := by
      apply Finset.eq_empty_of_forall_notMem
      intro f hf
      obtain ⟨x, hx, rfl⟩ := h.opened.mem_openOn.mp hf
      exact h.counted.open_live hx hnone
    rw [refs, if_neg hlinked, hclosed]
    rfl
  · intro hzero
    cases hv : s.nodes v with
    | none => rfl
    | some n =>
      have hpos := h.counted.pos hv
      have hcount := h.refcount_eq hv
      omega

theorem Wf.linked_live (h : s.Wf none) (hv : s.linked v = true) : ∃ n, s.nodes v = some n := by
  apply ne_none_iff_exists'.mp
  intro hnone
  have hrefs := h.destroyed_iff.mp hnone
  rw [refs, if_pos hv] at hrefs
  omega

end Fs

/-- The nodes, the open files and the tables agree. -/
structure Lifetime (s : Server) : Prop where
  count : ∀ {v n}, s.fs.nodes v = some n → n.refcount = s.fs.refs v
  destroyed : ∀ {v}, s.fs.nodes v = none ↔ s.fs.refs v = 0
  names : ∀ {d n c c' m m'}, s.fs.nodes d = some n → c ∈ n.children → c' ∈ n.children →
    s.fs.nodes c = some m → s.fs.nodes c' = some m' → m.name ≠ [] ∧ (c ≠ c' → m.name ≠ m'.name)
  parent : ∀ {d n c}, s.fs.nodes d = some n → c ∈ n.children →
    ∃ m, s.fs.nodes c = some m ∧ m.parent = some d
  nodup : ∀ {d n}, s.fs.nodes d = some n → n.children.Nodup
  root : ∃ r n, s.fs.root = some r ∧ s.fs.nodes r = some n ∧ ∀ d m, s.fs.nodes d = some m → r ∉ m.children
  tree : ∀ {v}, s.fs.linked v = true →
    ∃! p, (Hierarchy.forest s.fs.tree s.fs.top).node () p = some v
  opened : ∀ {f x}, s.fs.files f = some x → ∃ n, s.fs.nodes x.vn = some n
  slots : ∀ {i fd f}, (s.clients i).fdtab fd = some f → ∃ x, s.fs.files f = some x

theorem Server.Wf.lifetime {s : Server} (h : s.Wf) : Lifetime s where
  count := h.fs.refcount_eq
  destroyed := h.fs.destroyed_iff
  names {d n c c' m m'} hd hc hc' hm hm' := by
    refine ⟨?_, fun hne hname => hne ?_⟩
    · rcases h.fs.shape.named hm with heq | hvalid
      · exact absurd heq (h.fs.shape.hier.ne_root (Fs.tree_of hd) hc)
      · exact hvalid.1
    · exact h.fs.shape.hier.names (Fs.tree_of hd) hc hc' (Fs.tree_of hm) (Fs.tree_of hm') hname
  parent {d n c} hd hc := by
    obtain ⟨e, he, hpar, _⟩ := h.fs.shape.hier.child (Fs.tree_of hd) hc
    obtain ⟨m, hm, rfl⟩ := Fs.tree_eq_some.mp he
    exact ⟨m, hm, hpar⟩
  nodup hd := h.fs.shape.hier.nodup (Fs.tree_of hd)
  root := by
    obtain ⟨n, hn⟩ := h.fs.shape.listed_live s.fs.listed_top
    exact ⟨s.fs.top, n, h.fs.shape.mounted, hn, fun d m hd hmem =>
      h.fs.shape.hier.ne_root (Fs.tree_of hd) hmem rfl⟩
  tree {v} hv := by
    obtain ⟨n, hn⟩ := h.fs.linked_live hv
    obtain ⟨p, hp⟩ := h.fs.shape.hier.listed_iff.mp ((h.fs.shape.linked_iff hn).mp hv)
    exact ⟨p, hp, fun q hq => (h.fs.shape.hier.distinct hq hp).2⟩
  opened hf := ne_none_iff_exists'.mp (h.fs.counted.open_live hf)
  slots := h.live

/-- **Nodes live exactly as long as they are needed**, whatever is called, and no
call uses anything that is freed. -/
theorem vnode_lifetime {s : Server} (h : Reach lifeSys Callable s) :
    Lifetime s ∧ ∀ e, Callable s e → ∃ s', lifeSys.step s e = some s' := by
  have hwf := Server.Wf.of_reach h
  refine ⟨hwf.lifetime, fun e hok => ?_⟩
  obtain ⟨s', hrun, _⟩ := hwf.keeps_call hok
  exact ⟨s', by simp only [lifeSys, hrun, map_some]⟩

/-- A file is opened, put into a table, given to and unlinked: it lives on without a
place in the tree. -/
theorem vnode_lifetime_unlinked : ∃ s, Reach lifeSys Callable s ∧ Lifetime s ∧
    s.fs.linked 1 = false ∧ (s.fs.nodes 1).map Vnode.refcount = some 1 ∧
    s.fs.openOn 1 = {0} ∧ (s.clients 0).fdtab 0 = some 0 := by
  let name : List UInt8 := [slash, 97]
  let es : List Call := [.vfsOpen (.filled 0) name (O_CREAT ||| O_RDWR), .vfsFdAlloc 0 0,
    .vfsWrite (.filled 0) 0 ⟨[1, 2, 3], by decide⟩, .vfsUnlink name]
  obtain ⟨s, hs, hlives⟩ : ∃ s ∈ lifeSys.runOk Callable Server.fresh es,
      s.fs.linked 1 = false ∧ (s.fs.nodes 1).map Vnode.refcount = some 1 ∧ s.fs.openOn 1 = {0} ∧
        (s.clients 0).fdtab 0 = some 0 := by decide +kernel
  have hreach := Reach.runOk hs (.start ⟨.filled 0, Server.boot_eq _⟩)
  exact ⟨s, hreach, (vnode_lifetime hreach).1, hlives⟩

end Exyde.Vfs
