import Exyde.Vfs.Isolation
import Exyde.Vfs.Lifetime

/-! # Opening a file

The access mode is tested by inequality, so that flags without a mode pass both tests;
and a file is made or emptied before it is known that the open will succeed. -/

namespace Exyde.Vfs

open Exyde.Lib (Reach Trap)

namespace Fs

variable {s t : Fs} {u v : NodeId} {n n' k : Vnode} {f : FileId} {x : File} {a : Alloc}
  {path : List UInt8} {flags : UInt32}

def contents (s : Fs) (v : NodeId) : Option (Nat × List UInt8) :=
  (s.nodes v).map fun n => (n.size, n.bytes)

/-! ## Contents after an open -/

theorem contents_of (h : s.nodes v = some n) : s.contents v = some (n.size, n.bytes) := by
  rw [contents, h]
  rfl

theorem Reaches.contents (h : s.Wf none) (ht : Reaches s a path flags t v)
    (hu : s.nodes u = some k) : t.contents u = s.contents u := by
  cases ht with
  | found => rfl
  | @made d m name _ _ hp =>
    have hne : u ≠ s.nextNode := Nat.ne_of_lt (h.shape.below hu)
    by_cases hud : u = d
    · subst hud
      rw [contents_of (link_parent h hp.node), contents_of hp.node]
      rfl
    · rw [Fs.contents, link_other hne hud, Fs.contents]

theorem contents_rewrite (hn : t.nodes v = some n) (hfits : n.Fits) (hrw : n.Rewrites n')
    (hbytes : n'.bytes = n.bytes) : (t.setNode v (some n')).contents = t.contents := by
  funext u
  by_cases huv : u = v
  · subst huv
    rw [contents_of (setNode_self ..), contents_of hn, hbytes, ← hrw.fits.length_bytes,
      ← hfits.length_bytes, hbytes]
  · rw [contents, setNode_of_ne _ huv, contents]

theorem contents_addRef (t : Fs) (v : NodeId) : (t.addRef v).contents = t.contents := by
  funext u
  by_cases huv : u = v
  · subst huv
    rw [contents, addRef, modify, setNode_self, Option.map_map]
    rfl
  · rw [contents, addRef_of_ne t huv, contents]

/-! ## Files that refuse -/

theorem write_refused (hx : s.files f = some x) (hn : s.nodes x.vn = some n)
    (hno : accWrite x.flags = false ∨ n.type = .dir) (a : Alloc) (buf : List UInt8) :
    ∃ e, vfsWrite a f buf s = some (.error e, s) := by
  rw [vfsWrite, Trap.bind_of (file_of hx)]
  split
  · exact ⟨_, rfl⟩
  next hacc =>
    have hdir : n.type ≠ .reg := by
      rw [hno.resolve_left hacc]
      decide
    rw [Trap.bind_of (node_of hn), Trap.bind_of (onNode_eq hn (if_pos hdir)), setNode_eq hn]
    exact ⟨_, rfl⟩

theorem read_refused (hx : s.files f = some x) (hn : s.nodes x.vn = some n)
    (hno : accRead x.flags = false ∨ n.type = .dir) (k : Nat) :
    ∃ e, vfsRead f k s = some (.error e, s) := by
  rw [vfsRead, Trap.bind_of (file_of hx)]
  split
  · exact ⟨_, rfl⟩
  next hacc =>
    have hdir : n.type ≠ .reg := by
      rw [hno.resolve_left hacc]
      decide
    rw [Trap.bind_of (onNode_eq hn (if_pos hdir)), setNode_eq hn]
    exact ⟨_, rfl⟩

end Fs

/-! ## The mode of an open file -/

/-- The states after calls that do not use the file `f`. -/
def Later (s : Server) (f : FileId) : Server → Prop :=
  Reach { lifeSys with start := (· = s) } fun s e => Callable s e ∧ ¬ s.Uses e f

namespace Server

variable {s t : Server} {f : FileId} {x : File} {n : Vnode}

/-- **Calls that do not use it** leave an open file and the type of its node as they were. -/
theorem Wf.later (hs : s.Wf) (hx : s.fs.files f = some x) (hn : s.fs.nodes x.vn = some n)
    (h : Later s f t) : t.Wf ∧ t.fs.files f = some x ∧
      ∃ n', t.fs.nodes x.vn = some n' ∧ n'.type = n.type := by
  refine h.invariant (I := fun t => t.Wf ∧ t.fs.files f = some x ∧
    ∃ n', t.fs.nodes x.vn = some n' ∧ n'.type = n.type) ?_ fun s1 e s2 hI hok hstep => ?_
  · rintro _ rfl
    exact ⟨hs, hx, n, hn, rfl⟩
  obtain ⟨hwf, hx1, n1, hn1, htype⟩ := hI
  obtain ⟨s', hrun, hleaves⟩ := hwf.keeps_call hok.1
  simp only [lifeSys, hrun, Option.map_some, Option.some.injEq] at hstep
  subst hstep
  have hx2 := hleaves.files hx1 hok.2
  obtain ⟨n2, hn2⟩ := hleaves.wf.fs.behind hx2
  refine ⟨hleaves.wf, hx2, n2, hn2, ?_⟩
  rcases hleaves.nodes.nodes hn2 with ⟨hnone, _⟩ | ⟨n1', hn1', htype', _⟩
  · cases hnone.symm.trans hn1
  · cases hn1'.symm.trans hn1
    exact htype'.symm.trans htype

theorem Wf.opened {a : Alloc} {path : List UInt8} {flags : UInt32} {fs : Fs} (h : s.Wf)
    (hopen : vfsOpen a path flags s.fs = some (.ok f, fs)) : { s with fs := fs }.Wf ∧
      ∃ t v n n' k, s.fs.Reaches a path flags t v ∧ t.nodes v = some n ∧ n.Rewrites n' ∧
        n'.bytes = (if Fs.Empties flags n then [] else n.bytes) ∧
        fs.contents = (t.setNode v (some n')).contents ∧
        fs.files f = some ⟨v, 0, flags, 1⟩ ∧ fs.nodes v = some k ∧ k.type = n.type := by
  obtain ⟨s', hrun, hleaves⟩ := h.keeps_open a path flags
  cases (callFs_eq hopen).symm.trans hrun
  refine ⟨hleaves.wf, ?_⟩
  rcases h.fs.openNode_cases a path flags with ⟨e, heq⟩ | ⟨t, v, ht⟩
  · rw [vfsOpen, Trap.bind_of heq] at hopen
    cases hopen
  obtain ⟨n, n', hn, hrw, hbytes, heq⟩ := h.fs.open_eq ht
  rw [heq] at hopen
  split at hopen
  · cases hopen
    exact ⟨t, v, n, n', _, ht, hn, hrw, hbytes, Fs.contents_addRef _ v, Fs.setFile_self ..,
      Fs.addRef_self (Fs.setNode_self ..), hrw.type⟩
  · cases hopen

end Server

/-- An open with `flags` that led from `s` to the file `f` in `fs` keeps to its mode: without
the write bit no file is changed, now or through `f` later, and without the read bit
nothing is read. -/
structure KeepsMode (s : Server) (flags : UInt32) (fs : Fs) (f : FileId) : Prop where
  opened : flags &&& O_WRONLY = 0 → ∀ v n, s.fs.nodes v = some n → fs.contents v = s.fs.contents v
  write : flags &&& O_WRONLY = 0 → ∀ t, Later { s with fs := fs } f t → ∀ a buf r fs',
    vfsWrite a f buf t.fs = some (r, fs') → fs'.contents = t.fs.contents
  read : flags &&& O_RDONLY = 0 → ∀ t, Later { s with fs := fs } f t → ∀ k bytes fs',
    vfsRead f k t.fs ≠ some (.ok bytes, fs')

theorem mode_cases (flags : UInt32) : flags &&& O_RDWR = 0 ∨ flags &&& O_RDWR = O_RDONLY ∨
    flags &&& O_RDWR = O_WRONLY ∨ flags &&& O_RDWR = O_RDWR := by
  have hle : (flags &&& O_RDWR).toNat ≤ 3 := by
    exact Nat.and_le_right
  have hcases : (flags &&& O_RDWR).toNat = 0 ∨ (flags &&& O_RDWR).toNat = 1 ∨
      (flags &&& O_RDWR).toNat = 2 ∨ (flags &&& O_RDWR).toNat = 3 := by omega
  rwa [← UInt32.toNat_inj, ← UInt32.toNat_inj, ← UInt32.toNat_inj, ← UInt32.toNat_inj]

theorem mode_bit (flags : UInt32) {m : UInt32} (hm : O_RDWR &&& m = m) :
    flags &&& m = flags &&& O_RDWR &&& m := by
  rw [UInt32.and_assoc, hm]

/-- With a mode, a file without the bit is refused what the bit stands for. -/
theorem mode_refuses {flags : UInt32} (hmode : flags &&& O_RDWR ≠ 0) :
    (flags &&& O_WRONLY = 0 → accWrite flags = false) ∧
      (flags &&& O_RDONLY = 0 → accRead flags = false) := by
  rw [mode_bit flags (m := O_WRONLY) rfl, mode_bit flags (m := O_RDONLY) rfl, accWrite, accRead]
  rcases mode_cases flags with h | h | h | h
  · exact absurd h hmode
  all_goals
    rw [h]
    decide

/-- **The mode of an open is kept to**, whatever is called in between on other files, if
and only if the flags hold a mode or the path leads to a directory. -/
theorem open_keeps_mode {s : Server} (h : Reach lifeSys Callable s) {a : Alloc} {path : List UInt8}
    {flags : UInt32} {f : FileId} {fs : Fs} (hopen : vfsOpen a path flags s.fs = some (.ok f, fs)) :
    KeepsMode s flags fs f ↔ flags &&& O_RDWR ≠ 0 ∨
      ∃ v n, s.fs.resolve path = .ok v ∧ s.fs.nodes v = some n ∧ n.type = .dir := by
  have hwf := Server.Wf.of_reach h
  obtain ⟨hwf', t, v, n, n', k, ht, hn, hrw, hbytes, hcont, hx, hk, htype⟩ := hwf.opened hopen
  have hdir : k.type = .dir ↔
      ∃ v n, s.fs.resolve path = .ok v ∧ s.fs.nodes v = some n ∧ n.type = .dir := by
    rw [htype]
    cases ht with
    | found hres => simp [hres, hn]
    | made hres _ hp =>
      cases (Fs.link_new hwf.fs hp.node).symm.trans hn
      simp [hres, Fs.newIn, Vnode.new]
  rw [← hdir]
  constructor
  · -- a regular file that is opened without a mode can be read
    intro hkeep
    by_contra hno
    obtain ⟨hmode, hndir⟩ := not_or.mp hno
    have hzero : flags &&& O_RDWR = 0 := not_not.mp hmode
    have hreg : k.type = .reg := by
      cases hkt : k.type with
      | reg => rfl
      | dir => exact absurd hkt hndir
    have hbit : flags &&& O_RDONLY = 0 := by
      rw [mode_bit flags rfl, hzero]
      rfl
    refine hkeep.read hbit _ (.start rfl) 0 [] fs ?_
    rw [vfsRead, Trap.bind_of (Fs.file_of hx), accRead, hzero, if_neg (by decide),
      Trap.bind_of (Fs.onNode_eq hk ((hwf'.fs.fits hk).read hreg 0 0)), Fs.setNode_eq hk]
    rfl
  · intro hor
    refine ⟨fun hbit u m hu => ?_, fun hbit t' hlater a' buf r fs' hrun => ?_,
      fun hbit t' hlater j bytes fs' hrun => ?_⟩
    · have hkept : ¬ Fs.Empties flags n := by
        rintro ⟨_, hacc, hreg⟩
        rcases hor with hmode | hd
        · rw [(mode_refuses hmode).1 hbit] at hacc
          cases hacc
        · rw [← htype, hd] at hreg
          cases hreg
      rw [if_neg hkept] at hbytes
      rw [hcont, Fs.contents_rewrite hn ((ht.wf hwf.fs).1.fits hn) hrw hbytes]
      exact ht.contents hwf.fs hu
    · obtain ⟨_, hx', m, hm, hmt⟩ := hwf'.later hx hk hlater
      obtain ⟨e, he⟩ := Fs.write_refused hx' hm
        (hor.imp (fun hmode => (mode_refuses hmode).1 hbit) hmt.trans) a' buf
      cases he.symm.trans hrun
      rfl
    · obtain ⟨_, hx', m, hm, hmt⟩ := hwf'.later hx hk hlater
      obtain ⟨e, he⟩ := Fs.read_refused hx' hm
        (hor.imp (fun hmode => (mode_refuses hmode).2 hbit) hmt.trans) j
      cases he.symm.trans hrun

theorem lifeSys_start : Reach lifeSys Callable Server.fresh := .start ⟨.filled 0, Server.boot_eq _⟩

theorem open_keeps_mode_readonly : ∃ fs,
    vfsOpen (.filled 0) [slash, 120] (O_CREAT ||| O_RDONLY) Server.fresh.fs = some (.ok 0, fs) ∧
      KeepsMode Server.fresh (O_CREAT ||| O_RDONLY) fs 0 := by
  have hrun : (vfsOpen (.filled 0) [slash, 120] (O_CREAT ||| O_RDONLY) Server.fresh.fs).map Prod.fst =
      some (.ok 0) := by decide +kernel
  obtain ⟨⟨_, fs⟩, hopen, rfl⟩ := Option.map_eq_some_iff.mp hrun
  exact ⟨fs, hopen, (open_keeps_mode lifeSys_start hopen).mpr (.inl (by decide))⟩

/-- A file that is opened without a mode can be read and written, and is emptied if the
flags say so. -/
theorem open_without_mode : O_CREAT &&& O_RDWR = 0 ∧ O_TRUNC &&& O_RDWR = 0 ∧ (do
      let r ← vfsOpen (.filled 0) [slash, 120] O_CREAT Server.fresh.fs
      let w ← vfsWrite (.filled 0) 0 [7] r.2
      let d ← vfsRead 0 9 r.2
      let t ← vfsOpen (.filled 0) [slash, 120] O_TRUNC w.2
      some (d.1, [r, w, t].map fun y => y.2.contents 1)) =
      some (.ok [], [some (0, []), some (1, [7]), some (0, [])]) := by
  refine ⟨rfl, rfl, ?_⟩
  decide +kernel

/-! ## Opens that fail -/

namespace Fs

variable {s s' t : Fs} {v : NodeId} {n n' : Vnode} {a : Alloc} {path : List UInt8} {flags : UInt32}

/-- The names, types, sizes and bytes are as before. -/
def SameFiles (s s' : Fs) : Prop := SameShape s s' ∧ s'.contents = s.contents

theorem SameFiles.of_nodes (hroot : s'.root = s.root) (hnext : s'.nextNode = s.nextNode)
    (hnodes : s'.nodes = s.nodes) : s.SameFiles s' :=
  ⟨⟨hroot, hnext, fun v => by rw [hnodes]⟩, by funext v; rw [contents, hnodes, contents]⟩

theorem SameFiles.trans {s'' : Fs} (h : s.SameFiles s') (h' : s'.SameFiles s'') : s.SameFiles s'' :=
  ⟨h.1.trans h'.1, h'.2.trans h.2⟩

theorem SameFiles.symm (h : s.SameFiles s') : s'.SameFiles s :=
  ⟨⟨h.1.root.symm, h.1.next.symm, fun v => (h.1.nodes v).symm⟩, h.2.symm⟩

/-- The open gets to a node that it has made, or has emptied. -/
def Spoils (s : Fs) (a : Alloc) (path : List UInt8) (flags : UInt32) : Prop :=
  ∃ t v n, s.Reaches a path flags t v ∧ t.nodes v = some n ∧
    (t.nextNode ≠ s.nextNode ∨ Empties flags n ∧ n.size ≠ 0)

theorem Reaches.spoils_iff (h : s.Wf none) (ht : Reaches s a path flags t v) (hn : t.nodes v = some n)
    (hrw : n.Rewrites n') (hbytes : n'.bytes = if Empties flags n then [] else n.bytes) :
    s.SameFiles (t.setNode v (some n')) ↔ ¬ s.Spoils a path flags := by
  have hfits := (ht.wf h).1.fits hn
  constructor
  · rintro ⟨hshape, hcont⟩ ⟨t', v', m, ht', hm, hwhy⟩
    cases ht with
    | made hres => exact absurd hshape.next (Nat.succ_ne_self _)
    | found hres =>
      cases ht' with
      | made hres' => cases hres.symm.trans hres'
      | found hres' =>
        cases hres.symm.trans hres'
        cases hn.symm.trans hm
        obtain ⟨hempty, hsize⟩ := hwhy.resolve_left fun hne => hne rfl
        have hcut := congrFun hcont v
        rw [contents_of (setNode_self ..), contents_of hn, hbytes, if_pos hempty] at hcut
        have hnil : n.bytes = [] := (Prod.mk.inj (Option.some.inj hcut)).2.symm
        rw [← hfits.length_bytes, hnil] at hsize
        exact hsize rfl
  · intro hno
    have hsame : n'.bytes = n.bytes := by
      rw [hbytes]
      split
      next hempty =>
        have hsize : n.size = 0 := not_not.mp fun hne => hno ⟨t, v, n, ht, hn, .inr ⟨hempty, hne⟩⟩
        rw [List.eq_nil_of_length_eq_zero (hfits.length_bytes.trans hsize)]
      · rfl
    cases ht with
    | found hres => exact ⟨.rewrite hn hrw, contents_rewrite hn hfits hrw hsame⟩
    | made hres hcreat hp hvacant hnew =>
      exact absurd ⟨_, _, n, .made hres hcreat hp hvacant hnew, hn, .inl (Nat.succ_ne_self _)⟩ hno

end Fs

theorem FdTable.alloc_error {t : FdTable} {f : FileId} {e : Errno} (h : t.alloc f = .error e) :
    ¬ ∃ fd, t fd = none := by
  rw [alloc] at h
  split at h
  · cases h
  next hnone =>
    rintro ⟨fd, hfd⟩
    simpa [hfd] using List.find?_eq_none.mp hnone fd (List.mem_finRange fd)

/-- **An OPEN request that reaches a node** succeeds, or leaves the file system with the
node made and emptied. -/
theorem Server.Wf.opOpen_cases {s : Server} (h : s.Wf) {a : Alloc} {q : Req} {t : Fs} {v : NodeId}
    (ht : s.fs.Reaches a q.pathString q.arg0.toUInt32 t v) (i : Fin maxClients) :
    ∃ n n', t.nodes v = some n ∧ n.Rewrites n' ∧
      n'.bytes = (if Fs.Empties q.arg0.toUInt32 n then [] else n.bytes) ∧
      if s.fs.RoomFor a ∧ ∃ fd, s.table i fd = none then ∃ fd s', opOpen a i q s = some (.ok fd, s')
      else ∃ e s', opOpen a i q s = some (.error e, s') ∧ (t.setNode v (some n')).SameFiles s'.fs := by
  obtain ⟨n, n', hn, hrw, hbytes, heq⟩ := h.fs.open_eq ht
  refine ⟨n, n', hn, hrw, hbytes, ?_⟩
  have hrooms : t.RoomFor a ↔ s.fs.RoomFor a := by
    unfold Fs.RoomFor Fs.liveFiles
    rw [ht.files.1, ht.files.2]
  rw [opOpen, Server.onFs_bind, heq]
  by_cases hroom : t.RoomFor a
  · have hfs := h.fs.opened_wf ht hn hrw hroom
    rw [if_pos hroom, Option.bind_some]
    dsimp only
    rw [Trap.bind_of (Server.client_eq _ i)]
    rw [show (s.clients i).fdtab = s.table i from rfl]
    cases halloc : (s.table i).alloc t.nextFile with
    | error e =>
      rw [if_neg fun hfree => FdTable.alloc_error halloc hfree.2]
      have hclose := hfs.close_eq (f := t.nextFile) (Fs.setFile_self ..)
      have hpos : 0 < n'.refcount := by
        rw [hrw.refcount]
        exact (ht.wf h.fs).1.counted.pos hn
      have hback := congrArg Fs.nodes (Fs.dropRef_addRef (Fs.setNode_self t v (some n')) hpos)
      dsimp only
      rw [Server.onFs_bind]
      rw [hclose]
      -- the reference of the file is dropped again
      exact ⟨_, _, rfl, .of_nodes rfl rfl hback⟩
    | ok r =>
      rw [if_pos ⟨hrooms.mp hroom, r.1, (FdTable.alloc_ok halloc).1⟩]
      exact ⟨_, _, rfl⟩
  · rw [if_neg hroom, if_neg fun hfree => hroom (hrooms.mpr hfree.1)]
    exact ⟨_, _, rfl, .of_nodes rfl rfl rfl⟩

/-- **A failed OPEN changes no file** if and only if it could not have failed for want of
memory or of a descriptor, or did not make or empty a file before. -/
theorem failed_open_changes_nothing {s : Server} (h : Reach lifeSys Callable s) (a : Alloc)
    (i : Fin maxClients) (q : Req) :
    (∀ e s', opOpen a i q s = some (.error e, s') → s.fs.SameFiles s'.fs) ↔
      (s.fs.RoomFor a ∧ ∃ fd, s.table i fd = none) ∨
        ¬ s.fs.Spoils a q.pathString q.arg0.toUInt32 := by
  have hwf := Server.Wf.of_reach h
  rcases hwf.fs.openNode_cases a q.pathString q.arg0.toUInt32 with ⟨e, heq⟩ | ⟨t, v, ht⟩
  · have hno : ¬ s.fs.Spoils a q.pathString q.arg0.toUInt32 := by
      rintro ⟨t, v, n, ht, _⟩
      cases heq.symm.trans (hwf.fs.openNode_eq ht)
    refine iff_of_true (fun e' s' hrun => ?_) (.inr hno)
    rw [opOpen, Server.onFs_bind, vfsOpen, Trap.bind_of heq] at hrun
    cases hrun
    exact .of_nodes rfl rfl rfl
  · obtain ⟨n, n', hn, hrw, hbytes, hend⟩ := hwf.opOpen_cases ht i
    rw [← ht.spoils_iff hwf.fs hn hrw hbytes]
    split at hend
    next hroom =>
      obtain ⟨fd, s', hok⟩ := hend
      refine iff_of_true (fun e' s'' hrun => ?_) (.inl hroom)
      cases hok.symm.trans hrun
    next hfull =>
      obtain ⟨e, s', herr, hsame⟩ := hend
      constructor
      · intro hkeep
        have hkept := hkeep e s' herr
        exact .inr (hkept.trans hsame.symm)
      · intro hor e' s'' hrun
        cases herr.symm.trans hrun
        exact (hor.resolve_left hfull).trans hsame

theorem failed_open_changes_nothing_room : ∃ e s',
    opOpen (.filled 0) 0 (.openX 1 O_RDWR) Server.fresh = some (.error e, s') ∧
      Server.fresh.fs.SameFiles s'.fs := by
  have hrun : (opOpen (.filled 0) 0 (.openX 1 O_RDWR) Server.fresh).map Prod.fst =
      some (.error .ENOENT) := by decide +kernel
  obtain ⟨⟨_, s'⟩, hopen, rfl⟩ := Option.map_eq_some_iff.mp hrun
  refine ⟨_, s', hopen, (failed_open_changes_nothing lifeSys_start (.filled 0) 0
    (.openX 1 O_RDWR)).mpr (.inl ?_) _ _ hopen⟩
  exact ⟨⟨rfl, by decide +kernel⟩, 0, rfl⟩

/-- No memory is left for an open file: the open fails, and a new file is there, or an old
one is empty. -/
theorem failed_open_spoils :
    (opOpen ⟨true, false, true, fun _ => 0⟩ 0 (.openX 1 (O_CREAT ||| O_RDWR)) Server.fresh).map (fun r =>
      (r.1, r.2.fs.contents 1)) = some (.error .ENOMEM, some (0, [])) ∧
    Server.fresh.fs.contents 1 = none ∧
    (do
      let s ← lifeSys.run Server.fresh [.vfsOpen (.filled 0) [slash, 120] (O_CREAT ||| O_RDWR),
        .vfsWrite (.filled 0) 0 ⟨[7], by decide⟩]
      let r ← opOpen ⟨true, false, true, fun _ => 0⟩ 0 (.openX 1 (O_TRUNC ||| O_RDWR)) s
      some (s.fs.contents 1, r.1, r.2.fs.contents 1)) =
      some (some (1, [7]), .error .ENOMEM, some (0, [])) := by
  refine ⟨?_, rfl, ?_⟩
  · decide +kernel
  · decide +kernel

end Exyde.Vfs
