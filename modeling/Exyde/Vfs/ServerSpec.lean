import Exyde.Vfs.FsSpec
import Exyde.Vfs.Server

/-! # What the server does with one message

A session is a descriptor table over the shared file system, and `perform` is what a
request does to it. The server performs the request on the table in the client's slot
and sends the answer; the tables of the other slots it leaves alone. -/

namespace Exyde.Vfs

open Function List Option
open Exyde.Lib (Trap)

/-! ## Descriptor tables -/

namespace FdTable

variable {t t' : FdTable} {fd : Fin fdMax} {f : FileId} {fs fs' : Fs}

@[simp] theorem set_self (t : FdTable) (fd : Fin fdMax) (f : Option FileId) : t.set fd f fd = f :=
  update_self ..

theorem set_of_ne (t : FdTable) {fd fd' : Fin fdMax} (h : fd' ≠ fd) (f : Option FileId) :
    t.set fd f fd' = t fd' :=
  update_of_ne h ..

theorem alloc_ok (h : t.alloc f = .ok (fd, t')) : t fd = none ∧ t' = t.set fd (some f) := by
  unfold alloc at h
  split at h
  next fd' hfind =>
    obtain ⟨rfl, rfl⟩ := Prod.mk.inj (Except.ok.inj h)
    have hnone := List.find?_some hfind
    exact ⟨isNone_iff_eq_none.mp hnone, rfl⟩
  · cases h

theorem get_some {k : UInt32} (h : t.get k = some f) : ∃ fd, slot k = some fd ∧ t fd = some f :=
  bind_eq_some_iff.mp h

/-- The table holds open files, each in one slot. -/
structure Holds (t : FdTable) (fs : Fs) : Prop where
  live : ∀ {fd f}, t fd = some f → ∃ x, fs.files f = some x
  once : ∀ {fd fd' f}, t fd = some f → t fd' = some f → fd = fd'

theorem Holds.init (fs : Fs) : Holds .init fs :=
  ⟨fun h => absurd h (by simp [FdTable.init]), fun h => absurd h (by simp [FdTable.init])⟩

/-- What a session may do to the files: those that were open and are not in its
table stay as they are, and its table gains only files that were not open. -/
structure Step (t t' : FdTable) (fs fs' : Fs) : Prop where
  wf : fs'.Wf none
  holds : t'.Holds fs'
  apart : ∀ {f x}, fs.files f = some x → (∀ fd, t fd ≠ some f) → fs'.files f = some x
  gain : ∀ {fd f}, t' fd = some f → t fd = some f ∨ fs.files f = none

theorem Step.same (h : t.Holds fs) (hwf : fs'.Wf none) (hfiles : fs'.files = fs.files) :
    Step t t fs fs' where
  wf := hwf
  holds := ⟨fun hf => hfiles ▸ h.live hf, h.once⟩
  apart hx _ := hfiles ▸ hx
  gain hf := .inl hf

theorem Step.touch (h : t.Holds fs) (hwf : fs.Wf none) (hf : t fd = some f)
    (ht : fs.Touches f fs') : Step t t fs fs' := by
  refine ⟨ht.wf hwf, ⟨fun {fd' g} hg => ?_, h.once⟩, fun {g x} hx hg => ?_, fun hg => .inl hg⟩
  · cases ht with
    | mk hx =>
      by_cases hgf : g = f
      · subst hgf
        exact ⟨_, Fs.setFile_self ..⟩
      · obtain ⟨y, hy⟩ := h.live hg
        exact ⟨y, (Fs.setFile_of_ne _ hgf _).trans hy⟩
  · cases ht with
    | mk hx' =>
      have hgf : g ≠ f := fun heq => hg fd (heq ▸ hf)
      exact (Fs.setFile_of_ne _ hgf _).trans hx

theorem Step.close (h : t.Holds fs) (hwf : fs.Wf none) (hf : t fd = some f) {x : File}
    (hx : fs.files f = some x) : Step t (t.set fd none) fs ((fs.setFile f none).dropRef x.vn) := by
  have hfiles : ((fs.setFile f none).dropRef x.vn).files = (fs.setFile f none).files := rfl
  have hback : ∀ {fd' g}, t.set fd none fd' = some g → t fd' = some g ∧ g ≠ f := by
    intro fd' g hg
    by_cases hfd : fd' = fd
    · subst hfd
      simp at hg
    · rw [set_of_ne t hfd] at hg
      exact ⟨hg, fun heq => hfd (h.once hg (heq ▸ hf))⟩
  refine ⟨hwf.closed hx, ⟨fun hg => ?_, fun hg hg' => h.once (hback hg).1 (hback hg').1⟩,
    fun {g y} hy hg => ?_, fun hg => .inl (hback hg).1⟩
  · obtain ⟨hg, hgf⟩ := hback hg
    rw [hfiles, Fs.setFile_of_ne fs hgf]
    exact h.live hg
  · have hgf : g ≠ f := fun heq => hg fd (heq ▸ hf)
    rw [hfiles, Fs.setFile_of_ne fs hgf]
    exact hy

end FdTable

/-! ## Sessions -/

def Rsp.ofErrno (e : Errno) : Rsp := ⟨-e.code, 0, []⟩

def Rsp.ofUnit : Except Errno Unit → Rsp
  | .error e => .ofErrno e
  | .ok _ => ⟨0, 0, []⟩

namespace Session

variable (a : Alloc) (q : Req) (t : FdTable)

def openFile : FM (Rsp × FdTable) := do
  match ← vfsOpen a q.pathString q.arg0.toUInt32 with
  | .error e => pure (.ofErrno e, t)
  | .ok f =>
    match t.alloc f with
    | .error e => do
      vfsClose f
      pure (.ofErrno e, t)
    | .ok (fd, t') => pure (⟨0, fd, []⟩, t')

def close : FM (Rsp × FdTable) := do
  match ← t.close q.fd with
  | .error e => pure (.ofErrno e, t)
  | .ok t' => pure (⟨0, 0, []⟩, t')

def onFile (act : FileId → FM Rsp) : FM (Rsp × FdTable) :=
  match t.get q.fd with
  | none => pure (.ofErrno .EBADF, t)
  | some f => do pure (← act f, t)

def read (f : FileId) : FM Rsp :=
  if q.arg0.toNat = 0 ∨ rpcDataMax < q.arg0.toNat then pure (.ofErrno .EINVAL)
  else do
    match ← vfsRead f q.arg0.toNat with
    | .error e => pure (.ofErrno e)
    | .ok bytes => pure ⟨bytes.length, 0, bytes⟩

def write (f : FileId) : FM Rsp :=
  if q.dataLen.toNat = 0 ∨ rpcDataMax < q.dataLen.toNat then pure (.ofErrno .EINVAL)
  else do
    match ← vfsWrite a f ((List.ofFn q.data).take q.dataLen.toNat) with
    | .error e => pure (.ofErrno e)
    | .ok n => pure ⟨n, 0, []⟩

def seek (f : FileId) : FM Rsp := do
  match ← vfsSeek f q.arg0.toInt64.toInt q.arg1.toUInt32.toInt32.toInt with
  | .error e => pure (.ofErrno e)
  | .ok n => pure ⟨n, n, []⟩

def readdir (f : FileId) : FM Rsp := do
  let x ← file f
  let n ← node x.vn
  if n.type ≠ .dir then pure (.ofErrno .ENOTDIR)
  else do
    match ← ramfsReaddir x.vn q.arg0.toUInt32.toNat rpcDataMax with
    | .error e => pure (.ofErrno e)
    | .ok name => pure ⟨0, 0, name ++ [0]⟩

def onPath (act : List UInt8 → FM (Except Errno Unit)) : FM (Rsp × FdTable) := do
  pure (.ofUnit (← act q.pathString), t)

/-- **A request of a session**: the answer, and the table after it. -/
def perform : FM (Rsp × FdTable) :=
  if q.needPath && !q.pathOk then pure (.ofErrno .EINVAL, t)
  else if q.op = OP_OPEN then openFile a q t
  else if q.op = OP_CLOSE then close q t
  else if q.op = OP_READ then onFile q t (read q)
  else if q.op = OP_WRITE then onFile q t (write a q)
  else if q.op = OP_SEEK then onFile q t (seek q)
  else if q.op = OP_MKDIR then onPath q t (vfsMkdir a)
  else if q.op = OP_UNLINK then onPath q t vfsUnlink
  else if q.op = OP_RMDIR then onPath q t vfsRmdir
  else if q.op = OP_READDIR then onFile q t (readdir q)
  else pure (.ofErrno .ENOSYS, t)

/-- What a session leaves behind when it ends: every file of its table is closed. -/
def closeFd (fd : Fin fdMax) : FM Unit :=
  match t fd with
  | none => pure ()
  | some f => vfsClose f

def closeAll : FM Unit := Trap.forEach (closeFd t) (List.finRange fdMax)

/-! ### A request keeps the session -/

variable {t} {fs : Fs} (hwf : fs.Wf none) (h : t.Holds fs)

include hwf h

theorem openFile_step : Trap.Ends (openFile a q t) fs fun r fs' => FdTable.Step t r.2 fs fs' := by
  rcases hwf.open_cases a q.pathString q.arg0.toUInt32 with
    ⟨e, heq⟩ | ⟨u, v, n, n', hreach, hn, hrw, ⟨hroom, heq⟩ | heq⟩
  · exact .bind ⟨_, _, heq, .pure (.same h hwf rfl)⟩
  · obtain ⟨hfiles, hnext⟩ := hreach.files
    have hwf' := hwf.opened_wf hreach hn hrw hroom
    have hfresh : fs.files u.nextFile = none := by
      rw [hnext]
      exact hwf.opened.fresh
    refine .bind ⟨_, _, heq, ?_⟩
    -- the new file, and all the others
    generalize hnew : ((u.setNode v (some n')).addRef v).addFile ⟨v, 0, q.arg0.toUInt32, 1⟩ = fs' at *
    have hself : fs'.files u.nextFile = some ⟨v, 0, q.arg0.toUInt32, 1⟩ := by
      rw [← hnew]
      exact Fs.setFile_self ..
    have hothers : ∀ g, g ≠ u.nextFile → fs'.files g = fs.files g := by
      intro g hg
      rw [← hnew, ← hfiles]
      exact Fs.setFile_of_ne _ hg _
    dsimp only
    cases halloc : t.alloc u.nextFile with
    | error e =>
      refine .bind ⟨_, _, hwf'.close_eq hself, .pure (.same h (hwf'.closed hself) ?_)⟩
      funext g
      by_cases hg : g = u.nextFile
      · subst hg
        rw [hfresh]
        exact Fs.setFile_self ..
      · rw [← hothers g hg]
        exact Fs.setFile_of_ne _ hg _
    | ok r =>
      obtain ⟨fd, t'⟩ := r
      obtain ⟨hnone, rfl⟩ := FdTable.alloc_ok halloc
      have hback : ∀ {fd' g}, t.set fd (some u.nextFile) fd' = some g →
          (fd' = fd ∧ g = u.nextFile) ∨ (t fd' = some g ∧ g ≠ u.nextFile) := by
        intro fd' g hg
        by_cases hfd : fd' = fd
        · subst hfd
          rw [FdTable.set_self] at hg
          exact .inl ⟨rfl, (Option.some.inj hg).symm⟩
        · rw [FdTable.set_of_ne t hfd] at hg
          refine .inr ⟨hg, fun heq => ?_⟩
          obtain ⟨x, hx⟩ := h.live hg
          rw [heq, hfresh] at hx
          cases hx
      refine .pure ⟨hwf', ⟨fun {fd' g} hg => ?_, fun {fd1 fd2 g} h1 h2 => ?_⟩,
        fun {g x} hx _ => ?_, fun {fd' g} hg => ?_⟩
      · rcases hback hg with ⟨_, rfl⟩ | ⟨hg, hne⟩
        · exact ⟨_, hself⟩
        · rw [hothers g hne]
          exact h.live hg
      · rcases hback h1 with ⟨rfl, hg1⟩ | ⟨h1, hg1⟩ <;> rcases hback h2 with ⟨rfl, hg2⟩ | ⟨h2, hg2⟩
        · rfl
        · exact absurd hg1 hg2
        · exact absurd hg2 hg1
        · exact h.once h1 h2
      · rw [hothers g]
        · exact hx
        · intro heq
          rw [heq, hfresh] at hx
          cases hx
      · rcases hback hg with ⟨_, rfl⟩ | ⟨hg, _⟩
        · exact .inr hfresh
        · exact .inl hg
  · obtain ⟨hfiles, _⟩ := hreach.files
    exact .bind ⟨_, _, heq, .pure (.same h ((hreach.wf hwf).1.rewrite hn hrw) hfiles)⟩

theorem close_step : Trap.Ends (close q t) fs fun r fs' => FdTable.Step t r.2 fs fs' := by
  rw [close, FdTable.close]
  cases hslot : FdTable.slot q.fd with
  | none => exact .pure (.same h hwf rfl)
  | some fd =>
    dsimp only
    cases hf : t fd with
    | none => exact .pure (.same h hwf rfl)
    | some f =>
      obtain ⟨x, hx⟩ := h.live hf
      exact .bind (.bind ⟨_, _, hwf.close_eq hx, .pure (.pure (.close h hwf hf hx))⟩)

theorem onFile_step {act : FileId → FM Rsp}
    (hact : ∀ f x, fs.files f = some x → Trap.Ends (act f) fs fun _ fs' => fs.Touches f fs') :
    Trap.Ends (onFile q t act) fs fun r fs' => FdTable.Step t r.2 fs fs' := by
  rw [onFile]
  cases hget : t.get q.fd with
  | none => exact .pure (.same h hwf rfl)
  | some f =>
    obtain ⟨fd, _, hf⟩ := FdTable.get_some hget
    obtain ⟨x, hx⟩ := h.live hf
    exact .bind ((hact f x hx).mono fun r fs' ht => .pure (.touch h hwf hf ht))

omit hwf in
theorem onPath_step {act : List UInt8 → FM (Except Errno Unit)} {P : Name → Prop}
    (hact : fs.Reshapes P (act q.pathString)) :
    Trap.Ends (onPath q t act) fs fun r fs' => FdTable.Step t r.2 fs fs' := by
  obtain ⟨r, fs', hr, hwf', hfiles, _⟩ := hact
  exact .bind ⟨r, fs', hr, .pure (.same h hwf' hfiles)⟩

omit h

theorem read_runs (f : FileId) (x : File) (hx : fs.files f = some x) :
    Trap.Ends (read q f) fs fun _ fs' => fs.Touches f fs' := by
  refine .ite (fun _ => .pure (.refl hwf hx)) fun _ => .bind ?_
  refine (hwf.read_runs hx q.arg0.toNat).mono fun r fs' ht => ?_
  cases r <;> exact .pure ht

theorem write_runs (f : FileId) (x : File) (hx : fs.files f = some x) :
    Trap.Ends (write a q f) fs fun _ fs' => fs.Touches f fs' := by
  refine .ite (fun _ => .pure (.refl hwf hx)) fun hsmall => .bind ?_
  have hlen : ((List.ofFn q.data).take q.dataLen.toNat).length < 2 ^ 64 := by
    have hdata : rpcDataMax = 512 := rfl
    rw [length_take, length_ofFn]
    omega
  refine (hwf.write_runs hx a hlen).mono fun r fs' ht => ?_
  cases r <;> exact .pure ht

theorem seek_runs (f : FileId) (x : File) (hx : fs.files f = some x) :
    Trap.Ends (seek q f) fs fun _ fs' => fs.Touches f fs' := by
  refine .bind ((hwf.seek_runs hx _ _).mono fun r fs' ht => ?_)
  cases r <;> exact .pure ht

theorem readdir_runs (f : FileId) (x : File) (hx : fs.files f = some x) :
    Trap.Ends (readdir q f) fs fun _ fs' => fs.Touches f fs' := by
  obtain ⟨n, hn⟩ := hwf.behind hx
  obtain ⟨r, hr⟩ := hwf.readdir_runs hn q.arg0.toUInt32.toNat rpcDataMax
  refine .bind (.read hx (.bind (.read hn (.ite (fun _ => .pure (.refl hwf hx)) fun _ => ?_))))
  refine .bind ⟨r, fs, hr, ?_⟩
  cases r <;> exact .pure (.refl hwf hx)

include h

/-- **A request does not trap**, and keeps to the files of its session. -/
theorem perform_step : Trap.Ends (perform a q t) fs fun r fs' => FdTable.Step t r.2 fs fs' := by
  obtain ⟨hmkdir, hunlink, hrmdir⟩ := hwf.path_runs a q.pathString
  have hstay : ∀ e, Trap.Ends (pure (Rsp.ofErrno e, t) : FM _) fs fun r fs' =>
      FdTable.Step t r.2 fs fs' := fun e => .pure (.same h hwf rfl)
  refine .ite (fun _ => hstay _) fun _ => ?_
  refine .ite (fun _ => openFile_step a q hwf h) fun _ => ?_
  refine .ite (fun _ => close_step q hwf h) fun _ => ?_
  refine .ite (fun _ => onFile_step q hwf h (read_runs q hwf)) fun _ => ?_
  refine .ite (fun _ => onFile_step q hwf h (write_runs a q hwf)) fun _ => ?_
  refine .ite (fun _ => onFile_step q hwf h (seek_runs q hwf)) fun _ => ?_
  refine .ite (fun _ => onPath_step q h hmkdir) fun _ => ?_
  refine .ite (fun _ => onPath_step q h hunlink) fun _ => ?_
  refine .ite (fun _ => onPath_step q h hrmdir) fun _ => ?_
  exact .ite (fun _ => onFile_step q hwf h (readdir_runs q hwf)) fun _ => hstay _

end Session

/-! ## Slots -/

namespace Server

variable {s s' : Server} {i j : Fin maxClients} {a : Alloc} {q : Req}

variable (s i)

def table : FdTable := (s.clients i).fdtab

def post (ch : Option Chan) (r : Rsp) : Server :=
  { s with sent := s.sent ++ (ch.map fun ch => (ch, r)).toList }

def put (c : Client) (fs : Fs) : Server :=
  { s with fs := fs, clients := update s.clients i c }

theorem put_self (c : Client) (fs : Fs) : (s.put i c fs).clients i = c :=
  update_self ..

theorem put_same (fs : Fs) : s.put i (s.clients i) fs = { s with fs := fs } := by
  rw [put, update_eq_self]

/-- The session in a slot moves on, and its answer goes out. -/
def answer (t : FdTable) (fs : Fs) (r : Rsp) : Server :=
  (s.put i { s.clients i with fdtab := t } fs).post (s.clients i).chResp r

theorem answer_table (fs : Fs) (r : Rsp) :
    s.answer i (s.table i) fs r = { s with fs := fs }.post (s.clients i).chResp r := by
  have hsame : { s.clients i with fdtab := s.table i } = s.clients i := rfl
  rw [answer, hsame, put_same]

theorem client_eq : client i s = some (s.clients i, s) := rfl

theorem replyOk_eq (ret : Int) (aux : Nat) (data : List UInt8) :
    replyOk i ret aux data s = some ((), s.post (s.clients i).chResp ⟨ret, aux, data⟩) := rfl

def deliver (o : Option ((Rsp × FdTable) × Fs)) : Option (Unit × Server) :=
  o.map fun r => ((), s.answer i r.1.2 r.2 r.1.1)

theorem deliver_pure (r : Rsp) :
    s.deliver i (some ((r, s.table i), s.fs)) = some ((), s.post (s.clients i).chResp r) := by
  rw [deliver, map_some, answer_table]

theorem put_reply (t : FdTable) (fs : Fs) (ret : Int) (aux : Nat)
    (data : List UInt8) :
    replyOk i ret aux data (s.put i { s.clients i with fdtab := t } fs) =
      some ((), s.answer i t fs ⟨ret, aux, data⟩) := by
  rw [replyOk_eq, put_self]
  rfl

variable {s i} {ch : Option Chan}

theorem put_other (s : Server) {i j : Fin maxClients} (h : j ≠ i) (c : Client) (fs : Fs) :
    (s.put i c fs).clients j = s.clients j :=
  update_of_ne h ..

theorem onFs_bind {α β : Type} (p : FM α) (k : α → SM β) (s : Server) :
    (onFs p >>= k) s = (p s.fs).bind fun r => k r.1 { s with fs := r.2 } := by
  rw [Trap.bind_apply, onFs, Trap.within]
  cases p s.fs <;> rfl

theorem deliver_onFile {act : FileId → FM Rsp} {act' : FileId → SM Unit}
    (hact : ∀ f, act' f s = (act f s.fs).bind fun r =>
      some ((), { s with fs := r.2 }.post (s.clients i).chResp r.1)) :
    (match (s.table i).get q.fd with
      | none => replyErr i .EBADF
      | some f => act' f) s = s.deliver i (Session.onFile q (s.table i) act s.fs) := by
  rw [Session.onFile]
  cases (s.table i).get q.fd with
  | none => exact (s.deliver_pure i _).symm
  | some f =>
    dsimp only
    rw [hact, Trap.bind_apply]
    cases act f s.fs with
    | none => rfl
    | some r =>
      obtain ⟨r, fs⟩ := r
      exact congrArg (fun x => some ((), x)) (s.answer_table i fs r).symm

theorem deliver_onPath {act : List UInt8 → FM (Except Errno Unit)} :
    (do replyUnit i (← onFs (act q.pathString)) : SM Unit) s =
      s.deliver i (Session.onPath q (s.table i) act s.fs) := by
  rw [onFs_bind, Session.onPath, Trap.bind_apply]
  cases act q.pathString s.fs with
  | none => rfl
  | some r =>
    obtain ⟨r, fs⟩ := r
    cases r <;> exact congrArg (fun x => some ((), x)) (s.answer_table i fs _).symm

theorem replies_bind {α : Type} {p : FM α} {k : α → FM Rsp} {k' : α → SM Unit}
    (hk : ∀ r fs, k' r { s with fs := fs } =
      (k r fs).bind fun x => some ((), { s with fs := x.2 }.post ch x.1)) :
    (onFs p >>= k') s = ((p >>= k) s.fs).bind fun x => some ((), { s with fs := x.2 }.post ch x.1) := by
  rw [onFs_bind, Trap.bind_apply]
  cases p s.fs with
  | none => rfl
  | some r => exact hk r.1 r.2

theorem deliver_ite {c : Prop} [Decidable c] {p p' : SM Unit} {x x' : FM (Rsp × FdTable)}
    (hp : p s = s.deliver i (x s.fs)) (hp' : p' s = s.deliver i (x' s.fs)) :
    (if c then p else p') s = s.deliver i ((if c then x else x') s.fs) := by
  split
  · exact hp
  · exact hp'

variable (s i a q)

theorem handleOpen_eq :
    handleOpen a i q s = s.deliver i (Session.openFile a q (s.table i) s.fs) := by
  rw [handleOpen, Trap.bind_apply, opOpen, onFs_bind, Session.openFile, Trap.bind_apply]
  cases vfsOpen a q.pathString q.arg0.toUInt32 s.fs with
  | none => rfl
  | some r =>
    obtain ⟨r, fs⟩ := r
    cases r with
    | error e => exact congrArg (fun x => some ((), x)) (s.answer_table i fs _).symm
    | ok f =>
      dsimp only [bind_some]
      change ((match (s.table i).alloc f with
        | .error e => _
        | .ok (fd, t) => _ : SM _) { s with fs := fs }).bind _ = _
      cases (s.table i).alloc f with
      | error e =>
        dsimp only
        rw [onFs_bind, Trap.bind_apply]
        cases vfsClose f fs with
        | none => rfl
        | some r =>
          obtain ⟨_, fs'⟩ := r
          exact congrArg (fun x => some ((), x)) (s.answer_table i fs' _).symm
      | ok r =>
        obtain ⟨fd, t⟩ := r
        exact s.put_reply i t fs 0 fd []

theorem handleClose_eq : handleClose i q s = s.deliver i (Session.close q (s.table i) s.fs) := by
  have htable : (s.clients i).fdtab = s.table i := rfl
  rw [handleClose, Trap.bind_of (client_eq s i), onFs_bind, Session.close, Trap.bind_apply, htable]
  cases (s.table i).close q.fd s.fs with
  | none => rfl
  | some r =>
    obtain ⟨r, fs⟩ := r
    cases r with
    | error e => exact congrArg (fun x => some ((), x)) (s.answer_table i fs _).symm
    | ok t => exact s.put_reply i t fs 0 0 []

theorem handleRead_eq :
    handleRead i q s = s.deliver i (Session.onFile q (s.table i) (Session.read q) s.fs) := by
  refine deliver_onFile fun f => ?_
  rw [Session.read]
  split
  · rfl
  · refine replies_bind fun r fs => ?_
    cases r <;> rfl

theorem handleWrite_eq :
    handleWrite a i q s = s.deliver i (Session.onFile q (s.table i) (Session.write a q) s.fs) := by
  refine deliver_onFile fun f => ?_
  rw [Session.write]
  split
  · rfl
  · refine replies_bind fun r fs => ?_
    cases r <;> rfl

theorem handleSeek_eq :
    handleSeek i q s = s.deliver i (Session.onFile q (s.table i) (Session.seek q) s.fs) := by
  refine deliver_onFile fun f => replies_bind fun r fs => ?_
  cases r <;> rfl

theorem handleReaddir_eq :
    handleReaddir i q s = s.deliver i (Session.onFile q (s.table i) (Session.readdir q) s.fs) := by
  refine deliver_onFile fun f => replies_bind fun x fs => ?_
  refine replies_bind (s := { s with fs := fs }) fun n fs' => ?_
  split
  · rfl
  · refine replies_bind (s := { s with fs := fs' }) fun r fs'' => ?_
    cases r <;> rfl

variable {s i a q} {id : UInt32}

/-- **A request of a client** is performed on the session in its slot, and its
answer goes out on the channel of the slot. -/
theorem serveClient_eq (s : Server) (a : Alloc) (i : Fin maxClients) (hop : q.op ≠ OP_SHUTDOWN) :
    serveClient a i q s = s.deliver i (Session.perform a q (s.table i) s.fs) := by
  rw [serveClient, if_neg hop, Session.perform]
  refine deliver_ite (s.deliver_pure i _).symm ?_
  refine deliver_ite (s.handleOpen_eq i a q) ?_
  refine deliver_ite (s.handleClose_eq i q) ?_
  refine deliver_ite (s.handleRead_eq i q) ?_
  refine deliver_ite (s.handleWrite_eq i a q) ?_
  refine deliver_ite (s.handleSeek_eq i q) ?_
  refine deliver_ite deliver_onPath ?_
  refine deliver_ite deliver_onPath ?_
  refine deliver_ite deliver_onPath ?_
  exact deliver_ite (s.handleReaddir_eq i q) (s.deliver_pure i _).symm

/-! ## Well-formed servers -/

/-- The file system is well-formed, and every slot of a table holds an open file of its own. -/
structure Wf (s : Server) : Prop where
  fs : s.fs.Wf none
  live : ∀ {i fd f}, s.table i fd = some f → ∃ x, s.fs.files f = some x
  once : ∀ {i j fd fd' f}, s.table i fd = some f → s.table j fd' = some f → i = j ∧ fd = fd'

theorem Wf.holds (h : s.Wf) (i : Fin maxClients) : (s.table i).Holds s.fs :=
  ⟨h.live, fun h1 h2 => (h.once h1 h2).2⟩

def fresh : Server := ⟨.mounted, fun _ => ⟨false, 0, none, .init⟩, 1, [], false⟩

theorem boot_eq (a : Alloc) : boot a = if a.node then some fresh else none := by
  cases hnode : a.node with
  | false =>
    have hroot : ramfsCreateRoot a Fs.empty = some (none, Fs.empty) := by
      have hnew : ramfsNewNode a .dir Fs.empty = some (none, Fs.empty) := if_neg (by simp [hnode])
      rw [ramfsCreateRoot, Trap.bind_of hnew]
      rfl
    rw [boot, Trap.bind_of hroot]
    rfl
  | true =>
    -- the node is made, then its parent is set, then it is mounted with its parent set again
    let made : Fs := (Fs.empty.setNode 0 (some (.new .dir))).bumpNode
    have hnew : ramfsNewNode a .dir Fs.empty = some (some 0, made) := if_pos hnode
    have hroot : ramfsCreateRoot a Fs.empty =
        some (some 0, made.setNode 0 (some Fs.rootNode)) := by
      rw [ramfsCreateRoot, Trap.bind_of hnew]
      rfl
    have hmount : vfsMountRoot 0 (made.setNode 0 (some Fs.rootNode)) =
        some ((), .mounted) := by
      have hnode' := Fs.node_of (Fs.setNode_self made 0 (some Fs.rootNode))
      have hnone : (Trap.read fun s : Fs => some s.root)
          (made.setNode 0 (some Fs.rootNode)) = some (none, _) := rfl
      rw [vfsMountRoot, Trap.bind_of hnone]
      change (node 0 >>= fun n => Trap.change fun s =>
        { s.setNode 0 (some { n with parent := some 0 }) with root := some 0 }) _ = _
      rw [Trap.bind_of hnode', Trap.change_apply, Fs.setNode_setNode, Fs.bumpNode_setNode,
        Fs.setNode_setNode]
      rfl
    rw [boot, Trap.bind_of hroot]
    dsimp only
    rw [Trap.bind_of hmount]
    rfl

theorem boot_some {a : Alloc} (h : boot a = some s) : s = fresh := by
  rw [boot_eq] at h
  split at h
  · exact (Option.some.inj h).symm
  · cases h

theorem fresh_wf : fresh.Wf where
  fs := Fs.mounted_wf
  live h := nomatch h
  once h := nomatch h

/-- The slots other than `i` and the files in them are as before. -/
structure Apart (i : Fin maxClients) (s s' : Server) : Prop where
  clients : ∀ {j}, j ≠ i → s'.clients j = s.clients j
  files : ∀ {j fd f}, j ≠ i → s.table j fd = some f → s'.fs.files f = s.fs.files f

theorem Apart.refl (i : Fin maxClients) (s : Server) : Apart i s s := ⟨fun _ => rfl, fun _ _ => rfl⟩

theorem Apart.table (h : Apart i s s') (hj : j ≠ i) : s'.table j = s.table j := by
  rw [Server.table, h.clients hj, Server.table]

theorem Apart.trans {s'' : Server} (h : Apart i s s') (h' : Apart i s' s'') : Apart i s s'' where
  clients hj := (h'.clients hj).trans (h.clients hj)
  files hj hf := (h'.files hj ((congrFun (h.table hj) _).trans hf)).trans (h.files hj hf)

/-- **A session moves on**: the server stays well-formed and the others are left alone. -/
theorem Wf.move (h : s.Wf) (hstep : FdTable.Step (s.table i) (s'.table i) s.fs s'.fs)
    (hclients : ∀ {j}, j ≠ i → s'.clients j = s.clients j) : s'.Wf ∧ Apart i s s' := by
  have htable : ∀ {j}, j ≠ i → s'.table j = s.table j := by
    intro j hj
    rw [Server.table, hclients hj, Server.table]
  -- a file of another slot is not one of this session
  have hforeign : ∀ {j fd f}, j ≠ i → s.table j fd = some f → ∀ fd', s.table i fd' ≠ some f :=
    fun hj hf fd' hf' => hj (h.once hf hf').1
  have hkeep : ∀ {j fd f}, j ≠ i → s.table j fd = some f → s'.fs.files f = s.fs.files f := by
    intro j fd f hj hf
    obtain ⟨x, hx⟩ := h.live hf
    rw [hstep.apart hx (hforeign hj hf), hx]
  have hmixed : ∀ {j fd fd' f}, j ≠ i → s'.table i fd = some f → s'.table j fd' = some f → False := by
    intro j fd fd' f hj hi hf
    rw [htable hj] at hf
    rcases hstep.gain hi with hold | hnew
    · exact hforeign hj hf fd hold
    · obtain ⟨x, hx⟩ := h.live hf
      rw [hnew] at hx
      cases hx
  refine ⟨⟨hstep.wf, fun {j fd f} hf => ?_, fun {j k fd fd' f} hj hk => ?_⟩, hclients, hkeep⟩
  · by_cases hj : j = i
    · subst hj
      exact hstep.holds.live hf
    · rw [htable hj] at hf
      rw [hkeep hj hf]
      exact h.live hf
  · by_cases hji : j = i
    · by_cases hki : k = i
      · rw [hji] at hj
        rw [hki] at hk
        exact ⟨hji.trans hki.symm, hstep.holds.once hj hk⟩
      · exact (hmixed hki (hji ▸ hj) hk).elim
    · by_cases hki : k = i
      · exact (hmixed hji (hki ▸ hk) hj).elim
      · rw [htable hji] at hj
        rw [htable hki] at hk
        exact h.once hj hk

theorem Wf.put (h : s.Wf) {c : Client} {fs : Fs} (hstep : FdTable.Step (s.table i) c.fdtab s.fs fs) :
    (s.put i c fs).Wf ∧ Apart i s (s.put i c fs) := by
  apply h.move
  · rw [Server.table, Server.table, put_self]
    exact hstep
  · intro j hj
    exact put_other s hj c fs

theorem Wf.post (h : s.Wf) (ch : Option Chan) (r : Rsp) : (s.post ch r).Wf := ⟨h.fs, h.live, h.once⟩

theorem Apart.post (h : Apart i s s') (ch : Option Chan) (r : Rsp) : Apart i s (s'.post ch r) :=
  ⟨h.clients, h.files⟩

theorem Apart.of_post {r : Rsp} (h : Apart i (s.post ch r) s') : Apart i s s' :=
  ⟨h.clients, h.files⟩

/-! ## Detaching -/

theorem Wf.detachFd (h : s.Wf) (i : Fin maxClients) (fd : Fin fdMax) : ∃ fs, detachFd i fd s =
        some ((), s.put i { s.clients i with fdtab := (s.table i).set fd none } fs) ∧
      FdTable.Step (s.table i) ((s.table i).set fd none) s.fs fs ∧ s.fs.Thins fs ∧
      Session.closeFd (s.table i) fd s.fs = some ((), fs) := by
  rw [Vfs.detachFd, Trap.bind_of (client_eq s i), Session.closeFd]
  change ∃ fs, (match s.table i fd with
    | none => pure ()
    | some f => _ : SM Unit) s = _ ∧ _
  cases hf : s.table i fd with
  | none =>
    have hset : (s.table i).set fd none = s.table i := by
      rw [FdTable.set, ← hf, update_eq_self]
    have hclient : { s.clients i with fdtab := s.table i } = s.clients i := rfl
    refine ⟨s.fs, ?_, ?_, .refl _, rfl⟩
    · rw [hset, hclient, put_same]
      rfl
    · rw [hset]
      exact .same (h.holds i) h.fs rfl
  | some f =>
    obtain ⟨x, hx⟩ := h.live hf
    dsimp only
    rw [onFs_bind, h.fs.close_eq hx]
    exact ⟨_, rfl, .close (h.holds i) h.fs hf hx, .closed _ f x.vn, rfl⟩

def freed (id : UInt32) : Client := ⟨false, id, none, .init⟩

structure Detached (i : Fin maxClients) (s s' : Server) : Prop where
  apart : Apart i s s'
  client : s'.clients i = freed (s.clients i).id
  next : s'.nextClientId = s.nextClientId
  sent : s'.sent = s.sent
  exited : s'.exited = s.exited
  thins : s.fs.Thins s'.fs
  closed : Session.closeAll (s.table i) s.fs = some ((), s'.fs)
  others : ∀ {f x}, s.fs.files f = some x → (∀ fd, s.table i fd ≠ some f) → s'.fs.files f = some x

/-- The loop of `client_detach`, with the descriptors `l` still to come. -/
structure Detaching (i : Fin maxClients) (s : Server) (l : List (Fin fdMax)) (u : Server) : Prop where
  wf : u.Wf
  apart : Apart i s u
  next : u.nextClientId = s.nextClientId
  sent : u.sent = s.sent
  exited : u.exited = s.exited
  thins : s.fs.Thins u.fs
  nodup : l.Nodup
  client : u.clients i = { s.clients i with fdtab := u.table i }
  passed : ∀ {fd}, fd ∉ l → u.table i fd = none
  ahead : ∀ {fd}, fd ∈ l → u.table i fd = s.table i fd
  rest : Trap.forEach (Session.closeFd (s.table i)) l u.fs = Session.closeAll (s.table i) s.fs
  others : ∀ {f x}, s.fs.files f = some x → (∀ fd, s.table i fd ≠ some f) → u.fs.files f = some x

theorem Detaching.round {u : Server} {fd : Fin fdMax} {l : List (Fin fdMax)}
    (h : Detaching i s (fd :: l) u) : ∃ u', Vfs.detachFd i fd u = some ((), u') ∧ Detaching i s l u' := by
  obtain ⟨fs, hrun, hstep, hthins, hclose⟩ := h.wf.detachFd i fd
  obtain ⟨hwf, hapart⟩ := h.wf.put (c := { u.clients i with fdtab := (u.table i).set fd none }) hstep
  have htable : (u.put i { u.clients i with fdtab := (u.table i).set fd none } fs).table i =
      (u.table i).set fd none := by
    rw [Server.table, put_self]
  obtain ⟨hfd, hnodup⟩ := nodup_cons.mp h.nodup
  refine ⟨_, hrun, hwf, h.apart.trans hapart, h.next, h.sent, h.exited, h.thins.trans hthins, hnodup,
    ?_, fun {fd'} hfd' => ?_, fun {fd'} hfd' => ?_, ?_, fun hx hno => ?_⟩
  · rw [put_self, htable, h.client]
  · rw [htable]
    by_cases heq : fd' = fd
    · rw [heq, FdTable.set_self]
    · rw [FdTable.set_of_ne _ heq]
      exact h.passed fun hmem => (mem_cons.mp hmem).elim heq hfd'
  · have heq : fd' ≠ fd := fun heq => hfd (heq ▸ hfd')
    rw [htable, FdTable.set_of_ne _ heq]
    exact h.ahead (mem_cons_of_mem _ hfd')
  · -- the abstract loop closes the same file here
    have hsame : Session.closeFd (s.table i) fd u.fs = some ((), fs) := by
      rw [Session.closeFd, ← h.ahead mem_cons_self]
      exact hclose
    rw [← h.rest, Trap.forEach, Trap.bind_of hsame]
    rfl
  · refine hstep.apart (h.others hx hno) fun fd' hf => ?_
    by_cases hmem : fd' ∈ fd :: l
    · exact hno fd' (h.ahead hmem ▸ hf)
    · rw [h.passed hmem] at hf
      cases hf

/-- **Detaching** closes what the slot holds and frees it. -/
theorem Wf.clientDetach (h : s.Wf) (i : Fin maxClients) :
    ∃ s', clientDetach i s = some ((), s') ∧ s'.Wf ∧ Detached i s s' := by
  have hstart : Detaching i s (List.finRange fdMax) s :=
    ⟨h, .refl i s, rfl, rfl, rfl, .refl _, nodup_finRange _, rfl,
      fun {fd} hfd => absurd (mem_finRange fd) hfd, fun _ => rfl, rfl, fun hx _ => hx⟩
  obtain ⟨u, hloop, hu⟩ :=
    Trap.forEach_of (J := Detaching i s) (List.finRange fdMax) (fun _ _ _ hu => hu.round) hstart
  have hinit : u.table i = .init := funext fun fd => hu.passed not_mem_nil
  have hclient : u.clients i = { s.clients i with fdtab := .init } := hinit ▸ hu.client
  have hrun : Vfs.clientDetach i s = some ((), u.put i (freed (s.clients i).id) u.fs) := by
    rw [Vfs.clientDetach, Trap.bind_of hloop, Trap.bind_of (client_eq u i), hclient]
    rfl
  have hstep : FdTable.Step (u.table i) .init u.fs u.fs := by
    rw [hinit]
    exact .same (.init _) hu.wf.fs rfl
  obtain ⟨hwf, hapart⟩ := hu.wf.put (c := freed (s.clients i).id) hstep
  exact ⟨_, hrun, hwf, hu.apart.trans hapart, put_self .., hu.next, hu.sent, hu.exited, hu.thins,
    hu.rest.symm, hu.others⟩

/-! ## A message -/

theorem find_some (h : s.find id = some i) :
    (s.clients i).inUse = true ∧ (s.clients i).id = id := by
  have hfound := List.find?_some h
  rw [Bool.and_eq_true, beq_iff_eq] at hfound
  exact hfound

theorem clientFind_some (h : s.clientFind id = some i) :
    id ≠ 0 ∧ (s.clients i).inUse = true ∧ (s.clients i).id = id := by
  rw [clientFind] at h
  split at h
  · cases h
  · exact ⟨‹_›, find_some h⟩

theorem freeSlot_some (h : s.freeSlot = some i) : (s.clients i).inUse = false := by
  have hfree := List.find?_some h
  rwa [Bool.not_eq_true'] at hfree

theorem clientFind_of (hid : id ≠ 0) (hi : (s.clients i).inUse = true ∧ (s.clients i).id = id)
    (hone : ∀ j, (s.clients j).inUse = true → (s.clients j).id = id → j = i) :
    s.clientFind id = some i := by
  rw [clientFind, if_neg hid]
  have hsome : (s.find id).isSome := by
    rw [find, List.find?_isSome]
    exact ⟨i, mem_finRange i, by simp [hi.1, hi.2]⟩
  obtain ⟨j, hj⟩ := isSome_iff_exists.mp hsome
  obtain ⟨hin, hjd⟩ := find_some hj
  rw [hj, hone j hin hjd]

theorem clientFind_none (h : ∀ j, (s.clients j).inUse = true → (s.clients j).id ≠ id) :
    s.clientFind id = none := by
  cases hfind : s.clientFind id with
  | none => rfl
  | some j =>
    obtain ⟨_, hin, hid⟩ := clientFind_some hfind
    exact absurd hid (h j hin)

theorem inUse_of_full (h : s.freeSlot = none) (i : Fin maxClients) : (s.clients i).inUse = true := by
  have hall := List.find?_eq_none.mp h i (mem_finRange i)
  simpa using hall

def attach (s : Server) (i : Fin maxClients) (ch : Chan) : Server :=
  { s.put i ⟨true, s.nextClientId, some ch, .init⟩ s.fs with nextClientId := s.nextClientId + 1 }

theorem attach_self (s : Server) (i : Fin maxClients) (ch : Chan) :
    (s.attach i ch).clients i = ⟨true, s.nextClientId, some ch, .init⟩ :=
  put_self s i _ s.fs

theorem attach_other (s : Server) {i j : Fin maxClients} (h : j ≠ i) (ch : Chan) :
    (s.attach i ch).clients j = s.clients j :=
  put_other s h _ s.fs

def settle (s : Server) : Server := if s.anyAlive then s else { s with exited := true }

/-- What one message can do. -/
inductive Served (a : Alloc) (m : Msg) (s : Server) : Server → Prop
  /-- an ATTACH without a channel, or a message of no client -/
  | ignored (h : m.req.op = OP_ATTACH ∧ m.cap = none ∨
      m.req.op ≠ OP_ATTACH ∧ s.clientFind m.req.clientId = none) : Served a m s s
  /-- an ATTACH that finds no slot -/
  | refused {ch : Chan} (hop : m.req.op = OP_ATTACH) (hcap : m.cap = some ch)
      (hfull : s.freeSlot = none) : Served a m s (s.post (some ch) (.ofErrno .EMFILE))
  | attached {ch : Chan} {i : Fin maxClients} (hop : m.req.op = OP_ATTACH) (hcap : m.cap = some ch)
      (hfree : s.freeSlot = some i) :
      Served a m s ((s.attach i ch).post (some ch) ⟨0, s.nextClientId.toNat, []⟩)
  | request {i : Fin maxClients} {r : Rsp} {t : FdTable} {fs : Fs} (hop : m.req.op ≠ OP_ATTACH)
      (hlive : m.req.op ≠ OP_SHUTDOWN) (hfind : s.clientFind m.req.clientId = some i)
      (hrun : Session.perform a m.req (s.table i) s.fs = some ((r, t), fs))
      (hstep : FdTable.Step (s.table i) t s.fs fs) : Served a m s (s.answer i t fs r)
  | shutdown {i : Fin maxClients} {s' : Server} (hop : m.req.op = OP_SHUTDOWN)
      (hfind : s.clientFind m.req.clientId = some i)
      (hdetached : Detached i (s.post (s.clients i).chResp ⟨0, 0, []⟩) s') : Served a m s s'.settle

theorem settle_kept (s : Server) : s.settle.clients = s.clients ∧ s.settle.fs = s.fs ∧
    s.settle.nextClientId = s.nextClientId ∧ s.settle.sent = s.sent := by
  rw [settle]
  split <;> exact ⟨rfl, rfl, rfl, rfl⟩

theorem Wf.settle (h : s.Wf) : s.settle.Wf := by
  rw [Server.settle]
  split
  · exact h
  · exact ⟨h.fs, h.live, h.once⟩

theorem Wf.attach (h : s.Wf) (hstep : FdTable.Step (s.table i) .init s.fs s.fs) (ch : Chan) :
    (s.attach i ch).Wf ∧ Apart i s (s.attach i ch) := by
  obtain ⟨hwf, hapart⟩ := h.put (c := ⟨true, s.nextClientId, some ch, .init⟩) hstep
  exact ⟨⟨hwf.fs, hwf.live, hwf.once⟩, hapart.clients, hapart.files⟩

theorem Wf.forget (h : s.Wf) : FdTable.Step (s.table i) .init s.fs s.fs where
  wf := h.fs
  holds := .init _
  apart hf _ := hf
  gain hfd := nomatch hfd

/-- **The server handles every message**, and stays well-formed. -/
theorem Wf.serve (h : s.Wf) (a : Alloc) (m : Msg) :
    ∃ s', serve a m s = some ((), s') ∧ s'.Wf ∧ Served a m s s' := by
  rw [Vfs.serve]
  by_cases hattach : m.req.op = OP_ATTACH
  · rw [if_pos hattach]
    cases hcap : m.cap with
    | none => exact ⟨s, rfl, h, .ignored (.inl ⟨hattach, hcap⟩)⟩
    | some ch =>
      rw [serveAttach, Trap.bind_apply, clientAttach]
      cases hfree : s.freeSlot with
      | none => exact ⟨_, rfl, h.post .., .refused hattach hcap hfree⟩
      | some i =>
        refine ⟨(s.attach i ch).post (some ch) ⟨0, s.nextClientId.toNat, []⟩, ?_,
          (h.attach h.forget ch).1.post .., .attached hattach hcap hfree⟩
        change (client i >>= fun c => send c.chResp ⟨0, c.id.toNat, []⟩ : SM Unit) (s.attach i ch) = _
        rw [Trap.bind_of (client_eq _ i), attach_self]
        rfl
  · rw [if_neg hattach]
    cases hfind : s.clientFind m.req.clientId with
    | none => exact ⟨s, rfl, h, .ignored (.inr ⟨hattach, hfind⟩)⟩
    | some i =>
      by_cases hop : m.req.op = OP_SHUTDOWN
      · obtain ⟨s', hrun, hwf, hdetached⟩ := (h.post (s.clients i).chResp ⟨0, 0, []⟩).clientDetach i
        refine ⟨s'.settle, ?_, hwf.settle, .shutdown hop hfind hdetached⟩
        dsimp only
        rw [serveClient, if_pos hop, Trap.bind_of (replyOk_eq ..), Trap.bind_of hrun]
        rfl
      · obtain ⟨⟨r, t⟩, fs, hrun, hstep⟩ := Session.perform_step a m.req h.fs (h.holds i)
        have hanswer : (s.answer i t fs r).Wf :=
          (h.put (c := { s.clients i with fdtab := t }) hstep).1.post ..
        refine ⟨_, ?_, hanswer, .request hattach hop hfind hrun hstep⟩
        dsimp only
        rw [serveClient_eq s a i hop, hrun]
        rfl

end Server

end Exyde.Vfs
