import Exyde.Posix.Fd

/-! # What a call does to the two tables

The table of the process and the server's table for it are in step when the server has
open what the local table holds, each descriptor once. `contract` is what the server may
answer; every call leaves the tables in step, unless the server opens a file while the
local table is full. -/

namespace Exyde.Posix

open Function Exyde.Lib Exyde.Vfs List Option Session

/-! ## Tables in step -/

/-- The descriptors `fds` that the server has open are those of the local table, each
in one slot. -/
structure InStep (tab : LocalTable) (fds : Fin fdMax → Bool) : Prop where
  opened : ∀ fd, fds fd = true → ∃ i, (tab i).inUse = true ∧ (tab i).serverFd.toNat = fd.val
  held : ∀ i, (tab i).inUse = true → ∃ fd, fds fd = true ∧ (tab i).serverFd.toNat = fd.val
  once : ∀ i j, (tab i).inUse = true → (tab j).inUse = true →
    (tab i).serverFd = (tab j).serverFd → i = j

namespace LocalTable

@[simp] theorem set_self (tab : LocalTable) (i : Fin localMax) (e : FdEntry) : tab.set i e i = e :=
  update_self ..

theorem set_of_ne (tab : LocalTable) {i j : Fin localMax} (h : j ≠ i) (e : FdEntry) :
    tab.set i e j = tab j :=
  update_of_ne h ..

def Full (tab : LocalTable) : Prop := ∀ i : Fin localMax, firstFd ≤ i.val → (tab i).inUse = true

variable {tab : LocalTable} {i : Fin localMax}

theorem free_some (h : tab.free = some i) : firstFd ≤ i.val ∧ (tab i).inUse = false := by
  have hi := List.find?_some h
  simpa using hi

theorem free_none : tab.free = none ↔ tab.Full := by
  rw [free, List.find?_eq_none]
  refine ⟨fun h i hi => ?_, fun h i _ => ?_⟩
  · have := h i (mem_finRange i)
    simpa [hi] using this
  · by_cases hi : firstFd ≤ i.val
    · simp [h i hi]
    · simp [hi]

theorem used_some {fd : Int} (h : tab.used fd = some i) :
    (i.val : Int) = fd ∧ (tab i).inUse = true := by
  unfold used at h
  split at h
  · cases h
  next hin =>
    obtain ⟨huse, hi⟩ := ite_none_right_eq_some.mp h
    cases hi
    refine ⟨?_, huse⟩
    simp only
    omega

end LocalTable

def fdsOf (t : FdTable) : Fin fdMax → Bool := fun fd => (t fd).isSome

theorem fdsOf_set (t : FdTable) (fd : Fin fdMax) (f : Option FileId) :
    fdsOf (t.set fd f) = update (fdsOf t) fd f.isSome := by
  funext fd'
  by_cases h : fd' = fd
  · subst h
    simp [fdsOf]
  · rw [fdsOf, FdTable.set_of_ne t h, update_of_ne h]
    rfl

namespace InStep

variable {tab : LocalTable} {fds : Fin fdMax → Bool} {i : Fin localMax} {fd : Fin fdMax}

theorem init : InStep .init fun _ => false where
  opened _ h := Bool.noConfusion h
  held _ h := Bool.noConfusion h
  once _ _ h := Bool.noConfusion h

theorem add (h : InStep tab fds) (hi : (tab i).inUse = false) (hfd : fds fd = false) {n : UInt32}
    (hn : n.toNat = fd.val) : InStep (tab.set i ⟨n, true⟩) (update fds fd true) := by
  obtain ⟨hopened, hheld, honce⟩ := h
  refine ⟨fun fd' hopen => ?_, fun j hj => ?_, fun j k hj hk heq => ?_⟩
  · by_cases hfd' : fd' = fd
    · subst hfd'
      exact ⟨i, by simp, by simpa using hn⟩
    · obtain ⟨j, hj, heq⟩ := hopened fd' (by simpa [hfd'] using hopen)
      have hji : j ≠ i := by
        rintro rfl
        simp [hi] at hj
      exact ⟨j, by rw [LocalTable.set_of_ne tab hji]; exact ⟨hj, heq⟩⟩
  · by_cases hji : j = i
    · subst hji
      exact ⟨fd, by simp, by simpa using hn⟩
    · rw [LocalTable.set_of_ne tab hji _] at hj ⊢
      obtain ⟨fd', hopen, heq⟩ := hheld j hj
      grind [update_of_ne]
  · -- no slot held the descriptor before
    have hnew : ∀ j, (tab j).inUse = true → (tab j).serverFd ≠ n := by
      rintro j' hj' rfl
      obtain ⟨fd', hopen, hfd'⟩ := hheld j' hj'
      grind
    grind [LocalTable.set_of_ne, LocalTable.set_self]

theorem drop (h : InStep tab fds) (hi : (tab i).inUse = true) (hfd : (tab i).serverFd.toNat = fd.val) :
    InStep (tab.set i ⟨0, false⟩) (update fds fd false) := by
  obtain ⟨hopened, hheld, honce⟩ := h
  have hslot : ∀ j, (tab.set i ⟨0, false⟩ j).inUse = true →
      j ≠ i ∧ tab.set i ⟨0, false⟩ j = tab j := by
    grind [LocalTable.set_of_ne, LocalTable.set_self]
  refine ⟨fun fd' hopen => ?_, fun j hj => ?_, fun j k hj hk heq => ?_⟩
  · have hfd' : fd' ≠ fd := by
      rintro rfl
      simp at hopen
    obtain ⟨j, hj, heq⟩ := hopened fd' (by simpa [hfd'] using hopen)
    have hji : j ≠ i := by
      rintro rfl
      exact hfd' (Fin.ext (heq.symm.trans hfd))
    exact ⟨j, by rw [LocalTable.set_of_ne tab hji]; exact ⟨hj, heq⟩⟩
  · obtain ⟨hji, hsame⟩ := hslot j hj
    rw [hsame] at hj ⊢
    obtain ⟨fd', hopen, heq⟩ := hheld j hj
    have hfd' : fd' ≠ fd := by
      rintro rfl
      exact hji (honce j i hj hi (UInt32.toNat_inj.mp (heq.trans hfd.symm)))
    exact ⟨fd', by rw [update_of_ne hfd']; exact hopen, heq⟩
  · rw [(hslot j hj).2, (hslot k hk).2] at heq
    exact honce j k ((hslot j hj).2 ▸ hj) ((hslot k hk).2 ▸ hk) heq

/-- A file that only the server opens is in no slot. -/
theorem not_add (h : InStep tab fds) (hfd : fds fd = false) :
    ¬ InStep tab (update fds fd true) := by
  intro h'
  obtain ⟨i, hi, heq⟩ := h'.opened fd (update_self ..)
  obtain ⟨fd', hopen, heq'⟩ := h.held i hi
  obtain rfl : fd' = fd := Fin.ext (heq'.symm.trans heq)
  rw [hfd] at hopen
  cases hopen

end InStep

/-! ## What the server may answer -/

/-- A reply to a request of the session with table `t`, whatever the files are. -/
def Performs (t : FdTable) (q : Req) (r : Rsp) (t' : FdTable) : Prop :=
  ∃ a fs fs', perform a q t fs = some ((r, t'), fs')

theorem ofErrno_neg (e : Errno) : (Rsp.ofErrno e).ret < 0 := by
  cases e <;> decide

namespace Performs

variable {t t' : FdTable} {q : Req} {r : Rsp}

theorem refused_of {e : Errno} {fs fs' : Fs} (h : some ((Rsp.ofErrno e, t), fs) = some ((r, t'), fs')) :
    r.ret < 0 ∧ t' = t := by
  cases h
  exact ⟨ofErrno_neg e, rfl⟩

/-- **OPEN** fails, or has taken a free slot of the server's table and says which. -/
theorem opens (h : Performs t q r t') (hop : q.op = OP_OPEN) : (r.ret < 0 ∧ t' = t) ∨
    ∃ fd f, t fd = none ∧ t' = t.set fd (some f) ∧ ¬ r.ret < 0 ∧ r.aux = fd.val := by
  obtain ⟨a, fs, fs', hrun⟩ := h
  rw [perform] at hrun
  by_cases hpath : (q.needPath && !q.pathOk) = true
  · rw [if_pos hpath] at hrun
    exact .inl (refused_of hrun)
  rw [if_neg hpath, if_pos hop, openFile] at hrun
  obtain ⟨⟨found, fs1⟩, _, hrest⟩ := bind_eq_some_iff.mp hrun
  cases found with
  | error e =>
    exact .inl (refused_of hrest)
  | ok f =>
    dsimp only at hrest
    cases halloc : t.alloc f with
    | error e =>
      rw [halloc] at hrest
      obtain ⟨⟨_, fs2⟩, _, hlast⟩ := bind_eq_some_iff.mp hrest
      exact .inl (refused_of hlast)
    | ok y =>
      obtain ⟨fd, t1⟩ := y
      rw [halloc] at hrest
      obtain ⟨rfl, rfl⟩ := Prod.mk.inj (Prod.mk.inj (Option.some.inj hrest)).1
      obtain ⟨hnone, ht⟩ := FdTable.alloc_ok halloc
      exact .inr ⟨fd, f, hnone, ht, Int.lt_irrefl 0, rfl⟩

/-- **CLOSE** fails where the server has no such descriptor open, and frees it otherwise. -/
theorem closes (h : Performs t q r t') (hop : q.op = OP_CLOSE) : (r.ret < 0 ∧ t' = t) ∨
      ∃ fd : Fin fdMax, q.fd.toNat = fd.val ∧ t' = t.set fd none ∧ ¬ r.ret < 0 := by
  obtain ⟨a, fs, fs', hrun⟩ := h
  have hne : OP_CLOSE ≠ OP_OPEN := by decide
  rw [perform] at hrun
  by_cases hpath : (q.needPath && !q.pathOk) = true
  · rw [if_pos hpath] at hrun
    exact .inl (refused_of hrun)
  rw [if_neg hpath, if_neg (hop.symm ▸ hne), if_pos hop, Session.close] at hrun
  obtain ⟨⟨found, fs1⟩, hclose, hrest⟩ := bind_eq_some_iff.mp hrun
  cases found with
  | error e =>
    exact .inl (refused_of hrest)
  | ok t1 =>
    obtain ⟨rfl, rfl⟩ := Prod.mk.inj (Prod.mk.inj (Option.some.inj hrest)).1
    rw [FdTable.close] at hclose
    cases hslot : FdTable.slot q.fd with
    | none =>
      rw [hslot] at hclose
      cases hclose
    | some fd =>
      rw [hslot] at hclose
      dsimp only at hclose
      obtain ⟨_, hfd⟩ := dite_none_right_eq_some.mp hslot
      cases hf : t fd with
      | none =>
        rw [hf] at hclose
        cases hclose
      | some f =>
        rw [hf] at hclose
        obtain ⟨_, _, hlast⟩ := bind_eq_some_iff.mp hclose
        obtain ⟨heq, _⟩ := Prod.mk.inj (Option.some.inj hlast)
        exact .inr ⟨fd, congrArg Fin.val (Option.some.inj hfd), (Except.ok.inj heq).symm,
          Int.lt_irrefl 0⟩

/-- **READ, WRITE, SEEK** leave the table as it is. -/
theorem same (h : Performs t q r t') (hop : q.op = OP_READ ∨ q.op = OP_WRITE ∨ q.op = OP_SEEK) :
    t' = t := by
  obtain ⟨a, fs, fs', hrun⟩ := h
  have hfile : ∀ {act : FileId → FM Rsp},
      onFile q t act fs = some ((r, t'), fs') → t' = t := by
    intro act hact
    rw [onFile] at hact
    cases hget : t.get q.fd with
    | none =>
      rw [hget] at hact
      exact (Prod.mk.inj (Prod.mk.inj (Option.some.inj hact)).1).2.symm
    | some f =>
      rw [hget] at hact
      obtain ⟨_, _, hrest⟩ := bind_eq_some_iff.mp hact
      exact (Prod.mk.inj (Prod.mk.inj (Option.some.inj hrest)).1).2.symm
  have hpath : q.needPath = false := by
    rcases hop with hop | hop | hop <;> simp only [Req.needPath, hop] <;> decide
  simp only [perform, hpath, Bool.false_and, Bool.false_eq_true, if_false] at hrun
  rcases hop with hop | hop | hop <;> rw [hop] at hrun <;> exact hfile hrun

end Performs

/-! ## The calls -/

/-- The server opens a file while the local table is full. -/
def Leaks (tab : LocalTable) (q : Req) (r : Rsp) : Prop := q.op = OP_OPEN ∧ ¬ r.ret < 0 ∧ tab.Full

/-- What the process and the server may be said to have after a call, or between calls:
the tables are in step; an `open` that has returned -1 has left the descriptors of
the server as they were; a `close` that has returned 0 has freed both sides. -/
structure Consistent (tab : LocalTable) (fds : Fin fdMax → Bool) (last : Option Made) : Prop where
  inStep : InStep tab fds
  refused : ∀ m path flags, last = some m → m.call = .openPath path flags → m.ret = some (-1) →
    fds = m.fds
  closed : ∀ m fd, last = some m → m.call = .close fd → m.ret = some 0 → ¬ isConsole fd →
    ∃ (i : Fin localMax) (f : Fin fdMax), (i.val : Int) = fd ∧ (m.tab i).inUse = true ∧
      (m.tab i).serverFd.toNat = f.val ∧ (tab i).inUse = false ∧ fds f = false

inductive Outcome (m : Made) (ret : Int) (tab : LocalTable) (t : FdTable) (talk : List (Req × Rsp)) : Prop
  | kept (hroom : ∀ y ∈ talk, ¬ Leaks m.tab y.1 y.2)
      (h : Consistent tab (fdsOf t) (some { m with ret := some ret }))
  | lost (hleak : ∃ y ∈ talk, Leaks m.tab y.1 y.2) (h : ¬ InStep tab (fdsOf t))

/-- What may be asked and answered in a call. -/
def contract : Contract Req Rsp (FdTable × List (Req × Rsp)) where
  may q := q.op ≠ OP_ATTACH ∧ q.op ≠ OP_SHUTDOWN
  answers x q r x' := x'.2 = x.2 ++ [(q, r)] ∧ ∃ id, Performs x.1 { q with clientId := id } r x'.1

section

variable {α β : Type} {l : Local} {t : FdTable} {talk : List (Req × Rsp)} {q : Req}

theorem rpc_runs {P : Option Rsp → Local → FdTable × List (Req × Rsp) → Prop} (hmay : contract.may q)
    (hfail : ∀ r t' id, Performs t { q with clientId := id } r t' → r.ret < 0 →
      P none { l with errno := -r.ret } (t', talk ++ [(q, r)]))
    (hok : ∀ r t' id, Performs t { q with clientId := id } r t' → ¬ r.ret < 0 →
      P (some r) l (t', talk ++ [(q, r)])) :
    Client.Runs contract (rpc q) l (t, talk) P := by
  refine .bind (.ask hmay fun r x' h => ?_)
  obtain ⟨t', talk'⟩ := x'
  obtain ⟨htalk, id, hp⟩ := h
  subst htalk
  exact .ite (fun hlt => hfail r t' id hp hlt) fun hge => hok r t' id hp hge

theorem ensureInit_runs {P : Bool → Local → FdTable × List (Req × Rsp) → Prop}
    (hno : P false { l with errno := Errno.ENOSYS.code } (t, talk)) (hyes : P true l (t, talk)) :
    Client.Runs contract ensureInit l (t, talk) P :=
  .bind (.get (.ite (fun _ => hyes) fun _ => hno))

/-- The program leaves both tables alone and opens nothing. -/
def Quiet (p : PM α) : Prop := ∀ l t talk, (∀ y ∈ talk, y.1.op ≠ OP_OPEN) →
  Client.Runs contract p l (t, talk) fun _ l' x =>
    l'.tab = l.tab ∧ x.1 = t ∧ ∀ y ∈ x.2, y.1.op ≠ OP_OPEN

namespace Quiet

theorem pure (a : α) : Quiet (Pure.pure a) := fun _ _ _ htalk => ⟨rfl, rfl, htalk⟩

theorem bind {p : PM α} {f : α → PM β} (hp : Quiet p) (hf : ∀ a, Quiet (f a)) : Quiet (p >>= f) := by
  intro l t talk htalk
  refine .bind ((hp l t talk htalk).mono fun a l' x hx => ?_)
  obtain ⟨htab, ht, htalk'⟩ := hx
  refine (hf a l' x.1 x.2 htalk').mono fun b l'' y hy => ?_
  exact ⟨hy.1.trans htab, hy.2.1.trans ht, hy.2.2⟩

theorem option {γ : Type} {f : Option γ → PM α} (hn : Quiet (f none)) (hs : ∀ a, Quiet (f (some a))) :
    ∀ o, Quiet (f o)
  | none => hn
  | some a => hs a

theorem ite {p p' : PM α} {c : Prop} [Decidable c] (hp : Quiet p) (hp' : Quiet p') :
    Quiet (if c then p else p') := by
  split
  · exact hp
  · exact hp'

theorem setErrno (e : Int) : Quiet (Posix.setErrno e) := fun _ _ _ htalk => ⟨rfl, rfl, htalk⟩

theorem tty (x : Console) : Quiet x.serve := fun _ _ _ htalk => ⟨rfl, rfl, htalk⟩

theorem ensureInit : Quiet Posix.ensureInit := fun _ _ _ htalk =>
  ensureInit_runs ⟨rfl, rfl, htalk⟩ ⟨rfl, rfl, htalk⟩

theorem fdtabGet (fd : Int) : Quiet (Posix.fdtabGet fd) := by
  intro l t talk htalk
  refine .bind (.get ?_)
  cases l.tab.used fd with
  | some i | none => exact ⟨rfl, rfl, htalk⟩

theorem rpc (hop : q.op = OP_READ ∨ q.op = OP_WRITE ∨ q.op = OP_SEEK) : Quiet (Posix.rpc q) := by
  have hmay : contract.may q ∧ q.op ≠ OP_OPEN := by
    rcases hop with hop | hop | hop <;> simp only [contract, hop] <;> decide
  intro l t talk htalk
  have htalk' : ∀ r, ∀ y ∈ talk ++ [(q, r)], y.1.op ≠ OP_OPEN := by
    intro r y hy
    rcases mem_append.mp hy with hy | hy
    · exact htalk y hy
    · obtain rfl := mem_singleton.mp hy
      exact hmay.2
  exact rpc_runs hmay.1 (fun r t' id hp _ => ⟨rfl, hp.same hop, htalk' r⟩)
    fun r t' id hp _ => ⟨rfl, hp.same hop, htalk' r⟩

theorem vfsClientRead (fd : Int32) (len : Nat) : Quiet (Posix.vfsClientRead fd len) := by
  refine ensureInit.bind fun init => .ite (.ite (.bind (setErrno _) fun _ => pure _) ?_) (pure _)
  exact (rpc (.inl rfl)).bind (.option (pure _) fun r => .ite (.bind (setErrno _) fun _ => pure _) (pure _))

theorem writeLoop (fd : Int32) (buf : List UInt8) (rounds total : Nat) :
    Quiet (Posix.writeLoop fd buf rounds total) := by
  induction rounds generalizing total with
  | zero => exact pure _
  | succ rounds ih =>
    refine .ite ((rpc (.inr (.inl rfl))).bind (.option (pure _) fun r => ?_)) (pure _)
    exact .ite (.bind (setErrno _) fun _ => pure _) (ih _)

theorem vfsClientWrite (fd : Int32) (buf : List UInt8) : Quiet (Posix.vfsClientWrite fd buf) :=
  ensureInit.bind fun _ => .ite (.ite (pure _) (writeLoop fd buf _ _)) (pure _)

theorem vfsClientSeek (fd : Int32) (off whence : Int) : Quiet (Posix.vfsClientSeek fd off whence) :=
  ensureInit.bind fun _ => .ite ((rpc (.inr (.inr rfl))).bind (.option (pure _) fun _ => pure _)) (pure _)

theorem read (fd : Int) (count : Nat) (x : Console) : Quiet (Posix.read fd count x) := by
  refine .ite (.ite (tty x) (.bind (setErrno _) fun _ => pure _)) ((fdtabGet fd).bind (.option (pure _) fun sf => ?_))
  exact vfsClientRead _ _

theorem write (fd : Int) (buf : List UInt8) (x : Console) : Quiet (Posix.write fd buf x) := by
  refine .ite (.ite (tty x) (.bind (setErrno _) fun _ => pure _)) ((fdtabGet fd).bind (.option (pure _) fun sf => ?_))
  exact (vfsClientWrite _ _).bind fun _ => pure _

theorem lseek (fd off whence : Int) : Quiet (Posix.lseek fd off whence) := by
  refine .ite (.bind (setErrno _) fun _ => pure _) ((fdtabGet fd).bind (.option (pure _) fun sf => ?_))
  exact vfsClientSeek _ _ _

end Quiet

theorem Consistent.unchanged {m : Made} (h : InStep m.tab m.fds)
    (hclose : ∀ fd, m.call = .close fd → m.ret = some 0 → isConsole fd) :
    Consistent m.tab m.fds (some m) where
  inStep := h
  refused m' _ _ hm _ _ := congrArg Made.fds (Option.some.inj hm)
  closed m' fd hm hcall hret hfile := by
    cases hm
    exact absurd (hclose fd hcall hret) hfile

theorem Outcome.quiet {m : Made} {ret : Int} {tab : LocalTable} (h : InStep m.tab m.fds)
    (htab : tab = m.tab) (hfds : fdsOf t = m.fds) (hroom : ∀ y ∈ talk, ¬ Leaks m.tab y.1 y.2)
    (hclose : ∀ fd, m.call = .close fd → ret = 0 → isConsole fd) : Outcome m ret tab t talk := by
  subst htab
  refine .kept hroom ?_
  rw [hfds]
  exact Consistent.unchanged (m := { m with ret := some ret }) h fun fd hcall hret =>
    hclose fd hcall (Option.some.inj hret)

theorem serverFd_int (fd : Fin fdMax) :
    ¬ fd.val.toUInt32.toInt32 < 0 ∧ fd.val.toUInt32.toInt32.toUInt32.toNat = fd.val := by
  revert fd
  decide

theorem openPath_runs (h : InStep l.tab (fdsOf t)) (path : List UInt8) (flags : UInt32) :
    Client.Runs contract (openPath path flags) l (t, []) fun ret l' x =>
      Outcome ⟨.openPath path flags, l.tab, fdsOf t, none⟩ ret l'.tab x.1 x.2 := by
  have hfail : ∀ {e : Int} {x : FdTable × List (Req × Rsp)}, x.1 = t →
      (∀ y ∈ x.2, ¬ Leaks l.tab y.1 y.2) →
      Client.Runs contract (if (-1 : Int32) < 0 then pure (-1) else fdtabAlloc (-1 : Int32).toUInt32)
        { l with errno := e } x fun ret l' x =>
          Outcome ⟨.openPath path flags, l.tab, fdsOf t, none⟩ ret l'.tab x.1 x.2 := by
    intro e x ht hroom
    refine .ite (fun _ => .pure ?_) fun hn => absurd (by decide) hn
    exact .quiet h rfl (congrArg fdsOf ht) hroom fun _ hcall => nomatch hcall
  have hop : (openReq path flags 0).op = OP_OPEN := rfl
  refine .bind (.bind (ensureInit_runs ?_ ?_))
  · exact hfail rfl fun _ hy => nomatch hy
  refine .bind (rpc_runs ⟨by rw [hop]; decide, by rw [hop]; decide⟩ ?_ ?_)
  · intro r t' id hp hlt
    refine hfail ?_ fun y hy => ?_
    · rcases hp.opens hop with ⟨_, ht⟩ | ⟨_, _, _, _, hge, _⟩
      · exact ht
      · exact absurd hlt hge
    · obtain rfl := mem_singleton.mp hy
      exact fun hleak => hleak.2.1 hlt
  intro r t' id hp hge
  obtain ⟨fd, f, hnone, rfl, haux⟩ : ∃ fd f, t fd = none ∧ t' = t.set fd (some f) ∧ r.aux = fd.val := by
    rcases hp.opens hop with ⟨hlt, _⟩ | ⟨fd, f, hnone, ht, _, haux⟩
    · exact absurd hlt hge
    · exact ⟨fd, f, hnone, ht, haux⟩
  obtain ⟨hpos, hback⟩ := serverFd_int fd
  have hclosed : fdsOf t fd = false := by
    rw [fdsOf, hnone]
    rfl
  refine .pure (.ite (fun hlt => absurd (haux ▸ hlt) hpos) fun _ => .bind (.get ?_))
  cases hfree : l.tab.free with
  | some i =>
    obtain ⟨_, hi⟩ := LocalTable.free_some hfree
    refine .bind (.set (.pure (.kept (fun y hy => ?_) ⟨?_, fun m _ _ hm _ hret => ?_, ?_⟩)))
    · intro hleak
      rw [LocalTable.free_none.mpr hleak.2.2] at hfree
      cases hfree
    · rw [fdsOf_set]
      exact h.add hi hclosed (by rw [haux]; exact hback)
    · cases hm
      have := Option.some.inj hret
      omega
    · intro m fd' hm hcall
      cases hm
      cases hcall
  | none =>
    refine .bind (.modify (.pure (.lost ⟨_, mem_singleton_self _, hop, hge, ?_⟩ ?_)))
    · exact LocalTable.free_none.mp hfree
    · rw [fdsOf_set]
      exact h.not_add hclosed

theorem close_runs (h : InStep l.tab (fdsOf t)) (fd : Int) :
    Client.Runs contract (close fd) l (t, []) fun ret l' x =>
      Outcome ⟨.close fd, l.tab, fdsOf t, none⟩ ret l'.tab x.1 x.2 := by
  have hquiet : ∀ {ret : Int} {tab : LocalTable} {t' : FdTable} {talk : List (Req × Rsp)}, tab = l.tab →
      t' = t → (∀ y ∈ talk, y.1.op ≠ OP_OPEN) → (ret = 0 → isConsole fd) →
      Outcome ⟨.close fd, l.tab, fdsOf t, none⟩ ret tab t' talk := by
    intro ret tab t' talk htab ht htalk hret
    refine .quiet h htab (congrArg fdsOf ht) (fun y hy hleak => htalk y hy hleak.1) fun fd' hcall hzero => ?_
    obtain rfl : fd = fd' := Call.close.inj hcall
    exact hret hzero
  refine .ite (fun hcons => .pure (hquiet rfl rfl (fun _ hy => nomatch hy) fun _ => hcons)) fun hfile => ?_
  refine .bind (.bind (.get ?_))
  cases hused : l.tab.used fd with
  | none => exact .bind (.modify (.pure (.pure (hquiet rfl rfl (fun _ hy => nomatch hy) nofun))))
  | some i =>
    obtain ⟨hi, huse⟩ := LocalTable.used_some hused
    have hop : (closeReq (l.tab i).serverFd.toInt32).op = OP_CLOSE := rfl
    have htalk : ∀ r : Rsp, ∀ y ∈ [(closeReq (l.tab i).serverFd.toInt32, r)], y.1.op ≠ OP_OPEN := by
      intro r y hy
      obtain rfl := mem_singleton.mp hy
      rw [hop]
      decide
    refine .pure (.bind (.bind (ensureInit_runs ?_ ?_)))
    · refine .ite (fun hb => Bool.noConfusion hb) fun _ => .pure (.ite (fun _ => .pure ?_) fun hz => ?_)
      · exact hquiet rfl rfl (fun _ hy => nomatch hy) nofun
      · exact absurd (by decide) hz
    refine .bind (rpc_runs ⟨by rw [hop]; decide, by rw [hop]; decide⟩ ?_ ?_)
    · intro r t' id hp hlt
      refine .pure (.ite (fun _ => .pure (hquiet rfl ?_ (htalk r) nofun)) fun hz => absurd (by decide) hz)
      rcases hp.closes hop with ⟨_, ht⟩ | ⟨_, _, _, hge⟩
      · exact ht
      · exact absurd hlt hge
    intro r t' id hp hge
    obtain ⟨f, hf, rfl⟩ : ∃ f : Fin fdMax, (l.tab i).serverFd.toNat = f.val ∧ t' = t.set f none := by
      rcases hp.closes hop with ⟨hlt, _⟩ | ⟨f, hf, ht, _⟩
      · exact absurd hlt hge
      · exact ⟨f, hf, ht⟩
    refine .pure (.ite (fun hz => absurd rfl hz) fun _ => .bind (.get ?_))
    rw [hused]
    refine .bind (.set (.pure (.kept (fun y hy hleak => htalk r y hy hleak.1) ⟨?_, ?_, ?_⟩)))
    · rw [fdsOf_set]
      exact h.drop huse hf
    · intro m path flags hm hcall
      cases hm
      cases hcall
    · intro m fd' hm hcall _ _
      cases hm
      obtain rfl : fd = fd' := Call.close.inj hcall
      exact ⟨i, f, hi, huse, hf, by simp, by simp [fdsOf]⟩

/-- **A call** ends with the tables in step, unless the server has opened a file for a
full table. -/
theorem Call.runs (k : Call) (h : InStep l.tab (fdsOf t)) :
    Client.Runs contract k.run l (t, []) fun ret l' x =>
      Outcome ⟨k, l.tab, fdsOf t, none⟩ ret.1 l'.tab x.1 x.2 := by
  have hquiet : ∀ {p : PM (Int × List UInt8)}, Quiet p → (∀ fd, k ≠ .close fd) →
      Client.Runs contract p l (t, []) fun ret l' x =>
        Outcome ⟨k, l.tab, fdsOf t, none⟩ ret.1 l'.tab x.1 x.2 := by
    intro p hp hk
    refine (hp l t [] fun _ hy => nomatch hy).mono fun ret l' x hx => ?_
    obtain ⟨htab, ht, htalk⟩ := hx
    exact .quiet h htab (congrArg fdsOf ht) (fun y hy hleak => htalk y hy hleak.1)
      fun fd hcall => absurd hcall (hk fd)
  cases k with
  | openPath path flags => exact .bind ((openPath_runs h path flags).mono fun _ _ _ hx => .pure hx)
  | close fd => exact .bind ((close_runs h fd).mono fun _ _ _ hx => .pure hx)
  | read fd count x => exact hquiet (.read fd count x) nofun
  | write fd buf x => exact hquiet (.write fd buf x) nofun
  | lseek fd off whence => exact hquiet ((Quiet.lseek fd off whence).bind fun _ => .pure _) nofun

end

end Exyde.Posix
