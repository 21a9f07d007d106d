import Exyde.Lib.Runs
import Exyde.Vfs.ServerSpec

/-! # Who can change a client's slot

The server believes the `client_id` in a message, which can so act for whichever client
it names; it cannot touch the slot and the open files of a client that it does not name.
-/

namespace Exyde.Vfs

open Exyde.Lib (Reach Reachable System)

def serverSys : System Server (Alloc × Msg) where
  start s := ∃ a, boot a = some s
  step s e := if s.exited then none else (serve e.1 e.2 s).map Prod.snd

def Req.zero : Req := ⟨0, 0, 0, 0, 0, 0, fun _ => 0, fun _ => 0⟩

def Req.setPath (q : Req) (path : List UInt8) : Req :=
  { q with path := fun k => (path.take (rpcPathMax - 1)).getD k 0 }

def Msg.attach (ch : Chan) : Msg := ⟨{ Req.zero with op := OP_ATTACH }, some ch⟩

/-- The message acts for the client with this id. -/
def Msg.Names (m : Msg) (id : UInt32) : Prop := m.req.op ≠ OP_ATTACH ∧ m.req.clientId = id

namespace Server

variable {s s' : Server} {i : Fin maxClients} {a : Alloc} {m : Msg}

theorem Wf.step (h : s.Wf) (hup : s.exited = false) (a : Alloc) (m : Msg) :
    ∃ s', serverSys.step s (a, m) = some s' ∧ s'.Wf ∧ Served a m s s' := by
  obtain ⟨s', hrun, hwf, hserved⟩ := h.serve a m
  refine ⟨s', ?_, hwf, hserved⟩
  simp only [serverSys, hup, hrun]
  rfl

theorem Wf.of_step (h : s.Wf) (hstep : serverSys.step s (a, m) = some s') :
    s.exited = false ∧ s'.Wf ∧ Served a m s s' := by
  have hup : s.exited = false := by
    by_contra hdown
    simp [serverSys, hdown] at hstep
  obtain ⟨s1, hstep1, hwf, hserved⟩ := h.step hup a m
  cases hstep1.symm.trans hstep
  exact ⟨hup, hwf, hserved⟩

theorem Wf.of_served (h : Reachable serverSys s) : s.Wf := by
  refine h.invariant ?_ fun s e s' hwf _ hstep => (hwf.of_step hstep).2.1
  intro s hs
  obtain ⟨a, ha⟩ := hs
  rw [boot_some ha]
  exact fresh_wf

theorem anyAlive_of (h : (s.clients i).inUse = true) : s.anyAlive = true :=
  List.any_eq_true.mpr ⟨i, List.mem_finRange i, h⟩

theorem settle_of_alive (h : (s.clients i).inUse = true) : s.settle = s := if_pos (anyAlive_of h)

/-- The client in the slot, the files in its table, and that the server goes on. -/
structure SameSlot (i : Fin maxClients) (s s' : Server) : Prop where
  client : s'.clients i = s.clients i
  files : ∀ {fd f}, (s.clients i).fdtab fd = some f → s'.fs.files f = s.fs.files f
  exited : s'.exited = s.exited

theorem SameSlot.trans {s'' : Server} (h : SameSlot i s s') (h' : SameSlot i s' s'') :
    SameSlot i s s'' where
  client := h'.client.trans h.client
  files {fd f} hf := by
    have hf' : (s'.clients i).fdtab fd = some f := by rw [h.client]; exact hf
    exact (h'.files hf').trans (h.files hf)
  exited := h'.exited.trans h.exited

/-- **A message that does not name the client** leaves its slot alone. -/
theorem Served.sameSlot (hs : s.Wf) (h : Served a m s s') (hin : (s.clients i).inUse = true)
    (hno : ¬ m.Names (s.clients i).id) : SameSlot i s s' := by
  -- a slot that the message finds is not this one
  have hfound : ∀ {j}, m.req.op ≠ OP_ATTACH → s.clientFind m.req.clientId = some j → i ≠ j := by
    intro j hop hfind heq
    subst heq
    exact hno ⟨hop, (clientFind_some hfind).2.2.symm⟩
  have happly : ∀ {j} {s1 : Server}, i ≠ j → Apart j s s1 → s1.exited = s.exited → SameSlot i s s1 :=
    fun hij hapart hexit => ⟨hapart.clients hij, fun hf => hapart.files hij hf, hexit⟩
  cases h with
  | ignored | refused => exact ⟨rfl, fun _ => rfl, rfl⟩
  | @attached ch j hop hcap hfree =>
    have hij : i ≠ j := by
      rintro rfl
      rw [freeSlot_some hfree] at hin
      cases hin
    exact happly hij ((hs.attach hs.forget ch).2.post ..) rfl
  | @request j r t fs hop hlive hfind hrun hstep =>
    have hapart := (hs.put (c := { s.clients j with fdtab := t }) hstep).2
    exact happly (hfound hop hfind) (hapart.post ..) rfl
  | @shutdown j s1 hop hfind hdetached =>
    have hij : i ≠ j := hfound (by rw [hop]; decide) hfind
    have hapart := hdetached.apart.of_post
    have hin1 : (s1.clients i).inUse = true := by rw [hapart.clients hij]; exact hin
    rw [settle_of_alive hin1]
    exact happly hij hapart hdetached.exited

/-- **Any sequence of such messages** leaves the slot alone, as far as the server gets. -/
theorem Wf.run_sameSlot (hs : s.Wf) (hin : (s.clients i).inUse = true) {ms : List (Alloc × Msg)}
    (hno : ∀ x ∈ ms, ¬ x.2.Names (s.clients i).id) (hrun : serverSys.run s ms = some s') :
    SameSlot i s s' := by
  induction ms generalizing s with
  | nil =>
    cases hrun
    exact ⟨rfl, fun _ => rfl, rfl⟩
  | cons x ms ih =>
    obtain ⟨s1, hstep, hrest⟩ := Option.bind_eq_some_iff.mp hrun
    obtain ⟨_, hwf, hserved⟩ := hs.of_step hstep
    have hsame := hserved.sameSlot hs hin (hno x List.mem_cons_self)
    have hno1 : ∀ y ∈ ms, ¬ y.2.Names (s1.clients i).id := by
      rw [hsame.client]
      exact fun y hy => hno y (List.mem_cons_of_mem _ hy)
    exact hsame.trans (ih hwf (by rw [hsame.client]; exact hin) hno1 hrest)

end Server

/-- **A client is safe from all messages that do not name it**: whatever they are and
however far the server gets with them, they leave its attachment, its table and its open
files as they were, and the server up. Two such sequences leave them the same. -/
theorem unnamed_client_kept {s t t' : Server} (h : Reachable serverSys s) {i : Fin maxClients}
    (hin : (s.clients i).inUse = true) {ms ms' : List (Alloc × Msg)}
    (hno : ∀ x ∈ ms, ¬ x.2.Names (s.clients i).id) (hno' : ∀ x ∈ ms', ¬ x.2.Names (s.clients i).id)
    (ht : serverSys.run s ms = some t) (ht' : serverSys.run s ms' = some t') :
    (t.exited = s.exited ∧ t'.exited = s.exited) ∧
      (t.clients i = s.clients i ∧ t'.clients i = s.clients i) ∧
      ∀ fd f, (s.clients i).fdtab fd = some f →
        t.fs.files f = s.fs.files f ∧ t'.fs.files f = s.fs.files f := by
  have hwf := Server.Wf.of_served h
  have hsame := hwf.run_sameSlot hin hno ht
  have hsame' := hwf.run_sameSlot hin hno' ht'
  exact ⟨⟨hsame.exited, hsame'.exited⟩, ⟨hsame.client, hsame'.client⟩,
    fun fd f hf => ⟨hsame.files hf, hsame'.files hf⟩⟩

def Req.openX (id flags : UInt32) : Req :=
  ({ Req.zero with op := OP_OPEN, clientId := id, arg0 := flags.toUInt64 }).setPath [slash, 120]

theorem unnamed_client_kept_two : ∃ s t, Reachable serverSys s ∧ (s.clients 0).inUse = true ∧
    serverSys.run s [(.filled 0, ⟨.openX 2 (O_CREAT ||| O_RDWR), none⟩), (.filled 0, ⟨.openX 9 0, none⟩)] =
      some t ∧ t.clients 0 = s.clients 0 ∧ (t.clients 1).fdtab 0 = some 0 := by
  let ms : List (Alloc × Msg) :=
    [(.filled 0, ⟨.openX 2 (O_CREAT ||| O_RDWR), none⟩), (.filled 0, ⟨.openX 9 0, none⟩)]
  let both : List (Alloc × Msg) := [(.filled 0, .attach 0), (.filled 0, .attach 1)]
  have hstart : Reachable serverSys Server.fresh := .start ⟨.filled 0, Server.boot_eq _⟩
  obtain ⟨s, hs, hin, hid, t, hrun, hfd⟩ : ∃ s ∈ serverSys.run Server.fresh both,
      (s.clients 0).inUse = true ∧ (s.clients 0).id = 1 ∧
        ∃ t ∈ serverSys.run s ms, (t.clients 1).fdtab 0 = some 0 := by decide +kernel
  have hreach := hstart.run hs
  have hno : ∀ x ∈ ms, ¬ x.2.Names (s.clients 0).id := by
    rw [hid]
    intro x hx hnames
    rcases List.mem_cons.mp hx with rfl | hx
    · exact absurd hnames.2 (by decide)
    · obtain rfl := List.mem_singleton.mp hx
      exact absurd hnames.2 (by decide)
  obtain ⟨_, ⟨hclient, _⟩, _⟩ := unnamed_client_kept hreach hin hno hno hrun hrun
  exact ⟨s, t, hreach, hin, hrun, hclient, hfd⟩

/-- A message that anyone can send in the name of the first client detaches it. And
what the second client does decides whether the first one's own request opens a file. -/
theorem forged_shutdown_detaches :
    (serverSys.run Server.fresh [(.filled 0, .attach 0), (.filled 0, .attach 1)]).map (fun s =>
      ((s.clients 0).inUse, (s.clients 0).chResp)) = some (true, some 0) ∧
    (serverSys.run Server.fresh [(.filled 0, .attach 0), (.filled 0, .attach 1),
      (.filled 0, ⟨{ Req.zero with op := OP_SHUTDOWN, clientId := 1 }, none⟩)]).map (fun s =>
      ((s.clients 0).inUse, (s.clients 0).chResp)) = some (false, none) ∧
    (serverSys.run Server.fresh [(.filled 0, .attach 0), (.filled 0, .attach 1),
      (.filled 0, ⟨.openX 2 (O_CREAT ||| O_RDWR), none⟩), (.filled 0, ⟨.openX 1 O_RDONLY, none⟩)]).map
      (fun s => (s.clients 0).fdtab 0) = some (some 1) ∧
    (serverSys.run Server.fresh [(.filled 0, .attach 0), (.filled 0, .attach 1),
      (.filled 0, ⟨.openX 1 O_RDONLY, none⟩)]).map (fun s => (s.clients 0).fdtab 0) = some none := by
  refine ⟨?_, ?_, ?_, ?_⟩ <;> decide +kernel

end Exyde.Vfs
