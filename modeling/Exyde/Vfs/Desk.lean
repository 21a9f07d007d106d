import Mathlib.Data.Fintype.Card
import Exyde.Lib.Service
import Exyde.Vfs.Isolation

/-! # The file service behind the messages

What the server is for: clients come, have a table of open files each on one file
system, make requests and go. `Link` ties the server to this: the slots in use are the
sessions. A message of a client does to the server what the request does to the service,
and its answer goes to the client's channel and nowhere else. -/

namespace Exyde.Vfs

open Finset
open Exyde.Lib (Trap)

/-- The service: the sessions of the clients, and who has ever had one. -/
structure Desk (N : Nat) where
  fs : Fs
  session : Fin N → Option FdTable
  joined : Finset (Fin N)

namespace Desk

variable {N : Nat}

def start : Desk N := ⟨.mounted, fun _ => none, ∅⟩

section

variable (w : Desk N)

def attached : Finset (Fin N) := Finset.univ.filter fun c => (w.session c).isSome

def put (c : Fin N) (t : Option FdTable) (fs : Fs) : Desk N :=
  { w with fs := fs, session := Function.update w.session c t }

def join (c : Fin N) : Desk N :=
  { w.put c (some .init) w.fs with joined := insert c w.joined }

def exec (c : Fin N) (q : Req × Alloc) : Option (Rsp × Desk N) :=
  if q.1.op = OP_ATTACH then
    if w.attached.card < maxClients then
      some (⟨0, w.joined.card + 1, []⟩, w.join c)
    else some (.ofErrno .EMFILE, w)
  else
    (w.session c).bind fun t =>
      if q.1.op = OP_SHUTDOWN then
        (Session.closeAll t w.fs).map fun r => (⟨0, 0, []⟩, w.put c none r.2)
      else (Session.perform q.2 q.1 t w.fs).map fun r => (r.1.1, w.put c (some r.1.2) r.2)

theorem put_self (c : Fin N) (t : Option FdTable) (fs : Fs) : (w.put c t fs).session c = t :=
  Function.update_self ..

theorem put_other {c c' : Fin N} (h : c' ≠ c) (t : Option FdTable) (fs : Fs) :
    (w.put c t fs).session c' = w.session c' :=
  Function.update_of_ne h ..

theorem join_self (c : Fin N) : (w.join c).session c = some .init :=
  w.put_self c (some .init) w.fs

theorem join_other {c c' : Fin N} (h : c' ≠ c) : (w.join c).session c' = w.session c' :=
  w.put_other h (some .init) w.fs

end

end Desk

def HasSlot {N : Nat} (s : Server) (c : Fin N) (id : UInt32) : Prop :=
  ∃ i, (s.clients i).inUse = true ∧ (s.clients i).chResp = some c.val ∧ (s.clients i).id = id

/-- The slots in use are the sessions. -/
structure Link {N : Nat} (s : Server) (w : Desk N) : Prop where
  wf : s.Wf
  fs : w.fs = s.fs
  slot : ∀ {i}, (s.clients i).inUse = true →
    ∃ c : Fin N, (s.clients i).chResp = some c.val ∧ w.session c = some (s.table i)
  sess : ∀ {c t}, w.session c = some t →
    ∃ i, (s.clients i).inUse = true ∧ (s.clients i).chResp = some c.val
  one : ∀ {i j}, (s.clients i).inUse = true → (s.clients j).inUse = true →
    (s.clients i).chResp = (s.clients j).chResp → i = j
  ids : ∀ {i}, (s.clients i).inUse = true →
    (s.clients i).id ≠ 0 ∧ (s.clients i).id.toNat ≤ w.joined.card
  distinct : ∀ {i j}, (s.clients i).inUse = true → (s.clients j).inUse = true →
    (s.clients i).id = (s.clients j).id → i = j
  next : s.nextClientId.toNat = w.joined.card + 1
  down : s.exited = true → ∀ i, (s.clients i).inUse = false

structure Others {N : Nat} (c : Fin N) (s : Server) (w : Desk N) (s' : Server) (w' : Desk N) : Prop where
  session : ∀ {c'}, c' ≠ c → w'.session c' = w.session c'
  joined : ∀ {c'}, c' ≠ c → (c' ∈ w'.joined ↔ c' ∈ w.joined)
  slot : ∀ {c' id}, c' ≠ c → HasSlot s c' id → HasSlot s' c' id

namespace Link

variable {N : Nat} {s s' : Server} {w : Desk N} {c : Fin N} {i j : Fin maxClients} {id : UInt32}
  {a : Alloc} {m : Msg} {t : Option FdTable}

theorem start : Link Server.fresh (Desk.start (N := N)) where
  wf := Server.fresh_wf
  fs := rfl
  slot hi := Bool.noConfusion hi
  sess hc := nomatch hc
  one hi := Bool.noConfusion hi
  ids hi := Bool.noConfusion hi
  distinct hi := Bool.noConfusion hi
  next := rfl
  down h := Bool.noConfusion h

theorem session_of (h : Link s w) (hi : (s.clients i).inUse = true)
    (hch : (s.clients i).chResp = some c.val) : w.session c = some (s.table i) := by
  obtain ⟨c', hch', hsess⟩ := h.slot hi
  obtain rfl : c = c' := Fin.ext (Option.some.inj (hch.symm.trans hch'))
  exact hsess

theorem card_attached (h : Link s w) :
    (Finset.univ.filter fun i => (s.clients i).inUse = true).card = w.attached.card := by
  have hslots : ((Finset.univ.filter fun i => (s.clients i).inUse = true).image fun i =>
      (s.clients i).chResp).card = (Finset.univ.filter fun i => (s.clients i).inUse = true).card := by
    refine card_image_of_injOn fun i hi j hj heq => h.one ?_ ?_ heq
    · exact (mem_filter.mp (mem_coe.mp hi)).2
    · exact (mem_filter.mp (mem_coe.mp hj)).2
  have hsessions : (w.attached.image fun c => some c.val).card = w.attached.card :=
    card_image_of_injective _ fun c c' heq => Fin.ext (Option.some.inj heq)
  rw [← hslots, ← hsessions]
  congr 1
  ext ch
  simp only [mem_image, mem_filter, mem_univ, true_and, Desk.attached]
  constructor
  · rintro ⟨i, hi, rfl⟩
    obtain ⟨c, hch, hsess⟩ := h.slot hi
    exact ⟨c, by rw [hsess]; rfl, hch.symm⟩
  · rintro ⟨c, hc, rfl⟩
    obtain ⟨t, ht⟩ := Option.isSome_iff_exists.mp hc
    obtain ⟨i, hi, hch⟩ := h.sess ht
    exact ⟨i, hi, hch⟩

theorem card_of_free (h : Link s w) (hfree : s.freeSlot = some i) : w.attached.card < maxClients := by
  rw [← h.card_attached]
  have hnot : i ∉ Finset.univ.filter fun i => (s.clients i).inUse = true := by
    rw [mem_filter, Server.freeSlot_some hfree]
    simp
  have hlt := card_lt_univ_of_notMem hnot
  rwa [Fintype.card_fin] at hlt

theorem card_of_full (h : Link s w) (hfull : s.freeSlot = none) : w.attached.card = maxClients := by
  rw [← h.card_attached, filter_true_of_mem fun i _ => Server.inUse_of_full hfull i,
    card_univ, Fintype.card_fin]

theorem find (h : Link s w) (hi : (s.clients i).inUse = true) :
    s.clientFind (s.clients i).id = some i :=
  Server.clientFind_of (h.ids hi).1 ⟨hi, rfl⟩ fun _ hj hid => h.distinct hj hi hid

/-! ## A client comes -/

/-- A slot in use is the new one, or was in use by another client. -/
theorem attach_cases {ch : Nat} (hj : ((s.attach i ch).clients j).inUse = true) :
    j = i ∨ (s.clients j).inUse = true ∧ (s.attach i ch).clients j = s.clients j := by
  by_cases hji : j = i
  · exact .inl hji
  · rw [s.attach_other hji] at hj
    exact .inr ⟨hj, s.attach_other hji _⟩

/-- A field tells the clients apart as before if none of them had the value of the new one. -/
theorem attach_tells {α : Type} (f : Client → α) {ch : Nat} {k : Fin maxClients}
    (hnew : ∀ {j}, (s.clients j).inUse = true → f (s.clients j) ≠ f ((s.attach i ch).clients i))
    (hone : ∀ {j k}, (s.clients j).inUse = true → (s.clients k).inUse = true →
      f (s.clients j) = f (s.clients k) → j = k)
    (hj : ((s.attach i ch).clients j).inUse = true) (hk : ((s.attach i ch).clients k).inUse = true)
    (heq : f ((s.attach i ch).clients j) = f ((s.attach i ch).clients k)) : j = k := by
  rcases attach_cases hj with rfl | ⟨hinj, hsamej⟩ <;> rcases attach_cases hk with rfl | ⟨hink, hsamek⟩
  · rfl
  · rw [hsamek] at heq
    exact absurd heq.symm (hnew hink)
  · rw [hsamej] at heq
    exact absurd heq (hnew hinj)
  · rw [hsamej, hsamek] at heq
    exact hone hinj hink heq

theorem ne_of_free (hfree : s.freeSlot = some i) (hj : (s.clients j).inUse = true) : j ≠ i := by
  rintro rfl
  rw [Server.freeSlot_some hfree] at hj
  cases hj

theorem attached (h : Link s w) (hup : s.exited = false) (hsmall : w.joined.card + 2 < 2 ^ 32)
    (hsess : w.session c = none) (hnew : c ∉ w.joined) (hfree : s.freeSlot = some i) (r : Rsp) :
    Link ((s.attach i c.val).post (some c.val) r) (w.join c) := by
  have hself := s.attach_self i c.val
  have hcard : (insert c w.joined).card = w.joined.card + 1 := card_insert_of_notMem hnew
  have hforeign : ∀ {j}, (s.clients j).inUse = true → (s.clients j).chResp ≠ some c.val := by
    intro j hj hch
    rw [h.session_of hj hch] at hsess
    cases hsess
  have hlater : ∀ {j}, (s.clients j).inUse = true → (s.clients j).id ≠ s.nextClientId := by
    intro j hj hid
    have hle := (h.ids hj).2
    rw [hid, h.next] at hle
    omega
  have hid : s.nextClientId ≠ 0 := by
    intro hzero
    have hnext := h.next
    rw [hzero] at hnext
    cases hnext
  refine ⟨((h.wf.attach h.wf.forget c.val).1.post _ _), h.fs, fun {j} hj => ?_, fun {c' t} hc' => ?_,
    attach_tells Client.chResp ?_ h.one, fun {j} hj => ?_, attach_tells Client.id ?_ h.distinct, ?_,
    fun hdown => ?_⟩
  · rcases attach_cases hj with rfl | ⟨hin, hsame⟩
    · refine ⟨c, congrArg Client.chResp hself, ?_⟩
      exact (w.join_self c).trans (congrArg (fun x => some (Client.fdtab x)) hself).symm
    · obtain ⟨c', hch, ht⟩ := h.slot hin
      have hne : c' ≠ c := fun heq => hforeign hin (heq ▸ hch)
      refine ⟨c', (congrArg Client.chResp hsame).trans hch, ?_⟩
      exact ((w.join_other hne).trans ht).trans (congrArg (fun x => some (Client.fdtab x)) hsame).symm
  · by_cases hne : c' = c
    · subst hne
      exact ⟨i, congrArg Client.inUse hself, congrArg Client.chResp hself⟩
    · obtain ⟨j, hin, hch⟩ := h.sess ((w.join_other hne).symm.trans hc')
      have hsame := s.attach_other (ne_of_free hfree hin) c.val
      exact ⟨j, (congrArg Client.inUse hsame).trans hin, (congrArg Client.chResp hsame).trans hch⟩
  · rw [hself]
    exact hforeign
  · change ((s.attach i c.val).clients j).id ≠ 0 ∧ ((s.attach i c.val).clients j).id.toNat ≤
      (insert c w.joined).card
    rw [hcard]
    rcases attach_cases hj with rfl | ⟨hin, hsame⟩
    · rw [hself]
      exact ⟨hid, Nat.le_of_eq h.next⟩
    · rw [hsame]
      exact ⟨(h.ids hin).1, Nat.le_succ_of_le (h.ids hin).2⟩
  · rw [hself]
    exact hlater
  · change (s.nextClientId + 1).toNat = (insert c w.joined).card + 1
    have hone : (1 : UInt32).toNat = 1 := rfl
    rw [hcard, UInt32.toNat_add, h.next, hone]
    omega
  · rw [show s.exited = true from hdown] at hup
    cases hup

theorem others_attached (hfree : s.freeSlot = some i) (r : Rsp) :
    Others c s w ((s.attach i c.val).post (some c.val) r) (w.join c) where
  session hne := w.join_other hne
  joined {c'} hne := by
    change c' ∈ insert c w.joined ↔ _
    rw [mem_insert]
    exact ⟨fun hmem => hmem.resolve_left hne, .inr⟩
  slot hne hslot := by
    obtain ⟨j, hin, hch, hid⟩ := hslot
    have hsame := s.attach_other (ne_of_free hfree hin) c.val
    exact ⟨j, (congrArg Client.inUse hsame).trans hin, (congrArg Client.chResp hsame).trans hch,
      (congrArg Client.id hsame).trans hid⟩

/-! ## A slot moves on, or is freed -/

theorem moved (h : Link s w) (hi : (s.clients i).inUse = true) (hch : (s.clients i).chResp = some c.val) (hwf : s'.Wf) (hnext : s'.nextClientId = s.nextClientId)
    (hother : ∀ {j}, j ≠ i → s'.clients j = s.clients j)
    (hself : (∃ t', t = some t' ∧ s'.clients i = { s.clients i with fdtab := t' }) ∨
      (t = none ∧ (s'.clients i).inUse = false))
    (hdown : s'.exited = true → ∀ j, (s'.clients j).inUse = false) :
    Link s' (w.put c t s'.fs) := by
  have hid : ∀ {j}, (s'.clients j).inUse = true → (s.clients j).inUse = true ∧
      (s'.clients j).chResp = (s.clients j).chResp ∧ (s'.clients j).id = (s.clients j).id := by
    intro j hj
    by_cases hji : j = i
    · subst hji
      rcases hself with ⟨t', _, hclient⟩ | ⟨_, hfree⟩
      · rw [hclient]
        exact ⟨hi, rfl, rfl⟩
      · rw [hfree] at hj
        cases hj
    · rw [hother hji] at hj ⊢
      exact ⟨hj, rfl, rfl⟩
  refine ⟨hwf, rfl, fun {j} hj => ?_, fun {c' t'} hc' => ?_, fun {j k} hj hk heq => ?_, fun hj => ?_,
    fun {j k} hj hk heq => ?_, (congrArg UInt32.toNat hnext).trans h.next, hdown⟩
  · by_cases hji : j = i
    · subst hji
      rcases hself with ⟨t', rfl, hclient⟩ | ⟨_, hfree⟩
      · refine ⟨c, by rw [hclient]; exact hch, ?_⟩
        rw [Server.table, hclient, w.put_self]
      · rw [hfree] at hj
        cases hj
    · obtain ⟨hin, _⟩ := hid hj
      obtain ⟨c', hch', ht⟩ := h.slot hin
      have hne : c' ≠ c := by
        rintro rfl
        exact hji (h.one hin hi (hch'.trans hch.symm))
      rw [Server.table, hother hji]
      exact ⟨c', hch', (w.put_other hne _ _).trans ht⟩
  · by_cases hne : c' = c
    · subst hne
      rw [w.put_self] at hc'
      rcases hself with ⟨t1, _, hclient⟩ | ⟨hnone, _⟩
      · exact ⟨i, by rw [hclient]; exact hi, by rw [hclient]; exact hch⟩
      · rw [hnone] at hc'
        cases hc'
    · obtain ⟨j, hin, hch'⟩ := h.sess ((w.put_other hne _ _).symm.trans hc')
      have hji : j ≠ i := by
        intro heq
        rw [heq, hch] at hch'
        exact hne (Fin.ext (Option.some.inj hch').symm)
      exact ⟨j, by rw [hother hji]; exact hin, by rw [hother hji]; exact hch'⟩
  · obtain ⟨hinj, hchj, _⟩ := hid hj
    obtain ⟨hink, hchk, _⟩ := hid hk
    exact h.one hinj hink (by rw [← hchj, heq, hchk])
  · obtain ⟨hin, _, hidj⟩ := hid hj
    rw [hidj]
    exact h.ids hin
  · obtain ⟨hinj, _, hidj⟩ := hid hj
    obtain ⟨hink, _, hidk⟩ := hid hk
    exact h.distinct hinj hink (by rw [← hidj, heq, hidk])

theorem others_moved (hch : (s.clients i).chResp = some c.val)
    (hother : ∀ {j}, j ≠ i → s'.clients j = s.clients j) : Others c s w s' (w.put c t s'.fs) where
  session hne := w.put_other hne _ _
  joined _ := Iff.rfl
  slot hne hslot := by
    obtain ⟨j, hin, hch', hid⟩ := hslot
    have hji : j ≠ i := by
      intro heq
      rw [heq, hch] at hch'
      exact hne (Fin.ext (Option.some.inj hch').symm)
    rw [← hother hji] at hin hch' hid
    exact ⟨j, hin, hch', hid⟩

end Link

/-! ## One message -/

/-- The message did to the server what the request does to the service, and the
answer went to the client's channel. -/
structure Answers {N : Nat} (c : Fin N) (q : Req × Alloc) (s : Server) (w : Desk N) (s' : Server)
    (r : Rsp) (w' : Desk N) : Prop where
  exec : w.exec c q = some (r, w')
  sent : s'.sent = s.sent ++ [(c.val, r)]
  link : Link s' w'
  others : Others c s w s' w'

namespace Link

variable {N : Nat} {s s' : Server} {w : Desk N} {c : Fin N} {i : Fin maxClients} {id : UInt32}
  {a : Alloc} {m : Msg}

/-- **An ATTACH** is refused, or gives the client a slot and says which id it has. -/
theorem attach_served (h : Link s w) (hup : s.exited = false) (hsmall : w.joined.card + 2 < 2 ^ 32)
    (hsess : w.session c = none) (hnew : c ∉ w.joined) (hserved : Server.Served a (.attach c.val) s s') :
    ∃ r w', Answers c ((Msg.attach c.val).req, a) s w s' r w' ∧
      (¬ r.ret < 0 → HasSlot s' c r.aux.toUInt32) := by
  have hattach : ((Msg.attach c.val).req, a).1.op = OP_ATTACH := rfl
  cases hserved with
  | ignored hwhy =>
    rcases hwhy with ⟨_, hcap⟩ | ⟨hop, _⟩
    · cases hcap
    · exact absurd rfl hop
  | @refused ch _ hcap hfull =>
    obtain rfl : c.val = ch := Option.some.inj hcap
    have hexec : w.exec c ((Msg.attach c.val).req, a) = some (.ofErrno .EMFILE, w) := by
      rw [Desk.exec, if_pos hattach, if_neg (by rw [h.card_of_full hfull]; exact Nat.lt_irrefl _)]
    have hlink : Link (s.post (some c.val) (.ofErrno .EMFILE)) w :=
      ⟨h.wf.post _ _, h.fs, h.slot, h.sess, h.one, h.ids, h.distinct, h.next, h.down⟩
    have hneg : (Rsp.ofErrno .EMFILE).ret < 0 := by decide
    exact ⟨_, w, ⟨hexec, rfl, hlink, ⟨fun _ => rfl, fun _ => Iff.rfl, fun _ hslot => hslot⟩⟩,
      fun hok => absurd hneg hok⟩
  | @attached ch i _ hcap hfree =>
    obtain rfl : c.val = ch := Option.some.inj hcap
    have hexec : w.exec c ((Msg.attach c.val).req, a) = some (⟨0, s.nextClientId.toNat, []⟩, w.join c) := by
      rw [Desk.exec, if_pos hattach, if_pos (h.card_of_free hfree), h.next]
    refine ⟨_, _, ⟨hexec, rfl, h.attached hup hsmall hsess hnew hfree _, others_attached hfree _⟩,
      fun _ => ⟨i, ?_⟩⟩
    have hself := s.attach_self i c.val
    refine ⟨congrArg Client.inUse hself, congrArg Client.chResp hself, ?_⟩
    rw [Nat.toUInt32_eq, UInt32.ofNat_toNat]
    exact congrArg Client.id hself
  | request hop => exact absurd rfl hop
  | shutdown hop =>
    have hne : OP_ATTACH ≠ OP_SHUTDOWN := by decide
    exact absurd hop hne

theorem find_slot (h : Link s w) (hslot : HasSlot s c id) : ∃ i, s.clientFind id = some i ∧
    (s.clients i).inUse = true ∧ (s.clients i).chResp = some c.val ∧ (s.clients i).id = id := by
  obtain ⟨i, hin, hch, rfl⟩ := hslot
  exact ⟨i, h.find hin, hin, hch, rfl⟩

/-- **A request** is performed on the session of the client. -/
theorem request_served (h : Link s w) (hslot : HasSlot s c id) (hop : m.req.op ≠ OP_ATTACH)
    (hlive : m.req.op ≠ OP_SHUTDOWN) (hid : m.req.clientId = id) (hwf : s'.Wf)
    (hserved : Server.Served a m s s') :
    ∃ r w', Answers c (m.req, a) s w s' r w' ∧ HasSlot s' c id := by
  obtain ⟨i, hfind, hin, hch, hslotid⟩ := h.find_slot hslot
  cases hserved with
  | ignored hwhy =>
    rcases hwhy with ⟨hattach, _⟩ | ⟨_, hnone⟩
    · exact absurd hattach hop
    · rw [hid, hfind] at hnone
      cases hnone
  | refused hattach | attached hattach => exact absurd hattach hop
  | @request j r t fs _ _ hfind' hrun hstep =>
    obtain rfl : i = j := by
      rw [hid, hfind] at hfind'
      exact Option.some.inj hfind'
    have hexec : w.exec c (m.req, a) = some (r, w.put c (some t) fs) := by
      rw [Desk.exec, if_neg hop, h.session_of hin hch, Option.bind_some, if_neg hlive, h.fs, hrun]
      rfl
    have hself : (s.answer i t fs r).clients i = { s.clients i with fdtab := t } := s.put_self i _ fs
    have hother : ∀ {j}, j ≠ i → (s.answer i t fs r).clients j = s.clients j :=
      fun hj => s.put_other hj _ fs
    have hsent : (s.answer i t fs r).sent = s.sent ++ [(c.val, r)] := by
      rw [Server.answer, hch]
      rfl
    have hdown : (s.answer i t fs r).exited = true → ∀ j, ((s.answer i t fs r).clients j).inUse = false := by
      intro hexit
      rw [h.down hexit i] at hin
      cases hin
    refine ⟨r, w.put c (some t) fs, ⟨hexec, hsent, ?_, ?_⟩, i, ?_⟩
    · exact h.moved hin hch hwf rfl hother (.inl ⟨t, rfl, hself⟩) hdown
    · exact others_moved hch hother
    · rw [hself]
      exact ⟨hin, hch, hslotid⟩
  | shutdown hbye => exact absurd hbye hlive

/-- **A SHUTDOWN** closes the session of the client. -/
theorem shutdown_served (h : Link s w) (hslot : HasSlot s c id) (hbye : m.req.op = OP_SHUTDOWN)
    (hid : m.req.clientId = id) (hwf : s'.Wf) (hserved : Server.Served a m s s') :
    ∃ r w', Answers c (m.req, a) s w s' r w' := by
  have hop : m.req.op ≠ OP_ATTACH := by
    rw [hbye]
    decide
  obtain ⟨i, hfind, hin, hch, _⟩ := h.find_slot hslot
  cases hserved with
  | ignored hwhy =>
    rcases hwhy with ⟨hattach, _⟩ | ⟨_, hnone⟩
    · exact absurd hattach hop
    · rw [hid, hfind] at hnone
      cases hnone
  | refused hattach | attached hattach => exact absurd hattach hop
  | request _ hlive => exact absurd hbye hlive
  | @shutdown j s1 _ hfind' hdetached =>
    obtain rfl : i = j := by
      rw [hid, hfind] at hfind'
      exact Option.some.inj hfind'
    obtain ⟨hclients, hfs, hnext, hsent⟩ := s1.settle_kept
    have hexec : w.exec c (m.req, a) = some (⟨0, 0, []⟩, w.put c none s1.settle.fs) := by
      rw [Desk.exec, if_neg hop, h.session_of hin hch, Option.bind_some, if_pos hbye, h.fs, hfs]
      have hclosed : Session.closeAll (s.table i) s.fs = some ((), s1.fs) := hdetached.closed
      rw [hclosed]
      rfl
    have hfree : (s1.settle.clients i).inUse = false := by
      rw [hclients, hdetached.client]
      rfl
    have hother : ∀ {j}, j ≠ i → s1.settle.clients j = s.clients j := by
      intro j hj
      rw [hclients]
      exact hdetached.apart.clients hj
    have hsent' : s1.settle.sent = s.sent ++ [(c.val, ⟨0, 0, []⟩)] := by
      rw [hsent, hdetached.sent, hch]
      rfl
    refine ⟨_, _, hexec, hsent', ?_, others_moved hch hother⟩
    refine h.moved hin hch hwf (hnext.trans hdetached.next) hother (.inr ⟨rfl, hfree⟩) fun hexit j => ?_
    -- the server ends only when no slot is in use
    by_contra halive
    rw [Bool.not_eq_false, hclients] at halive
    rw [Server.settle_of_alive halive, hdetached.exited] at hexit
    rw [h.down hexit i] at hin
    cases hin

end Link

end Exyde.Vfs
