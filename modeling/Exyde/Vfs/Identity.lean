import Exyde.Vfs.Isolation

/-! # Client identifiers

As long as `g_next_client_id` has not wrapped around, an id that was sent in an ATTACH
reply belongs to the slot of that ATTACH until a SHUTDOWN with it, and to no slot
afterwards. A history beside the server keeps the answered ATTACHes. -/

namespace Exyde.Vfs

open List Option Server
open Exyde.Lib (Reach Reachable System)

/-- An ATTACH that was answered: the id in the reply, the slot it took, and whether
a SHUTDOWN with the id has come since. -/
structure Attach where
  id : UInt32
  slot : Fin maxClients
  ended : Bool

def endId (id : UInt32) (hist : List Attach) : List Attach :=
  hist.map fun x => if x.id = id then { x with ended := true } else x

/-- The history after a message that led from `s` to `s'`. -/
def record (m : Msg) (s s' : Server) (hist : List Attach) : List Attach :=
  if m.req.op = OP_ATTACH then
    match s.freeSlot, s'.sent.drop s.sent.length with
    | some i, [(_, r)] => hist ++ [⟨r.aux.toUInt32, i, false⟩]
    | _, _ => hist
  else if m.req.op = OP_SHUTDOWN then endId m.req.clientId hist
  else hist

def idSys : System (Server × List Attach) (Alloc × Msg) where
  start st := serverSys.start st.1 ∧ st.2 = []
  step st e := (serverSys.step st.1 e).map fun s' => (s', record e.2 st.1 s' st.2)

/-- The counter has not wrapped around when an ATTACH is answered with an id. -/
def FreshId (st : Server × List Attach) (e : Alloc × Msg) : Prop :=
  e.2.req.op = OP_ATTACH → e.2.cap ≠ none → st.1.freeSlot ≠ none → st.1.nextClientId ≠ 0

/-- The ids of the attached clients are their own. -/
structure Identified (st : Server × List Attach) : Prop where
  nonzero : ∀ {i}, (st.1.clients i).inUse = true → (st.1.clients i).id ≠ 0
  distinct : ∀ {i j}, (st.1.clients i).inUse = true → (st.1.clients j).inUse = true →
    (st.1.clients i).id = (st.1.clients j).id → i = j
  live : ∀ {x}, x ∈ st.2 → x.ended = false → st.1.clientFind x.id = some x.slot
  gone : ∀ {x}, x ∈ st.2 → x.ended = true → st.1.clientFind x.id = none

/-- What the history says about the slots. -/
structure Tracked (st : Server × List Attach) : Prop where
  wf : st.1.Wf
  ids : ∀ {x}, x ∈ st.2 → x.id ≠ 0 ∧ (st.1.nextClientId = 0 ∨ x.id < st.1.nextClientId)
  once : ∀ {x y}, x ∈ st.2 → y ∈ st.2 → x.id = y.id → x = y
  held : ∀ {x}, x ∈ st.2 → x.ended = false →
    (st.1.clients x.slot).inUse = true ∧ (st.1.clients x.slot).id = x.id
  known : ∀ {i}, (st.1.clients i).inUse = true → ∃ x ∈ st.2, x.ended = false ∧ x.slot = i

namespace Tracked

variable {st st' : Server × List Attach} {x y : Attach} {i j : Fin maxClients} {a : Alloc} {m : Msg}
  {s' : Server}

theorem known_id (h : Tracked st) (hi : (st.1.clients i).inUse = true) :
    ∃ x ∈ st.2, x.ended = false ∧ x.slot = i ∧ (st.1.clients i).id = x.id := by
  obtain ⟨x, hx, hlive, rfl⟩ := h.known hi
  exact ⟨x, hx, hlive, rfl, (h.held hx hlive).2⟩

theorem distinct (h : Tracked st) (hi : (st.1.clients i).inUse = true)
    (hj : (st.1.clients j).inUse = true) (hid : (st.1.clients i).id = (st.1.clients j).id) : i = j := by
  obtain ⟨x, hx, _, rfl, hxi⟩ := h.known_id hi
  obtain ⟨y, hy, _, rfl, hyj⟩ := h.known_id hj
  rw [h.once hx hy (by rw [← hxi, hid, hyj])]

theorem identified (h : Tracked st) : Identified st where
  nonzero hi := by
    obtain ⟨x, hx, _, _, hid⟩ := h.known_id hi
    rw [hid]
    exact (h.ids hx).1
  distinct := h.distinct
  live {x} hx hlive := by
    have hheld := h.held hx hlive
    refine clientFind_of (h.ids hx).1 hheld fun j hj hid => ?_
    exact h.distinct hj hheld.1 (hid.trans hheld.2.symm)
  gone {x} hx hended := by
    refine clientFind_none fun j hj hid => ?_
    obtain ⟨y, hy, hlive, _, hyj⟩ := h.known_id hj
    obtain rfl := h.once hx hy (hid.symm.trans hyj)
    rw [hended] at hlive
    cases hlive

/-! ## One message -/

theorem mem_endId {id : UInt32} {hist : List Attach} : y ∈ endId id hist ↔
    ∃ x ∈ hist, (if x.id = id then { x with ended := true } else x) = y :=
  mem_map

theorem same (h : Tracked st) (hwf : s'.Wf) (hnext : s'.nextClientId = st.1.nextClientId)
    (hslots : ∀ i, (s'.clients i).inUse = (st.1.clients i).inUse ∧ (s'.clients i).id = (st.1.clients i).id) :
    Tracked (s', st.2) where
  wf := hwf
  ids hx := by
    rw [hnext]
    exact h.ids hx
  once := h.once
  held {x} hx hlive := by
    rw [(hslots x.slot).1, (hslots x.slot).2]
    exact h.held hx hlive
  known {i} hi := by
    rw [(hslots i).1] at hi
    exact h.known hi

theorem ending (h : Tracked st) {id : UInt32} (hwf : s'.Wf)
    (hnext : s'.nextClientId = st.1.nextClientId)
    (hgone : ∀ i, (s'.clients i).inUse = true →
      (st.1.clients i).inUse = true ∧ (st.1.clients i).id ≠ id)
    (hkept : ∀ i, (st.1.clients i).inUse = true → (st.1.clients i).id ≠ id →
      s'.clients i = st.1.clients i) : Tracked (s', endId id st.2) := by
  -- a record that is live after was live before, and has another id
  have hback : ∀ {y}, y ∈ endId id st.2 → y.ended = false → y ∈ st.2 ∧ y.id ≠ id := by
    intro y hy hlive
    obtain ⟨x, hx, rfl⟩ := mem_endId.mp hy
    split at hlive
    · cases hlive
    next hne =>
      rw [if_neg hne]
      exact ⟨hx, hne⟩
  have hid : ∀ {y}, y ∈ endId id st.2 → ∃ x ∈ st.2, x.id = y.id ∧
      (if x.id = id then { x with ended := true } else x) = y := by
    intro y hy
    obtain ⟨x, hx, rfl⟩ := mem_endId.mp hy
    refine ⟨x, hx, ?_, rfl⟩
    split <;> rfl
  refine ⟨hwf, fun hy => ?_, fun hy hz heq => ?_, fun {y} hy hlive => ?_, fun {i} hi => ?_⟩
  · obtain ⟨x, hx, hxy, _⟩ := hid hy
    rw [hnext, ← hxy]
    exact h.ids hx
  · obtain ⟨x, hx, hxy, rfl⟩ := hid hy
    obtain ⟨w, hw, hwz, rfl⟩ := hid hz
    rw [h.once hx hw (hxy.trans (heq.trans hwz.symm))]
  · obtain ⟨hy, hne⟩ := hback hy hlive
    obtain ⟨hin, hyid⟩ := h.held hy hlive
    rw [hkept _ hin (by rw [hyid]; exact hne)]
    exact ⟨hin, hyid⟩
  · obtain ⟨hin, hne⟩ := hgone i hi
    obtain ⟨x, hx, hlive, hslot, hxid⟩ := h.known_id hin
    rw [hxid] at hne
    exact ⟨x, mem_endId.mpr ⟨x, hx, if_neg hne⟩, hlive, hslot⟩

theorem lt_succ_or_wrap {n x : UInt32} (h : x < n ∨ x = n) : n + 1 = 0 ∨ x < n + 1 := by
  by_cases hwrap : n + 1 = 0
  · exact .inl hwrap
  right
  have hlt : n.toNat + 1 < 2 ^ 32 := by
    by_contra hge
    apply hwrap
    apply UInt32.toNat_inj.mp
    have hn := n.toNat_lt
    rw [UInt32.toNat_add]
    have hone : (1 : UInt32).toNat = 1 := rfl
    have hzero : (0 : UInt32).toNat = 0 := rfl
    omega
  rw [UInt32.lt_iff_toNat_lt, UInt32.toNat_add]
  have hone : (1 : UInt32).toNat = 1 := rfl
  rcases h with h | rfl
  · rw [UInt32.lt_iff_toNat_lt] at h
    omega
  · omega

theorem attaching (h : Tracked st) {ch : Chan} (hwf : s'.Wf)
    (hfree : st.1.freeSlot = some i) (hfresh : st.1.nextClientId ≠ 0)
    (hnext : s'.nextClientId = st.1.nextClientId + 1)
    (hself : s'.clients i = ⟨true, st.1.nextClientId, some ch, .init⟩)
    (hother : ∀ j, j ≠ i → s'.clients j = st.1.clients j) :
    Tracked (s', st.2 ++ [⟨st.1.nextClientId, i, false⟩]) := by
  have hidle := freeSlot_some hfree
  have hold : ∀ {x}, x ∈ st.2 → x.id < st.1.nextClientId := fun hx => (h.ids hx).2.resolve_left hfresh
  have hne : ∀ {x}, x ∈ st.2 → x.id ≠ st.1.nextClientId := by
    intro x hx heq
    have hlt := hold hx
    rw [heq] at hlt
    exact absurd hlt (UInt32.lt_irrefl _)
  have hcases : ∀ {x}, x ∈ st.2 ++ [⟨st.1.nextClientId, i, false⟩] →
      x ∈ st.2 ∨ x = ⟨st.1.nextClientId, i, false⟩ := by
    intro x hx
    rwa [mem_append, mem_singleton] at hx
  refine ⟨hwf, fun hx => ?_, fun hx hy hid => ?_, fun {x} hx hlive => ?_, fun {j} hj => ?_⟩
  · rw [hnext]
    rcases hcases hx with hx | rfl
    · exact ⟨(h.ids hx).1, lt_succ_or_wrap (.inl (hold hx))⟩
    · exact ⟨hfresh, lt_succ_or_wrap (.inr rfl)⟩
  · rcases hcases hx with hx | rfl <;> rcases hcases hy with hy | rfl
    · exact h.once hx hy hid
    · exact absurd hid (hne hx)
    · exact absurd hid.symm (hne hy)
    · rfl
  · rcases hcases hx with hx | rfl
    · obtain ⟨hin, hid⟩ := h.held hx hlive
      have hslot : x.slot ≠ i := by
        intro heq
        rw [heq, hidle] at hin
        cases hin
      rw [hother _ hslot]
      exact ⟨hin, hid⟩
    · rw [hself]
      exact ⟨rfl, rfl⟩
  · by_cases hji : j = i
    · exact ⟨_, mem_append_right _ (mem_singleton_self _), rfl, hji.symm⟩
    · rw [hother j hji] at hj
      obtain ⟨x, hx, hlive, hslot⟩ := h.known hj
      exact ⟨x, mem_append_left _ hx, hlive, hslot⟩

theorem unknown (h : Tracked st) (hop : m.req.op ≠ OP_ATTACH)
    (hfind : st.1.clientFind m.req.clientId = none) : Tracked (st.1, record m st.1 st.1 st.2) := by
  rw [record, if_neg hop]
  split
  · have hnobody : ∀ i, (st.1.clients i).inUse = true → (st.1.clients i).id ≠ m.req.clientId := by
      intro i hi heq
      obtain ⟨x, hx, hlive, _, hxi⟩ := h.known_id hi
      have hlook := h.identified.live hx hlive
      rw [← hxi, heq, hfind] at hlook
      cases hlook
    exact h.ending h.wf rfl (fun i hi => ⟨hi, hnobody i hi⟩) fun _ _ _ => rfl
  · exact h

theorem record_attached {ch : Chan} (hop : m.req.op = OP_ATTACH) (hfree : st.1.freeSlot = some i) :
    record m st.1 ((st.1.attach i ch).post (some ch) ⟨0, st.1.nextClientId.toNat, []⟩) st.2 =
      st.2 ++ [⟨st.1.nextClientId, i, false⟩] := by
  have hsent : ((st.1.attach i ch).post (some ch) ⟨0, st.1.nextClientId.toNat, []⟩).sent =
      st.1.sent ++ [(ch, ⟨0, st.1.nextClientId.toNat, []⟩)] := rfl
  rw [record, if_pos hop, hfree, hsent, drop_left]
  dsimp only
  rw [Nat.toUInt32_eq, UInt32.ofNat_toNat]

theorem answered (h : Tracked st) {t : FdTable} {fs : Fs} {r : Rsp} (hwf : (st.1.answer i t fs r).Wf) :
    Tracked (st.1.answer i t fs r, st.2) := by
  refine h.same hwf rfl fun j => ?_
  change ((st.1.put i { st.1.clients i with fdtab := t } fs).clients j).inUse = _ ∧
    ((st.1.put i { st.1.clients i with fdtab := t } fs).clients j).id = _
  by_cases hj : j = i
  · subst hj
    rw [put_self]
    exact ⟨rfl, rfl⟩
  · rw [put_other st.1 hj]
    exact ⟨rfl, rfl⟩

theorem closed (h : Tracked st) {s1 : Server} (hwf : s1.settle.Wf)
    (hfind : st.1.clientFind m.req.clientId = some i)
    (hdetached : Detached i (st.1.post (st.1.clients i).chResp ⟨0, 0, []⟩) s1) :
    Tracked (s1.settle, endId m.req.clientId st.2) := by
  have hapart := hdetached.apart.of_post
  obtain ⟨_, hin, hclient⟩ := clientFind_some hfind
  obtain ⟨hclients, _, hnext, _⟩ := s1.settle_kept
  refine h.ending hwf (hnext.trans hdetached.next) (fun j hj => ?_) fun j hj hne => ?_
  · rw [hclients] at hj
    have hji : j ≠ i := by
      rintro rfl
      rw [hdetached.client] at hj
      cases hj
    rw [hapart.clients hji] at hj
    exact ⟨hj, fun heq => hji (h.distinct hj hin (heq.trans hclient.symm))⟩
  · rw [hclients]
    apply hapart.clients
    rintro rfl
    exact hne hclient

/-- **One message** keeps the ids apart if and only if the counter gives a fresh one. -/
theorem served (h : Tracked st) (hwf : s'.Wf) (hserved : Server.Served a m st.1 s') :
    (FreshId st (a, m) → Tracked (s', record m st.1 s' st.2)) ∧
      (¬ FreshId st (a, m) → ¬ Identified (s', record m st.1 s' st.2)) := by
  have hplain : ∀ (_ : m.req.op ≠ OP_ATTACH), FreshId st (a, m) := fun hop hattach => absurd hattach hop
  cases hserved with
  | ignored hwhy =>
    rcases hwhy with ⟨hop, hcap⟩ | ⟨hop, hfind⟩
    · have hrec : record m st.1 st.1 st.2 = st.2 := by
        rw [record, if_pos hop, drop_length]
        cases st.1.freeSlot <;> rfl
      rw [hrec]
      exact ⟨fun _ => h, fun hstale => absurd (fun _ hsome => absurd hcap hsome) hstale⟩
    · exact ⟨fun _ => h.unknown hop hfind, fun hstale => absurd (hplain hop) hstale⟩
  | @refused ch hop hcap hfull =>
    have hrec : record m st.1 (st.1.post (some ch) (.ofErrno .EMFILE)) st.2 = st.2 := by
      rw [record, if_pos hop, hfull]
    rw [hrec]
    exact ⟨fun _ => h.same hwf rfl fun _ => ⟨rfl, rfl⟩,
      fun hstale => absurd (fun _ _ hslot => absurd hfull hslot) hstale⟩
  | @attached ch i hop hcap hfree =>
    rw [record_attached hop hfree]
    refine ⟨fun hfresh => ?_, fun hstale hgood => ?_⟩
    · refine h.attaching hwf hfree (hfresh hop ?_ ?_) rfl (attach_self st.1 i ch)
        fun j hj => attach_other st.1 hj ch
      · rw [show (a, m).2.cap = some ch from hcap]
        exact some_ne_none ch
      · rw [hfree]
        exact some_ne_none i
    · -- the new client has the id zero
      have hzero : st.1.nextClientId = 0 := by
        by_contra hne
        exact hstale fun _ _ _ => hne
      have hclient := attach_self st.1 i ch
      have hin : ((st.1.attach i ch).clients i).inUse = true := by rw [hclient]
      have hid : ((st.1.attach i ch).clients i).id = 0 := by rw [hclient]; exact hzero
      exact hgood.nonzero (i := i) hin hid
  | @request i r t fs hop hlive hfind hrun hstep =>
    refine ⟨fun _ => ?_, fun hstale => absurd (hplain hop) hstale⟩
    rw [record, if_neg hop, if_neg hlive]
    exact h.answered hwf
  | @shutdown i s1 hop hfind hdetached =>
    have hnot : m.req.op ≠ OP_ATTACH := by rw [hop]; decide
    refine ⟨fun _ => ?_, fun hstale => absurd (hplain hnot) hstale⟩
    rw [record, if_neg hnot, if_pos hop]
    exact h.closed hwf hfind hdetached

theorem of_reach (h : Reach idSys FreshId st) : Tracked st := by
  refine h.invariant ?_ fun st e st' hT hfresh hstep => ?_
  · intro st hst
    obtain ⟨⟨a, ha⟩, hnil⟩ := hst
    have hfresh := boot_some ha
    obtain ⟨s, hist⟩ := st
    obtain rfl : s = Server.fresh := hfresh
    obtain rfl : hist = [] := hnil
    exact ⟨fresh_wf, fun hx => (not_mem_nil hx).elim, fun hx => (not_mem_nil hx).elim,
      fun hx => (not_mem_nil hx).elim, fun hi => Bool.noConfusion hi⟩
  · obtain ⟨s', hs', rfl⟩ := map_eq_some_iff.mp hstep
    obtain ⟨_, hwf, hserved⟩ := hT.wf.of_step hs'
    exact (hT.served hwf hserved).1 hfresh

end Tracked

/-- **Ids are unique** along every run in which no ATTACH is answered after the
counter has wrapped around; the next message keeps them so if and only if it is no
such ATTACH. -/
theorem client_ids_unique {st : Server × List Attach} (h : Reach idSys FreshId st) :
    Identified st ∧ ∀ e st', idSys.step st e = some st' → (Identified st' ↔ FreshId st e) := by
  have hT := Tracked.of_reach h
  refine ⟨hT.identified, fun e st' hstep => ?_⟩
  obtain ⟨s', hs', rfl⟩ := map_eq_some_iff.mp hstep
  obtain ⟨_, hwf, hserved⟩ := hT.wf.of_step hs'
  obtain ⟨hkeep, hbreak⟩ := hT.served hwf hserved
  constructor
  · intro hgood
    by_contra hstale
    exact hbreak hstale hgood
  · intro hfresh
    exact (hkeep hfresh).identified

theorem client_ids_unique_reuse : ∃ st, Reach idSys FreshId st ∧ Identified st ∧
    st.2.map (fun x => (x.id, x.slot, x.ended)) = [(1, 0, false), (2, 1, true), (3, 1, false)] ∧
    st.1.clientFind 3 = some 1 ∧ st.1.clientFind 2 = none := by
  let bye : Msg := ⟨{ Req.zero with op := OP_SHUTDOWN, clientId := 2 }, none⟩
  let es : List (Alloc × Msg) := [(.filled 0, .attach 0), (.filled 0, .attach 1), (.filled 0, bye),
    (.filled 0, .attach 2)]
  have hstart : idSys.start (Server.fresh, []) := ⟨⟨.filled 0, boot_eq _⟩, rfl⟩
  obtain ⟨st, hst, hslots⟩ :
      ∃ st ∈ idSys.runOk (fun st _ => st.1.nextClientId ≠ 0) (Server.fresh, []) es,
        st.2.map (fun x => (x.id, x.slot, x.ended)) = [(1, 0, false), (2, 1, true), (3, 1, false)] ∧
        st.1.clientFind 3 = some 1 ∧ st.1.clientFind 2 = none := by decide +kernel
  have hreach : Reach idSys FreshId st :=
    (Reach.runOk hst (.start hstart)).mono fun _ _ hne _ _ _ => hne
  exact ⟨st, hreach, (client_ids_unique hreach).1, hslots⟩

/-! ## Around the counter -/

/-- One client is there, with the id 1, and the next id is `n`. -/
structure Lone (s : Server) (z : Fin maxClients) (n : UInt32) : Prop where
  wf : s.Wf
  up : s.exited = false
  first : (s.clients z).inUse = true ∧ (s.clients z).id = 1
  idle : ∀ {i}, i ≠ z → (s.clients i).inUse = false
  next : s.nextClientId = n

namespace Server

variable {s : Server} {n : UInt32} {z i : Fin maxClients}

/-- An ATTACH with a channel takes a free slot if there is one. -/
theorem Wf.attach_step (h : s.Wf) (hup : s.exited = false) (hfree : (s.clients i).inUse = false)
    (ch : Chan) : ∃ j s', serverSys.step s (.filled 0, .attach ch) = some s' ∧ s'.Wf ∧
      (s.clients j).inUse = false ∧ s'.clients j = ⟨true, s.nextClientId, some ch, .init⟩ ∧
      (∀ k, k ≠ j → s'.clients k = s.clients k) ∧ s'.nextClientId = s.nextClientId + 1 ∧
      s'.exited = false := by
  obtain ⟨s', hstep, hwf, hserved⟩ := h.step hup (.filled 0) (.attach ch)
  cases hserved with
  | ignored hwhy =>
    rcases hwhy with ⟨_, hcap⟩ | ⟨hop, _⟩
    · cases hcap
    · exact absurd rfl hop
  | refused _ _ hfull =>
    rw [inUse_of_full hfull i] at hfree
    cases hfree
  | @attached ch' j _ hcap hslot =>
    obtain rfl : ch = ch' := Option.some.inj hcap
    exact ⟨j, _, hstep, hwf, freeSlot_some hslot, attach_self s j ch,
      fun k hk => attach_other s hk ch, rfl, hup⟩
  | request hop => exact absurd rfl hop
  | shutdown hop =>
    have hne : OP_ATTACH ≠ OP_SHUTDOWN := by decide
    exact absurd hop hne

end Server

namespace Lone

variable {s : Server} {n : UInt32} {z : Fin maxClients}

theorem exists_idle (h : Lone s z n) : ∃ i, (s.clients i).inUse = false := by
  have hother : ∀ z : Fin maxClients, ∃ i, i ≠ z := by decide
  obtain ⟨i, hi⟩ := hother z
  exact ⟨i, h.idle hi⟩

theorem cycle (h : Lone s z n) (hzero : n ≠ 0) (hone : n ≠ 1) (hreach : Reachable serverSys s) :
    ∃ s', Reachable serverSys s' ∧ Lone s' z (n + 1) := by
  obtain ⟨i, hi⟩ := h.exists_idle
  obtain ⟨j, s1, hstep, hwf, hidle, hself, hother, hnext, hup⟩ := h.wf.attach_step h.up hi 1
  rw [h.next] at hself hnext
  have hjz : z ≠ j := by
    rintro rfl
    rw [h.first.1] at hidle
    cases hidle
  have hin : (s1.clients j).inUse = true ∧ (s1.clients j).id = n := by
    rw [hself]
    exact ⟨rfl, rfl⟩
  have hz : (s1.clients z).inUse = true ∧ (s1.clients z).id = 1 := by
    rw [hother z hjz]
    exact h.first
  have hfind : s1.clientFind n = some j := by
    refine clientFind_of hzero hin fun k hk hid => ?_
    by_contra hkj
    rw [hother k hkj] at hk hid
    by_cases hkz : k = z
    · rw [hkz, h.first.2] at hid
      exact hone hid.symm
    · rw [h.idle hkz] at hk
      cases hk
  let bye : Msg := ⟨{ Req.zero with op := OP_SHUTDOWN, clientId := n }, none⟩
  obtain ⟨s2, hstep2, hwf2, hserved⟩ := hwf.step hup (.filled 0) bye
  have hne : OP_SHUTDOWN ≠ OP_ATTACH := by decide
  have hreach2 : Reachable serverSys s2 := .step (.step hreach trivial hstep) trivial hstep2
  cases hserved with
  | ignored hwhy =>
    rcases hwhy with ⟨hop, _⟩ | ⟨_, hnone⟩
    · exact absurd hop hne
    · rw [show bye.req.clientId = n from rfl, hfind] at hnone
      cases hnone
  | refused hop | attached hop => exact absurd hop hne
  | request _ hlive => exact absurd rfl hlive
  | @shutdown k s3 _ hfind' hdetached =>
    have hapart := hdetached.apart.of_post
    obtain rfl : j = k := Option.some.inj (hfind.symm.trans hfind')
    have hz3 : (s3.clients z).inUse = true ∧ (s3.clients z).id = 1 := by
      rw [hapart.clients hjz]
      exact hz
    rw [settle_of_alive hz3.1] at hwf2 hreach2
    refine ⟨s3, hreach2, hwf2, hdetached.exited.trans hup, hz3, fun {i} hiz => ?_,
      hdetached.next.trans hnext⟩
    by_cases hij : i = j
    · rw [hij, hdetached.client]
      rfl
    · rw [hapart.clients hij, hother i hij]
      exact h.idle hiz

/-- Clients come and go until the counter is back at zero. -/
theorem around : ∃ s z, Reachable serverSys s ∧ Lone s z 0 := by
  have hstart : Reachable serverSys Server.fresh := .start ⟨.filled 0, boot_eq _⟩
  obtain ⟨z, s1, hstep, hwf, _, hself, hother, hnext, hup⟩ :=
    fresh_wf.attach_step (i := 0) rfl rfl 0
  have hlone : Lone s1 z 2 := by
    refine ⟨hwf, hup, ?_, fun hi => ?_, hnext⟩
    · rw [hself]
      exact ⟨rfl, rfl⟩
    · rw [hother _ hi]
      rfl
  have hmany : ∀ k, k + 2 ≤ 2 ^ 32 → ∃ s, Reachable serverSys s ∧ Lone s z (UInt32.ofNat (k + 2)) := by
    intro k
    induction k with
    | zero => exact fun _ => ⟨s1, .step hstart trivial hstep, hlone⟩
    | succ k ih =>
      intro hk
      obtain ⟨s, hreach, hs⟩ := ih (by omega)
      have hval : (UInt32.ofNat (k + 2)).toNat = k + 2 := UInt32.toNat_ofNat_of_lt' (show k + 2 < 2 ^ 32 by omega)
      have hzero : UInt32.ofNat (k + 2) ≠ 0 := by
        intro heq
        rw [heq] at hval
        cases hval
      have hone : UInt32.ofNat (k + 2) ≠ 1 := by
        intro heq
        rw [heq] at hval
        have hone : (1 : UInt32).toNat = 1 := rfl
        omega
      obtain ⟨s', hreach', hs'⟩ := hs.cycle hzero hone hreach
      refine ⟨s', hreach', ?_⟩
      rw [Nat.add_right_comm, UInt32.ofNat_add]
      exact hs'
  obtain ⟨s, hreach, hs⟩ := hmany (2 ^ 32 - 2) (by omega)
  exact ⟨s, z, hreach, hs⟩

end Lone

/-- After `2 ^ 32 - 1` ATTACHes the counter is zero: the next client gets an id that
`client_find` refuses, and the one after it the id of the first, which is still there. -/
theorem client_ids_wrap : ∃ s i j k, Reachable serverSys s ∧ i ≠ j ∧
    ((s.clients i).inUse = true ∧ (s.clients j).inUse = true ∧ (s.clients i).id = (s.clients j).id) ∧
    (s.clients k).inUse = true ∧ (s.clients k).id = 0 ∧ s.clientFind 0 = none := by
  obtain ⟨s, z, hreach, h⟩ := Lone.around
  obtain ⟨i, hi⟩ := h.exists_idle
  obtain ⟨k, s1, hstep, hwf, hidle, hself, hother, hnext, hup⟩ := h.wf.attach_step h.up hi 1
  rw [h.next] at hself hnext
  have hkz : z ≠ k := by
    rintro rfl
    rw [h.first.1] at hidle
    cases hidle
  -- a slot is still free
  have hthird : ∀ z k : Fin maxClients, ∃ i, i ≠ z ∧ i ≠ k := by decide
  obtain ⟨i2, hi2z, hi2k⟩ := hthird z k
  have hfree : (s1.clients i2).inUse = false := by
    rw [hother i2 hi2k]
    exact h.idle hi2z
  obtain ⟨j, s2, hstep2, _, hidle2, hself2, hother2, _⟩ := hwf.attach_step hup hfree 2
  rw [hnext] at hself2
  have hzj : z ≠ j := by
    intro heq
    rw [← heq, hother z hkz, h.first.1] at hidle2
    cases hidle2
  have hkj : k ≠ j := by
    intro heq
    rw [← heq, hself] at hidle2
    cases hidle2
  refine ⟨s2, z, j, k, .step (.step hreach trivial hstep) trivial hstep2, hzj, ?_, ?_⟩
  · rw [hother2 z hzj, hother z hkz, hself2]
    exact ⟨h.first.1, rfl, h.first.2⟩
  · rw [hother2 k hkj, hself]
    exact ⟨rfl, rfl, if_pos rfl⟩

end Exyde.Vfs
