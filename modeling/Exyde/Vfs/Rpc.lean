import Exyde.Vfs.Desk

/-! # Requests and replies

Any number of clients, each with `vfs_client.c` and a reply channel of its own, and the
server on one request channel. A client attaches, then makes one request after another
and waits for the reply to each. Three histories: what was queued, what the server has
taken, and what each client has received. -/

namespace Exyde.Vfs

open Function Exyde.Lib List Option

/-- Where a client is in `vfs_client_init` and `rpc`. -/
inductive Phase
  | fresh
  | attaching
  | ready (id : UInt32)
  | waiting (id : UInt32)
  | leaving
  | gone
  deriving DecidableEq, Repr

namespace Phase

def idle : Phase → Option UInt32
  | .ready id => some id
  | _ => none

/-- What the client is after a reply that it waits for. -/
def after : Phase → Rsp → Option Phase
  | .attaching, r => some (if r.ret < 0 then .gone else .ready r.aux.toUInt32)
  | .waiting id, _ => some (.ready id)
  | .leaving, _ => some .gone
  | _, _ => none

end Phase

/-- The server, its clients and the channels between them. -/
structure Net (N : Nat) where
  server : Server
  /-- the request channel, with the sender beside each message -/
  queue : List (Fin N × Msg)
  inbox : Fin N → List Rsp
  phase : Fin N → Phase
  /-- all requests, in the order in which they were queued -/
  queued : List (Fin N × Req)
  /-- the requests that the server has taken, with the allocator's answers -/
  served : List (Fin N × (Req × Alloc))
  /-- what each client has received -/
  got : Fin N → List Rsp

/-- The capacity with which init makes the request channel. -/
def requestCapacity : Nat := 8

inductive Event (N : Nat)
  | attach (c : Fin N)
  | request (c : Fin N) (q : Req)
  | serve (a : Alloc)
  | receive (c : Fin N)

namespace Net

variable {N : Nat}

def start (s : Server) : Net N := ⟨s, [], fun _ => [], fun _ => .fresh, [], [], fun _ => []⟩

def send (n : Net N) (c : Fin N) (m : Msg) (p : Phase) : Net N :=
  { n with
    queue := n.queue ++ [(c, m)]
    phase := update n.phase c p
    queued := n.queued ++ [(c, m.req)] }

/-- The server has taken the first message and has come to `s'`; what it has sent
stands in the reply channels. -/
def serve (n : Net N) (a : Alloc) (x : Fin N × Msg) (s' : Server) : Net N :=
  { n with
    server := s'
    queue := n.queue.tail
    inbox := fun c => n.inbox c ++ ofClient c.val (s'.sent.drop n.server.sent.length)
    served := n.served ++ [(x.1, (x.2.req, a))] }

def receive (n : Net N) (c : Fin N) (r : Rsp) (p : Phase) : Net N :=
  { n with
    inbox := update n.inbox c (n.inbox c).tail
    phase := update n.phase c p
    got := update n.got c (n.got c ++ [r]) }

def step (n : Net N) : Event N → Option (Net N)
  | .attach c =>
    if n.phase c = .fresh ∧ n.queue.length < requestCapacity then
      some (n.send c (.attach c.val) .attaching)
    else none
  | .request c q =>
    (n.phase c).idle.bind fun id =>
      if q.op ≠ OP_ATTACH ∧ n.queue.length < requestCapacity then
        some (n.send c ⟨{ q with clientId := id }, none⟩
          (if q.op = OP_SHUTDOWN then .leaving else .waiting id))
      else none
  | .serve a =>
    n.queue.head?.bind fun x => (serverSys.step n.server (a, x.2)).map fun s' => n.serve a x s'
  | .receive c =>
    (n.inbox c).head?.bind fun r => ((n.phase c).after r).map fun p => n.receive c r p

end Net

/-- Clients and server, in any interleaving. -/
def rpcSys (N : Nat) : System (Net N) (Event N) where
  start n := ∃ s, serverSys.start s ∧ n = .start s
  step := Net.step

/-! ## A client and its session -/

/-- A client in its phase, with its messages in the request channel and in its reply
channel: never more than one, and what it waits for is on the way. -/
inductive Stage {N : Nat} (s : Server) (w : Desk N) (c : Fin N) : Phase → List Msg → List Rsp → Prop
  | fresh (hsess : w.session c = none) (hnew : c ∉ w.joined) : Stage s w c .fresh [] []
  | asking (hsess : w.session c = none) (hnew : c ∉ w.joined) :
      Stage s w c .attaching [.attach c.val] []
  | answered {r : Rsp} (hslot : ¬ r.ret < 0 → HasSlot s c r.aux.toUInt32) :
      Stage s w c .attaching [] [r]
  | ready {id : UInt32} (hslot : HasSlot s c id) : Stage s w c (.ready id) [] []
  | calling {id : UInt32} {m : Msg} (hslot : HasSlot s c id) (hop : m.req.op ≠ OP_ATTACH)
      (hlive : m.req.op ≠ OP_SHUTDOWN) (hid : m.req.clientId = id) : Stage s w c (.waiting id) [m] []
  | called {id : UInt32} {r : Rsp} (hslot : HasSlot s c id) : Stage s w c (.waiting id) [] [r]
  | leaving {m : Msg} (hslot : HasSlot s c m.req.clientId) (hbye : m.req.op = OP_SHUTDOWN) :
      Stage s w c .leaving [m] []
  | left {r : Rsp} : Stage s w c .leaving [] [r]
  | gone : Stage s w c .gone [] []

namespace Stage

variable {N : Nat} {s s' : Server} {w w' : Desk N} {c c' : Fin N} {p : Phase} {mail tl : List Msg}
  {box : List Rsp} {m : Msg} {r : Rsp} {a : Alloc} {id : UInt32}

theorem others (h : Stage s w c p mail box) (hne : c ≠ c') (ho : Others c' s w s' w') :
    Stage s' w' c p mail box := by
  have hnew : c ∉ w.joined → c ∉ w'.joined := fun hn hmem => hn ((ho.joined hne).mp hmem)
  cases h with
  | fresh hsess hn => exact .fresh ((ho.session hne).trans hsess) (hnew hn)
  | asking hsess hn => exact .asking ((ho.session hne).trans hsess) (hnew hn)
  | answered hslot => exact .answered fun hok => ho.slot hne (hslot hok)
  | ready hslot => exact .ready (ho.slot hne hslot)
  | calling hslot hop hlive hid => exact .calling (ho.slot hne hslot) hop hlive hid
  | called hslot => exact .called (ho.slot hne hslot)
  | leaving hslot hbye => exact .leaving (ho.slot hne hslot) hbye
  | left => exact .left
  | gone => exact .gone

theorem box_le_one (h : Stage s w c p mail box) : box.length ≤ 1 := by
  cases h <;> first | exact Nat.zero_le 1 | exact Nat.le_refl 1

theorem attach (h : Stage s w c .fresh mail box) :
    mail = [] ∧ Stage s w c .attaching [.attach c.val] box := by
  cases h with
  | fresh hsess hnew => exact ⟨rfl, .asking hsess hnew⟩

theorem request (h : Stage s w c p mail box) (hidle : p.idle = some id) {q : Req}
    (hop : q.op ≠ OP_ATTACH) :
    mail = [] ∧ Stage s w c (if q.op = OP_SHUTDOWN then .leaving else .waiting id)
      [⟨{ q with clientId := id }, none⟩] box := by
  cases h with
  | @ready id' hslot =>
    obtain rfl : id' = id := Option.some.inj hidle
    refine ⟨rfl, ?_⟩
    by_cases hbye : q.op = OP_SHUTDOWN
    · rw [if_pos hbye]
      exact .leaving hslot hbye
    · rw [if_neg hbye]
      exact .calling hslot hop hbye rfl
  | _ => cases hidle

theorem received (h : Stage s w c p mail (r :: box)) {p' : Phase} (hafter : p.after r = some p') :
    Stage s w c p' mail box := by
  cases h with
  | answered hslot =>
    cases hafter
    by_cases hneg : r.ret < 0
    · rw [if_pos hneg]
      exact .gone
    · rw [if_neg hneg]
      exact .ready (hslot hneg)
  | called hslot =>
    cases hafter
    exact .ready hslot
  | left =>
    cases hafter
    exact .gone

/-- **The server takes the message of a client**: the request is executed, and its
answer is what the client waits for. -/
theorem served (h : Stage s w c p (m :: tl) box) (hlink : Link s w) (hup : s.exited = false)
    (hN : N + 1 < 2 ^ 32) (hwf : s'.Wf) (hserved : Server.Served a m s s') :
    tl = [] ∧ box = [] ∧ ∃ r w', Answers c (m.req, a) s w s' r w' ∧ Stage s' w' c p [] [r] := by
  cases h with
  | asking hsess hnew =>
    have hcard := Finset.card_lt_univ_of_notMem hnew
    rw [Fintype.card_fin] at hcard
    have hsmall : w.joined.card + 2 < 2 ^ 32 := by omega
    obtain ⟨r, w', hans, hslot⟩ := hlink.attach_served hup hsmall hsess hnew hserved
    exact ⟨rfl, rfl, r, w', hans, .answered hslot⟩
  | calling hslot hop hlive hid =>
    obtain ⟨r, w', hans, hslot'⟩ := hlink.request_served hslot hop hlive hid hwf hserved
    exact ⟨rfl, rfl, r, w', hans, .called hslot'⟩
  | leaving hslot hbye =>
    obtain ⟨r, w', hans⟩ := hlink.shutdown_served hslot hbye rfl hwf hserved
    exact ⟨rfl, rfl, r, w', hans, .left⟩

theorem names (h : Stage s w c p (m :: tl) box) (hlink : Link s w) {i : Fin maxClients}
    (hin : (s.clients i).inUse = true) (hch : (s.clients i).chResp ≠ some c.val) :
    ¬ m.Names (s.clients i).id := by
  have hslot : m.req.op ≠ OP_ATTACH → HasSlot s c m.req.clientId := by
    intro hop
    cases h with
    | asking => exact absurd rfl hop
    | calling hslot _ _ hid =>
      rw [hid]
      exact hslot
    | leaving hslot => exact hslot
  intro hnames
  obtain ⟨hop, hid⟩ := hnames
  obtain ⟨j, hin', hch', hid'⟩ := hslot hop
  obtain rfl := hlink.distinct hin' hin (hid'.trans hid)
  exact hch hch'

/-- Only an ATTACH can be under way while no client has a slot. -/
theorem down (h : Stage s w c p mail box) (hdown : ∀ i, (s.clients i).inUse = false) (hm : m ∈ mail) :
    m.req.op = OP_ATTACH := by
  have hnone : ∀ {id}, ¬ HasSlot s c id := by
    intro id hslot
    obtain ⟨i, hin, _⟩ := hslot
    rw [hdown i] at hin
    cases hin
  cases h with
  | asking =>
    obtain rfl := mem_singleton.mp hm
    rfl
  | calling hslot | leaving hslot => exact absurd hslot hnone
  | _ => cases hm

end Stage

/-! ## The system -/

/-- The server has answered what it has taken as the service does, request by request,
and the answers are on the way to the clients that asked. -/
structure Sim {N : Nat} (n : Net N) (w : Desk N) (outs : List (Fin N × Rsp)) : Prop where
  link : Link n.server w
  results : Service.run Desk.exec .start n.served = some (outs, w)
  sent : n.server.sent = outs.map fun o => (o.1.val, o.2)
  order : n.queued = (n.served.map fun x => (x.1, x.2.1)) ++ n.queue.map fun x => (x.1, x.2.req)
  inboxes : ∀ c, n.got c ++ n.inbox c = ofClient c outs
  stage : ∀ c, Stage n.server w c (n.phase c) (ofClient c n.queue) (n.inbox c)

namespace Sim

variable {N : Nat} {n n' : Net N} {w : Desk N} {outs : List (Fin N × Rsp)} {c : Fin N} {m : Msg}
  {p : Phase} {r : Rsp} {a : Alloc} {s' : Server} {x : Fin N × Msg}

theorem start : Sim (Net.start Server.fresh) (Desk.start (N := N)) [] where
  link := .start
  results := rfl
  sent := rfl
  order := rfl
  inboxes _ := rfl
  stage _ := .fresh rfl (Finset.notMem_empty _)

section

variable (h : Sim n w outs)

include h

theorem send (hmail : ofClient c n.queue = [])
    (hstage : Stage n.server w c p [m] (n.inbox c)) : Sim (n.send c m p) w outs where
  link := h.link
  results := h.results
  sent := h.sent
  order := by
    simp only [Net.send, h.order, map_append, map_cons, map_nil, append_assoc]
  inboxes := h.inboxes
  stage c' := by
    change Stage n.server w c' (update n.phase c p c') (ofClient c' (n.queue ++ [(c, m)])) _
    by_cases hc : c' = c
    · subst hc
      rw [update_self, ofClient_snoc_self, hmail]
      exact hstage
    · rw [update_of_ne hc, ofClient_snoc_ne (Ne.symm hc)]
      exact h.stage c'

theorem receive (hhead : (n.inbox c).head? = some r)
    (hafter : (n.phase c).after r = some p) : Sim (n.receive c r p) w outs := by
  obtain ⟨tl, hbox⟩ := List.head?_eq_some_iff.mp hhead
  refine ⟨h.link, h.results, h.sent, h.order, fun c' => ?_, fun c' => ?_⟩
  · change update n.got c (n.got c ++ [r]) c' ++ update n.inbox c (n.inbox c).tail c' = _
    by_cases hc : c' = c
    · subst hc
      rw [update_self, update_self, ← h.inboxes c', hbox, tail_cons,
        append_assoc, singleton_append]
    · rw [update_of_ne hc, update_of_ne hc, h.inboxes c']
  · change Stage n.server w c' (update n.phase c p c') _
      (update n.inbox c (n.inbox c).tail c')
    by_cases hc : c' = c
    · subst hc
      have hstage := h.stage c'
      rw [hbox] at hstage
      rw [update_self, update_self, hbox, tail_cons]
      exact hstage.received hafter
    · rw [update_of_ne hc, update_of_ne hc]
      exact h.stage c'

/-- **One message of the request channel**: one reply, to the client that sent it. -/
theorem serve (hN : N + 1 < 2 ^ 32) (hhead : n.queue.head? = some x)
    (hstep : serverSys.step n.server (a, x.2) = some s') :
    ∃ r w', Sim (n.serve a x s') w' (outs ++ [(x.1, r)]) ∧ n.inbox x.1 = [] ∧
      s'.sent = n.server.sent ++ [(x.1.val, r)] ∧ w.exec x.1 (x.2.req, a) = some (r, w') := by
  obtain ⟨c, m⟩ := x
  obtain ⟨tl, hqueue⟩ := List.head?_eq_some_iff.mp hhead
  obtain ⟨hup, hwf, hserved⟩ := h.link.wf.of_step hstep
  have hstage := h.stage c
  rw [hqueue, ofClient_cons_self] at hstage
  obtain ⟨htl, hbox, r, w', hans, hstage'⟩ := hstage.served h.link hup hN hwf hserved
  have hdrop : s'.sent.drop n.server.sent.length = [(c.val, r)] := by
    rw [hans.sent, drop_left]
  have hself : n.inbox c ++ ofClient c.val (s'.sent.drop n.server.sent.length) = [r] := by
    rw [hdrop, ofClient_cons_self, hbox]
    rfl
  have hother : ∀ {c'}, c' ≠ c →
      n.inbox c' ++ ofClient c'.val (s'.sent.drop n.server.sent.length) = n.inbox c' := by
    intro c' hc
    rw [hdrop, ofClient_cons_ne (Fin.val_ne_of_ne (Ne.symm hc)), ofClient_nil, append_nil]
  refine ⟨r, w', ⟨hans.link, Service.run_snoc h.results hans.exec, ?_, ?_, fun c' => ?_, fun c' => ?_⟩,
    hbox, hans.sent, hans.exec⟩
  · rw [map_append, ← h.sent]
    exact hans.sent
  · simp only [Net.serve, h.order, hqueue, map_append, map_cons, map_nil,
      tail_cons, append_assoc, singleton_append]
  · change n.got c' ++ (n.inbox c' ++ _) = _
    by_cases hc : c' = c
    · subst hc
      rw [hself, ofClient_snoc_self, ← h.inboxes c', hbox, append_nil]
    · rw [hother hc, ofClient_snoc_ne (Ne.symm hc), h.inboxes c']
  · change Stage s' w' c' (n.phase c') (ofClient c' n.queue.tail) (n.inbox c' ++ _)
    rw [hqueue, tail_cons]
    by_cases hc : c' = c
    · subst hc
      rw [hself, htl]
      exact hstage'
    · rw [hother hc]
      have hstage1 := h.stage c'
      rw [hqueue, ofClient_cons_ne (Ne.symm hc)] at hstage1
      exact hstage1.others hc hans.others

/-! What each event does, where it is enabled; only the server changes the service. -/

theorem attach_step (hstep : n.step (.attach c) = some n') :
    n.phase c = .fresh ∧ n' = n.send c (.attach c.val) .attaching ∧ Sim n' w outs := by
  obtain ⟨⟨hfresh, _⟩, hn⟩ := ite_none_right_eq_some.mp hstep
  cases hn
  have hstage := h.stage c
  rw [hfresh] at hstage
  obtain ⟨hmail, hstage'⟩ := hstage.attach
  exact ⟨hfresh, rfl, h.send hmail hstage'⟩

theorem request_step {q : Req} (hstep : n.step (.request c q) = some n') :
    ∃ id, (n.phase c).idle = some id ∧ n' = n.send c ⟨{ q with clientId := id }, none⟩
      (if q.op = OP_SHUTDOWN then .leaving else .waiting id) ∧ Sim n' w outs := by
  obtain ⟨id, hidle, hrest⟩ := bind_eq_some_iff.mp hstep
  obtain ⟨⟨hop, _⟩, hn⟩ := ite_none_right_eq_some.mp hrest
  cases hn
  obtain ⟨hmail, hstage'⟩ := (h.stage c).request hidle hop
  exact ⟨id, hidle, rfl, h.send hmail hstage'⟩

theorem serve_step (hN : N + 1 < 2 ^ 32) (hstep : n.step (.serve a) = some n') :
    ∃ x s' r w', n.queue.head? = some x ∧ n' = n.serve a x s' ∧
      Sim n' w' (outs ++ [(x.1, r)]) ∧ n.inbox x.1 = [] ∧
      s'.sent = n.server.sent ++ [(x.1.val, r)] ∧ w.exec x.1 (x.2.req, a) = some (r, w') := by
  obtain ⟨x, hhead, hrest⟩ := bind_eq_some_iff.mp hstep
  obtain ⟨s', hserve, rfl⟩ := map_eq_some_iff.mp hrest
  obtain ⟨r, w', hsim, hbox, hsent, hexec⟩ := h.serve hN hhead hserve
  exact ⟨x, s', r, w', hhead, rfl, hsim, hbox, hsent, hexec⟩

theorem receive_step (hstep : n.step (.receive c) = some n') :
    ∃ r p, (n.inbox c).head? = some r ∧ (n.phase c).after r = some p ∧ n' = n.receive c r p ∧
      Sim n' w outs := by
  obtain ⟨r, hhead, hrest⟩ := bind_eq_some_iff.mp hstep
  obtain ⟨p, hafter, rfl⟩ := map_eq_some_iff.mp hrest
  exact ⟨r, p, hhead, hafter, rfl, h.receive hhead hafter⟩

theorem step (hN : N + 1 < 2 ^ 32) {e : Event N} (hstep : n.step e = some n') :
    ∃ w' outs', Sim n' w' outs' := by
  cases e with
  | attach c =>
    obtain ⟨_, _, hsim⟩ := h.attach_step hstep
    exact ⟨w, outs, hsim⟩
  | request c q =>
    obtain ⟨_, _, _, hsim⟩ := h.request_step hstep
    exact ⟨w, outs, hsim⟩
  | serve a =>
    obtain ⟨_, _, _, w', _, _, hsim, _⟩ := h.serve_step hN hstep
    exact ⟨w', _, hsim⟩
  | receive c =>
    obtain ⟨_, _, _, _, _, hsim⟩ := h.receive_step hstep
    exact ⟨w, outs, hsim⟩

end

theorem of_reach (hN : N + 1 < 2 ^ 32) (h : Reachable (rpcSys N) n) : ∃ w outs, Sim n w outs := by
  refine h.invariant (I := fun n => ∃ w outs, Sim n w outs) ?_ ?_
  · intro n hn
    obtain ⟨s, ⟨a, ha⟩, rfl⟩ := hn
    obtain rfl := Server.boot_some ha
    exact ⟨_, _, start⟩
  · intro n e n' hsim _ hstep
    obtain ⟨w, outs, hsim⟩ := hsim
    exact hsim.step hN hstep

/-- The replies to a client are the answers to its requests. -/
theorem ofClient_sent (h : Sim n w outs) (c : Fin N) :
    ofClient c.val n.server.sent = ofClient c outs := by
  rw [h.sent]
  exact ofClient_map Fin.val_injective c outs

theorem sent_clients (h : Sim n w outs) :
    n.server.sent.map Prod.fst = n.served.map fun x => x.1.val := by
  have hclients := congrArg (List.map Fin.val) (Service.run_clients h.results)
  rw [List.map_map, List.map_map] at hclients
  rw [h.sent, List.map_map]
  exact hclients

theorem enabled (h : Sim n w outs) (hup : n.server.exited = false) (hhead : n.queue.head? = some x)
    (a : Alloc) : ∃ s', serverSys.step n.server (a, x.2) = some s' ∧
      n.step (.serve a) = some (n.serve a x s') := by
  obtain ⟨s', hs', _⟩ := h.link.wf.step hup a x.2
  refine ⟨s', hs', ?_⟩
  rw [Net.step, hhead, bind_some, hs', map_some]

theorem sameSlot (h : Sim n w outs) (hhead : n.queue.head? = some x)
    (hstep : n.step (.serve a) = some n') {i : Fin maxClients}
    (hin : (n.server.clients i).inUse = true) (hch : (n.server.clients i).chResp ≠ some x.1.val) :
    Server.SameSlot i n.server n'.server := by
  obtain ⟨y, hy, hrest⟩ := bind_eq_some_iff.mp hstep
  cases hhead.symm.trans hy
  obtain ⟨s', hserve, rfl⟩ := map_eq_some_iff.mp hrest
  obtain ⟨_, _, hserved⟩ := h.link.wf.of_step hserve
  obtain ⟨c, m⟩ := x
  obtain ⟨tl, hqueue⟩ := List.head?_eq_some_iff.mp hhead
  have hstage := h.stage c
  rw [hqueue, ofClient_cons_self] at hstage
  exact hserved.sameSlot h.link.wf hin (hstage.names h.link hin hch)

end Sim

structure Matched {N : Nat} (n : Net N) : Prop where
  /-- the server takes the requests in the order in which they were queued -/
  order : n.queued = (n.served.map fun x => (x.1, x.2.1)) ++ n.queue.map fun x => (x.1, x.2.req)
  /-- it has sent one reply to each, to the channel of the client that sent the request -/
  replies : n.server.sent.map Prod.fst = n.served.map fun x => x.1.val
  /-- what a client has received and what is in its channel is what was sent there -/
  inboxes : ∀ c, n.got c ++ n.inbox c = ofClient c.val n.server.sent
  /-- the `k`-th reply of a client is the result of its `k`-th request, after all before it -/
  kth : ∀ c k r, (ofClient c.val n.server.sent)[k]? = some r →
    ∃ pre q post outs w w', n.served = pre ++ (c, q) :: post ∧ (ofClient c pre).length = k ∧
      Service.run Desk.exec .start pre = some (outs, w) ∧ w.exec c q = some (r, w')
  /-- a reply channel holds one message at most -/
  one : ∀ c, (n.inbox c).length ≤ 1
  /-- the server can always take the next request, and has an empty channel for the reply -/
  progress : n.server.exited = false → ∀ x, n.queue.head? = some x →
    n.inbox x.1 = [] ∧ ∀ a, ∃ n', (rpcSys N).step n (.serve a) = some n'
  /-- which changes nothing for any other client -/
  others : ∀ x a n', n.queue.head? = some x → (rpcSys N).step n (.serve a) = some n' →
    ∀ i, (n.server.clients i).inUse = true → (n.server.clients i).chResp ≠ some x.1.val →
      Server.SameSlot i n.server n'.server
  /-- when it has ended, only ATTACHes are left -/
  ended : n.server.exited = true → ∀ x ∈ n.queue, x.2.req.op = OP_ATTACH

/-- **Every reply is the result of the request it answers**, for any number of clients
and any interleaving of their messages, until the last of them has detached. -/
theorem replies_match {N : Nat} (hN : N + 1 < 2 ^ 32) {n : Net N} (h : Reachable (rpcSys N) n) :
    Matched n := by
  obtain ⟨w, outs, hsim⟩ := Sim.of_reach hN h
  refine ⟨hsim.order, hsim.sent_clients, fun c => ?_, fun c k r hr => ?_,
    fun c => (hsim.stage c).box_le_one, fun hup x hhead => ⟨?_, fun a => ?_⟩,
    fun x a n' hhead hstep i hin hch => hsim.sameSlot hhead hstep hin hch, fun hexit x hx => ?_⟩
  · rw [hsim.inboxes, hsim.ofClient_sent]
  · rw [hsim.ofClient_sent] at hr
    exact Service.run_kth hsim.results hr
  · obtain ⟨s', hs', _⟩ := hsim.enabled hup hhead (.filled 0)
    obtain ⟨_, _, _, hbox, _⟩ := hsim.serve hN hhead hs'
    exact hbox
  · obtain ⟨s', _, hstep⟩ := hsim.enabled hup hhead a
    exact ⟨_, hstep⟩
  · exact (hsim.stage x.1).down (hsim.link.down hexit) (mem_ofClient hx)

theorem rpcSys_start (N : Nat) : Reachable (rpcSys N) (.start Server.fresh) :=
  .start ⟨_, ⟨.filled 0, Server.boot_eq _⟩, rfl⟩

theorem replies_match_two : ∃ n : Net 2, Reachable (rpcSys 2) n ∧ n.queued.map Prod.fst = [0, 1, 1, 0] ∧
    n.got 0 = [⟨0, 1, []⟩, ⟨0, 0, []⟩] ∧ n.got 1 = [⟨0, 2, []⟩, ⟨0, 0, []⟩] ∧ Matched n := by
  obtain ⟨n, hn, hqueued, hzero, hone⟩ : ∃ n ∈ (rpcSys 2).run (.start Server.fresh) [.attach 0,
      .attach 1, .serve (.filled 0), .serve (.filled 0), .receive 1,
      .request 1 (.openX 0 (O_CREAT ||| O_RDWR)), .receive 0, .request 0 (.openX 0 O_RDONLY),
      .serve (.filled 0), .receive 1, .serve (.filled 0), .receive 0],
      n.queued.map Prod.fst = [0, 1, 1, 0] ∧ n.got 0 = [⟨0, 1, []⟩, ⟨0, 0, []⟩] ∧
        n.got 1 = [⟨0, 2, []⟩, ⟨0, 0, []⟩] := by decide +kernel
  have hreach := (rpcSys_start 2).run hn
  exact ⟨n, hreach, hqueued, hzero, hone, replies_match (by decide) hreach⟩

/-! ## After the last client -/

namespace Net

variable {N : Nat} {n n' : Net N}

theorem step_ended {e : Event N} (hexit : n.server.exited = true) (hstep : n.step e = some n') :
    n'.server = n.server ∧ ∀ c, n'.got c ++ n'.inbox c = n.got c ++ n.inbox c := by
  cases e with
  | attach c =>
    obtain ⟨_, hn⟩ := ite_none_right_eq_some.mp hstep
    cases hn
    exact ⟨rfl, fun _ => rfl⟩
  | request c q =>
    obtain ⟨id, _, hrest⟩ := bind_eq_some_iff.mp hstep
    obtain ⟨_, hn⟩ := ite_none_right_eq_some.mp hrest
    cases hn
    exact ⟨rfl, fun _ => rfl⟩
  | serve a =>
    obtain ⟨x, _, hrest⟩ := bind_eq_some_iff.mp hstep
    obtain ⟨s', hserve, _⟩ := map_eq_some_iff.mp hrest
    simp [serverSys, hexit] at hserve
  | receive c =>
    obtain ⟨r, hhead, hrest⟩ := bind_eq_some_iff.mp hstep
    obtain ⟨p, _, rfl⟩ := map_eq_some_iff.mp hrest
    obtain ⟨tl, hbox⟩ := List.head?_eq_some_iff.mp hhead
    refine ⟨rfl, fun c' => ?_⟩
    rw [receive]
    by_cases hc : c' = c
    · subst hc
      simp only [update_self, hbox, tail_cons, append_assoc, singleton_append]
    · simp only [update_of_ne hc]

theorem run_ended {es : List (Event N)} (hexit : n.server.exited = true)
    (hrun : (rpcSys N).run n es = some n') : ∀ c, n'.got c ++ n'.inbox c = n.got c ++ n.inbox c := by
  induction es generalizing n with
  | nil =>
    cases hrun
    exact fun _ => rfl
  | cons e es ih =>
    obtain ⟨n1, hstep, hrest⟩ := bind_eq_some_iff.mp hrun
    obtain ⟨hserver, hsame⟩ := step_ended hexit hstep
    intro c
    rw [ih (hserver ▸ hexit) hrest c, hsame c]

end Net

/-- The first client goes while the ATTACH of the second is in the channel. The server
ends, and the second client never has an answer. -/
theorem late_attach_unanswered : ∃ n : Net 2, Reachable (rpcSys 2) n ∧
    n.queued.map (fun x => (x.1, x.2.op)) = [(0, OP_ATTACH), (0, OP_SHUTDOWN), (1, OP_ATTACH)] ∧
    n.phase 1 = .attaching ∧
    ∀ es n', (rpcSys 2).run n es = some n' → n'.got 1 ++ n'.inbox 1 = [] := by
  obtain ⟨n, hn, hqueued, hphase, hexit, hnone⟩ : ∃ n ∈ (rpcSys 2).run (.start Server.fresh)
      [.attach 0, .serve (.filled 0), .receive 0, .request 0 { Req.zero with op := OP_SHUTDOWN },
        .attach 1, .serve (.filled 0)],
      n.queued.map (fun x => (x.1, x.2.op)) = [(0, OP_ATTACH), (0, OP_SHUTDOWN), (1, OP_ATTACH)] ∧
        n.phase 1 = .attaching ∧ n.server.exited = true ∧ n.got 1 ++ n.inbox 1 = [] := by
    decide +kernel
  refine ⟨n, (rpcSys_start 2).run hn, hqueued, hphase, fun es n' hrun => ?_⟩
  rw [Net.run_ended hexit hrun 1, hnone]

end Exyde.Vfs
