import Exyde.Posix.Tables

/-! # A process and the server, over every run

What the other clients do leaves the session of the process alone; what it asks is
answered by `Session.perform` on its table. So the tables are in step between any two
calls, as long as no `open` is answered while the local table is full, and out of step
after the first that is. -/

namespace Exyde.Vfs

open Exyde.Lib List Option Function

variable {N : Nat} {n n' : Net N} {w w' : Desk N} {outs : List (Fin N × Rsp)} {c c' : Fin N}

/-! ## The session of one client -/

namespace Desk

def table (w : Desk N) (c : Fin N) : FdTable := (w.session c).getD .init

theorem table_of_session (h : w'.session c = w.session c) : w'.table c = w.table c := by
  rw [table, h, table]

variable {q : Req × Alloc} {r : Rsp}

theorem exec_other (h : w.exec c' q = some (r, w')) (hc : c ≠ c') : w'.session c = w.session c := by
  rw [exec] at h
  split at h
  · split at h
    · obtain ⟨_, rfl⟩ := Prod.mk.inj (Option.some.inj h)
      exact join_other w hc
    · obtain ⟨_, rfl⟩ := Prod.mk.inj (Option.some.inj h)
      rfl
  · obtain ⟨t, _, hrest⟩ := bind_eq_some_iff.mp h
    split at hrest
    all_goals
      obtain ⟨y, _, heq⟩ := map_eq_some_iff.mp hrest
      obtain ⟨_, rfl⟩ := Prod.mk.inj heq
      exact put_other w hc ..

theorem exec_attach (h : w.exec c q = some (r, w'))
    (hop : q.1.op = OP_ATTACH) (hsess : w.session c = none) : w'.table c = w.table c := by
  rw [exec, if_pos hop] at h
  split at h
  · obtain ⟨_, rfl⟩ := Prod.mk.inj (Option.some.inj h)
    rw [table, join_self, table, hsess]
    rfl
  · obtain ⟨_, rfl⟩ := Prod.mk.inj (Option.some.inj h)
    rfl

theorem exec_request (h : w.exec c q = some (r, w'))
    (hop : q.1.op ≠ OP_ATTACH ∧ q.1.op ≠ OP_SHUTDOWN) :
    ∃ fs', Session.perform q.2 q.1 (w.table c) w.fs = some ((r, w'.table c), fs') := by
  rw [exec, if_neg hop.1] at h
  obtain ⟨t, hsess, hrest⟩ := bind_eq_some_iff.mp h
  rw [if_neg hop.2] at hrest
  obtain ⟨y, hrun, heq⟩ := map_eq_some_iff.mp hrest
  cases heq
  refine ⟨y.2, ?_⟩
  rw [table, hsess, table, put_self]
  exact hrun

end Desk

namespace Sim

theorem opened_eq (h : Sim n w outs) (c : Fin N) : n.opened c = fun fd => (w.table c fd).isSome := by
  funext fd
  rw [Bool.eq_iff_iff, Net.opened, List.any_eq_true]
  refine ⟨fun hany => ?_, fun hsome => ?_⟩
  · obtain ⟨i, _, hi⟩ := hany
    simp only [Bool.and_eq_true, beq_iff_eq] at hi
    rw [Desk.table, h.link.session_of hi.1.1 hi.1.2]
    exact hi.2
  · cases hsess : w.session c with
    | none =>
      rw [Desk.table, hsess] at hsome
      cases hsome
    | some t =>
      obtain ⟨i, hin, hch⟩ := h.link.sess hsess
      refine ⟨i, List.mem_finRange i, ?_⟩
      rw [Desk.table, h.link.session_of hin hch] at hsome
      simp only [Bool.and_eq_true, beq_iff_eq]
      exact ⟨⟨hin, hch⟩, hsome⟩

end Sim

/-! ## What the steps of a run do to one client -/

/-- Nothing that a client has sent or waits for has changed. -/
structure Unmoved (c : Fin N) (n n' : Net N) : Prop where
  phase : n'.phase c = n.phase c
  mail : ofClient c n'.queue = ofClient c n.queue
  inbox : n'.inbox c = n.inbox c

theorem Unmoved.send (n : Net N) (hc : c ≠ c') (m : Msg) (p : Phase) : Unmoved c n (n.send c' m p) where
  phase := update_of_ne hc ..
  mail := ofClient_snoc_ne hc.symm ..
  inbox := rfl

theorem Unmoved.receive (n : Net N) (hc : c ≠ c') (r : Rsp) (p : Phase) :
    Unmoved c n (n.receive c' r p) where
  phase := update_of_ne hc ..
  mail := rfl
  inbox := update_of_ne hc ..

/-- Who takes the step, or whose message the server takes. -/
def Event.actor (n : Net N) : Event N → Option (Fin N)
  | .attach c => some c
  | .request c _ => some c
  | .serve _ => n.queue.head?.map Prod.fst
  | .receive c => some c

theorem Stage.mail_nil {s : Server} {id : UInt32} {mail : List Msg} {r : Rsp}
    (h : Stage s w c (.waiting id) mail [r]) : mail = [] := by
  cases h with
  | called => rfl

theorem Stage.idle_nil {s : Server} {p : Phase} {id : UInt32} {mail : List Msg} {box : List Rsp}
    (h : Stage s w c p mail box) (hidle : p.idle = some id) : mail = [] ∧ box = [] := by
  cases h with
  | ready => exact ⟨rfl, rfl⟩
  | _ => cases hidle

def Phase.resting : Phase → Bool
  | .waiting _ | .leaving => false
  | _ => true

namespace Sim

variable {e : Event N}

/-- **The steps of the others**, and those of the server for them. -/
theorem other_step (h : Sim n w outs) (hN : N + 1 < 2 ^ 32) (hstep : n.step e = some n')
    (hactor : e.actor n ≠ some c) :
    ∃ w' outs', Sim n' w' outs' ∧ w'.table c = w.table c ∧ Unmoved c n n' := by
  cases e with
  | attach c' =>
    have hc : c ≠ c' := fun heq => hactor (congrArg some heq.symm)
    obtain ⟨_, rfl, hsim⟩ := h.attach_step hstep
    exact ⟨w, outs, hsim, rfl, .send n hc ..⟩
  | request c' q =>
    have hc : c ≠ c' := fun heq => hactor (congrArg some heq.symm)
    obtain ⟨id, _, rfl, hsim⟩ := h.request_step hstep
    exact ⟨w, outs, hsim, rfl, .send n hc ..⟩
  | serve a =>
    obtain ⟨x, s', r, w', hhead, rfl, hsim, _, hsent, hexec⟩ := h.serve_step hN hstep
    have hc : c ≠ x.1 := by
      rintro rfl
      exact hactor (by rw [Event.actor, hhead]; rfl)
    obtain ⟨tl, hqueue⟩ := List.head?_eq_some_iff.mp hhead
    refine ⟨w', _, hsim, Desk.table_of_session (Desk.exec_other hexec hc), rfl, ?_, ?_⟩
    · change ofClient c n.queue.tail = _
      rw [hqueue, tail_cons]
      exact (ofClient_cons_ne hc.symm ..).symm
    · change n.inbox c ++ ofClient c.val (s'.sent.drop n.server.sent.length) = _
      rw [hsent, drop_left, ofClient_cons_ne (Fin.val_ne_of_ne hc.symm), ofClient_nil,
        append_nil]
  | receive c' =>
    have hc : c ≠ c' := fun heq => hactor (congrArg some heq.symm)
    obtain ⟨r, p, _, _, rfl, hsim⟩ := h.receive_step hstep
    exact ⟨w, outs, hsim, rfl, .receive n hc ..⟩

theorem own_serve (h : Sim n w outs) (hN : N + 1 < 2 ^ 32) {a : Alloc}
    (hstep : n.step (.serve a) = some n') (hactor : (Event.serve a).actor n = some c) :
    ∃ m tl r w' outs', ofClient c n.queue = m :: tl ∧ Sim n' w' outs' ∧ n'.phase c = n.phase c ∧
      n'.inbox c = [r] ∧ w.exec c (m.req, a) = some (r, w') := by
  obtain ⟨x, s', r, w', hhead, rfl, hsim, hbox, hsent, hexec⟩ := h.serve_step hN hstep
  obtain rfl : x.1 = c := by
    rw [Event.actor, hhead] at hactor
    exact Option.some.inj hactor
  obtain ⟨tl, hqueue⟩ := List.head?_eq_some_iff.mp hhead
  refine ⟨x.2, ofClient x.1 tl, r, w', _, ?_, hsim, rfl, ?_, hexec⟩
  · rw [hqueue]
    exact ofClient_cons_self ..
  · change n.inbox x.1 ++ ofClient x.1.val (s'.sent.drop n.server.sent.length) = _
    rw [hsent, drop_left, hbox, ofClient_cons_self]
    rfl

/-- **A client that is in no request** keeps its table; it may attach meanwhile. -/
theorem rest_step (h : Sim n w outs) (hN : N + 1 < 2 ^ 32) (hstep : n.step e = some n')
    (hrest : (n.phase c).resting = true) (hreq : ∀ q, e ≠ .request c q)  :
    ∃ w' outs', Sim n' w' outs' ∧ w'.table c = w.table c ∧ (n'.phase c).resting = true := by
  by_cases hactor : e.actor n = some c
  · cases e with
    | attach c' =>
      obtain rfl := Option.some.inj hactor
      obtain ⟨_, rfl, hsim⟩ := h.attach_step hstep
      refine ⟨w, outs, hsim, rfl, ?_⟩
      change (update n.phase c' .attaching c').resting = true
      rw [update_self]
      rfl
    | request c' q =>
      cases hactor
      exact absurd rfl (hreq q)
    | serve a =>
      obtain ⟨m, tl, r, w', outs', hmail, hsim, hphase, _, hexec⟩ := h.own_serve hN hstep hactor
      refine ⟨w', outs', hsim, ?_, by rw [hphase]; exact hrest⟩
      -- the only message that such a client can have in the channel is its ATTACH
      have hstage := h.stage c
      rw [hmail] at hstage
      generalize n.inbox c = box at hstage
      generalize n.phase c = p at hstage hrest
      cases hstage with
      | asking hsess => exact Desk.exec_attach hexec rfl hsess
      | calling | leaving => cases hrest
    | receive c' =>
      obtain rfl := Option.some.inj hactor
      obtain ⟨r, p, _, hafter, rfl, hsim⟩ := h.receive_step hstep
      refine ⟨w, outs, hsim, rfl, (congrArg Phase.resting (update_self ..)).trans ?_⟩
      cases hphase : n.phase c' with
      | attaching =>
        rw [hphase] at hafter
        cases hafter
        split <;> rfl
      | waiting | leaving => rw [hphase] at hrest; cases hrest
      | fresh | ready | gone => rw [hphase] at hafter; cases hafter
  · obtain ⟨w', outs', hsim, htable, hsame⟩ := h.other_step hN hstep hactor
    exact ⟨w', outs', hsim, htable, by rw [hsame.phase]; exact hrest⟩

/-- **A client that waits** keeps its table until the server takes its request, and then
has the answer. -/
theorem wait_step (h : Sim n w outs) (hN : N + 1 < 2 ^ 32) (hstep : n.step e = some n')
    {id : UInt32} (hwait : n.phase c = .waiting id) (hout : e ≠ .receive c) :
    ∃ w' outs', Sim n' w' outs' ∧ n'.phase c = .waiting id ∧
      ((w'.table c = w.table c ∧ Unmoved c n n') ∨
        ∃ m tl a r, ofClient c n.queue = m :: tl ∧ n'.inbox c = [r] ∧
          w.exec c (m.req, a) = some (r, w')) := by
  by_cases hactor : e.actor n = some c
  · cases e with
    | attach c' =>
      cases hactor
      obtain ⟨hfresh, _⟩ := h.attach_step hstep
      rw [hwait] at hfresh
      cases hfresh
    | request c' q =>
      cases hactor
      obtain ⟨id', hidle, _⟩ := h.request_step hstep
      rw [hwait] at hidle
      cases hidle
    | serve a =>
      obtain ⟨m, tl, r, w', outs', hmail, hsim, hphase, hbox, hexec⟩ := h.own_serve hN hstep hactor
      exact ⟨w', outs', hsim, hphase.trans hwait, .inr ⟨m, tl, a, r, hmail, hbox, hexec⟩⟩
    | receive c' =>
      cases hactor
      exact absurd rfl hout
  · obtain ⟨w', outs', hsim, htable, hsame⟩ := h.other_step hN hstep hactor
    exact ⟨w', outs', hsim, hsame.phase.trans hwait, .inl ⟨htable, hsame⟩⟩

end Sim

end Exyde.Vfs

namespace Exyde.Posix

open Exyde.Lib Exyde.Vfs

/-! ## The process between the messages of a call -/

structure InCall (m : Made) (last : Option Made) (tab : LocalTable) (talk : List (Req × Rsp)) : Prop where
  made : last = some m
  before : m.tab = tab
  room : ∀ y ∈ talk, ¬ Leaks m.tab y.1 y.2

/-- What the rest of the call `m` comes to. -/
def Goes (m : Made) (p : Script Req Rsp ((Int × List UInt8) × Local)) (t : FdTable)
    (talk : List (Req × Rsp)) : Prop :=
  p.Safe contract (fun y z => Outcome m y.1.1 y.2.tab z.1 z.2) (t, talk)

/-- Where process `c` is, with the server's table `t` for it. -/
inductive Situation {N : Nat} (c : Fin N) (x : World N) (t : FdTable) : Prop
  | idle (hdoing : x.doing = .idle) (hphase : (x.net.phase c).resting = true)
      (hok : Consistent x.tab (fdsOf t) x.last)
  | sending {q : Req} {k : Rest} {m : Made} (hdoing : x.doing = .sending q k)
      (hphase : (x.net.phase c).resting = true) (hcall : InCall m x.last x.tab x.talk) (hgoes : Goes m (.ask q k) t x.talk)
  | asked {q : Req} {k : Rest} {m : Made} {id : UInt32} (hdoing : x.doing = .waiting q k)
      (hphase : x.net.phase c = .waiting id)
      (hmail : ofClient c x.net.queue = [⟨{ q with clientId := id }, none⟩])
      (hbox : x.net.inbox c = []) (hcall : InCall m x.last x.tab x.talk) (hgoes : Goes m (.ask q k) t x.talk)
  | answered {q : Req} {k : Rest} {m : Made} {id : UInt32} {r : Rsp} (hdoing : x.doing = .waiting q k)
      (hphase : x.net.phase c = .waiting id) (hmail : ofClient c x.net.queue = [])
      (hbox : x.net.inbox c = [r]) (hcall : InCall m x.last x.tab x.talk) (hgoes : Goes m (k r) t (x.talk ++ [(q, r)]))

variable {N : Nat} {c : Fin N} {x x' : World N} {t : FdTable} {w : Desk N} {outs : List (Fin N × Rsp)}
  {m : Made} {p : Script Req Rsp ((Int × List UInt8) × Local)} {e : PosixEvent N}

theorem World.proceed_net (x : World N) (p : Script Req Rsp ((Int × List UInt8) × Local)) :
    (x.proceed p).net = x.net := by
  cases p <;> rfl

theorem Situation.proceed (hphase : (x.net.phase c).resting = true) (hcall : InCall m x.last x.tab x.talk)
    (hgoes : Goes m p t x.talk) : Situation c (x.proceed p) t := by
  cases p with
  | done y =>
    have hlast : (x.proceed (.done y)).last = some { m with ret := some y.1.1 } := by
      rw [World.proceed, hcall.made]
      rfl
    have hend : Outcome m y.1.1 y.2.tab t x.talk := hgoes
    cases hend with
    | kept _ hok => exact .idle rfl hphase (hlast ▸ hok)
    | lost hleak =>
      obtain ⟨z, hz, hleak⟩ := hleak
      exact absurd hleak (hcall.room z hz)
  | ask q k => exact .sending rfl hphase hcall hgoes

theorem Situation.net (hsim : Sim x.net w outs) (h : Situation c x (w.table c)) (hN : N + 1 < 2 ^ 32)
    {e : Event N} {n : Net N} (hout : x.outside c e = true) (hstep : x.net.step e = some n) :
    ∃ w' outs', Sim n w' outs' ∧ Situation c { x with net := n } (w'.table c) := by
  have hreq : ∀ q, e ≠ .request c q := by
    rintro q rfl
    simp [World.outside] at hout
  have hwait : ∀ {id}, x.net.phase c = .waiting id → e ≠ .receive c := by
    rintro id hphase rfl
    simp [World.outside, hphase] at hout
  cases h with
  | idle hdoing hphase hok =>
    obtain ⟨w', outs', hsim', htable, hphase'⟩ := hsim.rest_step hN hstep hphase hreq
    exact ⟨w', outs', hsim', .idle hdoing hphase' (htable.symm ▸ hok)⟩
  | sending hdoing hphase hcall hgoes =>
    obtain ⟨w', outs', hsim', htable, hphase'⟩ := hsim.rest_step hN hstep hphase hreq
    exact ⟨w', outs', hsim', .sending hdoing hphase' hcall
      (htable.symm ▸ hgoes)⟩
  | asked hdoing hphase hmail hbox hcall hgoes =>
    obtain ⟨w', outs', hsim', hphase', hmove⟩ := hsim.wait_step hN hstep hphase (hwait hphase)
    refine ⟨w', outs', hsim', ?_⟩
    rcases hmove with ⟨htable, hsame⟩ | ⟨m, tl, a, r, hhead, hbox', hexec⟩
    · exact .asked hdoing hphase' (hsame.mail.trans hmail) (hsame.inbox.trans hbox)
        hcall (htable.symm ▸ hgoes)
    · rw [hmail] at hhead
      obtain ⟨rfl, _⟩ := List.cons.inj hhead
      have hstage := hsim'.stage c
      rw [hphase', hbox'] at hstage
      obtain ⟨fs', hrun⟩ := Desk.exec_request hexec hgoes.1
      exact .answered hdoing hphase' hstage.mail_nil hbox' hcall
        (hgoes.2 r (_, _) ⟨rfl, _, a, w.fs, fs', hrun⟩)
  | answered hdoing hphase hmail hbox hcall hgoes =>
    obtain ⟨w', outs', hsim', hphase', hmove⟩ := hsim.wait_step hN hstep hphase (hwait hphase)
    refine ⟨w', outs', hsim', ?_⟩
    rcases hmove with ⟨htable, hsame⟩ | ⟨m, tl, a, r, hhead, _⟩
    · exact .answered hdoing hphase' (hsame.mail.trans hmail) (hsame.inbox.trans hbox)
        hcall (htable.symm ▸ hgoes)
    · rw [hmail] at hhead
      cases hhead

theorem Situation.received (hsim : Sim x.net w outs) (h : Situation c x (w.table c))
    (hstep : x.step c .receive = some x') :
    ∃ q k m r n, x.doing = .waiting q k ∧ (x.net.inbox c).head? = some r ∧
      InCall m x.last x.tab x.talk ∧ Sim n w outs ∧ (n.phase c).resting = true ∧
      x' = { x with net := n, talk := x.talk ++ [(q, r)] }.proceed (k r) ∧
      Goes m (k r) (w.table c) (x.talk ++ [(q, r)]) := by
  cases h with
  | idle hdoing | sending hdoing =>
    rw [World.step, hdoing] at hstep
    cases hstep
  | asked hdoing hphase hmail hbox =>
    rw [World.step, hdoing] at hstep
    rw [hbox] at hstep
    cases hstep
  | @answered q k m id r hdoing hphase hmail hbox hcall hgoes =>
    rw [World.step, hdoing] at hstep
    obtain ⟨r', hhead, hrest⟩ := Option.bind_eq_some_iff.mp hstep
    obtain ⟨n, hrecv, rfl⟩ := Option.map_eq_some_iff.mp hrest
    obtain rfl : r = r' := by
      rw [hbox] at hhead
      exact Option.some.inj hhead
    obtain ⟨r', p, _, hafter, rfl, hsim'⟩ := hsim.receive_step hrecv
    refine ⟨q, k, m, r, _, hdoing, hhead, hcall, hsim', ?_, rfl, hgoes⟩
    rw [hphase] at hafter
    cases hafter
    change (Function.update x.net.phase c (.ready id) c).resting = true
    rw [Function.update_self]
    rfl

/-- The reply to an `open` does not come to a full table. -/
def Room (c : Fin N) (x : World N) : PosixEvent N → Prop
  | .receive => ∀ q k r, x.doing = .waiting q k → (x.net.inbox c).head? = some r → ¬ Leaks x.tab q r
  | _ => True

theorem Situation.step (hsim : Sim x.net w outs) (h : Situation c x (w.table c)) (hN : N + 1 < 2 ^ 32) (hstep : x.step c e = some x') (hroom : Room c x e) :
    ∃ w' outs', Sim x'.net w' outs' ∧ Situation c x' (w'.table c) := by
  cases e with
  | net e =>
    obtain ⟨hout, hrest⟩ := Option.ite_none_right_eq_some.mp hstep
    obtain ⟨n, hn, rfl⟩ := Option.map_eq_some_iff.mp hrest
    exact h.net hsim hN hout hn
  | call k =>
    obtain ⟨⟨hidle, _⟩, hx⟩ := Option.ite_none_right_eq_some.mp hstep
    cases hx
    cases h with
    | idle _ hphase hok =>
      refine ⟨w, outs, ?_, ?_⟩
      · rw [World.proceed_net]
        exact hsim
      · refine .proceed hphase ⟨rfl, rfl, fun _ hy => nomatch hy⟩ ?_
        rw [hsim.opened_eq]
        exact Call.runs (l := ⟨x.tab, x.errno, (x.net.phase c).idle.isSome⟩) k hok.inStep
    | sending hdoing | asked hdoing | answered hdoing => rw [hdoing] at hidle; cases hidle
  | send =>
    cases h with
    | @sending q k m hdoing hphase hcall hgoes =>
      rw [World.step, hdoing] at hstep
      obtain ⟨n, hsend, rfl⟩ := Option.map_eq_some_iff.mp hstep
      obtain ⟨id, hidle, rfl, hsim'⟩ := hsim.request_step hsend
      obtain ⟨hmail, hbox⟩ := (hsim.stage c).idle_nil hidle
      rw [if_neg hgoes.1.2]
      refine ⟨w, outs, ?_, .asked rfl (Function.update_self ..) ?_ hbox hcall hgoes⟩
      · rw [if_neg hgoes.1.2] at hsim'
        exact hsim'
      · change ofClient c (x.net.queue ++ [(c, _)]) = _
        rw [ofClient_snoc_self, hmail]
        rfl
    | idle hdoing | asked hdoing | answered hdoing =>
      rw [World.step, hdoing] at hstep
      cases hstep
  | receive =>
    obtain ⟨q, k, m, r, n, hdoing, hhead, hcall, hsim', hphase, rfl, hgoes⟩ := h.received hsim hstep
    refine ⟨w, outs, ?_, .proceed hphase ⟨hcall.made, hcall.before, fun y hy => ?_⟩ hgoes⟩
    · rw [World.proceed_net]
      exact hsim'
    · rcases List.mem_append.mp hy with hy | hy
      · exact hcall.room y hy
      · obtain rfl := List.mem_singleton.mp hy
        rw [hcall.before]
        exact hroom q k r hdoing hhead

/-- **Every run** in which no descriptor comes to a full table. -/
theorem Situation.of_reach (hN : N + 1 < 2 ^ 32) (h : Reach (posixSys N c) (Room c) x) :
    ∃ w outs, Sim x.net w outs ∧ Situation c x (w.table c) := by
  refine h.invariant (I := fun x => ∃ w outs, Sim x.net w outs ∧ Situation c x (w.table c)) ?_ ?_
  · intro x hx
    obtain ⟨n, ⟨s, ⟨a, ha⟩, rfl⟩, rfl⟩ := hx
    obtain rfl := Server.boot_some ha
    exact ⟨_, _, Sim.start, .idle rfl rfl ⟨.init, nofun, nofun⟩⟩
  · intro x e x' hx hroom hstep
    obtain ⟨w, outs, hsim, hsit⟩ := hx
    exact hsit.step hsim hN hstep hroom

theorem Situation.consistent (hsim : Sim x.net w outs) (h : Situation c x (w.table c))
    (hidle : x.doing = .idle) : Consistent x.tab (x.net.opened c) x.last := by
  rw [hsim.opened_eq]
  cases h with
  | idle _ _ hok => exact hok
  | sending hdoing | asked hdoing | answered hdoing => rw [hdoing] at hidle; cases hidle

theorem Situation.leaks (hsim : Sim x.net w outs) (h : Situation c x (w.table c)) (hstep : x.step c e = some x') (hroom : ¬ Room c x e)
    (hidle : x'.doing = .idle) : ¬ InStep x'.tab (x'.net.opened c) := by
  cases e with
  | net e | call k | send => exact absurd trivial hroom
  | receive =>
    obtain ⟨q, k, m, r, n, hdoing, hhead, hcall, hsim', _, rfl, hgoes⟩ := h.received hsim hstep
    have hleak : Leaks m.tab q r := by
      by_contra hnot
      refine hroom fun q' k' r' hdoing' hhead' => ?_
      obtain ⟨rfl, rfl⟩ := Doing.waiting.inj (hdoing.symm.trans hdoing')
      cases hhead.symm.trans hhead'
      rw [← hcall.before]
      exact hnot
    rw [World.proceed_net, hsim'.opened_eq]
    cases hk : k r with
    | ask q' k' =>
      rw [hk] at hidle
      cases hidle
    | done y =>
      rw [hk] at hgoes
      have hend : Outcome m y.1.1 y.2.tab (w.table c) (x.talk ++ [(q, r)]) := hgoes
      cases hend with
      | kept hnone => exact absurd hleak (hnone (q, r) (List.mem_append_right _ (List.mem_singleton_self _)))
      | lost _ hout => exact hout

/-- **Between two calls the tables are in step**, among any other clients and whatever
the server refuses, as long as no `open` is answered with a descriptor while all the
slots of the local table are in use. The call that is so answered ends with a
descriptor open at the server that the process does not have. -/
theorem fd_tables_in_step (hN : N + 1 < 2 ^ 32) (h : Reach (posixSys N c) (Room c) x) :
    (x.doing = .idle → Consistent x.tab (x.net.opened c) x.last) ∧
      ∀ e x', (posixSys N c).step x e = some x' → x'.doing = .idle →
        (Consistent x'.tab (x'.net.opened c) x'.last ↔ Room c x e) := by
  obtain ⟨w, outs, hsim, hsit⟩ := Situation.of_reach hN h
  refine ⟨hsit.consistent hsim, fun e x' hstep hidle => ⟨fun hok => ?_, fun hroom => ?_⟩⟩
  · by_contra hroom
    exact hsit.leaks hsim hstep hroom hidle hok.inStep
  · obtain ⟨w', outs', hsim', hsit'⟩ := hsit.step hsim hN hstep hroom
    exact hsit'.consistent hsim' hidle

/-! ## One process alone with the server -/

def attachMoves : List (PosixEvent 1) := [.net (.attach 0), .net (.serve (.filled 0)), .net (.receive 0)]

def callMoves (k : Call) : List (PosixEvent 1) := [.call k, .send, .net (.serve (.filled 0)), .receive]

def openRoot : Call := .openPath [47] O_RDONLY

theorem posixSys_start (N : Nat) (c : Fin N) {ok : World N → PosixEvent N → Prop} :
    Reach (posixSys N c) ok (.start (.start Server.fresh)) :=
  .start ⟨_, ⟨_, ⟨.filled 0, Server.boot_eq _⟩, rfl⟩, rfl⟩

theorem Doing.eq_idle {d : Doing} (h : d.isIdle = true) : d = .idle := by
  cases d with
  | idle => rfl
  | _ => cases h

theorem fd_tables_in_step_close : ∃ x : World 1, Reach (posixSys 1 0) (Room 0) x ∧ x.doing = .idle ∧
    (List.finRange fdMax).filter (x.net.opened 0) = [1] ∧ x.tab 4 = ⟨1, true⟩ ∧
    Consistent x.tab (x.net.opened 0) x.last := by
  obtain ⟨x, hx, hidle, hfds, htab⟩ : ∃ x ∈ (posixSys 1 0).runOk (fun x _ => x.tab.free.isSome = true)
      (.start (.start Server.fresh))
      (attachMoves ++ callMoves openRoot ++ callMoves openRoot ++ callMoves (.close 3)),
      x.doing.isIdle = true ∧ (List.finRange fdMax).filter (x.net.opened 0) = [1] ∧
        x.tab 4 = ⟨1, true⟩ := by decide +kernel
  have hok : ∀ (x : World 1) e, x.tab.free.isSome = true → Room 0 x e := by
    intro x e hfree
    cases e with
    | receive =>
      intro q k r _ _ hleak
      rw [LocalTable.free_none.mpr hleak.2.2] at hfree
      cases hfree
    | _ => trivial
  have hreach : Reach (posixSys 1 0) (Room 0) x := ((posixSys_start 1 0).runOk hx).mono hok
  exact ⟨x, hreach, Doing.eq_idle hidle, hfds, htab,
    (fd_tables_in_step (by decide) hreach).1 (Doing.eq_idle hidle)⟩

/-- The sixty-second `open` returns -1, and the server keeps descriptor 61 open. -/
theorem open_leaks_descriptor : ∃ x : World 1, Reachable (posixSys 1 0) x ∧ x.doing = .idle ∧
    x.last.bind Made.ret = some (-1) ∧ x.net.opened 0 61 = true ∧
    (∀ i, (x.tab i).inUse = true → (x.tab i).serverFd ≠ 61) ∧ ¬ InStep x.tab (x.net.opened 0) := by
  obtain ⟨x, hx, hidle, hret, hopen, hnone⟩ : ∃ x ∈ (posixSys 1 0).run (.start (.start Server.fresh))
      (attachMoves ++ (List.replicate 62 (callMoves openRoot)).flatten),
      x.doing.isIdle = true ∧ x.last.bind Made.ret = some (-1) ∧ x.net.opened 0 61 = true ∧
        ∀ i, (x.tab i).inUse = true → (x.tab i).serverFd ≠ 61 := by decide +kernel
  refine ⟨x, Reachable.run hx (posixSys_start 1 0), Doing.eq_idle hidle, hret, hopen, hnone, fun hstep => ?_⟩
  obtain ⟨i, hi, hfd⟩ := hstep.opened 61 hopen
  exact hnone i hi (UInt32.toNat_inj.mp hfd)

end Exyde.Posix
