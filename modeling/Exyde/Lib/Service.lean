import Mathlib.Data.List.Basic

/-! # A service that answers one request after another

Requests of several clients in one order, each executed on the state that the one before
has left and answered to the client who asked. -/

namespace Exyde.Lib

open List Option

variable {C β W Q R : Type}

def ofClient [DecidableEq C] (c : C) (l : List (C × β)) : List β :=
  (l.filter fun x => x.1 = c).map Prod.snd

section

variable [DecidableEq C] {c c' : C}

@[simp] theorem ofClient_nil (c : C) : ofClient c ([] : List (C × β)) = [] := rfl

theorem ofClient_append (c : C) (l l' : List (C × β)) :
    ofClient c (l ++ l') = ofClient c l ++ ofClient c l' := by
  rw [ofClient, filter_append, map_append]
  rfl

theorem ofClient_cons_self (c : C) (x : β) (l : List (C × β)) :
    ofClient c ((c, x) :: l) = x :: ofClient c l := by
  rw [ofClient, filter_cons_of_pos (by simp)]
  rfl

theorem ofClient_cons_ne (h : c' ≠ c) (x : β) (l : List (C × β)) :
    ofClient c ((c', x) :: l) = ofClient c l := by
  rw [ofClient, filter_cons_of_neg (by simpa using h)]
  rfl

theorem ofClient_snoc_self (c : C) (x : β) (l : List (C × β)) :
    ofClient c (l ++ [(c, x)]) = ofClient c l ++ [x] := by
  rw [ofClient_append, ofClient_cons_self, ofClient_nil]

theorem ofClient_snoc_ne (h : c' ≠ c) (x : β) (l : List (C × β)) :
    ofClient c (l ++ [(c', x)]) = ofClient c l := by
  rw [ofClient_append, ofClient_cons_ne h, ofClient_nil, append_nil]

theorem mem_ofClient {x : β} {l : List (C × β)} (h : (c, x) ∈ l) : x ∈ ofClient c l :=
  mem_map.mpr ⟨(c, x), mem_filter.mpr ⟨h, by simp⟩, rfl⟩

theorem ofClient_map {D : Type} [DecidableEq D] {f : C → D} (hf : Function.Injective f) (c : C)
    (l : List (C × β)) : ofClient (f c) (l.map fun x => (f x.1, x.2)) = ofClient c l := by
  induction l with
  | nil => rfl
  | cons x l ih =>
    obtain ⟨c', y⟩ := x
    by_cases hc : c' = c
    · subst hc
      rw [map_cons, ofClient_cons_self, ofClient_cons_self, ih]
    · rw [map_cons, ofClient_cons_ne hc, ofClient_cons_ne (hf.ne hc), ih]

end

namespace Service

variable {exec : W → C → Q → Option (R × W)} {w w' w'' : W} {c : C} {q : Q} {r : R}
  {l : List (C × Q)} {outs : List (C × R)}

/-- The answers to requests in this order, and the state after the last. -/
def run (exec : W → C → Q → Option (R × W)) : W → List (C × Q) → Option (List (C × R) × W)
  | w, [] => some ([], w)
  | w, x :: l => (exec w x.1 x.2).bind fun r =>
    (run exec r.2 l).map fun o => ((x.1, r.1) :: o.1, o.2)

theorem run_snoc (h : run exec w l = some (outs, w')) (he : exec w' c q = some (r, w'')) :
    run exec w (l ++ [(c, q)]) = some (outs ++ [(c, r)], w'') := by
  induction l generalizing w outs with
  | nil =>
    cases h
    rw [nil_append, run, he, bind_some, run, map_some]
    rfl
  | cons x l ih =>
    obtain ⟨⟨r1, w1⟩, hx, hrest⟩ := bind_eq_some_iff.mp h
    obtain ⟨⟨outs1, w2⟩, hl, heq⟩ := map_eq_some_iff.mp hrest
    cases heq
    rw [cons_append, run, hx, bind_some, ih hl, map_some]
    rfl

theorem run_clients (h : run exec w l = some (outs, w')) : outs.map Prod.fst = l.map Prod.fst := by
  induction l generalizing w outs with
  | nil =>
    cases h
    rfl
  | cons x l ih =>
    obtain ⟨⟨r1, w1⟩, hx, hrest⟩ := bind_eq_some_iff.mp h
    obtain ⟨⟨outs1, w2⟩, hl, heq⟩ := map_eq_some_iff.mp hrest
    cases heq
    rw [map_cons, map_cons, ih hl]

/-- **The answers of a client are those to its requests**: the `k`-th is the result
of its `k`-th request, on the state after all that came before. -/
theorem run_kth [DecidableEq C] {k : Nat} (h : run exec w l = some (outs, w'))
    (hr : (ofClient c outs)[k]? = some r) : ∃ pre q post o w1 w2, l = pre ++ (c, q) :: post ∧
      (ofClient c pre).length = k ∧ run exec w pre = some (o, w1) ∧ exec w1 c q = some (r, w2) := by
  induction l generalizing w outs k with
  | nil =>
    cases h
    cases hr
  | cons x l ih =>
    obtain ⟨c', q⟩ := x
    obtain ⟨⟨r1, w1⟩, hx, hrest⟩ := bind_eq_some_iff.mp h
    obtain ⟨⟨outs1, w2⟩, hl, heq⟩ := map_eq_some_iff.mp hrest
    cases heq
    -- a request further on: the first one is executed before it
    have hlater : ∀ {j}, (ofClient c outs1)[j]? = some r → ∃ pre q' post o w1 w2,
        (c', q) :: l = (c', q) :: pre ++ (c, q') :: post ∧ (ofClient c pre).length = j ∧
        run exec w ((c', q) :: pre) = some (o, w1) ∧ exec w1 c q' = some (r, w2) := by
      intro j hj
      obtain ⟨pre, q', post, o, w3, w4, rfl, hlen, hpre, hexec⟩ := ih hl hj
      refine ⟨pre, q', post, (c', r1) :: o, w3, w4, rfl, hlen, ?_, hexec⟩
      rw [run, hx, bind_some, hpre, map_some]
    by_cases hc : c' = c
    · subst hc
      rw [ofClient_cons_self] at hr
      cases k with
      | zero =>
        cases hr
        exact ⟨[], q, l, [], w, w1, rfl, rfl, rfl, hx⟩
      | succ k =>
        obtain ⟨pre, q', post, o, w3, w4, heq, hlen, hrun, hexec⟩ := hlater hr
        refine ⟨_, q', post, o, w3, w4, heq, ?_, hrun, hexec⟩
        rw [ofClient_cons_self, length_cons, hlen]
    · rw [ofClient_cons_ne hc] at hr
      obtain ⟨pre, q', post, o, w3, w4, heq, hlen, hrun, hexec⟩ := hlater hr
      refine ⟨_, q', post, o, w3, w4, heq, ?_, hrun, hexec⟩
      rw [ofClient_cons_ne hc, hlen]

end Service

end Exyde.Lib
