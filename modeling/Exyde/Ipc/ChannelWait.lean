import Exyde.Lib.Gate
import Exyde.Ipc.ChannelSys

/-! # Nobody sleeps beside what they wait for

Two gates share a channel: messages are what receivers take and senders give, free slots
the other way round. Senders keep their gate in every run. Receivers lose theirs when a
woken receiver refuses the message it was woken for while others are still asleep. -/

namespace Exyde.Ipc

open Function Exyde.Lib List Option ChanSys

/-! ## The two sides -/

inductive Side where
  | sender
  | receiver
  deriving DecidableEq

def Side.other : Side → Side
  | .sender => .receiver
  | .receiver => .sender

theorem Side.other_ne (k : Side) : k.other ≠ k := by cases k <;> simp [other]

theorem Side.other_other (k : Side) : k.other.other = k := by cases k <;> rfl

theorem Side.eq_other {k l : Side} (h : l ≠ k) : l = k.other := by
  cases k <;> cases l <;> simp_all [other]

def Op.side (op : Op) : Side := if op.sends then .sender else .receiver

theorem Op.side_of_sends {op : Op} (h : op.sends = true) : op.side = .sender := by
  simp [side, h]

theorem Op.side_of_receives {op : Op} (h : op.receives = true) : op.side = .receiver := by
  have : op.sends = false := by simpa [receives] using h
  simp [side, this]

def Channel.queue (c : Channel) : Side → List Tid
  | .sender => c.senders
  | .receiver => c.receivers

/-- What a side waits for: free slots or messages. -/
def Channel.room (c : Channel) : Side → Nat
  | .sender => c.capacity - c.count
  | .receiver => c.count

/-- What a pass of `op` means for the side of `op` and for the other side. -/
inductive SideCase (tbl : HandleTable) (c : Channel) (t : Tid) (op : Op) : Pass → Prop
  | park {p : Pass} : p.ret = none → p.wake = none → op.blocks = true → c.room op.side = 0 →
      p.chan.queue op.side = c.queue op.side ++ [t] →
      p.chan.queue op.side.other = c.queue op.side.other →
      (∀ k, p.chan.room k = c.room k) → SideCase tbl c t op p
  | move {p : Pass} (r : Ret) : p.ret = some r → p.wake = (c.queue op.side.other).head? →
      p.chan.queue op.side = c.queue op.side →
      p.chan.queue op.side.other = (c.queue op.side.other).tail →
      c.room op.side = p.chan.room op.side + 1 →
      p.chan.room op.side.other = c.room op.side.other + 1 → SideCase tbl c t op p
  | fail {p : Pass} (r : Ret) : p.ret = some r → p.wake = none → p.chan = c →
      (op.blocks = true → op.side = .receiver ∧ op.refuses tbl c = true) → SideCase tbl c t op p

theorem pass_side (tbl : HandleTable) {c : Channel} (h : c.Wf) (t : Tid) (op : Op) :
    SideCase tbl c t op (op.pass tbl t c) := by
  have hle := h.count_le
  have hcase := pass_case tbl c t op
  generalize op.pass tbl t c = p at hcase
  cases hcase with
  | parkSend hs hb hfull =>
    have hk := Op.side_of_sends hs
    refine .park rfl rfl hb ?_ ?_ ?_ fun k => by cases k <;> rfl
    all_goals simp [hk, Side.other, Channel.room, Channel.queue, waitqPush, hfull]
  | parkRecv hr hb hempty =>
    have hk := Op.side_of_receives hr
    refine .park rfl rfl hb ?_ ?_ ?_ fun k => by cases k <;> rfl
    all_goals simp [hk, Side.other, Channel.room, Channel.queue, waitqPush, hempty]
  | put msg cap hs hne _ =>
    have hk := Op.side_of_sends hs
    refine .move .sent rfl ?_ ?_ ?_ ?_ ?_ <;>
      simp only [hk, Side.other, sendNow, Channel.enqueue, Channel.room, Channel.queue]
    omega
  | take hr h0 _ =>
    have hk := Op.side_of_receives hr
    refine .move (.received (c.item c.head)) rfl ?_ ?_ ?_ ?_ ?_ <;>
      simp only [hk, Side.other, Channel.commit, Channel.room, Channel.queue] <;> omega
  | fail r _ href => exact .fail r rfl rfl rfl fun hb => ⟨Op.side_of_receives (href hb).1, (href hb).2⟩

/-! ## The gates -/

namespace ChanSys

def wokenOf (s : ChanSys) (k : Side) : Nat :=
  s.woken.countP fun t => (s.busy t).any fun op => op.side = k

def gate (s : ChanSys) (k : Side) : Gate :=
  ⟨s.chan.room k, (s.chan.queue k).length, s.wokenOf k⟩

end ChanSys

/-- Queued threads are blocked in an operation of the queue's side; woken
threads are not blocked and have their operation to finish. -/
structure QueueInv (s : ChanSys) : Prop where
  queued : ∀ k t, t ∈ s.chan.queue k →
    s.blocked t = true ∧ ∃ op, s.busy t = some op ∧ op.side = k ∧ op.blocks = true
  woken : ∀ t, t ∈ s.woken → s.blocked t = false ∧ ∃ op, s.busy t = some op ∧ op.blocks = true
  idle : ∀ t, s.busy t = none → s.blocked t = false
  queue_nodup : ∀ k, (s.chan.queue k).Nodup
  woken_nodup : s.woken.Nodup

section

variable {s : ChanSys} {t : Tid} {c : Channel} {tbl : HandleTable} {op : Op}

theorem QueueInv.not_queued (h : QueueInv s) (hb : s.blocked t = false) (k : Side) :
    t ∉ s.chan.queue k := by
  intro hm
  have := (h.queued k t hm).1
  rw [hb] at this
  cases this

theorem wokenOf_update {woken : List Tid} {busy : Tid → Option Op} (ht : t ∉ woken)
    (v : Option Op) (k : Side) :
    (woken.countP fun u => (update busy t v u).any fun op => op.side = k) =
      woken.countP fun u => (busy u).any fun op => op.side = k := by
  apply countP_congr
  intro u hu
  have hne : u ≠ t := by rintro rfl; exact ht hu
  rw [update_of_ne hne]

/-! ### Parking -/

theorem attempt_park (hret : (op.pass tbl t s.chan).ret = none)
    (hw : (op.pass tbl t s.chan).wake = none) :
    s.attempt t tbl op =
      { s with
        chan := (op.pass tbl t s.chan).chan
        busy := update s.busy t (some op)
        blocked := update s.blocked t true } := by
  simp [attempt, hret, hw, wakeUp]

theorem QueueInv.park (h : QueueInv s) (hb : s.blocked t = false)
    (hw : t ∉ s.woken) (hop : op.blocks = true)
    (hq : c.queue op.side = s.chan.queue op.side ++ [t])
    (hq' : c.queue op.side.other = s.chan.queue op.side.other) :
    QueueInv
      { s with
        chan := c
        busy := update s.busy t (some op)
        blocked := update s.blocked t true } where
  queued := by
    have old : ∀ k u, u ∈ s.chan.queue k → update s.blocked t true u = true ∧
        ∃ o, update s.busy t (some op) u = some o ∧ o.side = k ∧ o.blocks = true := by
      intro k u hu
      have hne : u ≠ t := by rintro rfl; exact h.not_queued hb k hu
      rw [update_of_ne hne, update_of_ne hne]
      exact h.queued k u hu
    intro k u hu
    by_cases hk : k = op.side
    · subst hk
      simp only [hq, mem_append, mem_singleton] at hu
      rcases hu with hu | rfl
      · exact old _ u hu
      · exact ⟨update_self .., op, update_self .., rfl, hop⟩
    · rw [Side.eq_other hk, hq'] at hu
      exact Side.eq_other hk ▸ old _ u hu
  woken := by
    intro u hu
    have hne : u ≠ t := by rintro rfl; exact hw hu
    simp only [update_of_ne hne]
    exact h.woken u hu
  idle := by
    intro u hu
    have hne : u ≠ t := by rintro rfl; simp at hu
    simp only [update_of_ne hne] at hu ⊢
    exact h.idle u hu
  queue_nodup := by
    intro k
    by_cases hk : k = op.side
    · subst hk
      simp only [hq]
      exact (h.queue_nodup _).append (nodup_singleton t)
        (disjoint_singleton.mpr (h.not_queued hb _))
    · rw [Side.eq_other hk]
      simp only [hq']
      exact h.queue_nodup _
  woken_nodup := h.woken_nodup

/-! ### Completing -/

/-- Pop the head of one queue, if there is one, and wake it. -/
theorem QueueInv.pop {k : Side} (h : QueueInv s)
    (hq : c.queue k = (s.chan.queue k).tail) (hq' : c.queue k.other = s.chan.queue k.other) :
    QueueInv (wakeUp { s with chan := c } (s.chan.queue k).head?) := by
  have hsub : ∀ l u, u ∈ c.queue l → u ∈ s.chan.queue l := by
    intro l u hu
    by_cases hl : l = k
    · subst hl; rw [hq] at hu; exact mem_of_mem_tail hu
    · rw [Side.eq_other hl, hq'] at hu; rwa [Side.eq_other hl]
  have hnodup : ∀ l, (c.queue l).Nodup := by
    intro l
    by_cases hl : l = k
    · subst hl; rw [hq]; exact (h.queue_nodup _).tail
    · rw [Side.eq_other hl, hq']; exact h.queue_nodup _
  cases hlist : s.chan.queue k with
  | nil => exact ⟨fun l u hu => h.queued l u (hsub l u hu), h.woken, h.idle, hnodup, h.woken_nodup⟩
  | cons w rest =>
    obtain ⟨hwb, op, hbusy, hside, hblocks⟩ := h.queued k w (by simp [hlist])
    -- the popped thread is in no queue any more
    have hgone : ∀ l, w ∉ c.queue l := by
      intro l hw
      obtain ⟨-, op', hbusy', hside', -⟩ := h.queued l w (hsub l w hw)
      rw [hbusy] at hbusy'
      cases hbusy'
      rw [hside] at hside'
      subst hside'
      have := h.queue_nodup k
      rw [hq, hlist] at hw
      rw [hlist] at this
      exact (nodup_cons.mp this).1 hw
    simp only [List.head?_cons, wakeUp, hwb, if_true]
    refine ⟨?_, ?_, ?_, hnodup, ?_⟩
    · intro l u hu
      have hne : u ≠ w := by rintro rfl; exact hgone l hu
      simp only [update_of_ne hne]
      exact h.queued l u (hsub l u hu)
    · intro u hu
      simp only [mem_append, mem_singleton] at hu
      by_cases hne : u = w
      · subst hne; exact ⟨update_self .., op, hbusy, hblocks⟩
      · simp only [update_of_ne hne]
        exact h.woken u (hu.resolve_right hne)
    · intro u hu
      have hne : u ≠ w := by rintro rfl; simp [hbusy] at hu
      simp only [update_of_ne hne]
      exact h.idle u hu
    · refine h.woken_nodup.append (nodup_singleton w) (disjoint_singleton.mpr ?_)
      intro hw
      have := (h.woken w hw).1
      rw [hwb] at this
      cases this

theorem wokenOf_pop {k : Side} (h : QueueInv s) (l : Side) :
    (wakeUp { s with chan := c } (s.chan.queue k).head?).wokenOf l =
      s.wokenOf l + if l = k ∧ s.chan.queue k ≠ [] then 1 else 0 := by
  cases hlist : s.chan.queue k with
  | nil => simp [wakeUp, wokenOf]
  | cons w rest =>
    obtain ⟨hwb, op, hbusy, hside, -⟩ := h.queued k w (by simp [hlist])
    simp only [List.head?_cons, wakeUp, hwb, if_true, wokenOf, countP_append,
      countP_singleton, hbusy, any_some, hside]
    by_cases hl : l = k
    · simp [hl]
    · simp [hl, Ne.symm hl]

theorem QueueInv.finish {s' : ChanSys} (h : QueueInv s) (hb : s.blocked t = false)
    (hw : t ∉ s.woken) (hc : s'.chan = s.chan) (hwo : s'.woken = s.woken)
    (hbl : s'.blocked = s.blocked) (hbu : s'.busy = update s.busy t none) :
    QueueInv s' where
  queued := by
    intro k u hu
    rw [hc] at hu
    have hne : u ≠ t := by rintro rfl; exact h.not_queued hb k hu
    rw [hbl, hbu, update_of_ne hne]
    exact h.queued k u hu
  woken := by
    intro u hu
    rw [hwo] at hu
    have hne : u ≠ t := by rintro rfl; exact hw hu
    rw [hbl, hbu, update_of_ne hne]
    exact h.woken u hu
  idle := by
    intro u hu
    rw [hbl]
    by_cases hne : u = t
    · rw [hne]; exact hb
    · rw [hbu, update_of_ne hne] at hu
      exact h.idle u hu
  queue_nodup := by rw [hc]; exact h.queue_nodup
  woken_nodup := by rw [hwo]; exact h.woken_nodup

theorem wokenOf_finish {s' : ChanSys} (hw : t ∉ s.woken) (hwo : s'.woken = s.woken)
    (hbu : s'.busy = update s.busy t none) (k : Side) : s'.wokenOf k = s.wokenOf k := by
  rw [wokenOf, hwo, hbu]
  exact wokenOf_update hw none k

theorem attempt_done {r : Ret}
    (hret : (op.pass tbl t s.chan).ret = some r) :
    let w := wakeUp { s with chan := (op.pass tbl t s.chan).chan } (op.pass tbl t s.chan).wake
    (s.attempt t tbl op).chan = w.chan ∧ (s.attempt t tbl op).woken = w.woken ∧
      (s.attempt t tbl op).blocked = w.blocked ∧
      (s.attempt t tbl op).busy = update w.busy t none := by
  cases r <;> simp [attempt, hret, record]

theorem wakeUp_outside {w : Option Tid} (hb : s.blocked t = false)
    (hw : t ∉ s.woken) :
    (wakeUp { s with chan := c } w).blocked t = false ∧
      t ∉ (wakeUp { s with chan := c } w).woken := by
  cases w with
  | none => exact ⟨hb, hw⟩
  | some w =>
    simp only [wakeUp]
    split
    next hblk =>
      have hne : t ≠ w := by rintro rfl; rw [hb] at hblk; cases hblk
      simp [hb, hw, hne]
    · exact ⟨hb, hw⟩

/-- What a pass by a thread outside the queues does to the gate of each side. -/
structure Moved (tbl : HandleTable) (s s' : ChanSys) (op : Op) : Prop where
  inv : QueueInv s'
  move : ∀ k, Gate.Move (op.side = k) (s.gate k) (s'.gate k)
  /-- A blocking operation that ends where it began has refused a message. -/
  stay : op.blocks = true → s'.gate op.side = s.gate op.side →
    op.side = .receiver ∧ op.refuses tbl s.chan = true

theorem attempt_moved (tbl : HandleTable) (op : Op) (h : QueueInv s) (hwf : s.chan.Wf)
    (hb : s.blocked t = false) (hw : t ∉ s.woken) : Moved tbl s (s.attempt t tbl op) op := by
  cases pass_side tbl hwf t op with
  | park hret hwake hop hroom hq hq' hsame =>
    rw [attempt_park hret hwake]
    refine ⟨h.park hb hw hop hq hq', ?_, ?_⟩
    · intro k
      simp only [gate, wokenOf, hsame, wokenOf_update hw]
      by_cases hk : k = op.side
      · subst hk
        rw [hroom, hq, length_append, length_singleton]
        exact .park (by simp)
      · rw [Side.eq_other hk, hq']
        exact .stay
    · intro _ heq
      have := congrArg Gate.parked heq
      simp [gate, hq] at this
  | move r hret hwake hq hq' htake hgive =>
    obtain ⟨hchan, hwoken, hblocked, hbusy⟩ := attempt_done hret
    rw [hwake] at hchan hwoken hblocked hbusy
    have hout := wakeUp_outside (c := (op.pass tbl t s.chan).chan)
      (w := (s.chan.queue op.side.other).head?) hb hw
    have hpop := h.pop hq' (by rwa [Side.other_other])
    have hcount : ∀ k, (s.attempt t tbl op).wokenOf k =
        s.wokenOf k + if k = op.side.other ∧ s.chan.queue op.side.other ≠ [] then 1 else 0 := by
      intro k
      rw [wokenOf_finish hout.2 hwoken hbusy, wokenOf_pop h]
    rw [wakeUp_chan] at hchan
    refine ⟨hpop.finish hout.1 hout.2 (by rw [hchan, wakeUp_chan]) hwoken hblocked hbusy, ?_, ?_⟩
    · intro k
      simp only [gate, hchan, hcount]
      by_cases hk : k = op.side
      · subst hk
        rw [hq, htake, if_neg fun hc => op.side.other_ne hc.1.symm]
        exact .take (by simp)
      · have hko := Side.eq_other hk
        have hf : decide (op.side = k) = false := by simpa using Ne.symm hk
        rw [hko, hq', hgive, ← hko]
        cases hlist : s.chan.queue k with
        | nil => simpa using .give hf
        | cons w rest => simpa using .giveWake hf
    · intro _ heq
      have := congrArg Gate.avail heq
      simp only [gate, hchan] at this
      omega
  | fail r hret hwake hchan href =>
    obtain ⟨hchan', hwoken, hblocked, hbusy⟩ := attempt_done hret
    simp only [hwake, hchan, wakeUp] at hchan' hwoken hblocked hbusy
    refine ⟨h.finish hb hw hchan' hwoken hblocked hbusy, ?_, fun hop _ => href hop⟩
    intro k
    simp only [gate, hchan', wokenOf_finish hw hwoken hbusy]
    exact .stay

end

/-! ## Every run -/

variable {s : ChanSys} {capacity msgSize : Nat} {t : Tid} {tbl : HandleTable}

/-- A popped thread runs again: it leaves the woken threads of its side. -/
theorem wokenOf_erase {op : Op} (ht : t ∈ s.woken)
    (hbusy : s.busy t = some op) (k : Side) :
    s.wokenOf k = wokenOf { s with woken := s.woken.erase t } k +
      if op.side = k then 1 else 0 := by
  rw [wokenOf, (perm_cons_erase ht).countP_eq, countP_cons]
  simp [wokenOf, hbusy]

theorem QueueInv.erase (h : QueueInv s) : QueueInv { s with woken := s.woken.erase t } :=
  ⟨h.queued, fun u hu => h.woken u (mem_of_mem_erase hu), h.idle, h.queue_nodup,
    h.woken_nodup.erase t⟩

/-- A woken receiver resumes and refuses the message at the head. -/
def refusal (s : ChanSys) : ChanEvent → Bool
  | .call _ _ _ => false
  | .resume t tbl => (s.busy t).any fun op => op.refuses tbl s.chan

/-- If the step is a refusal, a receiver that stays queued still has a woken
receiver coming for every message. -/
def StrandsNobody (s : ChanSys) (e : ChanEvent) : Prop :=
  refusal s e = true → s.chan.receivers ≠ [] → s.chan.count < s.wokenOf .receiver
  deriving Decidable

theorem step_gate {s s' : ChanSys} {e : ChanEvent} (h : QueueInv s) (hwf : s.chan.Wf)
    (hs : s.step e = some s') :
    QueueInv s' ∧ ∀ k, (k = .receiver → StrandsNobody s e) → (s.gate k).Ok → (s'.gate k).Ok := by
  cases e with
  | call t tbl op =>
    simp only [step, isNone_iff_eq_none] at hs
    split at hs
    next hidle =>
      cases hs
      have hw : t ∉ s.woken := by
        intro hm
        obtain ⟨-, op', hbusy, -⟩ := h.woken t hm
        rw [hidle] at hbusy
        cases hbusy
      have hm := attempt_moved tbl op h hwf (h.idle t hidle) hw
      exact ⟨hm.inv, fun k _ hok => (hm.move k).ok hok⟩
    · cases hs
  | resume t tbl =>
    obtain ⟨ht, hs⟩ := Option.ite_none_right_eq_some.mp hs
    split at hs
    next op hbusy =>
      cases hs
      obtain ⟨hb, op', hbusy', hblocks⟩ := h.woken t ht
      rw [hbusy] at hbusy'
      cases hbusy'
      have hm := attempt_moved tbl op (h.erase (t := t)) hwf hb
        fun hmem => (h.woken_nodup.mem_erase_iff.mp hmem).1 rfl
      refine ⟨hm.inv, fun k hnobody hok => ?_⟩
      have hmove := hm.move k
      have hcount := wokenOf_erase ht hbusy k
      by_cases hk : op.side = k
      · -- the thread spends a wakeup of this gate
        subst hk
        rw [gate, hcount, if_pos rfl] at hok
        simp only [decide_true] at hmove
        refine hmove.resume_ok (fun hstay hq => ?_) hok
        obtain ⟨hrecv, hrefuses⟩ := hm.stay hblocks hstay
        rw [hrecv] at hcount hq ⊢
        have := hnobody hrecv (by simpa [refusal, hbusy] using hrefuses)
          (length_pos_iff.mp hq)
        rw [hcount, if_pos rfl] at this
        exact Nat.le_of_lt_succ this
      · rw [gate, hcount, if_neg hk, Nat.add_zero] at hok
        exact hmove.ok hok
    · cases hs

theorem init_queueInv (capacity msgSize : Nat) : QueueInv (init capacity msgSize) where
  queued := by intro k t ht; cases k <;> cases ht
  woken := by intro t ht; cases ht
  idle := fun _ _ => rfl
  queue_nodup := by intro k; cases k <;> exact nodup_nil
  woken_nodup := nodup_nil

/-- The gate of side `k` is kept by every run whose refusals strand nobody; on
the senders' side that is every run. -/
theorem reach_gate (hc : 0 < capacity) {k : Side}
    (h : Reach (chanSystem capacity msgSize) (fun s e => k = .receiver → StrandsNobody s e) s) :
    (s.gate k).Ok := by
  have hinv := h.invariant
    (I := fun s => FifoInv capacity msgSize s ∧ QueueInv s ∧ (s.gate k).Ok) ?_ ?_
  · exact hinv.2.2
  · intro s heq
    subst heq
    refine ⟨⟨Channel.wf_new hc, rfl, rfl, rfl⟩, init_queueInv _ _, ?_⟩
    intro hp
    cases k <;> cases hp
  · rintro s e s' ⟨hf, hq, hok⟩ hnobody hs
    obtain ⟨hq', hgate⟩ := step_gate hq hf.wf hs
    exact ⟨step_fifoInv hf hs, hq', hgate k hnobody hok⟩

/-! ### Senders -/

theorem senders_not_stranded (hc : 0 < capacity)
    (h : Reachable (chanSystem capacity msgSize) s) (hq : s.chan.senders ≠ []) :
    capacity - s.chan.count ≤ s.wokenOf .sender := by
  have hok := reach_gate hc (k := .sender) (h.mono fun _ _ _ h => by cases h)
  have hcap := (reachable_fifoInv hc h).capacity_eq
  subst hcap
  exact hok (length_pos_iff.mpr hq)

theorem senders_not_stranded_one_slot : ∃ s : ChanSys, s.chan.senders = [3] ∧ s.woken = [2] ∧
    1 - s.chan.count ≤ s.wokenOf .sender := by
  obtain ⟨s, hs, hq, hw⟩ : ∃ s ∈ (chanSystem 1 1).run (init 1 1)
      [.call 1 .init (.send fun _ => 7), .call 2 .init (.send fun _ => 8),
        .call 3 .init (.send fun _ => 9), .call 4 .init .recv],
      s.chan.senders = [3] ∧ s.woken = [2] := by decide +kernel
  have hreach := Reachable.run hs (.start rfl)
  exact ⟨s, hq, hw, senders_not_stranded (by decide) hreach (by simp [hq])⟩

/-! ### Receivers -/

/-- **No receiver sleeps beside a message**, in the runs whose refusals strand
nobody. -/
theorem receivers_not_stranded (hc : 0 < capacity)
    (h : Reach (chanSystem capacity msgSize) StrandsNobody s) (hq : s.chan.receivers ≠ []) :
    s.chan.count ≤ s.wokenOf .receiver ∧ (s.wokenOf .receiver = 0 → s.chan.count = 0) := by
  have hok : s.chan.count ≤ s.wokenOf .receiver :=
    reach_gate hc (k := .receiver) (h.mono fun _ _ hr _ => hr) (length_pos_iff.mpr hq)
  refine ⟨hok, fun h0 => ?_⟩
  omega

theorem receivers_not_stranded_one_message : ∃ s : ChanSys, s.chan.receivers = [2] ∧
    s.chan.count = 1 ∧ s.chan.count ≤ s.wokenOf .receiver := by
  obtain ⟨s, hs, hq, hcount⟩ : ∃ s ∈ (chanSystem 1 1).runOk StrandsNobody (init 1 1)
      [.call 1 .init .sysRecv, .call 2 .init .sysRecv, .call 3 .init (.send fun _ => 7)],
      s.chan.receivers = [2] ∧ s.chan.count = 1 := by decide +kernel
  have hreach := Reach.runOk hs (.start rfl)
  exact ⟨s, hq, hcount, (receivers_not_stranded (by decide) hreach (by simp [hq])).1⟩

/-- Threads 1 and 2 wait in `sys_ipc_recv`. A message with a capability wakes
thread 1, which refuses it and returns. -/
def strandedReceiver : List ChanEvent :=
  [.call 1 .init .sysRecv, .call 2 .init .sysRecv,
    .call 3 .init (.sendCap (fun _ => 7) (some ⟨kindChannel, rightRead, 5, false⟩)),
    .resume 1 .init]

theorem receivers_stranded : ¬ ∀ s, Reachable (chanSystem 4 1) s → s.chan.receivers ≠ [] →
      s.chan.count ≤ s.wokenOf .receiver := by
  intro hall
  obtain ⟨s, hs, hq, hcount, hw⟩ : ∃ s ∈ (chanSystem 4 1).run (init 4 1) strandedReceiver,
      s.chan.receivers = [2] ∧ s.chan.count = 1 ∧ s.wokenOf .receiver = 0 := by decide +kernel
  have := hall s (Reachable.run hs (.start rfl)) (by simp [hq])
  omega

theorem pass_refuses {c : Channel} {op : Op} (t : Tid)
    (h : op.refuses tbl c = true) : op.pass tbl t c = ⟨c, none, some .refused⟩ := by
  cases op with
  | recv | tryRecv | sysRecv | sysTryRecv | sysRecvCap | sysTryRecvCap =>
    simp only [Op.refuses, Bool.and_eq_true, bne_iff_ne] at h
    simp [Op.pass, channelRecv, channelTryRecv, sysIpcRecv, sysIpcTryRecv, sysIpcRecvCap,
      sysIpcTryRecvCap, recvBlocking, recvTry, Channel.peekTry, takeHead, h]
  | send _ | sendCap _ _ | trySend _ | recvCap | tryRecvCap => cases h

/-- The condition is exact: a refusal that does not meet it leaves a receiver
asleep beside a message nobody is coming for. -/
theorem refusal_strands {s s' : ChanSys} (hinv : QueueInv s)
    (hs : s.step (.resume t tbl) = some s') (h : ¬ StrandsNobody s (.resume t tbl)) :
    s'.chan.receivers ≠ [] ∧ s'.wokenOf .receiver < s'.chan.count := by
  simp only [StrandsNobody, Classical.not_imp, not_lt] at h
  obtain ⟨href, hq, hle⟩ := h
  obtain ⟨op, hbusy, href⟩ := (any_eq_true _ _).mp href
  simp only [step, hbusy] at hs
  split at hs
  next ht =>
    cases hs
    have hside : op.side = .receiver := by
      cases op <;> first | rfl | cases href
    have hcount := wokenOf_erase ht hbusy .receiver
    rw [if_pos hside] at hcount
    have hgone : t ∉ s.woken.erase t := fun hmem => (hinv.woken_nodup.mem_erase_iff.mp hmem).1 rfl
    have hsame := @wokenOf_update t _ s.busy hgone none .receiver
    simp only [attempt, pass_refuses t href, wakeUp, record, wokenOf,
      hsame] at hcount hle ⊢
    exact ⟨hq, by omega⟩
  · cases hs

end Exyde.Ipc
