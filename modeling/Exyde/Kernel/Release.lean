import Exyde.Kernel.Updates

/-! # Releasing objects

`channel_destroy`, `process_unref`, `process_destroy` and `free_thread` keep the
invariant: a count says how many references are left at every point of a nested release.
-/

namespace Exyde.Kernel

open Function Exyde.Lib Exyde.Ipc State

variable {Q : Cap → Prop} {s : State}

/-! ## Channels -/

def State.dropChannel (s : State) (x : ObjId) : State :=
  { s with chans := update s.chans x none, destroys := x :: s.destroys }

/-- `channel_destroy` faults on a channel that is gone, or that a thread waits on. -/
theorem channelDestroy_cases (s : State) (x : ObjId) :
    s.channelDestroy x = .ok (s.dropChannel x) ∨
      (s.chans x = none ∧ s.channelDestroy x = .error .dangling) ∨
      ∃ c t f, s.chans x = some c ∧ t ∈ c.senders ++ c.receivers ∧ f ≠ .dangling ∧
        s.channelDestroy x = .error f := by
  unfold channelDestroy
  cases s.chans x with
  | none => exact .inr (.inl ⟨rfl, rfl⟩)
  | some c =>
    simp only
    split
    next hsend =>
      obtain ⟨t, ht⟩ := List.exists_mem_of_ne_nil _ hsend
      exact .inr (.inr ⟨c, t, _, rfl, List.mem_append_left _ ht, by simp, rfl⟩)
    split
    next hrecv =>
      obtain ⟨t, ht⟩ := List.exists_mem_of_ne_nil _ hrecv
      exact .inr (.inr ⟨c, t, _, rfl, List.mem_append_right _ ht, by simp, rfl⟩)
    · exact .inl rfl

theorem Base.dropChannel (h : Base Q s) (x : ObjId) : Base Q (s.dropChannel x) := by
  have hchan : ∀ {y d}, (s.dropChannel x).chans y = some d → s.chans y = some d :=
    fun hd => (update_none_cases hd).2
  refine ⟨⟨{ h.fresh with chans := fun y hy => update_eq_none (h.fresh.chans y hy) fun _ => rfl },
    { h.threads with }, ?_, { h.counts with }, { h.releases with },
    h.waits_congr rfl rfl fun _ _ => rfl⟩, h.sched⟩
  exact { h.queues with
    wf := fun y d hd => h.queues.wf y d (hchan hd)
    chan_nodup := fun y d hd => h.queues.chan_nodup y d (hchan hd)
    chan_parked := fun y d t hd => h.queues.chan_parked y d t (hchan hd) }

theorem authority_dropChannel (x : ObjId) :
    (s.dropChannel x).authority = s.authority.destroy x := by
  have hcap : (s.dropChannel x).capAt = (s.authority.destroy x).cap := by
    funext pl
    cases pl with
    | entry p i => rfl
    | slot y k =>
      by_cases hy : y = x
      · subst hy; simp [capAt, dropChannel, Authority.destroy]
      · simp [capAt, dropChannel, Authority.destroy, hy, authority]
  have hlive : (fun y => ((s.dropChannel x).chans y).isSome) =
      update (fun y => (s.chans y).isSome) x false := update_seen Option.isSome ..
  simp only [authority, hcap, hlive]
  rfl

/-! ## Frames that change nothing else -/

theorem Base.setWork (h : Base Q s) {w : List Frame} (hrel : Releases (s.setWork w))
    (hrefs : (s.setWork w).procRefs = s.procRefs)
    (hdoomed : (s.setWork w).doomed = s.doomed) : Base Q (s.setWork w) := by
  exact ⟨⟨{ h.fresh with }, h.threads.congr rfl rfl rfl hdoomed, { h.queues with },
    h.counts.congr hrefs rfl fun _ P hP => ⟨P, hP, rfl⟩, hrel,
    h.waits_congr rfl hrefs fun _ _ => rfl⟩, h.sched⟩

variable {p q : ObjId} {i : Fin handleMax} {w w' : List Frame}

theorem Base.advance (h : Base Q s) {n : Nat} (hw : s.work = .sweep p n :: w)
    (hempty : ∀ j : Fin handleMax, j.val = n → s.capAt (.entry p j) = none) :
    Base Q (s.setWork (.sweep p (n + 1) :: w)) := by
  have hrel := h.releases
  refine h.setWork ⟨?_, ?_, ?_, ?_, ?_, ?_⟩ ?_ ?_
  · have hshape := hrel.shape
    rw [hw] at hshape
    cases hshape with
    | sweep _ _ hshape => exact .sweep p _ hshape
  · have hnodup := hrel.nodup
    rw [hw] at hnodup
    exact hnodup
  · intro x hx
    refine hrel.unheld x ?_
    rw [hw]
    exact hx
  · intro x j hc
    refine hrel.clearing x j ?_
    simpa [clearing, hw] using hc
  · intro f x m hf hm j hj
    rcases List.mem_cons.mp hf with rfl | hf
    · cases hm
      rcases Nat.lt_succ_iff_lt_or_eq.mp hj with hj | hj
      · exact hrel.emptied (.sweep p n) p n (by simp [hw]) rfl j hj
      · exact hempty j hj
    · exact hrel.emptied f x m (by simp [hw, hf]) hm j hj
  · intro x j hc
    refine hrel.close x j ?_
    simpa [hw] using hc
  · refine procRefs_congr rfl rfl (fun _ => rfl) ?_ ?_
    · intro t; simp [dying, hw, Frame.dying?]
    · intro x j; simp [clearing, hw]
  · simp [doomed, hw, Frame.doomed]

/-! ## Dropping a reference -/

/-- The frames `w` say that `k` no longer holds its reference, and otherwise what
the frames of `s` say. -/
structure Pending (s : State) (k : Holder) (w : List Frame) : Prop where
  shape : FrameStack w
  sweeping : w.filterMap Frame.sweeping? = s.work.filterMap Frame.sweeping?
  holds : (s.setWork w).procRefs =
    ⟨s.procRefs.count, update s.procRefs.holds k none⟩
  doomed : (s.setWork w).doomed = s.doomed
  clearing : ∀ p i, (s.setWork w).clearing p i → s.procOf p i ≠ none
  emptied : ∀ f p i, f ∈ w → f.progress? = some (p, i) → ∀ j : Fin handleMax, j.val < i →
    s.capAt (.entry p j) = none
  close : ∀ p i, .close p i ∈ w → s.process s.cur = some p ∧ s.ctl s.cur = .user

/-- No thread relies on the reference that `k` holds. -/
def Unneeded (s : State) : Holder → Prop
  | .thread t => (s.ctl t).relies = false
  | .entry p _ => Quiet s p

/-- `s` with `n` references to `q` left. -/
@[simps!]
def State.unreffed (s : State) (q : ObjId) (R : Process) (n : Nat) (l : List ObjId)
    (w : List Frame) : State :=
  { (s.setProc q { R with refcount := n }).setWork w with procList := l }

section

variable {k : Holder} {R : Process} {n : Nat} {l : List ObjId}

theorem capAt_unreffed (hR : s.procs q = some R) : (s.unreffed q R n l w).capAt = s.capAt :=
  capAt_setProc hR (show ({ R with refcount := n } : Process).handles = R.handles from rfl)

/-- `w` are the frames before, `w'` those after a possible start of
`process_destroy`. -/
theorem procRefs_unreffed (hpend : Pending s k w) (hR : s.procs q = some R)
    (hw' : w' = w ∨ n = 0 ∧ w' = .sweep q 0 :: w) :
    (s.unreffed q R n l w').procRefs = s.procRefs.release k q n := by
  have hdying : ∀ t, (s.unreffed q R n l w').dying t ↔ (s.setWork w).dying t := by
    intro t
    rcases hw' with rfl | ⟨-, rfl⟩ <;> simp [dying, Frame.dying?]
  have hclearing : ∀ p i, (s.unreffed q R n l w').clearing p i ↔ (s.setWork w).clearing p i := by
    intro p i
    rcases hw' with rfl | ⟨-, rfl⟩ <;> simp [clearing]
  have hcount : (s.unreffed q R n l w').procRefs.count =
      update s.procRefs.count q (some n) := update_seen (Option.map Process.refcount) ..
  have hholds : (s.unreffed q R n l w').procRefs.holds = (s.setWork w).procRefs.holds := by
    funext k'
    cases k' with
    | thread t =>
      simp only [procRefs, hdying]
      rfl
    | entry p i =>
      simp only [procRefs, procOf_eq, hclearing, capAt_unreffed hR]
      rfl
  rw [hpend.holds] at hholds
  exact congrArg₂ Refs.mk hcount hholds

theorem Base.unref_releases (h : Base Q s) (hpend : Pending s k w)
    (hk : s.procRefs.holds k = some q) (hR : s.procs q = some R)
    (hw' : w' = w ∨ n = 0 ∧ w' = .sweep q 0 :: w) : Releases (s.unreffed q R n l w') := by
  have hrefs : (s.unreffed q R n l w').procRefs = _ := procRefs_unreffed hpend hR hw'
  have hsweep : ∀ x, x ∈ w.filterMap Frame.sweeping? → x ≠ q := by
    rintro x hx rfl
    exact h.toCore.held_not_swept hk (hpend.sweeping ▸ hx)
  have hnodup : (w.filterMap Frame.sweeping?).Nodup := hpend.sweeping ▸ h.releases.nodup
  have hunheld : ∀ x, x ∈ w.filterMap Frame.sweeping? →
      (s.procRefs.release k q n).count x = some 0 := by
    intro x hx
    rw [← h.releases.unheld x (hpend.sweeping ▸ hx)]
    exact update_of_ne (hsweep x hx) ..
  rcases hw' with rfl | ⟨rfl, rfl⟩
  · exact ⟨hpend.shape, hnodup, hrefs ▸ hunheld,
      fun p i hc => by rw [procOf_eq, capAt_unreffed hR]; exact hpend.clearing p i hc,
      by rw [capAt_unreffed hR]; exact hpend.emptied, hpend.close⟩
  refine ⟨.sweep q 0 hpend.shape, ?_, ?_, ?_, ?_, ?_⟩
  · exact List.nodup_cons.mpr ⟨fun hm => hsweep q hm rfl, hnodup⟩
  · intro x hx
    rw [hrefs]
    rcases List.mem_cons.mp hx with rfl | hx
    · exact update_self ..
    · exact hunheld x hx
  · intro p i hc
    rw [procOf_eq, capAt_unreffed hR]
    refine hpend.clearing p i ?_
    simpa [clearing] using hc
  · intro f x m hf hm j hj
    rw [capAt_unreffed hR]
    rcases List.mem_cons.mp hf with rfl | hf
    · cases hm
      exact absurd hj (Nat.not_lt_zero _)
    · exact hpend.emptied f x m hf hm j hj
  · intro p i hc
    refine hpend.close p i ?_
    simpa using hc

theorem Base.unref (h : Base Q s) (hpend : Pending s k w) (hneed : Unneeded s k)
    (hk : s.procRefs.holds k = some q) (hR : s.procs q = some R) (hr : R.refcount = n + 1)
    (hw' : w' = w ∨ n = 0 ∧ w' = .sweep q 0 :: w) : Base Q (s.unreffed q R n l w') := by
  have hrefs : (s.unreffed q R n l w').procRefs = s.procRefs.release k q n :=
    procRefs_unreffed hpend hR hw'
  have hspaces : (s.unreffed q R n l w').spaceRefs = s.spaceRefs := spaceRefs_setProc hR
  have hdoomed : (s.unreffed q R n l w').doomed = s.doomed := by
    rw [← hpend.doomed]
    rcases hw' with rfl | ⟨-, rfl⟩ <;> simp [doomed, Frame.doomed]
  have hfresh : Fresh (s.setProc q { R with refcount := n }) := h.fresh.setProc hR rfl
  have hqueues : Queues (s.setProc q { R with refcount := n }) := h.queues.setProc hR rfl
  refine ⟨⟨{ hfresh with }, h.threads.congr rfl rfl rfl hdoomed, { hqueues with },
    ⟨?_, hspaces ▸ h.counts.spaces, ?_⟩, h.unref_releases hpend hk hR hw', ?_⟩, h.sched⟩
  · rw [hrefs]
    exact h.counts.procs.release hk (by simp [procRefs, hR, hr])
  · intro t x hx
    rw [hrefs] at hx
    obtain ⟨P, hP, rfl⟩ := h.counts.main t x (update_none_cases hx).2
    exact main_setProc hR (by rfl) x P hP
  · intro t
    by_cases hneeds : (s.ctl t).relies = false
    · exact Backed.of_not_relies hneeds
    have hthread : (Holder.thread t) ≠ k := by
      rintro rfl
      exact hneeds hneed
    refine (h.waits t).congr ?_ fun x j hx => ⟨by rw [capAt_unreffed hR], ?_⟩
    · rw [hrefs]; exact update_of_ne hthread ..
    · have hentry : (Holder.entry x j) ≠ k := by
        rintro rfl
        exact hneeds (hneed t hx)
      rw [hrefs]; exact update_of_ne hentry ..

end

theorem Base.processUnref (h : Base Q s) {k : Holder} (hpend : Pending s k w)
    (hneed : Unneeded s k) (hk : s.procRefs.holds k = some q) :
    Base Q ((s.setWork w).processUnref q) ∧
      ((s.setWork w).processUnref q).authority = s.authority ∧
      ((s.setWork w).processUnref q).fault = s.fault := by
  obtain ⟨R, n, hR, hr⟩ := h.toCore.held_live hk
  have hauth : (s.setProc q { R with refcount := n }).authority = s.authority :=
    authority_setProc hR rfl rfl
  unfold State.processUnref
  rw [show ((s.setWork w).procs) q = some R from hR]
  simp only [hr, Nat.succ_ne_zero, if_false]
  split
  next h1 =>
    obtain rfl : n = 0 := by omega
    exact ⟨h.unref hpend hneed hk hR hr (Or.inr ⟨rfl, rfl⟩), hauth, rfl⟩
  · exact ⟨h.unref (l := s.procList) hpend hneed hk hR hr (Or.inl rfl), hauth, rfl⟩

/-- The frames `w` add entry `i` of `p` to the entries that are being released. -/
theorem procRefs_clearing (hdying : ∀ t, (s.setWork w).dying t ↔ s.dying t)
    (hclearing : ∀ x j, (s.setWork w).clearing x j ↔
      s.clearing x j ∨ (x = p ∧ j = i)) :
    (s.setWork w).procRefs =
      ⟨s.procRefs.count, update s.procRefs.holds (.entry p i) none⟩ := by
  have hholds : ((s.setWork w).procRefs).holds =
      update s.procRefs.holds (.entry p i) none := by
    funext k
    cases k with
    | thread t =>
      simp only [procRefs, hdying]
      rfl
    | entry x j =>
      by_cases hx : x = p ∧ j = i
      · obtain ⟨rfl, rfl⟩ := hx
        have hc : (s.setWork w).clearing x j := (hclearing x j).mpr (Or.inr ⟨rfl, rfl⟩)
        simp [procRefs, hc]
      · have hne : (Holder.entry x j) ≠ .entry p i := fun he => hx (by cases he; exact ⟨rfl, rfl⟩)
        rw [update_of_ne hne]
        simp only [procRefs, hclearing, hx, or_false]
        rfl
  rw [← hholds]
  rfl

theorem Pending.of_sweep (h : Base Q s) (hw : s.work = .sweep p i.val :: w)
    (hof : s.procOf p i ≠ none) : Pending s (.entry p i) (.swept p i :: w) := by
  have hclearing : ∀ x j, (s.setWork (.swept p i :: w)).clearing x j ↔
      s.clearing x j ∨ (x = p ∧ j = i) := by
    intro x j
    simp only [State.clearing, State.setWork_work, hw, List.mem_cons, Frame.swept.injEq, reduceCtorEq,
      false_or]
    tauto
  refine ⟨?_, by rw [hw]; rfl, procRefs_clearing ?_ hclearing, ?_, ?_, ?_, ?_⟩
  · have hshape := h.releases.shape
    rw [hw] at hshape
    cases hshape with
    | sweep _ _ hshape => exact .swept p i hshape
  · intro t; simp [dying, hw, Frame.dying?]
  · simp [State.doomed, hw, Frame.doomed]
  · intro x j hc
    rcases (hclearing x j).mp hc with hc | ⟨rfl, rfl⟩
    · exact h.releases.clearing x j hc
    · exact hof
  · intro f x n hf hn j hj
    rcases List.mem_cons.mp hf with rfl | hf
    · cases hn
      exact h.releases.emptied (.sweep p i.val) p i.val (by simp [hw]) rfl j hj
    · exact h.releases.emptied f x n (by simp [hw, hf]) hn j hj
  · intro x j hc
    refine h.releases.close x j ?_
    simpa [hw] using hc

theorem Pending.of_close (hwork : s.work = []) (hp : s.process s.cur = some p)
    (hctl : s.ctl s.cur = .user) (hof : s.procOf p i ≠ none) :
    Pending s (.entry p i) [.close p i] := by
  have hclearing : ∀ x j, (s.setWork [.close p i]).clearing x j ↔
      s.clearing x j ∨ (x = p ∧ j = i) := by
    intro x j
    simp [State.clearing, hwork]
  refine ⟨.close p i, by rw [hwork]; rfl, procRefs_clearing ?_ hclearing, ?_, ?_, ?_, ?_⟩
  · intro t; simp [dying, hwork, Frame.dying?]
  · simp [State.doomed, hwork, Frame.doomed]
  · intro x j hc
    obtain ⟨rfl, rfl⟩ : x = p ∧ j = i := by simpa [State.clearing] using hc
    exact hof
  · intro f x n hf hn
    rw [List.mem_singleton.mp hf] at hn
    cases hn
  · intro x j hc
    cases List.mem_singleton.mp hc
    exact ⟨hp, hctl⟩

theorem Pending.of_reap {t : Tid} {rest : List Tid} (hw : s.work = [.reap none (t :: rest)]) :
    Pending s (.thread t) [.reap (some t) rest] := by
  have hholds : ((s.setWork [.reap (some t) rest]).procRefs).holds =
      update s.procRefs.holds (.thread t) none := by
    funext k
    cases k with
    | entry x j =>
      simp only [State.procRefs, State.clearing, hw, List.mem_singleton, reduceCtorEq, or_self]
      rfl
    | thread u =>
      by_cases hu : u = t
      · subst hu; simp [State.procRefs, State.dying, Frame.dying?]
      · simp [State.procRefs, State.dying, Frame.dying?, hw, hu]
  refine ⟨.reap _ _, by rw [hw]; rfl, by rw [← hholds]; rfl, ?_, ?_, ?_, ?_⟩
  · simp [State.doomed, hw, Frame.doomed]
  · intro x j hc; simp [State.clearing] at hc
  · intro f x n hf hn
    rw [List.mem_singleton.mp hf] at hn
    cases hn
  · intro x j hc; simp at hc

/-! ## Clearing an entry -/

/-- A table entry is released by one frame at a time. -/
theorem Base.clearing_tail (h : Base Q s) {f : Frame} (hw : s.work = f :: w)
    (hf : f = .swept p i ∨ f = .close p i) : .swept p i ∉ w ∧ .close p i ∉ w := by
  have hshape := h.releases.shape
  rw [hw] at hshape
  rcases hf with rfl | rfl
  · have hnodup := h.releases.nodup
    rw [hw] at hnodup
    have hp : p ∉ w.filterMap Frame.sweeping? := (List.nodup_cons.mp hnodup).1
    refine ⟨fun hm => hp (List.mem_filterMap.mpr ⟨_, hm, rfl⟩), fun hm => ?_⟩
    have hcur := (h.releases.close p i (by simp [hw, hm])).1
    exact h.toCore.held_not_swept (h.holds_cur hcur) (by rw [hw]; exact List.mem_cons_self ..)
  · cases hshape
    simp

section

variable {f : Frame} {P : Process}

theorem capAt_cleared (hP : s.procs p = some P) (w : List Frame) :
    ((s.setTable p P (P.handles.clear i)).setWork w).capAt =
      update s.capAt (.entry p i) none :=
  capAt_setProc_entry hP (show ({ P with handles := P.handles.clear i } : Process).handles.entries =
    update P.handles.entries i .empty from rfl)

theorem capAt_cleared_ne (hP : s.procs p = some P) (w : List Frame) {x : ObjId}
    {j : Fin handleMax} (hx : ¬ (x = p ∧ j = i)) :
    ((s.setTable p P (P.handles.clear i)).setWork w).capAt (.entry x j) = s.capAt (.entry x j) := by
  rw [capAt_cleared hP]
  exact update_of_ne (fun he => hx (by cases he; exact ⟨rfl, rfl⟩)) ..

def Frame.After (f : Frame) (p : ObjId) (i : Fin handleMax) (w w' : List Frame) : Prop :=
  (f = .swept p i ∧ w' = .sweep p i.val :: w) ∨ (f = .close p i ∧ w' = w)

theorem Base.clearing_after (h : Base Q s) (hw : s.work = f :: w) (hf : f.After p i w w') (x : ObjId)
    (j : Fin handleMax) :
    (.swept x j ∈ w' ∨ .close x j ∈ w') ↔ s.clearing x j ∧ ¬ (x = p ∧ j = i) := by
  have htail := h.clearing_tail hw (hf.imp And.left And.left)
  have hw' : (.swept x j ∈ w' ∨ .close x j ∈ w') ↔ (.swept x j ∈ w ∨ .close x j ∈ w) := by
    rcases hf with ⟨-, rfl⟩ | ⟨-, rfl⟩ <;> simp
  rw [hw']
  constructor
  · intro hm
    refine ⟨by rcases hm with hm | hm <;> simp [clearing, hw, hm], ?_⟩
    rintro ⟨rfl, rfl⟩
    exact hm.elim htail.1 htail.2
  · intro hm
    rcases hf with ⟨rfl, -⟩ | ⟨rfl, -⟩ <;> simpa [clearing, hw, hm.2] using hm.1

theorem procRefs_cleared (h : Base Q s) (hw : s.work = f :: w) (hP : s.procs p = some P)
    (hf : f.After p i w w') :
    ((s.setTable p P (P.handles.clear i)).setWork w').procRefs = s.procRefs := by
  have hfc : s.clearing p i := by
    rcases hf with ⟨rfl, -⟩ | ⟨rfl, -⟩ <;> simp [clearing, hw]
  have hcount : ((s.setTable p P (P.handles.clear i)).setWork w').procRefs.count =
      s.procRefs.count := update_unseen (Option.map Process.refcount) (by rw [hP]; rfl)
  have hholds : ((s.setTable p P (P.handles.clear i)).setWork w').procRefs.holds =
      s.procRefs.holds := by
    funext k
    cases k with
    | thread t =>
      have hdying : ((s.setTable p P (P.handles.clear i)).setWork w').dying t ↔ s.dying t := by
        rcases hf with ⟨rfl, rfl⟩ | ⟨rfl, rfl⟩ <;> simp [dying, hw, Frame.dying?]
      simp only [procRefs, hdying]
      rfl
    | entry x j =>
      have hc : ((s.setTable p P (P.handles.clear i)).setWork w').clearing x j ↔
          s.clearing x j ∧ ¬ (x = p ∧ j = i) := h.clearing_after hw hf x j
      simp only [procRefs, procOf_eq, hc]
      by_cases hx : x = p ∧ j = i
      · obtain ⟨rfl, rfl⟩ := hx
        simp [capAt_cleared hP, hfc, procOfCap]
      · simp only [capAt_cleared_ne hP w' hx, hx, not_false_iff, and_true]
  exact congrArg₂ Refs.mk hcount hholds

theorem Base.cleared_releases (h : Base Q s) (hw : s.work = f :: w) (hP : s.procs p = some P)
    (hf : f.After p i w w') :
    Releases ((s.setTable p P (P.handles.clear i)).setWork w') := by
  have hsweep : w'.filterMap Frame.sweeping? = s.work.filterMap Frame.sweeping? := by
    rcases hf with ⟨rfl, rfl⟩ | ⟨rfl, rfl⟩ <;> simp [hw, List.filterMap_cons, Frame.sweeping?]
  refine ⟨?_, ?_, ?_, ?_, ?_, ?_⟩
  · have hshape := h.releases.shape
    rw [hw] at hshape
    rcases hf with ⟨rfl, rfl⟩ | ⟨rfl, rfl⟩
    · cases hshape with
      | swept _ _ hshape => exact .sweep p _ hshape
    · cases hshape
      exact .nil
  · show (w'.filterMap Frame.sweeping?).Nodup
    rw [hsweep]
    exact h.releases.nodup
  · intro x hx
    rw [procRefs_cleared h hw hP hf]
    exact h.releases.unheld x (hsweep ▸ hx)
  · intro x j hc
    obtain ⟨hc, hne⟩ := (h.clearing_after hw hf x j).mp hc
    rw [procOf_eq, capAt_cleared_ne hP w' hne]
    exact h.releases.clearing x j hc
  · intro g x m hg hm j hj
    by_cases hx : x = p ∧ j = i
    · rw [hx.1, hx.2, capAt_cleared hP, update_self]
    · rw [capAt_cleared_ne hP w' hx]
      have hg : g ∈ w' := hg
      rcases hf with ⟨rfl, rfl⟩ | ⟨rfl, rfl⟩
      · rcases List.mem_cons.mp hg with rfl | hg
        · exact h.releases.emptied (.swept p i) x m (by simp [hw]) hm j hj
        · exact h.releases.emptied g x m (by simp [hw, hg]) hm j hj
      · exact h.releases.emptied g x m (by simp [hw, hg]) hm j hj
  · intro x j hc
    refine h.releases.close x j ?_
    rcases hf with ⟨-, rfl⟩ | ⟨-, rfl⟩
    · rw [hw]; exact List.mem_cons_of_mem _ (by simpa using hc)
    · rw [hw]; exact List.mem_cons_of_mem _ hc

theorem Base.cleared (h : Base Q s) (hw : s.work = f :: w) (hP : s.procs p = some P)
    (hquiet : Quiet s p) (hf : f.After p i w w') :
    Base Q ((s.setTable p P (P.handles.clear i)).setWork w') := by
  have hrefs := procRefs_cleared h hw hP hf
  have hspaces : ((s.setTable p P (P.handles.clear i)).setWork w').spaceRefs = s.spaceRefs :=
    spaceRefs_setProc hP
  have hdoomed : ((s.setTable p P (P.handles.clear i)).setWork w').doomed = s.doomed := by
    rcases hf with ⟨rfl, rfl⟩ | ⟨rfl, rfl⟩ <;> simp [State.doomed, State.setTable, hw, Frame.doomed]
  have hfresh : Fresh (s.setTable p P (P.handles.clear i)) := h.fresh.setProc hP rfl
  have hqueues : Queues (s.setTable p P (P.handles.clear i)) := h.queues.setProc hP rfl
  refine ⟨⟨{ hfresh with }, h.threads.congr rfl rfl rfl hdoomed, { hqueues with },
    h.counts.congr hrefs hspaces (main_setProc hP rfl), h.cleared_releases hw hP hf, ?_⟩, h.sched⟩
  · intro t
    by_cases hthread : s.procRefs.holds (.thread t) = some p
    · exact Backed.of_not_relies (hquiet t hthread)
    · refine (h.waits t).congr (by rw [hrefs]) fun x j hx => ⟨?_, by rw [hrefs]⟩
      exact capAt_cleared_ne hP w' fun he => hthread (he.1 ▸ hx)

end

/-! ## The end of a process -/

theorem spaceUnref_eq {m : Nat} (h : s.spaces q = some (m + 1)) : s.spaceUnref q =
      { s with spaces := update s.spaces q (if m = 0 then none else some m) } := by
  unfold spaceUnref
  rw [h]
  cases m with
  | zero => rfl
  | succ m => simp

section

variable {n m : Nat}

/-- `s` without process `p`, and with `m` references to its address space left. -/
@[simps]
def State.freed (s : State) (p : ObjId) (m : Nat) (w : List Frame) : State :=
  { s with
    spaces := update s.spaces p (if m = 0 then none else some m)
    procs := update s.procs p none
    work := w }

theorem Base.swept_empty (h : Base Q s) (hw : s.work = .sweep p n :: w) (hn : handleMax ≤ n)
    (j : Fin handleMax) : s.capAt (.entry p j) = none :=
  h.releases.emptied (.sweep p n) p n (by simp [hw]) rfl j (j.isLt.trans_le hn)

theorem capAt_freed (hempty : ∀ j, s.capAt (.entry p j) = none) :
    (s.freed p m w).capAt = s.capAt := by
  funext pl
  cases pl with
  | slot x k => rfl
  | entry x j =>
    by_cases hx : x = p
    · subst hx; rw [hempty j]; simp [capAt]
    · simp [capAt, hx]

theorem procRefs_freed (hempty : ∀ j, s.capAt (.entry p j) = none) (hw : s.work = .sweep p n :: w) :
    (s.freed p m w).procRefs = s.procRefs.free p := by
  have hcount : (s.freed p m w).procRefs.count = update s.procRefs.count p none :=
    update_seen (Option.map Process.refcount) ..
  have hholds : (s.freed p m w).procRefs.holds = s.procRefs.holds := by
    funext k
    cases k with
    | thread t => simp [procRefs, dying, hw, Frame.dying?]
    | entry x j => simp [procRefs, procOf_eq, capAt_freed hempty, clearing, hw]
  exact congrArg₂ Refs.mk hcount hholds

theorem spaceRefs_freed : (s.freed p m w).spaceRefs = s.spaceRefs.unref (.process p) p m := by
  have hholds : (s.freed p m w).spaceRefs.holds =
      update s.spaceRefs.holds (.process p) none := by
    funext k
    cases k with
    | thread t => rw [update_of_ne (by simp)]; rfl
    | process x =>
      by_cases hx : x = p
      · subst hx; simp [spaceRefs]
      · simp [spaceRefs, hx]
  exact congrArg₂ Refs.mk rfl hholds

theorem Base.freed_releases (h : Base Q s) (hw : s.work = .sweep p n :: w) (hn : handleMax ≤ n) :
    Releases (s.freed p m w) := by
  have hempty := h.swept_empty hw hn
  have hnodup := h.releases.nodup
  rw [hw] at hnodup
  obtain ⟨hpw, hnodup⟩ := List.nodup_cons.mp hnodup
  have hmem : ∀ {f : Frame}, f ∈ w → f ∈ s.work := fun hf => by
    rw [hw]; exact List.mem_cons_of_mem _ hf
  refine ⟨?_, hnodup, ?_, ?_, ?_, fun x j hc => h.releases.close x j (hmem hc)⟩
  · have hshape := h.releases.shape
    rw [hw] at hshape
    cases hshape with
    | sweep _ _ hshape => exact hshape
  · intro x hx
    have hxp : x ≠ p := by rintro rfl; exact hpw hx
    rw [procRefs_freed hempty hw,
      ← h.releases.unheld x (by rw [hw]; exact List.mem_cons_of_mem _ hx)]
    exact update_of_ne hxp ..
  · intro x j hc
    rw [procOf_eq, capAt_freed hempty]
    exact h.releases.clearing x j (hc.imp hmem hmem)
  · intro f x k hf hk j hj
    rw [capAt_freed hempty]
    exact h.releases.emptied f x k (hmem hf) hk j hj

/-- A process whose table has been swept is freed, with its reference to the
address space. -/
theorem Base.freed (h : Base Q s) (hw : s.work = .sweep p n :: w) (hn : handleMax ≤ n)
    {P : Process} (hP : s.procs p = some P) (hm : s.spaces p = some (m + 1)) :
    Base Q (s.freed p m w) := by
  have hempty := h.swept_empty hw hn
  have hrefs : (s.freed p m w).procRefs = s.procRefs.free p := procRefs_freed hempty hw
  have hcount : s.procRefs.count p = some 0 :=
    h.releases.unheld p (by rw [hw]; exact List.mem_cons_self ..)
  have hprocs : ∀ {x : ObjId} {R : Process}, (s.freed p m w).procs x = some R →
      s.procs x = some R := fun hR => (update_none_cases hR).2
  have hdoomed : (s.freed p m w).doomed = s.doomed := by simp [doomed, hw, Frame.doomed]
  refine ⟨⟨{ h.fresh with
      procs := fun x hx => update_eq_none (h.fresh.procs x hx) fun _ => rfl
      spaces := ?_
      main := fun x R hR => h.fresh.main x R (hprocs hR) },
    h.threads.congr rfl rfl rfl hdoomed,
    { h.queues with
      wait_nodup := fun x R hR => h.queues.wait_nodup x R (hprocs hR)
      wait_parked := fun x R t hR ht => h.queues.wait_parked x R t (hprocs hR) ht },
    ⟨?_, ?_, ?_⟩, h.freed_releases hw hn, ?_⟩, h.sched⟩
  · intro x hx
    have hxp : p ≠ x := ne_of_some_of_none hm (h.fresh.spaces x hx)
    exact (update_of_ne hxp.symm ..).trans (h.fresh.spaces x hx)
  · rw [hrefs]; exact h.counts.procs.free hcount
  · rw [spaceRefs_freed]; exact h.counts.spaces.unref (by simp [spaceRefs, hP]) hm
  · intro t x hx
    rw [hrefs] at hx
    obtain ⟨R, hR, hmain⟩ := h.counts.main t x hx
    have hxp : x ≠ p := by rintro rfl; exact h.counts.procs.unheld hcount (.thread t) hx
    exact ⟨R, (update_of_ne hxp ..).trans hR, hmain⟩
  · intro t
    exact (h.waits t).congr (by rw [hrefs]; rfl) fun _ _ _ =>
      ⟨by rw [capAt_freed hempty], by rw [hrefs]; rfl⟩

theorem Base.freeProcess (h : Base Q s) (hw : s.work = .sweep p n :: w) (hn : handleMax ≤ n) :
    ∃ m, { (s.spaceUnref p).setWork w with procs := update s.procs p none } =
      s.freed p m w ∧ Base Q (s.freed p m w) := by
  have hcount : s.procRefs.count p = some 0 :=
    h.releases.unheld p (by rw [hw]; exact List.mem_cons_self ..)
  obtain ⟨P, hP, -⟩ := Option.map_eq_some_iff.mp hcount
  have hspace : s.spaceRefs.holds (.process p) = some p := by simp [spaceRefs, hP]
  obtain ⟨m, hm⟩ := h.counts.spaces.pos hspace
  refine ⟨m, ?_, h.freed hw hn hP hm⟩
  rw [spaceUnref_eq hm]
  rfl

end

/-! ## The end of a thread -/

section

variable {t : Tid} {rest : List Tid}

/-- `s` without thread `t`, and with the address spaces `sp` left. -/
@[simps]
def State.reaped (s : State) (t : Tid) (sp : ObjId → Option Nat) (w : List Frame) : State :=
  { s with
    spaces := sp
    sched := { s.sched with state := update s.sched.state t none }
    work := w }

theorem procRefs_reaped (hw : s.work = [.reap (some t) rest]) (sp : ObjId → Option Nat) :
    (s.reaped t sp [.reap none rest]).procRefs = s.procRefs := by
  have hholds : (s.reaped t sp [.reap none rest]).procRefs.holds = s.procRefs.holds := by
    funext k
    cases k with
    | entry x j => simp [procRefs, clearing, hw, procOf_eq]; rfl
    | thread u =>
      by_cases hu : u = t
      · subst hu; simp [procRefs, dying, hw, Frame.dying?]
      · simp [procRefs, dying, hw, Frame.dying?, hu]
  exact congrArg₂ Refs.mk rfl hholds

theorem Base.reaped (h : Base Q s) (hw : s.work = [.reap (some t) rest]) {sp : ObjId → Option Nat}
    (hsp : (s.reaped t sp [.reap none rest]).spaceRefs.Exact)
    (hfresh : ∀ x, s.nextObj ≤ x → sp x = none) : Base Q (s.reaped t sp [.reap none rest]) := by
  have hrefs := procRefs_reaped hw sp
  have hsplit : s.doomed = s.sched.zombies ++ t :: rest := by simp [doomed, hw, Frame.doomed]
  have hdoomed : (s.reaped t sp [.reap none rest]).doomed = s.sched.zombies ++ rest := by
    simp [doomed, Frame.doomed]
  have hperm := h.threads.doomed_nodup
  rw [hsplit, List.nodup_middle, List.nodup_cons] at hperm
  obtain ⟨hnot, hnodup⟩ := hperm
  have hdead : s.sched.state t = some .dead := h.threads.doomed_dead t (by simp [hsplit])
  have hold : ∀ u, u ∈ s.sched.zombies ++ rest → u ≠ t ∧ u ∈ s.doomed := by
    intro u hu
    refine ⟨by rintro rfl; exact hnot hu, ?_⟩
    rw [hsplit]
    simp only [List.mem_append, List.mem_cons] at hu ⊢
    tauto
  have hstate : ∀ {u : Tid}, u ≠ t → (s.reaped t sp [.reap none rest]).sched.state u =
      s.sched.state u := fun hu => update_of_ne hu ..
  have hne : ∀ {u : Tid} {st : ThreadState}, s.sched.state u = some st → st ≠ .dead → u ≠ t := by
    rintro u st hu hst rfl
    exact hst (Option.some.inj (hu.symm.trans hdead))
  refine ⟨⟨{ h.fresh with
      spaces := hfresh, threads := fun u hu => update_eq_none (h.fresh.threads u hu) fun _ => rfl },
    ⟨h.threads.boot_known, h.threads.boot_idle, ?_, hdoomed ▸ hnodup, ?_, ?_⟩,
    { h.queues with chan_parked := ?_, wait_parked := ?_ },
    ⟨hrefs ▸ h.counts.procs, hsp, hrefs ▸ h.counts.main⟩, .of_reap rfl,
    h.waits_congr rfl hrefs fun _ _ => rfl⟩, ⟨h.sched.ready_nodup, ?_, ?_, h.sched.boot⟩⟩
  · exact fun u st hu hd => h.threads.alive u st (update_none_cases hu).2 hd
  · intro u hu
    obtain ⟨hut, hu⟩ := hold u (hdoomed ▸ hu)
    rw [hstate hut]
    exact h.threads.doomed_dead u hu
  · intro u hu
    exact h.threads.doomed_ctl u (hold u (hdoomed ▸ hu)).2
  · intro x c u hx hu
    have hp := h.queues.chan_parked x c u hx hu
    rwa [hstate (hne hp.1 (by simp))]
  · intro x R u hx hu
    have hp := h.queues.wait_parked x R u hx hu
    rwa [hstate (hne hp.1 (by simp))]
  · intro u hu
    have hready := h.sched.ready_state u hu
    rwa [hstate (hne hready (by simp))]
  · have hrun := h.sched.running
    exact (hstate (hne hrun (by simp))).trans hrun

theorem Base.freeThreadMem (h : Base Q s) (hw : s.work = [.reap (some t) rest]) :
    ∃ sp, (s.freeThreadMem t).setWork [.reap none rest] = s.reaped t sp [.reap none rest] ∧
      Base Q (s.reaped t sp [.reap none rest]) := by
  have hdead : s.sched.state t = some .dead :=
    h.threads.doomed_dead t (by simp [doomed, hw, Frame.doomed])
  have hholds : s.spaceRefs.holds (.thread t) = s.process t := by simp [spaceRefs, hdead]
  have hafter : ∀ sp, (s.reaped t sp [.reap none rest]).spaceRefs.holds =
      update s.spaceRefs.holds (.thread t) none := by
    intro sp
    funext k
    cases k with
    | process x => rw [update_of_ne (by simp)]; rfl
    | thread u =>
      by_cases hu : u = t
      · subst hu; simp [spaceRefs]
      · simp [spaceRefs, hu]
  cases hp : s.process t with
  | none =>
    refine ⟨s.spaces, by simp only [State.freeThreadMem, hp]; rfl, h.reaped hw ?_ h.fresh.spaces⟩
    have hsame : (s.reaped t s.spaces [.reap none rest]).spaceRefs = s.spaceRefs := by
      have hnone : update s.spaceRefs.holds (.thread t) none = s.spaceRefs.holds := by
        rw [update_eq_self_iff, hholds, hp]
      exact congrArg₂ Refs.mk rfl ((hafter _).trans hnone)
    rw [hsame]
    exact h.counts.spaces
  | some x =>
    rw [hp] at hholds
    obtain ⟨m, hm⟩ := h.counts.spaces.pos hholds
    have hm' : s.spaces x = some (m + 1) := hm
    refine ⟨update s.spaces x (if m = 0 then none else some m), ?_, h.reaped hw ?_ ?_⟩
    · simp only [State.freeThreadMem, hp, spaceUnref_eq hm']
      rfl
    · have hsame : (s.reaped t (update s.spaces x (if m = 0 then none else some m))
          [.reap none rest]).spaceRefs = s.spaceRefs.unref (.thread t) x m :=
        congrArg₂ Refs.mk rfl (hafter _)
      rw [hsame]
      exact h.counts.spaces.unref hholds hm
    · intro y hy
      have hne : x ≠ y := ne_of_some_of_none hm' (h.fresh.spaces y hy)
      rw [update_of_ne hne.symm]
      exact h.fresh.spaces y hy

end

end Exyde.Kernel
