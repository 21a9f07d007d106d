import Exyde.Lib.Tables
import Exyde.Sched.Switch
import Exyde.Kernel.View

/-! # The kernel invariant

What holds between any two steps of a run without forged handles: parked threads are
where they say they are, reference counts are exact, releases in progress are properly
nested, and what a parked thread will use is still there. `Q` is a condition on the
capabilities that are being passed on. -/

namespace Exyde.Kernel

open Exyde.Lib Exyde.Ipc State

/-- Releases nest; `handle_close` and `reap_zombies` are at the bottom. -/
inductive FrameStack : List Frame → Prop
  | nil : FrameStack []
  | close (p : ObjId) (i : Fin handleMax) : FrameStack [.close p i]
  | reap (d : Option Tid) (rest : List Tid) : FrameStack [.reap d rest]
  | sweep (p : ObjId) (i : Nat) {w : List Frame} : FrameStack w → FrameStack (.sweep p i :: w)
  | swept (p : ObjId) (i : Fin handleMax) {w : List Frame} :
      FrameStack w → FrameStack (.swept p i :: w)

structure Fresh (s : State) : Prop where
  procs : ∀ x, s.nextObj ≤ x → s.procs x = none
  chans : ∀ x, s.nextObj ≤ x → s.chans x = none
  spaces : ∀ x, s.nextObj ≤ x → s.spaces x = none
  created : ∀ x, s.nextObj ≤ x → s.created x = none
  threads : ∀ t, s.nextTid ≤ t → s.sched.state t = none
  ctl : ∀ t, s.nextTid ≤ t → s.ctl t = .idle
  process : ∀ t p, s.process t = some p → p < s.nextObj
  main : ∀ p P, s.procs p = some P → P.mainThread < s.nextTid

structure Threads (s : State) : Prop where
  boot_known : bootThread < s.nextTid
  boot_idle : s.ctl bootThread = .idle
  alive : ∀ t st, s.sched.state t = some st → st ≠ .dead → (s.ctl t).isDead = false
  doomed_nodup : s.doomed.Nodup
  doomed_dead : ∀ t, t ∈ s.doomed → s.sched.state t = some .dead
  doomed_ctl : ∀ t, t ∈ s.doomed → s.ctl t = .dead

/-- Whoever is in a wait queue is blocked in the operation the queue is for. -/
structure Queues (s : State) : Prop where
  wf : ∀ x c, s.chans x = some c → c.Wf
  chan_nodup : ∀ x c, s.chans x = some c → (c.senders ++ c.receivers).Nodup
  chan_parked : ∀ x c t, s.chans x = some c → t ∈ c.senders ++ c.receivers →
    s.sched.state t = some .blocked ∧ (s.ctl t).channel? = some x
  wait_nodup : ∀ q Q, s.procs q = some Q → Q.waiters.Nodup
  wait_parked : ∀ q Q t, s.procs q = some Q → t ∈ Q.waiters →
    s.sched.state t = some .blocked ∧ s.ctl t = .wait q

structure Counts (s : State) : Prop where
  procs : s.procRefs.Exact
  spaces : s.spaceRefs.Exact
  main : ∀ t p, s.procRefs.holds (.thread t) = some p → ∃ P, s.procs p = some P ∧ P.mainThread = t

/-- The releases in progress: the processes being destroyed are distinct, nobody
refers to them and their tables are empty as far as they say, and an entry whose
object is being released is a handle on a process. -/
structure Releases (s : State) : Prop where
  shape : FrameStack s.work
  nodup : (s.work.filterMap Frame.sweeping?).Nodup
  unheld : ∀ p, p ∈ s.work.filterMap Frame.sweeping? → s.procRefs.count p = some 0
  clearing : ∀ p i, s.clearing p i → s.procOf p i ≠ none
  emptied : ∀ f p i, f ∈ s.work → f.progress? = some (p, i) → ∀ j : Fin handleMax, j.val < i →
    s.capAt (.entry p j) = none
  close : ∀ p i, .close p i ∈ s.work → s.process s.cur = some p ∧ s.ctl s.cur = .user

/-- The handles a thread `t` that goes on at a point in the kernel relies on: the
one it is sending, which satisfies `Q` if it is to be passed on as owned, or the
one on the process it waits for. -/
def Backed (Q : Cap → Prop) (s : State) (t : Tid) : Ctl → Prop
  | .send _ _ (some g) => ∃ p i c, s.procRefs.holds (.thread t) = some p ∧
      i.val = g.handle.toNat ∧ s.capAt (.entry p i) = some c ∧ c.kind = g.kind ∧
      c.rights = g.rights ∧ c.object = g.object ∧ c.rights &&& rightTransfer = rightTransfer ∧
      (g.action = .transfer → Q c)
  | .wait q => ∃ p i, s.procRefs.holds (.thread t) = some p ∧ s.procRefs.holds (.entry p i) = some q
  | _ => True

/-- The invariant, without the part on the scheduler, which does not hold while
a thread is on its way out of the CPU. -/
structure Core (Q : Cap → Prop) (s : State) : Prop where
  fresh : Fresh s
  threads : Threads s
  queues : Queues s
  counts : Counts s
  releases : Releases s
  waits : ∀ t, Backed Q s t (s.ctl t)

structure Base (Q : Cap → Prop) (s : State) : Prop extends Core Q s where
  sched : s.sched.Ok

/-! ## Consequences -/

section

variable {Q : Cap → Prop} {s : State} {p : ObjId} {t : Tid}

theorem dying_doomed (h : s.dying t) : t ∈ s.doomed := by
  obtain ⟨f, hf, hd⟩ := List.mem_map.mp h
  refine List.mem_append_right _ (List.mem_flatMap.mpr ⟨f, hf, ?_⟩)
  cases f with
  | reap d rest => simp only [Frame.dying?] at hd; simp [Frame.doomed, hd]
  | sweep _ _ | swept _ _ | close _ _ => cases hd

theorem Frame.sweeping_of_progress {f : Frame} {i : Nat} (h : f.progress? = some (p, i)) :
    f.sweeping? = some p := by
  cases f with
  | sweep q j | swept q j => cases h; rfl
  | close _ _ | reap _ _ => cases h

theorem Core.holds_thread (h : Core Q s) {st : ThreadState} (hst : s.sched.state t = some st)
    (hd : st ≠ .dead) (hp : s.process t = some p) : s.procRefs.holds (.thread t) = some p := by
  have hnd : ¬ s.dying t := by
    intro hdy
    have := h.threads.doomed_dead t (dying_doomed hdy)
    rw [hst] at this
    cases this
    exact hd rfl
  simp only [procRefs, hst, Option.isSome_some, hnd, not_false_iff, and_self, if_true, hp]

theorem Core.main_unique (h : Core Q s) {t' : Tid} (h1 : s.procRefs.holds (.thread t) = some p)
    (h2 : s.procRefs.holds (.thread t') = some p) : t = t' := by
  obtain ⟨P, hP, rfl⟩ := h.counts.main t p h1
  obtain ⟨P', hP', rfl⟩ := h.counts.main t' p h2
  rw [hP] at hP'
  cases hP'
  rfl

theorem Core.held_live (h : Core Q s) {k : Holder} (hh : s.procRefs.holds k = some p) :
    ∃ P n, s.procs p = some P ∧ P.refcount = n + 1 := by
  obtain ⟨n, hn⟩ := h.counts.procs.pos hh
  obtain ⟨P, hP, hr⟩ := Option.map_eq_some_iff.mp hn
  exact ⟨P, n, hP, hr⟩

theorem Core.held_not_swept (h : Core Q s) {k : Holder} (hh : s.procRefs.holds k = some p) :
    p ∉ s.work.filterMap Frame.sweeping? := by
  intro hm
  exact h.counts.procs.unheld (h.releases.unheld p hm) k hh

theorem Base.cur_alive (h : Base Q s) : (s.ctl s.cur).isDead = false :=
  h.threads.alive s.cur .running h.sched.running (by simp)

theorem Base.holds_cur (h : Base Q s) (hp : s.process s.cur = some p) :
    s.procRefs.holds (.thread s.cur) = some p :=
  h.toCore.holds_thread h.sched.running (by simp) hp

theorem Base.cur_ne_boot (h : Base Q s) (hc : s.ctl s.cur ≠ .idle) : s.cur ≠ bootThread := by
  intro he
  rw [he] at hc
  exact hc h.threads.boot_idle

theorem activeProc_of_cur (h : Base Q s) (hp : s.process s.cur = some p) :
    s.activeProc p = true := by
  obtain ⟨P, hP, hm⟩ := h.counts.main s.cur p (h.holds_cur hp)
  simp [activeProc, hP, hm, h.cur_alive]

end

/-! ## Frames -/

section

variable {s s' : State}

theorem Releases.of_idle (h : s.work = []) : Releases s where
  shape := by rw [h]; exact .nil
  nodup := by simp [h]
  unheld := by simp [h]
  clearing := by simp [State.clearing, h]
  emptied := by simp [h]
  close := by simp [h]

theorem Releases.of_reap {d : Option Tid} {rest : List Tid} (h : s.work = [.reap d rest]) :
    Releases s where
  shape := by rw [h]; exact .reap _ _
  nodup := by rw [h]; exact List.nodup_nil
  unheld := by simp [h, Frame.sweeping?]
  clearing := by simp [State.clearing, h]
  emptied f p i hf hp := by
    rw [h] at hf
    rw [List.mem_singleton.mp hf] at hp
    cases hp
  close := by simp [h]

theorem procRefs_congr (h1 : s'.procs = s.procs) (h2 : s'.process = s.process)
    (h3 : ∀ t, (s'.sched.state t).isSome = (s.sched.state t).isSome)
    (h4 : ∀ t, s'.dying t ↔ s.dying t) (h5 : ∀ p i, s'.clearing p i ↔ s.clearing p i) :
    s'.procRefs = s.procRefs := by
  have hholds : s'.procRefs.holds = s.procRefs.holds := by
    funext k
    cases k with
    | thread t => simp only [procRefs, h2, h3, h4]
    | entry p i => simp only [procRefs, procOf, capAt, h1, h5]
  exact congrArg₂ Refs.mk (by simp only [h1]) hholds

theorem spaceRefs_congr (h1 : ∀ p, (s'.procs p).isSome = (s.procs p).isSome)
    (h2 : s'.process = s.process)
    (h3 : ∀ t, (s'.sched.state t).isSome = (s.sched.state t).isSome)
    (h4 : s'.spaces = s.spaces) : s'.spaceRefs = s.spaceRefs := by
  have hholds : s'.spaceRefs.holds = s.spaceRefs.holds := by
    funext k
    cases k with
    | process p => simp only [spaceRefs, h1]
    | thread t => simp only [spaceRefs, h2, h3]
  exact congrArg₂ Refs.mk h4 hholds

theorem Threads.congr (h : Threads s) (hn : s'.nextTid = s.nextTid)
    (hst : s'.sched.state = s.sched.state) (hctl : s'.ctl = s.ctl) (hd : s'.doomed = s.doomed) :
    Threads s' :=
  ⟨hn ▸ h.boot_known, hctl ▸ h.boot_idle, hst ▸ hctl ▸ h.alive, hd ▸ h.doomed_nodup,
    hd ▸ hst ▸ h.doomed_dead, hd ▸ hctl ▸ h.doomed_ctl⟩

theorem Counts.congr (h : Counts s) (hp : s'.procRefs = s.procRefs) (hs : s'.spaceRefs = s.spaceRefs)
    (hmain : ∀ p P, s.procs p = some P → ∃ P', s'.procs p = some P' ∧ P'.mainThread = P.mainThread) :
    Counts s' := by
  refine ⟨hp ▸ h.procs, hs ▸ h.spaces, fun t p ht => ?_⟩
  obtain ⟨P, hP, rfl⟩ := h.main t p (hp ▸ ht)
  exact hmain p P hP

theorem Releases.congr (h : Releases s) (hw : s'.work = s.work) (hp : s'.procRefs = s.procRefs)
    (hc : s'.capAt = s.capAt) (hclose : ∀ p, s.process s.cur = some p ∧ s.ctl s.cur = .user →
      s'.process s'.cur = some p ∧ s'.ctl s'.cur = .user) : Releases s' where
  shape := hw ▸ h.shape
  nodup := hw ▸ h.nodup
  unheld := hw ▸ hp ▸ h.unheld
  clearing p i hcl := by
    rw [procOf, hc]
    refine h.clearing p i ?_
    rwa [State.clearing, hw] at hcl
  emptied := hw ▸ hc ▸ h.emptied
  close p i hm := hclose p (h.close p i (hw ▸ hm))

end

end Exyde.Kernel
