import Exyde.Kernel.Lifetime

/-! # Channels are not leaked

The capability that owns a channel may sit in the queue of another one, whose owner may
sit in a third. `channel_destroy` frees a queue without looking at the capabilities in
it, and a TRANSFER may queue the last owner of a channel in that channel itself. In a
run that does neither, every channel is owned through a chain of queues that starts at a
table entry. -/

namespace Exyde.Kernel

open Function Exyde.Lib Exyde.Ipc

/-- A table entry owns the channel, or a capability queued in a rooted channel
does. -/
inductive Authority.Rooted (a : Authority) : ObjId → Prop
  | entry {p : ObjId} {i : Fin handleMax} {c : Cap} :
      a.cap (.entry p i) = some c → Owner c → a.Rooted c.object
  | queued {y : ObjId} {k : Nat} {c : Cap} :
      a.Rooted y → a.cap (.slot y k) = some c → Owner c → a.Rooted c.object

/-- Every channel there is can be released by closing handles. -/
def Covered (a : Authority) : Prop := ∀ x, a.live x = true → a.Rooted x

/-- The policy under which channels stay rooted: the queue of a channel that is
destroyed owns nothing, and an owner is queued in a channel that does not depend
on it. -/
structure RootPolicy (pol : Policy) : Prop where
  release : ∀ a p i x, pol.release a p i x → ∀ k c, a.cap (.slot x k) = some c → ¬ Owner c
  enqueue : ∀ a p i y c, pol.enqueue a p i y → a.cap (.entry p i) = some c → Owner c →
    (a.drop (.entry p i)).Rooted y

section

variable {pol : Policy} {a a' : Authority} {pl src dst : Place} {c c' : Cap} {x : ObjId}

theorem Authority.Rooted.exists_entry (h : a.Rooted x) : ∃ p i, a.cap (.entry p i) ≠ none := by
  induction h with
  | @entry p i c hc _ => exact ⟨p, i, by rw [hc]; simp⟩
  | queued _ _ _ ih => exact ih

theorem Authority.Rooted.mono (h : a.Rooted x)
    (hcap : ∀ pl c, a.cap pl = some c → Owner c → a'.cap pl = some c) : a'.Rooted x := by
  induction h with
  | entry hc ho => exact .entry (hcap _ _ hc ho) ho
  | queued _ hc ho ih => exact .queued ih (hcap _ _ hc ho) ho

theorem Covered.mono (h : Covered a) (hlive : a'.live = a.live)
    (hcap : ∀ pl c, a.cap pl = some c → Owner c → a'.cap pl = some c) : Covered a' := by
  intro x hx
  rw [hlive] at hx
  exact (h x hx).mono hcap

theorem cap_put_of_free (hfree : a.cap dst = none) (hc : a.cap pl = some c) :
    (a.put dst c').cap pl = some c := by
  have hne : pl ≠ dst := by
    rintro rfl
    rw [hc] at hfree
    cases hfree
  exact (update_of_ne hne ..).trans hc

theorem cap_drop_of_ne (hne : pl ≠ src) : (a.drop src).cap pl = a.cap pl :=
  update_of_ne hne ..

theorem Covered.put (h : Covered a) (hfree : a.cap dst = none) : Covered (a.put dst c') :=
  h.mono rfl fun _ _ hc _ => cap_put_of_free hfree hc

/-- **An owner moves.** What it owns is still rooted if the new place is a table
entry, or is in a channel that is rooted without it. -/
theorem Covered.relocate (h : Covered a) (hsrc : a.cap src = some c) (hfree : a.cap dst = none)
    (hobj : c'.object = c.object) (howner : Owner c → Owner c')
    (hdst : Owner c → ∀ y k, dst = .slot y k → (a.drop src).Rooted y) :
    Covered ((a.put dst c').drop src) := by
  have hne : dst ≠ src := by
    rintro rfl
    rw [hsrc] at hfree
    cases hfree
  have hkeep : ∀ pl d, pl ≠ src → a.cap pl = some d → ((a.put dst c').drop src).cap pl = some d := by
    intro pl d hpl hd
    rw [cap_drop_of_ne hpl, cap_put_of_free hfree hd]
  have hnew : ((a.put dst c').drop src).cap dst = some c' := by
    rw [cap_drop_of_ne hne]
    exact update_self ..
  -- the moved owner roots its channel from where it is now
  have hmoved : Owner c → ((a.put dst c').drop src).Rooted c.object := by
    intro ho
    rw [← hobj]
    cases dst with
    | entry p i => exact .entry hnew (howner ho)
    | slot y k =>
      refine .queued ((hdst ho y k rfl).mono fun pl d hd _ => ?_) hnew (howner ho)
      obtain ⟨hpl, hd⟩ := cap_drop hd
      exact hkeep pl d hpl hd
  have hroot : ∀ {x}, a.Rooted x → ((a.put dst c').drop src).Rooted x := by
    intro x hx
    induction hx with
    | @entry p i d hd ho =>
      by_cases hpl : Place.entry p i = src
      · rw [hpl, hsrc] at hd
        cases hd
        exact hmoved ho
      · exact .entry (hkeep _ d hpl hd) ho
    | @queued y k d _ hd ho ih =>
      by_cases hpl : Place.slot y k = src
      · rw [hpl, hsrc] at hd
        cases hd
        exact hmoved ho
      · exact .queued ih (hkeep _ d hpl hd) ho
  exact fun x hx => hroot (h x hx)

/-- **A channel is destroyed.** Every other one is still rooted, as none was
rooted through its queue. -/
theorem Covered.destroy (h : Covered a) {p : ObjId} {i : Fin handleMax}
    (hc : a.cap (.entry p i) = some c) (hq : ∀ k d, a.cap (.slot c.object k) = some d → ¬ Owner d) :
    Covered ((a.destroy c.object).drop (.entry p i)) := by
  have hroot : ∀ {x}, a.Rooted x →
      x = c.object ∨ ((a.destroy c.object).drop (.entry p i)).Rooted x := by
    intro x hx
    induction hx with
    | @entry q j d hd ho =>
      by_cases hpl : Place.entry q j = .entry p i
      · rw [hpl, hc] at hd
        cases hd
        exact .inl rfl
      · exact .inr (.entry ((cap_drop_of_ne hpl).trans hd) ho)
    | @queued y k d _ hd ho ih =>
      rcases ih with heq | ih
      · subst heq
        exact absurd ho (hq k d hd)
      · by_cases hy : y = c.object
        · subst hy
          exact absurd ho (hq k d hd)
        · refine .inr (.queued (k := k) ih ?_ ho)
          rw [cap_drop_of_ne (by simp)]
          simpa [Authority.destroy, hy] using hd
  intro x hx
  have hne : x ≠ c.object := by
    rintro rfl
    simp [Authority.destroy, Authority.drop] at hx
  have hlive : a.live x = true := by
    simpa [Authority.destroy, Authority.drop, update_of_ne hne] using hx
  exact (hroot (h x hlive)).resolve_left hne

theorem Move.covered (h : Move pol a a') (hpol : RootPolicy pol) (hc : Covered a) : Covered a' := by
  cases h with
  | create p i x hfree _ =>
    intro y hy
    by_cases hyx : y = x
    · subst hyx
      exact .entry (c := chanCap y) (update_self ..) ⟨rfl, rfl⟩
    · have hlive : a.live y = true := by
        simpa [Authority.newChannel, Authority.put, update_of_ne hyx] using hy
      exact (hc y hlive).mono fun _ _ hcap _ => cap_put_of_free (a := a.newChannel x) hfree hcap
  | hold p i q hfree _ =>
    have hnew : Covered (a.newProcess q) := hc.mono rfl fun _ _ hcap _ => hcap
    exact hnew.put hfree
  | mint p i c hfree _ _ | share p i c pl _ _ _ hfree => exact hc.put hfree
  | transfer p i c y k hsrc _ _ hfree _ henq =>
    refine hc.relocate hsrc hfree rfl (fun ho => ⟨ho.1, rfl⟩) ?_
    intro ho y' k' heq
    cases heq
    exact hpol.enqueue a p i y c henq hsrc ho
  | receive y k c p i hsrc hfree =>
    refine hc.relocate hsrc hfree rfl id ?_
    intro _ y' k' heq
    cases heq
  | drop p i c hsrc hno =>
    refine hc.mono rfl fun pl d hd ho => ?_
    have hne : pl ≠ .entry p i := by
      rintro rfl
      rw [hsrc] at hd
      cases hd
      exact hno ho
    rw [cap_drop_of_ne hne, hd]
  | release p i c hsrc _ hrel => exact hc.destroy hsrc (hpol.release a p i _ hrel)
  | birth _ _ | retire _ _ | enter _ _ _ _ _ _ _ | leave _ => exact hc.mono rfl fun _ _ hcap _ => hcap

theorem Moves.covered (h : Moves pol a a') (hpol : RootPolicy pol) (hc : Covered a) :
    Covered a' := by
  induction h with
  | refl => exact hc
  | tail _ hm ih => exact hm.covered hpol ih

end

/-! ## Runs of the kernel -/

instance (c : Cap) : Decidable (Owner c) := inferInstanceAs (Decidable (_ ∧ _))

/-- A step that destroys a channel destroys one whose queue owns no channel. -/
def ReleasesEmptied (s : State) (e : Event) : Prop :=
  ∀ r ∈ s.releases e, ∀ d ∈ s.chans r.2.2, ∀ k < d.capacity, ∀ c ∈ (d.caps k).cap?, ¬ Owner c

instance (s : State) (e : Event) : Decidable (ReleasesEmptied s e) :=
  inferInstanceAs (Decidable (∀ r ∈ s.releases e, _))

/-- A step that queues a capability which owns a channel queues it in a channel
that is rooted without the handle it takes away. -/
def TransfersRooted (s : State) (e : Event) : Prop :=
  ∀ r ∈ s.enqueues e, ∀ c ∈ s.capAt (.entry r.1 r.2.1), Owner c →
    (s.authority.drop (.entry r.1 r.2.1)).Rooted r.2.2

def rootedOnly : Policy where
  transfer _ := True
  release a _ _ x := ∀ k c, a.cap (.slot x k) = some c → ¬ Owner c
  enqueue a p i y := ∀ c, a.cap (.entry p i) = some c → Owner c → (a.drop (.entry p i)).Rooted y
  alive := False

theorem rootedOnly_rootPolicy : RootPolicy rootedOnly where
  release _ _ _ _ h := h
  enqueue _ _ _ _ c h := h c

section

variable {s : State} {e : Event}

theorem allowed_rootedOnly (hb : Base rootedOnly.transfer s) (hf : NoForge e)
    (hr : ReleasesEmptied s e) (ht : TransfersRooted s e) : Allowed rootedOnly s e where
  genuine := hf
  transfer _ _ := trivial
  release p i x hrel k c hc := by
    obtain ⟨d, hd, hcap⟩ := Option.bind_eq_some_iff.mp hc
    refine hr _ hrel d hd k ?_ c hcap
    -- a slot past the capacity is empty
    refine (hb.queues.wf x d hd).cap_lt fun hcl => ?_
    rw [hcl] at hcap
    cases hcap
  enqueue p i x henq c hc ho := ht _ henq c hc ho
  use := False.elim

theorem boot_covered : Covered State.boot.authority := by
  intro x hx
  cases hx

theorem reach_covered
    (h : Reach kernelSystem (fun s e => NoForge e ∧ ReleasesEmptied s e ∧ TransfersRooted s e) s) :
    Covered s.authority := by
  have hinv : Kept rootedOnly s ∧ Covered s.authority := by
    refine h.invariant (I := fun s => Kept rootedOnly s ∧ Covered s.authority) ?_ ?_
    · intro s hs
      rw [show s = State.boot from hs]
      exact ⟨kept_boot _, boot_covered⟩
    · intro s e s' ⟨hk, hc⟩ ⟨hf, hr, ht⟩ hs
      have hall := allowed_rootedOnly (hk.base (step_running hs)) hf hr ht
      exact ⟨hk.step hall hs, Moves.covered (hk.moves hall hs) rootedOnly_rootPolicy hc⟩
  exact hinv.2

/-- What the runs keep to that leak no channel. -/
def LeakFree (s : State) (e : Event) : Prop :=
  (NoForge e ∧ UsesAlive s e) ∧ ReleasesEmptied s e ∧ TransfersRooted s e

/-- **Channels are not leaked**: with all handle tables empty there is no channel
left, in every run that uses no destroyed channel, destroys no queue with an owner
in it and queues no owner where only itself leads to. -/
theorem channels_not_leaked (h : Reach kernelSystem LeakFree s) : s.fault ≠ some .dangling ∧
      ((∀ p i, s.capAt (.entry p i) = none) → ∀ x, s.chans x = none) := by
  refine ⟨(reach_alive (h.mono fun _ _ hok => hok.1)).2, fun hempty x => ?_⟩
  cases hx : s.chans x with
  | none => rfl
  | some c =>
    have hlive : s.authority.live x = true := by simp [State.authority, hx]
    have hcovered := reach_covered (h.mono fun _ _ hok => ⟨hok.1.1, hok.2⟩)
    obtain ⟨p, i, hne⟩ := (hcovered x hlive).exists_entry
    exact absurd (hempty p i) hne

theorem tables_empty {Q : Cap → Prop} (hb : Base Q s)
    (h : ∀ p < s.nextObj, ∀ i, s.capAt (.entry p i) = none) (p : ObjId) (i : Fin handleMax) :
    s.capAt (.entry p i) = none := by
  by_cases hp : p < s.nextObj
  · exact h p hp i
  · simp [State.capAt, hb.fresh.procs p (Nat.le_of_not_lt hp)]

end

theorem noForge_of_makesHandle {e : Event} (h : e.makesHandle = false) : NoForge e := by
  unfold NoForge
  split
  · cases h
  · trivial

/-- The channel is owned by another entry of the process that sends. -/
def SendsToOwned (s : State) (e : Event) : Prop :=
  ∀ r ∈ s.enqueues e, ∃ j, j ≠ r.2.1 ∧ ∃ c ∈ s.capAt (.entry r.1 j), Owner c ∧ c.object = r.2.2
  deriving Decidable

theorem SendsToOwned.rooted {s : State} {e : Event} (h : SendsToOwned s e) : TransfersRooted s e := by
  intro r hr c _ _
  obtain ⟨j, hj, d, hd, ho, heq⟩ := h r hr
  rw [← heq]
  exact .entry ((cap_drop_of_ne (by simpa using hj)).trans hd) ho

theorem channels_not_leaked_returned : ∃ s, Reach kernelSystem LeakFree s ∧ s.destroys = [2, 1] ∧
      (∀ p i, s.capAt (.entry p i) = none) ∧ ∀ x, s.chans x = none := by
  obtain ⟨s, hs, hdes, hfault, htables⟩ : ∃ s ∈ kernelSystem.runOk
      (fun s e => (NoForge e ∧ UsesAlive s e) ∧ ReleasesEmptied s e ∧ SendsToOwned s e) State.boot
      (makeChannels ++ [.syscall (.ipcSendCap 0 8 blank 1 1), .syscall (.ipcRecvCap 0 8 true),
        .syscall (.handleClose 0), .syscall (.handleClose 2)]),
      s.destroys = [2, 1] ∧ s.fault = none ∧ ∀ p < s.nextObj, ∀ i, s.capAt (.entry p i) = none := by
    decide +kernel
  have hreach : Reach kernelSystem LeakFree s :=
    (Reach.runOk hs (.start rfl)).mono fun _ _ hok => ⟨hok.1, hok.2.1, hok.2.2.rooted⟩
  have hkept := reach_kept (hreach.mono fun _ _ he => allowed_anything he.1.1)
  have hempty := tables_empty (hkept.base hfault) htables
  exact ⟨s, hreach, hdes, hempty, (channels_not_leaked hreach).2 hempty⟩

/-- **A channel nobody can release.** `init` sends the owner of channel 2 into
channel 1 and closes channel 1; or it sends the owner of channel 1 into channel 1
itself, and closes channel 2. -/
theorem channels_leaked :
    (∃ s, Reach kernelSystem (fun _ e => e.makesHandle = false) s ∧ s.fault = none ∧
      (∀ p i, s.capAt (.entry p i) = none) ∧ (s.chans 2).isSome = true) ∧
    ∃ s, Reach kernelSystem (fun _ e => e.makesHandle = false) s ∧ s.fault = none ∧
      (∀ p i, s.capAt (.entry p i) = none) ∧ (s.chans 1).isSome = true := by
  have hleak : ∀ {x : ObjId} (es : List Event),
      (∃ s ∈ kernelSystem.runOk (fun _ e => e.makesHandle = false) State.boot es, s.fault = none ∧
        (∀ p < s.nextObj, ∀ i, s.capAt (.entry p i) = none) ∧ (s.chans x).isSome = true) →
      ∃ s, Reach kernelSystem (fun _ e => e.makesHandle = false) s ∧ s.fault = none ∧
        (∀ p i, s.capAt (.entry p i) = none) ∧ (s.chans x).isSome = true := by
    rintro x es ⟨s, hs, hfault, htables, hx⟩
    have hreach := Reach.runOk hs (.start rfl)
    have hkept := reach_kept (hreach.mono fun _ _ he => allowed_anything (noForge_of_makesHandle he))
    exact ⟨s, hreach, hfault, tables_empty (hkept.base hfault) htables, hx⟩
  refine ⟨?_, ?_⟩
  · exact hleak (makeChannels ++
      [.syscall (.ipcSendCap 0 8 blank 1 1), .syscall (.handleClose 0)]) (by decide +kernel)
  · exact hleak (makeChannels ++
      [.syscall (.ipcSendCap 0 8 blank 0 1), .syscall (.handleClose 1)]) (by decide +kernel)

end Exyde.Kernel
