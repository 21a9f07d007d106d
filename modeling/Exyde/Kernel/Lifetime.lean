import Exyde.Kernel.Capabilities

/-! # No use of a destroyed channel

`channel_destroy` frees the channel whoever else still refers to it. In a run that
releases a channel only when nobody else can reach it, no operation meets a destroyed
channel, and no step faults. -/

namespace Exyde.Kernel

open Exyde.Lib Exyde.Ipc

def Cap.Names (x : ObjId) (c : Cap) : Prop := c.kind = kindChannel ∧ c.object = x
  deriving Decidable

/-- Nobody but entry `i` of `p` can reach channel `x`: no other table entry of a
process that still runs, or that would release it, no capability queued in
another channel, no thread inside an operation on it. -/
def State.Alone (s : State) (p : ObjId) (i : Fin handleMax) (x : ObjId) : Prop :=
  (∀ q < s.nextObj, ∀ j, ∀ c ∈ s.capAt (.entry q j), Cap.Names x c →
    (q = p ∧ j = i) ∨ (c.owns = false ∧ s.activeProc q = false)) ∧
  (∀ y < s.nextObj, ∀ d ∈ s.chans y, ∀ k < d.capacity, ∀ c ∈ (d.caps k).cap?, Cap.Names x c → y = x) ∧
  ∀ t < s.nextTid, (s.ctl t).channel? ≠ some x

instance (s : State) (p : ObjId) (i : Fin handleMax) (x : ObjId) : Decidable (s.Alone p i x) :=
  inferInstanceAs (Decidable (_ ∧ _))

/-- A step that destroys a channel does so when nobody else can reach it. -/
def ReleasesAlone (s : State) (e : Event) : Prop :=
  ∀ r ∈ s.releases e, s.Alone r.1 r.2.1 r.2.2
  deriving Decidable

def aloneOnly : Policy := ⟨fun _ => True, Authority.Alone, fun _ _ _ _ => True, False⟩

section

variable {s : State}

/-- Nothing lives beyond the addresses handed out, so looking below them is
enough. -/
theorem State.Alone.authority {Q : Cap → Prop} (hb : Base Q s) {p x : ObjId} {i : Fin handleMax}
    (h : s.Alone p i x) : s.authority.Alone p i x := by
  obtain ⟨hentries, hqueued, hthreads⟩ := h
  refine ⟨?_, ?_, ?_⟩
  · intro q j c hc hk hx
    refine hentries q ?_ j c hc ⟨hk, hx⟩
    by_contra hge
    obtain ⟨R, hR, -⟩ := Option.bind_eq_some_iff.mp hc
    rw [hb.fresh.procs q (Nat.le_of_not_lt hge)] at hR
    cases hR
  · intro y k c hc hk hx
    obtain ⟨d, hd, hcap⟩ := Option.bind_eq_some_iff.mp hc
    refine hqueued y ?_ d hd k ?_ c hcap ⟨hk, hx⟩
    · by_contra hge
      rw [hb.fresh.chans y (Nat.le_of_not_lt hge)] at hd
      cases hd
    · refine (hb.queues.wf y d hd).cap_lt fun hcl => ?_
      rw [hcl] at hcap
      cases hcap
  · intro t
    by_cases ht : t < s.nextTid
    · exact hthreads t ht
    · show (s.ctl t).channel? ≠ some x
      rw [hb.fresh.ctl t (Nat.le_of_not_lt ht)]
      simp [Ctl.channel?]

theorem allowed_aloneOnly {e : Event} (hb : Base aloneOnly.transfer s) (hf : NoForge e)
    (hr : ReleasesAlone s e) : Allowed aloneOnly s e :=
  ⟨hf, fun _ _ => trivial, fun _ _ _ he => (hr _ he).authority hb, fun _ _ _ _ => trivial,
    False.elim⟩

theorem boot_sound : Sound State.boot.authority where
  entries p i c hc := by rw [boot_cap] at hc; cases hc
  slots y k c hc := by rw [boot_cap] at hc; cases hc
  threads t x hx := by cases hx
  dead x hx := by cases hx

structure Safe (s : State) : Prop where
  running : s.fault = none
  ready : Ready aloneOnly s
  sound : Sound s.authority

theorem Safe.step (h : Safe s) {e : Event} {s' : State} (hf : NoForge e) (hr : ReleasesAlone s e)
    (hs : s.step e = some s') : Safe s' := by
  have hall := allowed_aloneOnly h.ready.base hf hr
  cases h.ready.step hall hs with
  | done hm hb hf =>
    have hready : Ready aloneOnly s' :=
      ⟨hb, Moves.genuine hm h.ready.genuine, Moves.procCaps hm h.ready.procCaps, hf⟩
    exact ⟨hf, hready, Moves.sound hm (fun _ _ _ _ ha => ha) h.ready.genuine h.sound⟩
  | fault _ _ hn _ => exact absurd ⟨fun _ _ _ _ ha => ha, h.sound⟩ hn

theorem reach_safe (h : Reach kernelSystem (fun s e => NoForge e ∧ ReleasesAlone s e) s) :
    Safe s := by
  refine h.invariant (I := Safe) ?_ ?_
  · intro s hs
    rw [show s = State.boot from hs]
    exact ⟨rfl, (kept_boot _).ready rfl, boot_sound⟩
  · intro s e s' hsafe hok hs
    exact hsafe.step hok.1 hok.2 hs

theorem Safe.live {x : ObjId} (h : Safe s) (hl : s.authority.live x = true) :
    (s.chans x).isSome = true ∧ x ∉ s.destroys := by
  refine ⟨hl, fun hx => ?_⟩
  have := (h.sound.dead x hx).1
  rw [hl] at this
  cases this

/-- **No operation touches a destroyed channel**: neither a lookup by a process
that can still run, nor a thread that goes on inside a channel operation. -/
theorem channels_alive (h : Reach kernelSystem (fun s e => NoForge e ∧ ReleasesAlone s e) s) :
    (∀ p P hd required x, s.procs p = some P → (s.ctl P.mainThread).isDead = false →
      lookupChannel P.handles hd required = some x → (s.chans x).isSome = true ∧ x ∉ s.destroys) ∧
    (∀ t x, (s.ctl t).channel? = some x → (s.chans x).isSome = true ∧ x ∉ s.destroys) ∧
    s.fault ≠ some .dangling := by
  have hsafe := reach_safe h
  refine ⟨?_, ?_, by rw [hsafe.running]; simp⟩
  · intro p P hd required x hP halive hl
    unfold lookupChannel at hl
    split at hl
    · cases hl
    next e he =>
    split at hl
    next hk =>
      cases hl
      obtain ⟨i, -, -, hentry, hu, -⟩ := HandleTable.handleLookupFull_some he
      have hactive : s.authority.active p = true := by
        show s.activeProc p = true
        simp [State.activeProc, hP, halive]
      exact hsafe.live
        (hsafe.sound.entries p i _ (capAt_entry hP hentry hu) hk (Or.inr hactive))
    · cases hl
  · exact fun t x hx => hsafe.live (hsafe.sound.threads t x hx)

end

/-- A run in which `init` destroys channel 1, which nobody else knows, and goes
on using channel 2. -/
theorem channels_alive_close :
    ∃ s P, Reach kernelSystem (fun s e => NoForge e ∧ ReleasesAlone s e) s ∧ s.destroys = [1] ∧
      s.procs 0 = some P ∧ lookupChannel P.handles 1 rightWrite = some 2 ∧
      (s.chans 2).isSome = true ∧ 2 ∉ s.destroys := by
  obtain ⟨s, hs, hdes, P, hP, hl, halive⟩ :
      ∃ s ∈ kernelSystem.runOk (fun s e => NoForge e ∧ ReleasesAlone s e) State.boot
        (makeChannels ++ [.syscall (.handleClose 0)]), s.destroys = [1] ∧ ∃ P ∈ s.procs 0,
        lookupChannel P.handles 1 rightWrite = some 2 ∧ (s.ctl P.mainThread).isDead = false := by
    decide +kernel
  have hreach := Reach.runOk hs (.start rfl)
  obtain ⟨h1, h2⟩ := (channels_alive hreach).1 0 P 1 rightWrite 2 hP halive hl
  exact ⟨s, P, hreach, hdes, hP, hl, h1, h2⟩

/-- **A handle on a destroyed channel.** `init` duplicates its handle on channel
2, closes the original, and uses the duplicate. -/
theorem channel_dangles :
    ∃ s s' P, Reach kernelSystem (fun _ e => e.makesHandle = false) s ∧ s.process s.cur = some 0 ∧
      s.procs 0 = some P ∧ lookupChannel P.handles 2 rightWrite = some 2 ∧ 2 ∈ s.destroys ∧
      s.step (.syscall (.ipcSend 2 8 blank)) = some s' ∧ s'.fault = some .dangling := by
  obtain ⟨s, hs, hp, hdes, ⟨P, hP, hl⟩, s', hs', hfault⟩ :
      ∃ s ∈ kernelSystem.runOk (fun _ e => e.makesHandle = false) State.boot
        (makeChannels ++ [.syscall (.ipcSendCap 0 8 blank 1 2), .syscall (.ipcRecvCap 0 8 true),
          .syscall (.handleClose 1)]),
        s.process s.cur = some 0 ∧ 2 ∈ s.destroys ∧
        (∃ P ∈ s.procs 0, lookupChannel P.handles 2 rightWrite = some 2) ∧
        ∃ s' ∈ s.step (.syscall (.ipcSend 2 8 blank)), s'.fault = some .dangling := by decide +kernel
  exact ⟨s, s', P, Reach.runOk hs (.start rfl), hp, hP, hl, hdes, hs', hfault⟩

/-! ## A child that waits -/

def userVaBase : UInt64 := 0x8000000000

def spawnOk : SpawnEnv := ⟨none, true, true, .spawned, userVaBase⟩

end Exyde.Kernel
