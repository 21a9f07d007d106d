import Exyde.Kernel.Simulation

/-! # Capabilities cannot be forged, and channels have one owner

Both hold in every run that keeps to a policy. `sys_handle_create` takes any kind and
any object from its caller, and a TRANSFER makes an owner out of whatever handle it is
given. -/

namespace Exyde.Kernel

open Exyde.Lib Exyde.Ipc State

/-! ## Forgery -/

/-- The kinds that name kernel objects. -/
def KernelKind (kind : UInt32) : Prop := kind = kindChannel ∨ kind = kindProcess

/-- `sys_ipc_create` or `sys_spawn_elf` has made the object, of this kind, with
at least these rights. -/
def State.Granted (s : State) (kind rights : UInt32) (object : ObjId) : Prop :=
  ∃ given, s.created object = some (kind, given) ∧ rights &&& given = rights

/-- Every handle on a kernel object and every queued capability for one is
granted. -/
structure CapsGranted (s : State) : Prop where
  entries : ∀ p P i, s.procs p = some P → (P.handles.entries i).inUse = true →
    KernelKind (P.handles.entries i).kind →
    s.Granted (P.handles.entries i).kind (P.handles.entries i).rights (P.handles.entries i).object
  queued : ∀ x c k, s.chans x = some c → (c.caps k).inUse = true → KernelKind (c.caps k).kind →
    s.Granted (c.caps k).kind (c.caps k).rights (c.caps k).object

section

variable {s : State}

def anything (alive : Prop) : Policy :=
  ⟨fun _ => True, fun _ _ _ _ => True, fun _ _ _ _ => True, alive⟩

theorem allowed_anything {e : Event} (h : NoForge e) : Allowed (anything False) s e :=
  ⟨h, fun _ _ => trivial, fun _ _ _ _ => trivial, fun _ _ _ _ => trivial, False.elim⟩

/-- A run that accesses no destroyed channel never comes to the end of the model,
`dangling`. -/
theorem reach_alive (h : Reach kernelSystem (fun s e => NoForge e ∧ UsesAlive s e) s) :
    Genuine s.authority ∧ s.fault ≠ some .dangling := by
  have hkept : Kept (anything True) s := reach_kept (h.mono fun _ _ hok =>
    ⟨hok.1, fun _ _ => trivial, fun _ _ _ _ => trivial, fun _ _ _ _ => trivial, fun _ => hok.2⟩)
  exact ⟨hkept.genuine, hkept.used trivial⟩

end

instance : DecidablePred NoForge := fun e => by
  unfold NoForge
  split <;> infer_instance

/-- The boot thread starts `init`, which enters user mode. -/
def startInit : List Event := [.spawnInit, .idle, .enter]

/-- Wherever a process has room for a handle, `sys_handle_create` forges one for
any kind, rights and object that were not granted. -/
theorem forgery_succeeds {s : State} {p : ObjId} {P : Process} {kind rights object : UInt64}
    (hf : s.fault = none) (hw : s.work = []) (hctl : s.ctl s.cur = .user)
    (hp : s.process s.cur = some p) (hP : s.procs p = some P)
    (hroom : P.handles.handleTableHasFreeSlot = true) (hk : KernelKind kind.toUInt32)
    (hnew : ¬ s.Granted kind.toUInt32 rights.toUInt32 object.toNat) :
    ∃ s', s.step (.syscall (.handleCreate kind rights object)) = some s' ∧ ¬ CapsGranted s' := by
  obtain ⟨tbl, j, hcreate, -, hentries⟩ :=
    HandleTable.handleCreateEx_of_room kind.toUInt32 rights.toUInt32 object.toNat true hroom
  have hentry : tbl.entries j = ⟨kind.toUInt32, rights.toUInt32, object.toNat, true, true⟩ := by
    rw [hentries, Function.update_self]
  refine ⟨(s.setTable p P tbl).ret j.val, ?_, fun hgranted => hnew ?_⟩
  · simp [step, hf, hw, hctl, syscall, sysHandleCreate, withProc, hp, hP, HandleTable.handleCreate, hcreate]
  · have hg := hgranted.entries p { P with handles := tbl } j (Function.update_self ..)
      (by simp [hentry]) (by simpa [hentry] using hk)
    simp only [hentry] at hg
    exact hg

/-! ## Ownership -/

/-- The places that own channel `x`: table entries and queued capabilities. -/
def State.owners (s : State) (x : ObjId) : Set Place :=
  { pl | ∃ c, s.capAt pl = some c ∧ Owner c ∧ c.object = x }

/-- A TRANSFER of a channel handle is of one that owns its channel. -/
def TransfersOwned (s : State) (e : Event) : Prop :=
  ∀ c ∈ s.transfers e, c.kind = kindChannel → c.owns = true
  deriving Decidable

def ownersOnly : Policy :=
  ⟨fun c => c.kind = kindChannel → c.owns = true, fun _ _ _ _ => True, fun _ _ _ _ => True, False⟩

section

variable {s : State}

theorem allowed_ownersOnly {e : Event} (hf : NoForge e) (ht : TransfersOwned s e) :
    Allowed ownersOnly s e :=
  ⟨hf, fun c hc => ht c hc, fun _ _ _ _ => trivial, fun _ _ _ _ => trivial, False.elim⟩

theorem boot_oneOwner : OneOwner boot.authority where
  unique pl pl' c c' hc := by rw [boot_cap] at hc; cases hc
  gone pl c hc := by rw [boot_cap] at hc; cases hc
  known x hx := by cases hx
  nodup := List.nodup_nil

theorem reach_oneOwner
    (h : Reach kernelSystem (fun s e => NoForge e ∧ TransfersOwned s e) s) :
    OneOwner s.authority := by
  have hinv : Kept ownersOnly s ∧ OneOwner s.authority := by
    refine h.invariant (I := fun s => Kept ownersOnly s ∧ OneOwner s.authority) ?_ ?_
    · intro s hs
      rw [show s = boot from hs]
      exact ⟨kept_boot _, boot_oneOwner⟩
    · intro s e s' ⟨hk, ho⟩ hok hs
      have hall := allowed_ownersOnly hok.1 hok.2
      exact ⟨hk.step hall hs, Moves.oneOwner (hk.moves hall hs) (fun c hc => hc) hk.genuine ho⟩
  exact hinv.2

theorem releases_owner {e : Event} {p x : ObjId} {i : Fin handleMax}
    (h : s.releases e = some (p, i, x)) : .entry p i ∈ s.owners x := by
  have hentry : ∀ {q : ObjId} {P : Process} {j : Fin handleMax} {e : HandleEntry},
      s.procs q = some P → P.handles.entries j = e → ownedChannel q j e = some (p, i, x) →
      .entry p i ∈ s.owners x := by
    intro q P j e hP he ho
    obtain ⟨hc, ho⟩ := Option.ite_none_right_eq_some.mp ho
    cases ho
    exact ⟨_, capAt_entry hP he hc.1, ⟨hc.2.2, hc.2.1⟩, rfl⟩
  unfold releases at h
  split at h
  · split at h
    · split at h
      · obtain ⟨P, hP, ho⟩ := Option.bind_eq_some_iff.mp h
        exact hentry hP rfl ho
      · cases h
    · cases h
  · obtain ⟨q, -, h⟩ := Option.bind_eq_some_iff.mp h
    obtain ⟨P, hP, h⟩ := Option.bind_eq_some_iff.mp h
    obtain ⟨⟨j, e⟩, he, ho⟩ := Option.bind_eq_some_iff.mp h
    exact hentry hP (HandleTable.entryOf_some he).2.1 ho
  · cases h

/-- **A channel has at most one owner** in every run in which only owners are
passed on with TRANSFER and nobody uses a destroyed channel; and `channel_destroy`
is called at most once for it. -/
theorem channel_one_owner
    (h : Reach kernelSystem (fun s e => (NoForge e ∧ UsesAlive s e) ∧ TransfersOwned s e) s)
    (x : ObjId) :
    (s.owners x).Subsingleton ∧ s.destroys.Nodup ∧
      (∀ e p i, s.releases e = some (p, i, x) → x ∉ s.destroys) ∧ s.fault ≠ some .dangling := by
  have ho := reach_oneOwner (h.mono fun _ _ hok => ⟨hok.1.1, hok.2⟩)
  refine ⟨?_, ho.nodup, ?_, (reach_alive (h.mono fun _ _ hok => hok.1)).2⟩
  · rintro pl ⟨c, hc, hown, rfl⟩ pl' ⟨c', hc', hown', hobj⟩
    exact ho.unique pl pl' c c' hc hc' hown hown' hobj.symm
  · intro e p i hr
    obtain ⟨c, hc, hown, rfl⟩ := releases_owner hr
    exact ho.gone (.entry p i) c hc hown

end

def blank : Option (Nat → UInt8) := some fun _ => 0

def makeChannels : List Event :=
  startInit ++ [.syscall (.ipcCreate 8 4 true), .syscall (.ipcCreate 8 4 true)]

theorem channel_one_owner_moved :
    ∃ s, Reach kernelSystem (fun s e => (NoForge e ∧ UsesAlive s e) ∧ TransfersOwned s e) s ∧
      s.owners 2 = {.entry 0 2} ∧ s.destroys.Nodup := by
  obtain ⟨s, hs, hcap⟩ :
      ∃ s ∈ kernelSystem.runOk (fun s e => (NoForge e ∧ UsesAlive s e) ∧ TransfersOwned s e) boot
        (makeChannels ++ [.syscall (.ipcSendCap 0 8 blank 1 1), .syscall (.ipcRecvCap 0 8 true)]),
        s.capAt (.entry 0 2) = some (chanCap 2) := by decide +kernel
  have hreach := Reach.runOk hs (.start rfl)
  obtain ⟨hone, hnodup, -⟩ := channel_one_owner hreach 2
  have hmem : (.entry 0 2) ∈ s.owners 2 := ⟨chanCap 2, hcap, ⟨rfl, rfl⟩, rfl⟩
  exact ⟨s, hreach, hone.eq_singleton_of_mem hmem, hnodup⟩

def Event.makesHandle : Event → Bool
  | .syscall (.handleCreate _ _ _) => true
  | _ => false

/-- `init` sends itself a DUPLICATE of its handle on channel 2 through channel 1
and then TRANSFERs that duplicate, which owns nothing. -/
def transferDuplicate : List Event :=
  makeChannels ++ [.syscall (.ipcSendCap 0 8 blank 1 2), .syscall (.ipcRecvCap 0 8 true),
    .syscall (.ipcSendCap 0 8 blank 2 1)]

/-- **A channel with two owners.** The second one is queued in channel 1; once
both are table entries and are closed, the channel is destroyed twice. -/
theorem channel_two_owners :
    (∃ s, Reach kernelSystem (fun _ e => e.makesHandle = false) s ∧ ¬ (s.owners 2).Subsingleton) ∧
      ∃ s, Reach kernelSystem (fun _ e => e.makesHandle = false) s ∧
        s.releases (.syscall (.handleClose 3)) = some (0, 3, 2) ∧ 2 ∈ s.destroys := by
  constructor
  · obtain ⟨s, hs, hentry, hslot⟩ :
        ∃ s ∈ kernelSystem.runOk (fun _ e => e.makesHandle = false) boot transferDuplicate,
          s.capAt (.entry 0 1) = some (chanCap 2) ∧ s.capAt (.slot 1 1) = some (chanCap 2) := by
      decide +kernel
    refine ⟨s, Reach.runOk hs (.start rfl), fun hone => ?_⟩
    have h1 : (.entry 0 1) ∈ s.owners 2 := ⟨chanCap 2, hentry, ⟨rfl, rfl⟩, rfl⟩
    have h2 : (.slot 1 1) ∈ s.owners 2 := ⟨chanCap 2, hslot, ⟨rfl, rfl⟩, rfl⟩
    cases hone h1 h2
  · obtain ⟨s, hs, hclose⟩ : ∃ s ∈ kernelSystem.runOk (fun _ e => e.makesHandle = false) boot
        (transferDuplicate ++ [.syscall (.ipcRecvCap 0 8 true), .syscall (.handleClose 1)]),
        s.releases (.syscall (.handleClose 3)) = some (0, 3, 2) ∧ 2 ∈ s.destroys := by decide +kernel
    exact ⟨s, Reach.runOk hs (.start rfl), hclose⟩

end Exyde.Kernel
