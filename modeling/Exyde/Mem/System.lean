import Exyde.Lib.Runs
import Exyde.Mem.Boot
import Exyde.Mem.MapSpec
import Exyde.Mem.SpaceSpec
import Exyde.Mem.StackSpec

/-! # The memory system over whole runs

Every operation on the memory of the machine as an event, in any order, failing runs
included. The layout is an invariant, and so every physical page plays at most one role.
-/

namespace Exyde.Mem

open Exyde.Lib (Prog Lockstep System Reach Reachable)
open Pmm (pageDown)

/-! ## Events -/

/-- A store by user code in the space `sp`: the page is mapped for the user and writable. -/
def userStore (sp va : Nat) (b : Byte) : MM Unit := do
  match ← Prog.read (·.vmmQuery sp (pageDown va)) with
  | none => pure ()
  | some (pa, flags) =>
    if hasFlag flags vmUser && hasFlag flags vmWrite then
      Prog.change (·.setByte (pa / 4096) (va % 4096) b)
    else pure ()

/-- The operations on memory. `cur` is the space of the running thread. -/
inductive Event
  | vmmCreate (answer : HeapAnswer)
  | elfLoad (cur sp : Nat) (data : List Byte)
  | mapUserStack (sp : Nat)
  | buildStack (cur sp : Nat) (argv envp : List CString)
  | mapInitrd (cur sp : Nat) (src : Blob)
  | sysMap (sp : Nat) (nextMapVa hint npages flags : BitVec 64)
  | sysUnmap (sp : Nat) (vaddr npages : BitVec 64)
  | heapGrow (needPayload : Nat)
  | spaceRef (sp : Nat)
  | spaceUnref (sp : Nat)
  | vmmSwitch (sp : Nat)
  | userStore (sp va : Nat) (b : Byte)

def Event.apply (s : State) : Event → State
  | .vmmCreate answer => (Mem.vmmCreate answer s).2
  | .elfLoad cur sp data => (Mem.elfLoad cur sp data s).2
  | .mapUserStack sp => (Mem.mapUserStack sp userStackTopInit execStackPages s).2
  | .buildStack cur sp argv envp => (execBuildInitialStack cur sp userStackTopInit argv envp s).2
  | .mapInitrd cur sp src => (Mem.mapInitrd cur sp src.val s).2
  | .sysMap sp nextMapVa hint npages flags =>
      (Mem.sysMap sp nextMapVa.toNat hint.toNat npages.toNat flags s).2
  | .sysUnmap sp vaddr npages => (Mem.sysUnmap sp vaddr.toNat npages.toNat s).2
  | .heapGrow needPayload => (Mem.heapGrow needPayload s).2
  | .spaceRef sp => (vmmSpaceRef sp s).2
  | .spaceUnref sp => (vmmSpaceUnref sp s).2
  | .vmmSwitch sp => (Mem.vmmSwitch sp s).2
  | .userStore sp va b => (Mem.userStore sp va b s).2

/-- `sp` is a live space made by `vmm_create`. -/
def State.UserSpace (s : State) (sp : Nat) : Prop := sp ≠ 0 ∧ (s.space sp).isSome
  deriving Decidable

/-- `sp` is one whose memory can be built by a thread of the space `cur`: if it
is the thread's own, its tables are loaded. -/
def State.Target (s : State) (cur sp : Nat) : Prop :=
  s.UserSpace sp ∧ (cur = sp → s.cr3 = s.pml4Of sp)
  deriving Decidable

def Event.Enabled (s : State) : Event → Prop
  | .elfLoad cur sp _ => s.Target cur sp
  | .mapUserStack sp => s.UserSpace sp
  | .buildStack cur sp _ _ => s.Target cur sp
  | .mapInitrd cur sp _ => s.Target cur sp
  | .sysMap sp _ _ _ _ => s.UserSpace sp
  | .sysUnmap sp _ _ => s.UserSpace sp
  | .userStore sp va _ => s.UserSpace sp ∧ UserVa va
  | _ => True

instance (s : State) (e : Event) : Decidable (e.Enabled s) := by
  cases e <;> unfold Event.Enabled <;> infer_instance

/-- The memory system: any operation at any time, from any state after boot. -/
def memSys : System State Event where
  start := Booted
  step s e := if e.Enabled s then some (e.apply s) else none

/-! ## The invariant -/

section Steps

variable {s s' : State} {sp : Nat}

theorem State.UserSpace.space (h : s.UserSpace sp) : ∃ space, s.space sp = some space :=
  Option.isSome_iff_exists.mp h.2

theorem State.Target.space {cur : Nat} (h : s.Target cur sp) :
    ∃ space, s.space sp = some space ∧ (cur = sp → s.cr3 = space.pml4) := by
  obtain ⟨space, hs⟩ := h.1.space
  refine ⟨space, hs, fun hcur => (h.2 hcur).trans ?_⟩
  rw [State.pml4Of, hs]
  rfl

theorem UserVa.pageDown {va : Nat} (h : UserVa va) : UserVa (pageDown va) := by
  have hlow : userVaBase = 0x8000000000 := rfl
  obtain ⟨h1, h2⟩ := h
  unfold Pmm.pageDown
  exact ⟨by omega, by omega⟩

theorem userStore_layout (h : Layout s) (hs : s.UserSpace sp) (va : Nat) (b : Byte) :
    Layout (userStore sp va b s).2 := by
  obtain ⟨space, hs'⟩ := hs.space
  have hspec : Lockstep Eq (userStore sp va b) s fun _ s' => Layout s' := by
    refine .bind (.look ?_)
    cases hq : s.vmmQuery sp (pageDown va) with
    | none => exact .pure h
    | some q =>
      obtain ⟨pa, fl⟩ := q
      obtain ⟨_, f, hf, rfl⟩ := vmmQuery_node h hs' hq
      refine .ite (fun _ => .put ?_) fun _ => .pure h
      rw [mul_div_page]
      exact (Twin.setByte_self (h.not_table_of_leaf (vaPath_length _) hf) _ _).layout h
  exact hspec.post

/-- **Every operation keeps the layout.** -/
theorem Layout.step {e : Event} (h : Layout s) (hstep : memSys.step s e = some s') : Layout s' := by
  obtain ⟨hen, hstep⟩ := Option.ite_none_right_eq_some.mp hstep
  cases hstep
  cases e with
  | vmmCreate answer => exact (vmmCreate_spec h answer).post.1
  | elfLoad cur sp data =>
    obtain ⟨space, hs, hcur⟩ := State.Target.space hen
    exact (elfLoad_spec h hs hen.1.1 hcur data).post.1
  | mapUserStack sp =>
    obtain ⟨space, hs⟩ := State.UserSpace.space hen
    exact (mapUserStack_spec h hs hen.1).post.1
  | buildStack cur sp argv envp =>
    obtain ⟨space, hs, hcur⟩ := State.Target.space hen
    exact (execBuildInitialStack_spec argv envp h hs hen.1.1 hcur (.refl s sp) (by decide)).post.1
  | mapInitrd cur sp src =>
    obtain ⟨space, hs, hcur⟩ := State.Target.space hen
    exact (mapInitrd_spec h hs hen.1.1 hcur src).post
  | sysMap sp nextMapVa hint npages flags =>
    obtain ⟨space, hs⟩ := State.UserSpace.space hen
    exact (sysMap_spec h hs hen.1 hint.isLt flags).post.1
  | sysUnmap sp vaddr npages =>
    obtain ⟨space, hs⟩ := State.UserSpace.space hen
    exact (sysUnmap_spec h hs hen.1 vaddr.isLt npages.toNat).post
  | heapGrow needPayload => exact (heapGrow_spec h needPayload).post.layout
  | spaceRef sp => exact (vmmSpaceRef_spec h sp).post
  | spaceUnref sp => exact (vmmSpaceUnref_spec h sp).post
  | vmmSwitch sp =>
    obtain ⟨a, hs', _⟩ := (vmmSwitch_spec (s := s) sp).post
    exact (hs' ▸ h.setCr3 a : Layout (Mem.vmmSwitch sp s).2)
  | userStore sp va b => exact userStore_layout h hen.1 va b

theorem Layout.reachable (h : Reachable memSys s) : Layout s :=
  h.invariant (fun _ hb => hb.layout) fun _ _ _ hs _ hstep => hs.step hstep

end Steps

/-! ## Roles -/

/-- What a physical page is used as. -/
inductive Role
  | free
  /-- the page at a user address of a space -/
  | leaf (sp va : Nat)
  /-- a table below the root, at a place of a space's tree -/
  | table (sp : Nat) (place : Path)
  | pml4 (sp : Nat)
  | heap (va : Nat)
  deriving DecidableEq, Repr

def State.Plays (s : State) (f : Nat) : Role → Prop
  | .free => s.pmm.Free f
  | .leaf sp va => UserVa va ∧ ∃ flags, s.vmmQuery sp va = some (f * 4096, flags)
  | .table sp place => place ≠ [] ∧ place.length < 4 ∧ s.node sp place = some f
  | .pml4 sp => ∃ space, s.space sp = some space ∧ space.pml4 = f * 4096
  | .heap va => kernelHeapBase ≤ va ∧ va < kernelHeapMax ∧
      ∃ flags, s.vmmQuery vmmKernelSpace va = some (f * 4096, flags)

def vaAt (i j k l : Fin 512) : Nat := (((l.val * 512 + k.val) * 512 + j.val) * 512 + i.val) * 4096

def roleAt (r : Nat) : Path → Role
  | [] => .pml4 r
  | [i, j, k, l] => if l = 0 then .heap (vaAt i j k l) else .leaf r (vaAt i j k l)
  | place => .table r place

theorem roleAt_table (r : Nat) : ∀ {place : Path}, place ≠ [] → place.length < 4 →
    roleAt r place = .table r place
  | [], hne, _ => absurd rfl hne
  | [_], _, _ | [_, _], _, _ | [_, _, _], _, _ => rfl
  | _ :: _ :: _ :: _ :: _, _, hlen => by simp only [List.length_cons] at hlen; omega

theorem vaAt_vaPath {va : Nat} (halign : va % 4096 = 0) (hlt : va < 2 ^ 48) :
    vaAt (idxPt va) (idxPd va) (idxPdpt va) (idxPml4 va) = va := by
  simp only [vaAt, idxPt, idxPd, idxPdpt, idxPml4, Fin.val_ofNat, Nat.shiftRight_eq_div_pow]
  omega

variable {s : State} {f : Nat}

theorem vmmQuery_live {sp va : Nat} {q : Nat × BitVec 32} (h : s.vmmQuery sp va = some q) :
    ∃ space, s.space sp = some space := by
  cases hs : s.space sp with
  | some space => exact ⟨space, rfl⟩
  | none => simp [State.vmmQuery, State.leafEntry, State.walkLeaf, hs] at h

theorem Layout.query_place (h : Layout s) {sp va : Nat} {flags : BitVec 32}
    (hq : s.vmmQuery sp va = some (f * 4096, flags)) :
    va % 4096 = 0 ∧ s.node (home sp va) (vaPath va) = some f := by
  obtain ⟨space, hs⟩ := vmmQuery_live hq
  obtain ⟨halign, g, hg, hfg⟩ := vmmQuery_node h hs hq
  have hgf : g = f := by omega
  exact ⟨halign, hgf ▸ hg⟩

theorem Layout.plays_place (h : Layout s) {a : Role} (ha : s.Plays f a) (hfree : a ≠ .free) :
    ∃ r p, s.node r p = some f ∧ a = roleAt r p := by
  cases a with
  | free => exact absurd rfl hfree
  | leaf sp va =>
    obtain ⟨hva, flags, hq⟩ := ha
    obtain ⟨halign, hplace⟩ := h.query_place hq
    rw [hva.home] at hplace
    refine ⟨sp, vaPath va, hplace, ?_⟩
    rw [vaPath, roleAt, if_neg (idxPml4_ne_zero hva.1 hva.2), vaAt_vaPath halign hva.2]
  | table sp place =>
    obtain ⟨hne, hlen, hplace⟩ := ha
    exact ⟨sp, place, hplace, (roleAt_table sp hne hlen).symm⟩
  | pml4 sp =>
    obtain ⟨space, hs, hpml4⟩ := ha
    refine ⟨sp, [], ?_, rfl⟩
    rw [State.node_root hs, hpml4, mul_div_page]
  | heap va =>
    obtain ⟨_, hhigh, flags, hq⟩ := ha
    obtain ⟨halign, hplace⟩ := h.query_place hq
    have hmax : kernelHeapMax < userVaBase := by decide
    have htop : userVaBase < 2 ^ 48 := by decide
    have hzero := idxPml4_eq_zero (Nat.lt_trans hhigh hmax)
    rw [home, if_pos hzero] at hplace
    refine ⟨0, vaPath va, hplace, ?_⟩
    rw [vaPath, roleAt, if_pos hzero, vaAt_vaPath halign (by omega)]

/-- **Physical memory isolation.** In every state of every run, no page plays
two roles: not of two user pages, not free and mapped, not a table and user
memory, not part of two spaces, not user memory and kernel heap. -/
theorem page_plays_one_role (h : Reachable memSys s) {a b : Role} (ha : s.Plays f a)
    (hb : s.Plays f b) : a = b := by
  have hl := Layout.reachable h
  by_cases hfa : a = .free
  · by_cases hfb : b = .free
    · rw [hfa, hfb]
    · -- a page with a place is not free
      subst hfa
      obtain ⟨r, p, hplace, _⟩ := hl.plays_place hb hfb
      exact absurd ha (hl.held hplace)
  · obtain ⟨r, p, hplace, harole⟩ := hl.plays_place ha hfa
    by_cases hfb : b = .free
    · subst hfb
      exact absurd hb (hl.held hplace)
    · obtain ⟨r', p', hplace', hbrole⟩ := hl.plays_place hb hfb
      obtain ⟨rfl, rfl⟩ := hl.distinct hplace hplace'
      rw [harole, hbrole]

/-! ## Runs on a small machine -/

def BootMap.run (b : BootMap) (mem : Nat → Fin 512 → Word) (es : List Event) : Option State :=
  (Pmm.pmmInit b.regions).bind fun pmm => memSys.run (b.state pmm mem) es

theorem BootMap.run_reachable {b : BootMap} {mem : Nat → Fin 512 → Word} {es : List Event}
    (h : b.run mem es = some s) : Reachable memSys s := by
  obtain ⟨pmm, hpmm, hrun⟩ := Option.bind_eq_some_iff.mp h
  exact Reachable.run hrun (.start ⟨b, pmm, mem, hpmm, rfl⟩)

/-- A machine with 24 pages, the first four of them the kernel's. -/
def BootMap.tiny : BootMap where
  regions := [⟨0, 0x18000, .usable⟩, ⟨0, 0x4000, .reserved⟩]
  kernel := ⟨0, 0x4000, .reserved⟩
  pml4 := 1
  pdpt := 2
  pd := 3
  listed := by decide
  reserved := by decide
  inside := by decide
  distinct := by decide
  nonzero := by decide

/-- After a heap growth, two spaces, two `sys_map` and one `sys_unmap`, page 9 is
the first page of the second space, and nothing else. -/
theorem page_plays_one_role_tiny : ∃ s, Reachable memSys s ∧
    s.Plays 9 (.leaf 2 userVaBase) ∧ ∀ a, s.Plays 9 a → a = .leaf 2 userVaBase := by
  obtain ⟨s, hs, hquery⟩ : ∃ s ∈ BootMap.tiny.run (fun _ _ => 0#64)
      [.vmmCreate (.grows true), .vmmCreate .fits,
        .sysMap 1 0#64 (BitVec.ofNat 64 userVaBase) 2#64 2#64,
        .sysUnmap 1 (BitVec.ofNat 64 userVaBase) 1#64,
        .sysMap 2 0#64 (BitVec.ofNat 64 userVaBase) 1#64 2#64],
      s.vmmQuery 2 userVaBase = some (9 * 4096, 7#32) := by decide +kernel
  have hplays : s.Plays 9 (.leaf 2 userVaBase) := ⟨by decide, 7#32, hquery⟩
  have hreach := BootMap.run_reachable hs
  exact ⟨s, hreach, hplays, fun a ha => page_plays_one_role hreach ha hplays⟩

end Exyde.Mem
