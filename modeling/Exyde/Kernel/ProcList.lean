import Exyde.Kernel.Syscall
import Exyde.Lib.Bytes

/-! # `sys_proc_list`

The records of the listing are built in a buffer on the kernel stack, at address 0 of
the memory here, and copied out as they stand. -/

namespace Exyde.Kernel

open Exyde.Lib Bytes

/-- What the listing shows of a process. A name is its characters before the NUL. -/
structure ListedProc where
  pid : Nat
  exited : Bool
  name : Option (List Nat)

/-- The loop over the name, at character `i`, and the NUL behind it. -/
def collectName (base : Nat) : Nat → List Nat → Bytes → Bytes
  | i, [], m => m.store (base + i) 1 0
  | i, c :: name, m =>
    if i < 31 then collectName base (i + 1) name (m.store (base + i) 1 c) else m.store (base + i) 1 0

def collectInfo (out : Nat) (p : ListedProc) (m : Bytes) : Bytes :=
  collectName (out + 16) 0 (p.name.getD [])
    (((m.store out 8 p.pid).store (out + 8) 4 p.exited.toNat).store (out + 12) 4 0)

/-- The loop over the processes, with `n` records of 48 bytes made and room for `room` more. -/
def processCollect : Nat → Nat → List ListedProc → Bytes → Nat × Bytes
  | room + 1, n, p :: ps, m => processCollect room (n + 1) ps (collectInfo (n * 48) p m)
  | _, n, _, m => (n, m)

/-- The answer and the bytes that reach the user, where `copies` says whether
`copy_to_user` succeeds. -/
def sysProcList (isProcess copies : Bool) (max : Nat) (ps : List ListedProc) (m : Bytes) :
    Int × List (BitVec 8) :=
  if isProcess = false then (-EPERM, [])
  else if max = 0 ∨ max > 64 then (-EINVAL, [])
  else
    let r := processCollect max 0 ps m
    if r.1 = 0 then (0, [])
    else if copies then (r.1, (List.range (r.1 * 48)).map r.2) else (-EFAULT, [])

/-- How many characters of the name are shown. -/
def ListedProc.shown (p : ListedProc) : Nat := min (p.name.getD []).length 31

theorem collectName_writes (base : Nat) {i : Nat} (name : List Nat) (hi : i ≤ 31) :
    Writes (fun x => base + i ≤ x ∧ x ≤ base + min (i + name.length) 31) (collectName base i name) := by
  induction name generalizing i with
  | nil => exact (Writes.store (base + i) 1 0).congr fun x => by simp only [List.length_nil]; omega
  | cons c name ih =>
    by_cases hlt : i < 31
    · simp only [collectName, if_pos hlt]
      refine (ih hlt).comp (.store (base + i) 1 c) fun x => ?_
      rw [List.length_cons]
      omega
    · simp only [collectName, if_neg hlt]
      exact (Writes.store (base + i) 1 0).congr fun x => by omega

theorem collectInfo_writes (out : Nat) (p : ListedProc) :
    Writes (fun x => out ≤ x ∧ x ≤ out + 16 + p.shown) (collectInfo out p) := by
  have hfields := (Writes.store (out + 12) 4 0).comp
    ((Writes.store (out + 8) 4 p.exited.toNat).comp (.store out 8 p.pid) fun x => Iff.rfl)
    (fun x => Iff.rfl)
  refine (collectName_writes (out + 16) (p.name.getD []) (Nat.zero_le _)).comp hfields fun x => ?_
  unfold ListedProc.shown
  omega

/-- The bytes that are written of the records of `ps`, from record `n` on. -/
def InRecord : Nat → List ListedProc → Nat → Prop
  | _, [], _ => False
  | n, p :: ps, x => n * 48 ≤ x ∧ x ≤ n * 48 + 16 + p.shown ∨ InRecord (n + 1) ps x

theorem processCollect_spec (room n : Nat) (ps : List ListedProc) :
    (∀ m, (processCollect room n ps m).1 = n + (ps.take room).length) ∧
    Writes (InRecord n (ps.take room)) fun m => (processCollect room n ps m).2 := by
  induction ps generalizing room n with
  | nil => simpa [processCollect] using ⟨nofun, fun _ _ _ => rfl⟩
  | cons p ps ih =>
    cases room with
    | zero => exact ⟨fun m => rfl, nofun, fun _ _ _ => rfl⟩
    | succ room =>
      obtain ⟨hcount, hwrites⟩ := ih room (n + 1)
      refine ⟨fun m => ?_, hwrites.comp (collectInfo_writes (n * 48) p) fun x => Iff.rfl⟩
      rw [processCollect, hcount, List.take_succ_cons, List.length_cons]
      omega

theorem InRecord.le {n x : Nat} {ps : List ListedProc} (h : InRecord n ps x) : n * 48 ≤ x := by
  induction ps generalizing n with
  | nil => exact h.elim
  | cons p ps ih =>
    rcases h with h | h
    · exact h.1
    · have := ih h
      omega

/-- Every byte of the records is written exactly if every name fills its field. -/
theorem inRecord_iff (n : Nat) (ps : List ListedProc) :
    (∀ x, n * 48 ≤ x → x < (n + ps.length) * 48 → InRecord n ps x) ↔ ∀ p ∈ ps, p.shown = 31 := by
  induction ps generalizing n with
  | nil => exact iff_of_true (fun x h1 h2 => by simp at h2; omega) nofun
  | cons p ps ih =>
    have hle : p.shown ≤ 31 := Nat.min_le_right ..
    rw [List.forall_mem_cons, ← ih (n + 1), List.length_cons]
    refine ⟨fun h => ⟨?_, fun x h1 h2 => ?_⟩, fun h x h1 h2 => ?_⟩
    · rcases h (n * 48 + 47) (by omega) (by omega) with h | h
      · omega
      · have := h.le
        omega
    · exact (h x (by omega) (by omega)).resolve_left (by omega)
    · by_cases hx : x < (n + 1) * 48
      · exact .inl (by omega)
      · exact .inr (h.2 x (by omega) (by omega))

/-- **The listing discloses nothing of the stack** exactly where every name it shows has 31
characters or more. -/
theorem procList_discloses_iff (max : Nat) (ps : List ListedProc) (hmax : 0 < max ∧ max ≤ 64) :
    (∀ m m', sysProcList true true max ps m = sysProcList true true max ps m') ↔
      ∀ p ∈ ps.take max, 31 ≤ (p.name.getD []).length := by
  obtain ⟨hcount, hw⟩ := processCollect_spec max 0 ps
  have hfull : (∀ p ∈ ps.take max, p.shown = 31) ↔ ∀ p ∈ ps.take max, 31 ≤ (p.name.getD []).length :=
    forall₂_congr fun p _ => by unfold ListedProc.shown; omega
  rw [← hfull, ← inRecord_iff 0]
  simp only [sysProcList, hcount, Nat.zero_add, Bool.true_eq_false, if_false, if_true,
    if_neg (show ¬ (max = 0 ∨ max > 64) by omega)]
  split
  next hnone => exact iff_of_true (fun _ _ => rfl) (fun x _ hx => by omega)
  simp only [Prod.mk.injEq, true_and, List.map_inj_left, List.mem_range]
  constructor
  · intro h x _ hx
    by_contra hout
    have h01 : (0 : BitVec 8) = 1 := calc
      _ = (processCollect max 0 ps fun _ => 0).2 x := (hw.outside _ x hout).symm
      _ = (processCollect max 0 ps fun _ => 1).2 x := h _ _ x hx
      _ = 1 := hw.outside _ x hout
    exact absurd h01 (by decide)
  · intro h m m' x hx
    exact hw.inside m m' x (h x (by omega) hx)

theorem procList_discloses_full_name :
    sysProcList true true 1 [⟨1, false, some (List.replicate 31 0x61)⟩] (fun _ => 0) =
      sysProcList true true 1 [⟨1, false, some (List.replicate 31 0x61)⟩] fun _ => 1 :=
  (procList_discloses_iff 1 _ (by decide)).mpr (by simp) _ _

/-- Byte 21 of the record of a process called `init` is behind the NUL of its name. -/
theorem procList_shows_stack :
    let init : ListedProc := ⟨1, false, some [0x69, 0x6e, 0x69, 0x74]⟩
    (sysProcList true true 1 [init] fun _ => 0).2[21]? = some 0 ∧
      (sysProcList true true 1 [init] fun _ => 0xff).2[21]? = some 0xff := by
  decide +kernel

end Exyde.Kernel
