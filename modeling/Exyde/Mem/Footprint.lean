import Exyde.Mem.Loader

/-! # What the operations on memory are made of

The functions on memory work by five kinds of steps: a page is allocated or given back,
a word is written, a page is zeroed, the end of the heap moves. What all of these keep,
the functions keep. -/

namespace Exyde.Mem

open Exyde.Lib (Prog)

structure Steps (R : State → State → Prop) : Prop where
  alloc : pmmAllocPage.Keeps R
  free : ∀ page, (pmmFreePage page).Keeps R
  word : ∀ s f i w, R s (State.setWord s f i w)
  zero : ∀ s f, R s (State.setZero s f)
  heapEnd : ∀ s a, R s (State.setHeapEnd s a)

namespace Steps

variable {R : State → State → Prop} [IsPreorder State R]

/-! ## Mapping -/

theorem descendOrAlloc (h : Steps R) (table : Nat) (idx : Fin 512) (user : Bool) :
    (descendOrAlloc table idx user).Keeps R := by
  refine .bind (.read _) fun e => .ite (fun _ => .ite (fun _ => .pure _) fun _ => .pure _) fun _ => ?_
  refine .bind h.alloc fun np => .ite (fun _ => .pure _) fun _ => ?_
  exact .bind (fun s => h.zero s _) fun _ => .bind (fun s => h.word s _ _ _) fun _ => .pure _

theorem vmmMap (h : Steps R) (sp va pa : Nat) (flags : BitVec 32) :
    (vmmMap sp va pa flags).Keeps R := by
  refine .bind (.read _) fun o => ?_
  cases o with
  | none => exact .pure _
  | some space =>
    refine .ite (fun _ => .pure _) fun _ => .bind (h.descendOrAlloc _ _ _) fun pdpt => ?_
    refine .ite (fun _ => .pure _) fun _ => .bind (h.descendOrAlloc _ _ _) fun pd => ?_
    refine .ite (fun _ => .pure _) fun _ => .bind (h.descendOrAlloc _ _ _) fun pt => ?_
    refine .ite (fun _ => .pure _) fun _ => .bind (.read _) fun e => .ite (fun _ => .pure _) fun _ => ?_
    exact .bind (fun s => h.word s _ _ _) fun _ => .pure _

theorem mapFresh (h : Steps R) (sp va : Nat) (flags : BitVec 32) : (mapFresh sp va flags).Keeps R := by
  refine .bind h.alloc fun pa => .ite (fun _ => .pure _) fun _ => ?_
  refine .bind (h.vmmMap _ _ _ _) fun ok => .ite (fun _ => .pure _) fun _ => ?_
  exact .bind (h.free _) fun _ => .pure _

theorem heapGrow (h : Steps R) (need : Nat) : (heapGrow need).Keeps R := by
  refine .bind (.read _) fun base => .bind (.upFrom (fun i => ?_) _ _) fun mapped => ?_
  · exact .ite (fun _ => .pure _) fun _ => h.mapFresh _ _ _
  · refine .ite (fun _ => .pure _) fun _ => .bind (fun s => h.heapEnd s _) fun _ => .pure _

theorem exyMalloc (h : Steps R) (size : Nat) (answer : HeapAnswer) :
    (exyMalloc size answer).Keeps R := by
  refine .ite (fun _ => .pure _) fun _ => ?_
  cases answer with
  | fits => exact .pure _
  | grows fitsThen => exact .bind (h.heapGrow _) fun _ => .ite (fun _ => .pure _) fun _ => .pure _

/-! ## Teardown -/

section

variable (hfree : ∀ page, (pmmFreePage page).Keeps R)

include hfree

theorem freeTable {below : MM Unit}
    (hbelow : below.Keeps R) (table : Nat) :
    (do below; let _ ← pmmFreePage table; pure () : MM Unit).Keeps R :=
  .bind hbelow fun _ => .bind (hfree table) fun _ => .pure ()

theorem freeEntries {below : Nat → MM Unit}
    (hbelow : ∀ a, (below a).Keeps R) (table : Nat) (idxs : List (Fin 512)) :
    (freeEntries table idxs below).Keeps R := by
  refine .forEach (fun i => .bind (.read _) fun e => ?_) idxs
  refine .ite (fun _ => .pure ()) fun _ => .ite (fun _ => ?_) fun _ => hbelow _
  exact .bind (hfree _) fun _ => .pure ()

theorem freePdpt (pdpt : Nat) :
    (freePdpt pdpt).Keeps R := by
  have hpt : ∀ pt, (freePt pt).Keeps R := by
    intro pt
    refine freeTable hfree (.forEach (fun i => .bind (.read _) fun e => ?_) _) pt
    refine .ite (fun _ => .pure ()) fun _ => .ite (fun _ => .pure ()) fun _ => ?_
    exact .bind (hfree _) fun _ => .pure ()
  have hpd : ∀ pd, (freePd pd).Keeps R := fun pd => freeTable hfree (freeEntries hfree hpt pd _) pd
  exact freeTable hfree (freeEntries hfree hpd pdpt _) pdpt

end

/-! ## The loader -/

theorem memcpyToUser (h : Steps R) (va : Nat) (bs : List Byte) : (memcpyToUser va bs).Keeps R := by
  induction bs generalizing va with
  | nil => exact .pure _
  | cons b bs ih =>
    refine .bind (.read _) fun o => ?_
    cases o with
    | none => exact .pure _
    | some f => exact .bind (fun s => h.word s _ _ _) fun _ => ih (va + 1)

theorem copyToUser (h : Steps R) (sp va : Nat) (bs : List Byte) : (copyToUser sp va bs).Keeps R :=
  .bind (.read _) fun _ => .ite (fun _ => h.memcpyToUser va bs) fun _ => .pure _

theorem elfSegment (h : Steps R) (sp : Nat) (data : List Byte) (ph : Phdr) :
    (elfSegment sp data ph).Keeps R := by
  have hmap : (mapSegment sp ph).Keeps R :=
    .bind (.upFrom (fun _ => h.mapFresh _ _ _) _ _) fun _ => .pure _
  have hzero : (zeroSegment sp ph).Keeps R :=
    .bind (.upFrom (fun _ => h.copyToUser _ _ _) _ _) fun _ => .pure _
  refine .ite (fun _ => .pure _) fun _ => .ite (fun _ => .pure _) fun _ => ?_
  refine .bind hmap fun _ => .ite (fun _ => ?_) fun _ => .pure _
  refine .bind hzero fun _ => .ite (fun _ => ?_) fun _ => .pure _
  exact .bind (h.copyToUser _ _ _) fun _ => .ite (fun _ => .pure _) fun _ => .pure _

theorem elfSegments (h : Steps R) (sp : Nat) (data : List Byte) (phs : List Phdr) (lo hi n : Nat) :
    (elfSegments sp data phs lo hi n).Keeps R := by
  induction phs generalizing lo hi n with
  | nil => exact .pure _
  | cons ph phs ih =>
    refine .bind (h.elfSegment sp data ph) fun e => ?_
    cases e with
    | skipped | loaded start stop => exact ih _ _ _
    | refused | failed => exact .pure _

end Steps

end Exyde.Mem
