import Mathlib.Data.Fin.Basic
import Exyde.Lib.Lockstep
import Exyde.Mem.Pmm

/-! # Physical memory and page-table entries

The memory is an array of pages of 512 words, named by their frame, which the kernel
reaches through the identity map of the first GiB. Beside it stand the allocator, the
address spaces, the end of the kernel heap and the root that is loaded in CR3. -/

namespace Exyde.Mem

open Function BitVec
open Exyde.Lib (Prog)

abbrev Word := BitVec 64
abbrev Byte := BitVec 8

instance neZeroEntries : NeZero 512 := ⟨by decide⟩

def kernelVaBase : Nat := 0x40000000
/-- `USER_VA_BASE`: the first address under `PML4[1]`. -/
def userVaBase : Nat := 0x8000000000
def userVaTop : Nat := 0x800000000000

/-! ## Entries -/

def ptePresent : Word := 1#64
def pteWrite : Word := 2#64
def pteUser : Word := 4#64
def ptePwt : Word := 8#64
def ptePcd : Word := 16#64
def pteHuge : Word := 0x80#64
def pteAddrMask : Word := 0x000FFFFFFFFFF000#64

def present (e : Word) : Bool := e &&& ptePresent != 0#64
def huge (e : Word) : Bool := e &&& pteHuge != 0#64

def pteAddr (e : Word) : Nat := (e &&& pteAddrMask).toNat

def vmPresent : BitVec 32 := 1#32
def vmWrite : BitVec 32 := 2#32
def vmUser : BitVec 32 := 4#32
def vmNocache : BitVec 32 := 8#32

def hasFlag (f bit : BitVec 32) : Bool := f &&& bit != 0#32

def flagsToPte (f : BitVec 32) : Word :=
  (if hasFlag f vmPresent then ptePresent else 0#64) |||
  (if hasFlag f vmWrite then pteWrite else 0#64) |||
  (if hasFlag f vmUser then pteUser else 0#64) |||
  (if hasFlag f vmNocache then ptePwt ||| ptePcd else 0#64)

def pteToFlags (e : Word) : BitVec 32 :=
  (if e &&& ptePresent != 0#64 then vmPresent else 0#32) |||
  (if e &&& pteWrite != 0#64 then vmWrite else 0#32) |||
  (if e &&& pteUser != 0#64 then vmUser else 0#32) |||
  (if e &&& (ptePwt ||| ptePcd) != 0#64 then vmNocache else 0#32)

def pteFor (pa : Nat) (bits : Word) : Word := (BitVec.ofNat 64 pa &&& pteAddrMask) ||| bits

theorem mul_div_page (f : Nat) : f * 4096 / 4096 = f := Nat.mul_div_cancel f (by decide)

/-- Low bits that make an entry present and not huge, and leave the address alone. -/
structure LowBits (bits : Word) : Prop where
  present : bits &&& ptePresent = ptePresent
  huge : bits &&& pteHuge = 0#64
  addr : bits &&& pteAddrMask = 0#64

theorem flagsToPte_lowBits {f : BitVec 32} (hf : hasFlag f vmPresent = true) :
    LowBits (flagsToPte f) := by
  unfold flagsToPte
  rw [if_pos hf]
  cases hasFlag f vmWrite <;> cases hasFlag f vmUser <;> cases hasFlag f vmNocache <;>
    exact ⟨by decide, by decide, by decide⟩

theorem getLsbD_pteAddrMask (i : Nat) :
    pteAddrMask.getLsbD i = (decide (12 ≤ i) && decide (i < 52)) := by
  have h : pteAddrMask = (BitVec.allOnes 40).setWidth 64 <<< 12 := by decide
  rw [h, getLsbD_shiftLeft, getLsbD_setWidth, getLsbD_allOnes]
  by_cases h1 : i < 12
  · simp [h1]
  · by_cases h2 : i < 52
    · simp [h1, h2, show i < 64 by omega, show i - 12 < 64 by omega, show i - 12 < 40 by omega,
        show 12 ≤ i by omega]
    · simp [h2, show ¬ i - 12 < 40 by omega]

theorem ofNat_and_pteAddrMask {f : Nat} (hf : f < 2 ^ 40) :
    BitVec.ofNat 64 (f * 4096) &&& pteAddrMask = BitVec.ofNat 64 (f * 4096) := by
  apply eq_of_getLsbD_eq
  intro i hi
  rw [getLsbD_and, getLsbD_pteAddrMask, getLsbD_ofNat,
    show f * 4096 = f * 2 ^ 12 from rfl, Nat.testBit_mul_two_pow]
  by_cases h1 : 12 ≤ i
  · by_cases h2 : i < 52
    · simp [h1, h2]
    · have hbit : f.testBit (i - 12) = false :=
        Nat.testBit_lt_two_pow (Nat.lt_of_lt_of_le hf (Nat.pow_le_pow_right (by decide) (by omega)))
      simp [hbit]
  · simp [h1]

variable {bits : Word}

theorem pteAddr_pteFor {f : Nat} (hf : f < 2 ^ 40) (hb : LowBits bits) :
    pteAddr (pteFor (f * 4096) bits) = f * 4096 := by
  rw [pteAddr, pteFor, ofNat_and_pteAddrMask hf, Lib.or_and_mask, hb.addr,
    ofNat_and_pteAddrMask hf, or_zero, toNat_ofNat]
  exact Nat.mod_eq_of_lt (by omega)

theorem present_pteFor {pa : Nat} (hb : LowBits bits) : present (pteFor pa bits) = true := by
  have hmask : pteAddrMask &&& ptePresent = 0#64 := by decide
  rw [present, pteFor, Lib.or_and_mask, hb.present, BitVec.and_assoc, hmask,
    BitVec.and_zero, BitVec.zero_or]
  rfl

theorem huge_pteFor {pa : Nat} (hb : LowBits bits) : huge (pteFor pa bits) = false := by
  have hmask : pteAddrMask &&& pteHuge = 0#64 := by decide
  rw [huge, pteFor, Lib.or_and_mask, hb.huge, BitVec.and_assoc, hmask,
    BitVec.and_zero, BitVec.zero_or]
  rfl

theorem pteAddr_aligned (e : Word) : pteAddr e / 4096 * 4096 = pteAddr e := by
  have h : pteAddr e % 2 ^ 12 = 0 := by
    rw [pteAddr, toNat_and, Nat.and_mod_two_pow]
    exact Nat.and_zero _
  omega

/-! ## State -/

structure Space where
  pml4 : Nat
  refcount : Nat
  isKernel : Bool
  deriving DecidableEq, Repr

/-- The memory of the machine, as the kernel sees it. Address spaces are named
by numbers that are not used again; 0 is the kernel's. -/
structure State where
  pmm : Pmm
  mem : Nat → Fin 512 → Word
  space : Nat → Option Space
  nextSpace : Nat
  heapEnd : Nat
  cr3 : Nat

abbrev MM := Prog State

namespace State

def setPmm (s : State) (m : Pmm) : State := { s with pmm := m }

def setWord (s : State) (f : Nat) (i : Fin 512) (w : Word) : State :=
  { s with mem := update s.mem f (update (s.mem f) i w) }

def setZero (s : State) (f : Nat) : State :=
  { s with mem := update s.mem f fun _ => 0#64 }

@[simp] theorem setPmm_pmm (s : State) (m : Pmm) : (s.setPmm m).pmm = m := rfl

@[simp] theorem setWord_mem (s : State) (f : Nat) (i : Fin 512) (w : Word) :
    (s.setWord f i w).mem = update s.mem f (update (s.mem f) i w) := rfl

@[simp] theorem setZero_mem (s : State) (f : Nat) :
    (s.setZero f).mem = update s.mem f fun _ => 0#64 := rfl
@[simp] theorem setZero_space (s : State) (f : Nat) : (s.setZero f).space = s.space := rfl

def byte (s : State) (f o : Nat) : Byte := Lib.getByte (s.mem f (Fin.ofNat 512 (o / 8))) (o % 8)

def setByte (s : State) (f o : Nat) (b : Byte) : State :=
  s.setWord f (Fin.ofNat 512 (o / 8)) (Lib.setByte (s.mem f (Fin.ofNat 512 (o / 8))) (o % 8) b)

end State

/-! ## Machine steps -/

def pmmAllocPage : MM Nat := fun s => ((s.pmm.pmmAllocPages 1).1, s.setPmm (s.pmm.pmmAllocPages 1).2)

def pmmFreePage (page : Nat) : MM Bool := fun s =>
  ((s.pmm.pmmFreePages page 1).1, s.setPmm (s.pmm.pmmFreePages page 1).2)

def load (table : Nat) (i : Fin 512) : MM Word := .read fun s => s.mem (table / 4096) i

def store (table : Nat) (i : Fin 512) (w : Word) : MM Unit := .change (·.setWord (table / 4096) i w)

def zeroPage (table : Nat) : MM Unit := .change (·.setZero (table / 4096))

end Exyde.Mem
