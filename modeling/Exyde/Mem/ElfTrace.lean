import Exyde.Lib.Traced
import Exyde.Mem.ElfImage

/-! # `elf_load` on arbitrary bytes

The loader once more, line by line: the loops with their 64-bit counters and a fuel, and
every access noted, to the image, to the page tables and to user memory. With fuel
enough it ends, as the loader does, and each of its accesses is one that the image
allows. -/

namespace Exyde.Mem

open Exyde.Lib List Option
open Pmm (pageUp pageDown)
open Producer (phdrs)

inductive Access
  /-- `n` bytes of the image, from `off` on -/
  | read (off n : Nat)
  /-- a call of `vmm_map` for the page at `va` -/
  | map (va : Nat)
  /-- a byte of user memory -/
  | write (va : Nat)
  deriving DecidableEq, Repr

/-- The accesses that an image allows. -/
def Access.Allowed (data : List Byte) : Access → Prop
  | .read off n => off + n ≤ data.length
  | .map va => va % 4096 = 0 ∧ userVaBase ≤ va ∧ va + 4096 ≤ userVaTop
  | .write va => ∃ ph ∈ phdrs data, ph.type = 1 ∧ ph.vaddr ≤ va ∧ va < ph.vaddr + ph.memsz

/-- Kernel code that notes its accesses. -/
abbrev TM := Trap (Traced State Access)

namespace Trace

open Traced (silent note)

/-! ## The code -/

def field (data : List Byte) (off n : Nat) : TM Nat := do
  note (.read off n)
  pure (leAt data off n)

/-- `if (field != v) return false;` before the rest. -/
def require (data : List Byte) (off n v : Nat) (rest : TM Bool) : TM Bool := do
  if (← field data off n) ≠ v then pure false else rest

def elfHeader (data : List Byte) : TM Bool :=
  let size := data.length
  if size < 64 then pure false
  else
    require data 0 1 0x7F <| require data 1 1 0x45 <| require data 2 1 0x4C <| require data 3 1 0x46 <|
    require data 4 1 2 <| require data 5 1 1 <| require data 16 2 2 <| require data 18 2 0x3E <|
    require data 54 2 56 <| do
      if (← field data 56 2) = 0 then pure false
      else if (← field data 32 8) > size then pure false
      else
        let phBytes := (← field data 56 2) * 56 % 2 ^ 64
        if phBytes / 56 ≠ (← field data 56 2) then pure false
        else if phBytes > size - (← field data 32 8) then pure false
        else if (← field data 24 8) < userVaBase then pure false
        else pure true

def userPages (sp stop : Nat) : Nat → Nat → TM Bool
  | 0, _ => .trap
  | fuel + 1, page => do
    if page < stop then
      if ← silent (Prog.read fun s => s.userPage sp page) then
        userPages sp stop fuel ((page + 4096) % 2 ^ 64)
      else pure false
    else pure true

def userRangeOk (fuel sp va n : Nat) : TM Bool :=
  if n = 0 then pure true
  else if !rangeInUserHalf va n then pure false
  else userPages sp ((va + n) % 2 ^ 64) fuel (pageDown va)

/-- `uaccess_memcpy_to_user`, from the byte with the number `k` of a source on. -/
def memcpyToUser (src : Nat → TM Byte) : Nat → Nat → Nat → TM Bool
  | 0, _, _ => pure true
  | n + 1, k, va => do
    let b ← src k
    match ← silent (Prog.read fun s => s.translate va) with
    | none => pure false
    | some f =>
      note (.write va)
      silent (Prog.change (·.setByte f (va % 4096) b))
      memcpyToUser src n (k + 1) ((va + 1) % 2 ^ 64)

def copyToUser (fuel sp va : Nat) (src : Nat → TM Byte) (n : Nat) : TM Bool := do
  if ← userRangeOk fuel sp va n then memcpyToUser src n 0 va else pure false

def imageByte (data : List Byte) (off k : Nat) : TM Byte := do
  note (.read (off + k) 1)
  pure (data.getD (off + k) 0)

def mapPages (sp stop : Nat) : Nat → Nat → TM Bool
  | 0, _ => .trap
  | fuel + 1, va => do
    if va < stop then
      let pa ← silent pmmAllocPage
      if pa = 0 then pure false
      else
        note (.map va)
        if ← silent (vmmMap sp va pa vmUserPage) then mapPages sp stop fuel ((va + 4096) % 2 ^ 64)
        else
          let _ ← silent (pmmFreePage pa)
          pure false
    else pure true

def zeroBytes (fuel sp : Nat) : Nat → Nat → Nat → TM Bool
  | 0, _, _ => .trap
  | n + 1, dst, rem => do
    if rem > 0 then
      let chunk := if rem > 4096 then 4096 else rem
      if ← copyToUser fuel sp dst (fun _ => pure 0#8) chunk then
        zeroBytes fuel sp n ((dst + chunk) % 2 ^ 64) (rem - chunk)
      else pure false
    else pure true

/-- The fields of the program header at `off`. -/
def pType (data : List Byte) (off : Nat) : TM Nat := field data off 4
def pOffset (data : List Byte) (off : Nat) : TM Nat := field data (off + 8) 8
def pVaddr (data : List Byte) (off : Nat) : TM Nat := field data (off + 16) 8
def pFilesz (data : List Byte) (off : Nat) : TM Nat := field data (off + 32) 8
def pMemsz (data : List Byte) (off : Nat) : TM Nat := field data (off + 40) 8

def segRange (data : List Byte) (off : Nat) : TM (Nat × Nat) := do
  let segStart := pageDown (← pVaddr data off)
  let segEnd := pageUp ((← pVaddr data off) + (← pMemsz data off))
  pure (segStart, segEnd)

/-- The checks of the loop body: whether one of them makes it return. -/
def badSegment (data : List Byte) (off : Nat) : TM Bool := do
  let size := data.length
  if (← pFilesz data off) > (← pMemsz data off) then pure true
  else if (← pOffset data off) > size then pure true
  else if (← pFilesz data off) > size - (← pOffset data off) then pure true
  else if (← pVaddr data off) < userVaBase then pure true
  else if (← pMemsz data off) > 2 ^ 64 - 1 - (← pVaddr data off) then pure true
  else
    let range ← segRange data off
    pure (decide (range.2 < range.1 ∨ range.2 > userVaTop))

/-- The rest of the loop body: the pages, the zeros and the bytes of the file. -/
def loadSegment (fuel sp : Nat) (data : List Byte) (off : Nat) : TM SegEnd := do
  let range ← segRange data off
  if ← mapPages sp range.2 fuel range.1 then
    if ← zeroBytes fuel sp fuel (← pVaddr data off) (← pMemsz data off) then
      if (← pFilesz data off) > 0 then
        if ← copyToUser fuel sp (← pVaddr data off) (imageByte data (← pOffset data off))
            (← pFilesz data off) then
          pure (.loaded range.1 range.2)
        else pure .failed
      else pure (.loaded range.1 range.2)
    else pure .failed
  else pure .failed

/-- The loop body of `elf_load`, for the program header at `off`. -/
def elfSegment (fuel sp : Nat) (data : List Byte) (off : Nat) : TM SegEnd := do
  if (← pType data off) ≠ 1 then pure .skipped
  else if (← pMemsz data off) = 0 then pure .skipped
  else if ← badSegment data off then pure .refused
  else loadSegment fuel sp data off

def elfSegments (fuel sp : Nat) (data : List Byte) (phoff : Nat) : Nat → Nat → Nat → Nat → Nat → TM LoadEnd
  | 0, _, _, _, _ => .trap
  | n + 1, i, lowest, highest, loaded => do
    if i < (← field data 56 2) then
      match ← elfSegment fuel sp data (phoff + i * 56) with
      | .skipped => elfSegments fuel sp data phoff n ((i + 1) % 2 ^ 32) lowest highest loaded
      | .refused => pure .refused
      | .failed => pure .failed
      | .loaded start stop =>
        elfSegments fuel sp data phoff n ((i + 1) % 2 ^ 32) (if start < lowest then start else lowest)
          (if stop > highest then stop else highest) (loaded + 1)
    else pure (.through lowest highest loaded)

def elfLoad (fuel cur sp : Nat) (data : List Byte) : TM (Option ElfImage) := do
  if ← elfHeader data then
    let needSwitch := decide (cur ≠ sp)
    silent (switchIf needSwitch sp)
    let phoff ← field data 32 8
    match ← elfSegments fuel sp data phoff fuel 0 (2 ^ 64 - 1) 0 0 with
    | .refused => pure none
    | .failed =>
      silent (switchIf needSwitch cur)
      pure none
    | .through lowest highest loaded =>
      if loaded = 0 then
        silent (switchIf needSwitch cur)
        pure none
      else
        let entry ← field data 24 8
        silent (switchIf needSwitch cur)
        pure (some ⟨entry, lowest, highest - lowest⟩)
  else pure none

/-! ## Reads -/

/-- The code goes as the program `q` does, by accesses that the image allows. -/
abbrev Safe (data : List Byte) {α : Type} (p : TM α) (q : MM α) (s : State) : Prop :=
  Follows (Access.Allowed data) p q s

section Reads

variable {data : List Byte} {s : State} {α : Type} {off n : Nat}

theorem field_then {k : Nat → TM α} {q : MM α} (h : off + n ≤ data.length)
    (hk : Safe data (k (leAt data off n)) q s) :
    Safe data (field data off n >>= k) q s :=
  .skip (.note h (.pure _)) hk

theorem leAt_lt (data : List Byte) (off n : Nat) : leAt data off n < 256 ^ n := by
  have hfold : ∀ ks : List Nat,
      ks.foldr (fun k acc => (data.getD (off + k) 0).toNat + 256 * acc) 0 < 256 ^ ks.length := by
    intro ks
    induction ks with
    | nil => exact Nat.one_pos
    | cons k ks ih =>
      rw [foldr_cons, length_cons, Nat.pow_succ]
      omega
  have h := hfold (List.range n)
  rwa [length_range] at h

theorem leAt_one {off v : Nat} (hv : v < 256) :
    leAt data off 1 = v ↔ data.getD off 0 = BitVec.ofNat 8 v := by
  rw [← BitVec.toNat_inj, BitVec.toNat_ofNat, Nat.mod_eq_of_lt hv]
  simp [leAt]

/-- A check that the loader makes as well. -/
theorem check_follows {c : Prop} [Decidable c] {p : TM Bool} {x : Option α}
    (h : ¬ c → Safe data p (pure x.isSome) s) :
    Safe data (if c then pure false else p) (pure (if c then none else x).isSome) s := by
  refine .ite (fun hc => ?_) fun hc => ?_
  · rw [if_pos hc]
    exact .pure _
  · rw [if_neg hc]
    exact h hc

theorem magic_eq (hlen : 64 ≤ data.length) (x : Option α) :
    (if data.take 4 ≠ [0x7F#8, 0x45#8, 0x4C#8, 0x46#8] then none else x) =
      if leAt data 0 1 ≠ 0x7F then none else if leAt data 1 1 ≠ 0x45 then none
      else if leAt data 2 1 ≠ 0x4C then none else if leAt data 3 1 ≠ 0x46 then none else x := by
  match data, hlen with
  | b0 :: b1 :: b2 :: b3 :: rest, _ =>
    simp only [ne_eq, leAt_one (show 0x7F < 256 by decide), leAt_one (show 0x45 < 256 by decide),
      leAt_one (show 0x4C < 256 by decide), leAt_one (show 0x46 < 256 by decide)]
    grind

theorem elfHeader_follows (data : List Byte) (s : State) :
    Safe data (elfHeader data) (pure (Mem.elfHeader data).isSome) s := by
  refine check_follows fun hlong => ?_
  have hin : ∀ {off n : Nat}, off + n ≤ 64 → off + n ≤ data.length := by omega
  have hclass : data.getD 4 0 ≠ 2#8 ↔ leAt data 4 1 ≠ 2 := not_congr (leAt_one (by decide)).symm
  have hlsb : data.getD 5 0 ≠ 1#8 ↔ leAt data 5 1 ≠ 1 := not_congr (leAt_one (by decide)).symm
  simp only [magic_eq (Nat.le_of_not_lt hlong), hclass, hlsb]
  iterate 11 refine field_then (hin (by decide)) (check_follows fun _ => ?_)
  have hlt := leAt_lt data 56 2
  -- the product of a 16-bit number and 56 does not wrap
  have hprod : leAt data 56 2 * 56 % 2 ^ 64 = leAt data 56 2 * 56 := by omega
  refine field_then (hin (by decide)) (field_then (hin (by decide)) ?_)
  rw [hprod]
  refine .ite (fun h => by omega) fun _ => ?_
  iterate 2 refine field_then (hin (by decide)) (check_follows fun _ => ?_)
  exact .pure _

end Reads

/-! ## Copies -/

section Copies

variable {data : List Byte} {s : State} {sp : Nat}

theorem userPages_follows (stop : Nat) (hstop : stop ≤ userVaTop) (n fuel : Nat) {page : Nat}
    (hn : (stop - page + 4095) / 4096 = n) (hpage : page ≤ stop ∨ n = 0) :
    Safe data (userPages sp stop (fuel + n + 1) page)
      (Prog.read fun s => (List.range n).all fun i => s.userPage sp (page + i * 4096)) s := by
  have htop : userVaTop < 2 ^ 63 := by decide
  induction n generalizing page with
  | zero => exact .ite (fun h => absurd h (by omega)) fun _ => .of_eq rfl
  | succ n ih =>
    refine .ite (fun _ => ?_) fun h => absurd hn (by omega)
    have hnext : (page + 4096) % 2 ^ 64 = page + 4096 := Nat.mod_eq_of_lt (by omega)
    have hrest : ∀ t : State, ((List.range (n + 1)).all fun i => t.userPage sp (page + i * 4096)) =
        (t.userPage sp page && (List.range n).all fun i => t.userPage sp (page + 4096 + i * 4096)) := by
      intro t
      have hshift : (fun i => t.userPage sp (page + i * 4096)) ∘ Nat.succ =
          fun i => t.userPage sp (page + 4096 + i * 4096) := by
        funext i
        exact congrArg (t.userPage sp) (by rw [Nat.succ_mul]; omega)
      rw [List.range_succ_eq_map, List.all_cons, List.all_map, hshift, Nat.zero_mul, Nat.add_zero]
    simp only [hrest]
    refine .read (.ite (fun hyes => ?_) fun hno => .of_eq ?_)
    · rw [hnext]
      refine (ih (by omega) (by omega)).congr ?_
      simp only [Prog.read, hyes, Bool.true_and]
    · simp only [Prog.read, Bool.eq_false_iff.mpr hno, Bool.false_and]

theorem userRangeOk_follows {va n fuel : Nat} (htop : va + n ≤ userVaTop) (hfuel : 2 ^ 48 ≤ fuel) :
    Safe data (userRangeOk fuel sp va n)
      (Prog.read fun s => s.userRangeOk sp va n) s := by
  have hmax : userVaTop = 2 ^ 47 := by decide
  have hend : (va + n) % 2 ^ 64 = va + n := Nat.mod_eq_of_lt (by omega)
  have hdown : pageDown va ≤ va := Nat.div_mul_le_self ..
  refine .ite (fun h0 => .of_eq ?_) fun h0 => .ite (fun hout => .of_eq ?_) fun hin => ?_
  · simp [Prog.read, State.userRangeOk, h0]
  · simp [Prog.read, State.userRangeOk, h0, hout]
  · rw [hend]
    obtain ⟨d, rfl⟩ := Nat.exists_eq_add_of_lt (show (va + n - pageDown va + 4095) / 4096 < fuel by omega)
    rw [Nat.add_comm _ d]
    refine (userPages_follows (va + n) htop _ d rfl (.inl (by omega))).congr ?_
    simp [Prog.read, State.userRangeOk, h0, hin]

theorem memcpyToUser_follows {src : Nat → TM Byte} (bs : List Byte) (k : Nat) {va : Nat}
    (hva : va + bs.length < 2 ^ 64)
    (hsrc : ∀ i < bs.length, ∀ s, Safe data (src (k + i)) (pure (bs.getD i 0)) s)
    (hok : ∀ a, va ≤ a → a < va + bs.length → Access.Allowed data (.write a)) :
    Safe data (memcpyToUser src bs.length k va) (Mem.memcpyToUser va bs) s := by
  induction bs generalizing k va s with
  | nil => exact .pure _
  | cons b bs ih =>
    rw [length_cons] at hva hok hsrc
    refine .skip (hsrc 0 (by omega) s) (.read ?_)
    have hnext : (va + 1) % 2 ^ 64 = va + 1 := Nat.mod_eq_of_lt (by omega)
    cases htr : s.translate va with
    | none =>
      refine .of_eq ?_
      rw [Mem.memcpyToUser, Prog.read_bind, htr]
      rfl
    | some f =>
      have hstep : Mem.memcpyToUser va (b :: bs) s = (do
          Prog.change (·.setByte f (va % 4096) b)
          Mem.memcpyToUser (va + 1) bs : MM Bool) s := by
        rw [Mem.memcpyToUser, Prog.read_bind, htr]
      refine .note (hok va (Nat.le_refl _) (by omega)) (.congr (.bind (.silent _) ?_) hstep)
      rw [hnext]
      refine ih (k + 1) (by omega) (fun i hi t => ?_) fun a h1 h2 => hok a (by omega) (by omega)
      have hi' := hsrc (i + 1) (by omega) t
      rwa [getD_cons_succ, ← Nat.add_assoc, Nat.add_right_comm] at hi'

theorem copyToUser_follows (sp va : Nat) (src : Nat → TM Byte) (bs : List Byte) {fuel : Nat}
    (htop : va + bs.length ≤ userVaTop) (hfuel : 2 ^ 48 ≤ fuel)
    (hsrc : ∀ i < bs.length, ∀ s, Safe data (src i) (pure (bs.getD i 0)) s)
    (hok : ∀ a, va ≤ a → a < va + bs.length → Access.Allowed data (.write a)) :
    Safe data (copyToUser fuel sp va src bs.length) (Mem.copyToUser sp va bs) s := by
  have hmax : userVaTop = 2 ^ 47 := by decide
  refine .bind (userRangeOk_follows htop hfuel) (.cond (fun _ => ?_) fun _ => .pure _)
  refine memcpyToUser_follows bs 0 (by omega) (fun i hi t => ?_) hok
  rw [Nat.zero_add]
  exact hsrc i hi t

end Copies

/-! ## Segments -/

section Segments

variable {data : List Byte} {s : State} {sp : Nat}

section

variable (body : Nat → MM Bool)

/-- A loop that stops at the first `false` answers whether it came to its end. -/
def wholeLoop (n lo : Nat) : MM Bool := do
  let m ← Prog.upFrom body n lo
  pure (decide (m = lo + n))

theorem wholeLoop_zero (lo : Nat) (s : State) : wholeLoop body 0 lo s = (true, s) := by
  simp [wholeLoop, Prog.upFrom, bind, pure]

theorem wholeLoop_succ (n lo : Nat) (s : State) :
    wholeLoop body (n + 1) lo s =
      (do if ← body lo then wholeLoop body n (lo + 1) else pure false : MM Bool) s := by
  simp only [wholeLoop, Prog.upFrom, bind, pure]
  by_cases hbody : (body lo s).1 = true
  · simp [hbody, Nat.add_assoc, Nat.add_comm 1 n]
  · simp [hbody]

/-- `mapFresh` with what comes after it, where that is only done if it succeeds. -/
theorem mapFresh_then (sp va : Nat) (flags : BitVec 32) (k : MM Bool) (s : State) : (do
      if ← mapFresh sp va flags then k else pure false : MM Bool) s =
    (do
      let pa ← pmmAllocPage
      if pa = 0 then pure false
      else if ← vmmMap sp va pa flags then k
      else
        let _ ← pmmFreePage pa
        pure false : MM Bool) s := by
  simp only [mapFresh, bind, pure]
  by_cases h0 : (pmmAllocPage s).1 = 0
  · simp [h0]
  · cases hmap : (vmmMap sp va (pmmAllocPage s).1 flags (pmmAllocPage s).2).1 <;> simp [h0, hmap]

theorem mapPages_follows {start stop : Nat} (halign : start % 4096 = 0) (hlow : userVaBase ≤ start)
    (hstop : stop ≤ userVaTop) (n lo fuel : Nat) (hn : start + (lo + n) * 4096 = stop) :
    Safe data (mapPages sp stop (fuel + n + 1) (start + lo * 4096))
      (wholeLoop (fun i => mapFresh sp (start + i * 4096) vmUserPage) n lo) s := by
  have hmax : userVaTop = 2 ^ 47 := by decide
  induction n generalizing lo s with
  | zero => exact .ite (fun h => absurd h (by omega)) fun _ => .of_eq (wholeLoop_zero ..)
  | succ n ih =>
    refine .congr ?_ ((wholeLoop_succ _ n lo s).trans (mapFresh_then sp (start + lo * 4096) vmUserPage
      (wholeLoop (fun i => mapFresh sp (start + i * 4096) vmUserPage) n (lo + 1)) s))
    refine .ite (fun _ => ?_) fun h => absurd h (by omega)
    have hnext : (start + lo * 4096 + 4096) % 2 ^ 64 = start + (lo + 1) * 4096 := by omega
    have hrest : start + (lo + 1 + n) * 4096 = stop := by
      rw [Nat.add_right_comm]
      exact hn
    have hmap : Access.Allowed data (.map (start + lo * 4096)) := ⟨by omega, by omega, by omega⟩
    refine .bind (.silent _) (.cond (fun _ => .pure _) fun _ => .note hmap ?_)
    refine .bind (.silent _) (.cond (fun _ => ?_) fun _ => .bind (.silent _) (.pure _))
    rw [hnext]
    exact ih (lo + 1) hrest

theorem write_allowed {ph : Phdr} (hph : ph ∈ phdrs data) (htype : ph.type = 1) {a : Nat}
    (h1 : ph.vaddr ≤ a) (h2 : a < ph.vaddr + ph.memsz) : Access.Allowed data (.write a) :=
  ⟨ph, hph, htype, h1, h2⟩

theorem zeroBytes_follows {ph : Phdr} (hph : ph ∈ phdrs data) (htype : ph.type = 1)
    (htop : ph.vaddr + ph.memsz ≤ userVaTop) (n lo fuel fuel' : Nat)
    (hn : (ph.memsz + 4095) / 4096 = lo + n) (hfuel : 2 ^ 48 ≤ fuel) :
    Safe data
      (zeroBytes fuel sp (fuel' + n + 1) (ph.vaddr + min (lo * 4096) ph.memsz) (ph.memsz - lo * 4096))
      (wholeLoop (fun i => Mem.copyToUser sp (ph.vaddr + i * 4096)
        (List.replicate (min (ph.memsz - i * 4096) 4096) 0#8)) n lo) s := by
  have hmax : userVaTop = 2 ^ 47 := by decide
  induction n generalizing lo s with
  | zero => exact .ite (fun h => absurd h (by omega)) fun _ => .of_eq (wholeLoop_zero ..)
  | succ n ih =>
    refine .congr ?_ (wholeLoop_succ _ n lo s)
    refine .ite (fun _ => ?_) fun h => absurd h (by omega)
    have hchunk : (if ph.memsz - lo * 4096 > 4096 then 4096 else ph.memsz - lo * 4096) =
        min (ph.memsz - lo * 4096) 4096 := by
      split <;> omega
    have hat : ph.vaddr + min (lo * 4096) ph.memsz = ph.vaddr + lo * 4096 := by omega
    have hnext : (ph.vaddr + lo * 4096 + min (ph.memsz - lo * 4096) 4096) % 2 ^ 64 =
        ph.vaddr + min ((lo + 1) * 4096) ph.memsz := by omega
    have hleft : ph.memsz - lo * 4096 - min (ph.memsz - lo * 4096) 4096 = ph.memsz - (lo + 1) * 4096 := by
      omega
    rw [hchunk, hat]
    have hlen : (List.replicate (min (ph.memsz - lo * 4096) 4096) 0#8).length =
        min (ph.memsz - lo * 4096) 4096 := length_replicate
    have hzero : ∀ i, (List.replicate (min (ph.memsz - lo * 4096) 4096) 0#8).getD i 0 = 0#8 := by
      intro i
      rw [getD_eq_getElem?_getD, List.getElem?_replicate]
      split <;> rfl
    have hcopy : Safe data _ _ s := copyToUser_follows sp (ph.vaddr + lo * 4096)
      (fun _ => pure 0#8) (List.replicate (min (ph.memsz - lo * 4096) 4096) 0#8)
      (by rw [hlen]; omega) hfuel (fun i _ t => by rw [hzero]; exact .pure _)
      fun a h1 h2 => write_allowed hph htype (by omega) (by rw [hlen] at h2; omega)
    rw [hlen] at hcopy
    refine .bind hcopy (.cond (fun _ => ?_) fun _ => .pure _)
    rw [hnext, hleft]
    exact ih (lo + 1) (by omega)

theorem wholeLoop_from (n : Nat) : wholeLoop body n 0 = (do
    let m ← Prog.upFrom body n 0
    pure (decide (m = n)) : MM Bool) := by
  simp only [wholeLoop, Nat.zero_add]

end

section Header

variable {ph : Phdr} {fuel : Nat}

theorem mapSegment_follows (hfit : ph.Fits data.length) (hfuel : 2 ^ 48 ≤ fuel) :
    Safe data (mapPages sp ph.stop fuel ph.start) (mapSegment sp ph) s := by
  have hmax : userVaTop = 2 ^ 47 := by decide
  have h1 := hfit.high
  have h2 := hfit.start_aligned
  have h3 := hfit.stop_aligned
  have h4 := hfit.start_le
  have h5 := hfit.le_stop
  have hloop : Safe data (mapPages sp ph.stop _ _) _ s :=
    mapPages_follows hfit.start_aligned hfit.low hfit.high ((ph.stop - ph.start) / 4096) 0
      (fuel - (ph.stop - ph.start) / 4096 - 1) (by omega)
  rw [show fuel - _ - 1 + _ + 1 = fuel by omega, Nat.zero_mul, Nat.add_zero, wholeLoop_from] at hloop
  exact hloop

theorem zeroSegment_follows (hph : ph ∈ phdrs data) (htype : ph.type = 1) (hfit : ph.Fits data.length)
    (hfuel : 2 ^ 48 ≤ fuel) : Safe data (zeroBytes fuel sp fuel ph.vaddr ph.memsz)
      (zeroSegment sp ph) s := by
  have hmax : userVaTop = 2 ^ 47 := by decide
  have h1 := hfit.high
  have h2 := hfit.le_stop
  have hloop : Safe data (zeroBytes fuel sp _ _ _) _ s :=
    zeroBytes_follows hph htype (by omega) ((ph.memsz + 4095) / 4096) 0 fuel
      (fuel - (ph.memsz + 4095) / 4096 - 1) (by omega) hfuel
  rw [show fuel - _ - 1 + _ + 1 = fuel by omega, Nat.zero_mul, Nat.zero_min, Nat.add_zero, Nat.sub_zero, wholeLoop_from] at hloop
  exact hloop

theorem fileCopy_follows (hph : ph ∈ phdrs data) (htype : ph.type = 1) (hfit : ph.Fits data.length)
    (hfuel : 2 ^ 48 ≤ fuel) : Safe data
      (copyToUser fuel sp ph.vaddr (imageByte data ph.offset) ph.filesz)
      (Mem.copyToUser sp ph.vaddr ((data.drop ph.offset).take ph.filesz)) s := by
  have h1 := hfit.high
  have h2 := hfit.le_stop
  have h3 := hfit.filesz_le
  have h4 := hfit.inFile
  have hlen : ((data.drop ph.offset).take ph.filesz).length = ph.filesz := by
    rw [length_take, length_drop]
    omega
  have hcopy : Safe data _ _ s := copyToUser_follows sp ph.vaddr
    (imageByte data ph.offset) ((data.drop ph.offset).take ph.filesz) (by rw [hlen]; omega) hfuel
    (fun i hi t => ?_) fun a ha1 ha2 => write_allowed hph htype ha1 (by rw [hlen] at ha2; omega)
  · rwa [hlen] at hcopy
  · rw [hlen] at hi
    refine .note (show ph.offset + i + 1 ≤ data.length by omega) (.of_eq ?_)
    rw [getD_eq_getElem?_getD, List.getElem?_take_of_lt hi, List.getElem?_drop,
      ← getD_eq_getElem?_getD]
    rfl

end Header

section Body

variable {α : Type} {off : Nat} {k : Nat → TM α} {q : MM α}

def HeaderIn (data : List Byte) (off : Nat) : Prop := off + 56 ≤ data.length

section

variable (h : HeaderIn data off)

include h

theorem pType_then (hk : Safe data (k (phdrAt data off).type) q s) :
    Safe data (pType data off >>= k) q s :=
  field_then (by unfold HeaderIn at h; omega) hk

theorem pOffset_then (hk : Safe data (k (phdrAt data off).offset) q s) :
    Safe data (pOffset data off >>= k) q s :=
  field_then (by unfold HeaderIn at h; omega) hk

theorem pVaddr_then (hk : Safe data (k (phdrAt data off).vaddr) q s) :
    Safe data (pVaddr data off >>= k) q s :=
  field_then (by unfold HeaderIn at h; omega) hk

theorem pFilesz_then (hk : Safe data (k (phdrAt data off).filesz) q s) :
    Safe data (pFilesz data off >>= k) q s :=
  field_then (by unfold HeaderIn at h; omega) hk

theorem pMemsz_then (hk : Safe data (k (phdrAt data off).memsz) q s) :
    Safe data (pMemsz data off >>= k) q s :=
  field_then (by unfold HeaderIn at h; omega) hk

theorem segRange_follows : Safe data (segRange data off)
    (pure ((phdrAt data off).start, (phdrAt data off).stop)) s :=
  pVaddr_then h (pVaddr_then h (pMemsz_then h (.pure _)))

theorem badSegment_follows : Safe data (badSegment data off)
    (pure (decide ((phdrAt data off).bad data.length))) s := by
  have hyes : (phdrAt data off).bad data.length → Safe data (pure true)
      (pure (decide ((phdrAt data off).bad data.length))) s := by
    intro hb
    rw [decide_eq_true hb]
    exact .pure _
  refine pFilesz_then h (pMemsz_then h (.ite (fun h1 => hyes (.inl h1)) fun h1 => ?_))
  refine pOffset_then h (.ite (fun h2 => hyes (.inr (.inl h2))) fun h2 => ?_)
  refine pFilesz_then h (pOffset_then h (.ite (fun h3 => hyes (.inr (.inr (.inl h3)))) fun h3 => ?_))
  refine pVaddr_then h (.ite (fun h4 => hyes (.inr (.inr (.inr (.inl h4))))) fun h4 => ?_)
  refine pMemsz_then h (pVaddr_then h (.ite (fun h5 => hyes (.inr (.inr (.inr (.inr (.inl h5)))))) fun h5 => ?_))
  refine .skip (segRange_follows h) (.of_eq ?_)
  have hlast : (phdrAt data off).bad data.length ↔
      (phdrAt data off).stop < (phdrAt data off).start ∨ (phdrAt data off).stop > userVaTop := by
    refine ⟨?_, fun h6 => .inr (.inr (.inr (.inr (.inr h6))))⟩
    rintro (hb | hb | hb | hb | hb | hb)
    exacts [absurd hb h1, absurd hb h2, absurd hb h3, absurd hb h4, absurd hb h5, hb]
  rw [decide_eq_decide.mpr hlast]
  rfl

end

theorem loadSegment_follows {fuel : Nat} (h : HeaderIn data off) (hph : phdrAt data off ∈ phdrs data)
    (hload : ¬ ((phdrAt data off).type ≠ 1 ∨ (phdrAt data off).memsz = 0))
    (hgood : ¬ (phdrAt data off).bad data.length) (hfuel : 2 ^ 48 ≤ fuel) :
    Safe data (loadSegment fuel sp data off) (Mem.elfSegment sp data (phdrAt data off)) s := by
  have htype := not_not.mp (not_or.mp hload).1
  have hfit := Phdr.fits hgood
  rw [Mem.elfSegment, if_neg hload, if_neg hgood]
  refine .skip (segRange_follows h) ?_
  refine .bind (mapSegment_follows hfit hfuel) (.cond (fun _ => ?_) fun _ => .pure _)
  refine pVaddr_then h (pMemsz_then h ?_)
  refine .bind (zeroSegment_follows hph htype hfit hfuel) (.cond (fun _ => ?_) fun _ => .pure _)
  refine pFilesz_then h (.ite (fun _ => ?_) fun hnone => .of_eq ?_)
  · refine pVaddr_then h (pOffset_then h (pFilesz_then h ?_))
    exact .bind (fileCopy_follows hph htype hfit hfuel) (.cond (fun _ => .pure _) fun _ => .pure _)
  · -- no bytes of the file: the copy that the model makes does nothing
    have hzero : (phdrAt data off).filesz = 0 := Nat.eq_zero_of_not_pos hnone
    rw [hzero, take_zero]
    rfl

/-- **The loop body** for a header of the image. -/
theorem elfSegment_follows {fuel : Nat} (h : HeaderIn data off) (hph : phdrAt data off ∈ phdrs data)
    (hfuel : 2 ^ 48 ≤ fuel) : Safe data (elfSegment fuel sp data off)
      (Mem.elfSegment sp data (phdrAt data off)) s := by
  have hskip : (phdrAt data off).type ≠ 1 ∨ (phdrAt data off).memsz = 0 →
      Safe data (pure .skipped) (Mem.elfSegment sp data (phdrAt data off)) s :=
    fun h => .of_eq (by rw [Mem.elfSegment, if_pos h]; rfl)
  refine pType_then h (.ite (fun h1 => hskip (.inl h1)) fun h1 => ?_)
  refine pMemsz_then h (.ite (fun h2 => hskip (.inr h2)) fun h2 => ?_)
  have hload : ¬ ((phdrAt data off).type ≠ 1 ∨ (phdrAt data off).memsz = 0) := not_or.mpr ⟨h1, h2⟩
  refine .skip (badSegment_follows h) (.ite (fun hb => .of_eq ?_) fun hb => ?_)
  · rw [Mem.elfSegment, if_neg hload, if_pos (of_decide_eq_true hb)]
    rfl
  · have hgood : ¬ (phdrAt data off).bad data.length := fun h0 => hb (decide_eq_true h0)
    exact loadSegment_follows h hph hload hgood hfuel

end Body

/-! ## The loader -/

abbrev phoff (data : List Byte) : Nat := leAt data 32 8
abbrev phnum (data : List Byte) : Nat := leAt data 56 2

def headersFrom (data : List Byte) (i n : Nat) : List Phdr :=
  (List.range n).map fun k => phdrAt data (phoff data + (i + k) * 56)

theorem headersFrom_succ (data : List Byte) (i n : Nat) : headersFrom data i (n + 1) =
    phdrAt data (phoff data + i * 56) :: headersFrom data (i + 1) n := by
  rw [headersFrom, List.range_succ_eq_map, List.map_cons, List.map_map, headersFrom, Nat.add_zero]
  refine congrArg _ (List.map_congr_left fun k _ => ?_)
  rw [Function.comp_apply, Nat.succ_eq_add_one, Nat.add_assoc i 1 k, Nat.add_comm 1 k]

theorem elfSegments_follows {fuel : Nat} (hlong : 64 ≤ data.length)
    (hfit : phnum data * 56 ≤ data.length - phoff data)
    (hphs : phdrs data = headersFrom data 0 (phnum data)) (hfuel : 2 ^ 48 ≤ fuel)
    (fuel' n i lo hi loaded : Nat) (hn : i + n = phnum data) :
    Safe data (elfSegments fuel sp data (phoff data) (fuel' + n + 1) i lo hi loaded)
      (Mem.elfSegments sp data (headersFrom data i n) lo hi loaded) s := by
  have hfield : 56 + 2 ≤ data.length := Nat.le_trans (by decide) hlong
  have hnum : phnum data < 256 ^ 2 := leAt_lt data 56 2
  induction n generalizing s i lo hi loaded with
  | zero => exact field_then hfield (.ite (fun (h : i < phnum data) => absurd h (by omega)) fun _ => .pure _)
  | succ n ih =>
    rw [headersFrom_succ]
    refine field_then hfield (.ite (fun _ => ?_) fun (h : ¬ i < phnum data) => absurd h (by omega))
    have hin : HeaderIn data (phoff data + i * 56) := by
      unfold HeaderIn
      omega
    have hmem : phdrAt data (phoff data + i * 56) ∈ phdrs data := by
      rw [hphs, headersFrom]
      refine mem_map.mpr ⟨i, mem_range.mpr (by omega), ?_⟩
      rw [Nat.zero_add]
    have hnext : (i + 1) % 2 ^ 32 = i + 1 := Nat.mod_eq_of_lt (by omega)
    have hrec := fun s' lo' hi' loaded' => @ih s' (i + 1) lo' hi' loaded' (by omega)
    refine .bind (elfSegment_follows hin hmem hfuel) ?_
    rw [hnext]
    cases (Mem.elfSegment sp data (phdrAt data (phoff data + i * 56)) s).1 with
    | skipped => exact hrec _ _ _ _
    | refused | failed => exact .pure _
    | loaded start stop =>
      have hlo : (if start < lo then start else lo) = min lo start := by split <;> omega
      have hhi : (if stop > hi then stop else hi) = max hi stop := by split <;> omega
      change Follows _ (elfSegments fuel sp data (phoff data) (fuel' + n + 1) (i + 1) (if start < lo then start else lo)
        (if stop > hi then stop else hi) (loaded + 1)) _ _
      rw [hlo, hhi]
      exact hrec _ _ _ _

theorem elfHeader_some (h : (Mem.elfHeader data).isSome) : 64 ≤ data.length ∧
    phnum data * 56 ≤ data.length - phoff data ∧
    Mem.elfHeader data = some (leAt data 24 8, headersFrom data 0 (phnum data)) := by
  have hunless : ∀ {c : Prop} [Decidable c] {x : Option (Nat × List Phdr)},
      (if c then none else x).isSome ↔ ¬ c ∧ x.isSome := by grind
  simp only [Mem.elfHeader, hunless] at h
  obtain ⟨h0, h1, h2, h3, h4, h5, h6, h7, h8, h9, h10, -⟩ := h
  refine ⟨Nat.le_of_not_lt h0, Nat.le_of_not_lt h9, ?_⟩
  simp only [Mem.elfHeader, headersFrom, Nat.zero_add, h0, h1, h2, h3, h4, h5, h6, h7, h8, h9, h10, if_false]

/-- **`elf_load`, with its accesses.** -/
theorem elfLoad_follows {fuel : Nat} (cur sp : Nat) (data : List Byte) (s : State) (hfuel : 2 ^ 48 ≤ fuel) :
    Safe data (elfLoad fuel cur sp data) (Mem.elfLoad cur sp data) s := by
  refine .skip (elfHeader_follows data s) (.ite (fun hsome => ?_) fun hnone => .of_eq ?_)
  · obtain ⟨hlong, hfit, hhead⟩ := elfHeader_some hsome
    have hphs : phdrs data = headersFrom data 0 (phnum data) := by
      rw [phdrs, hhead]
      rfl
    have hin : ∀ {off n : Nat}, off + n ≤ 64 → off + n ≤ data.length := fun h => Nat.le_trans h hlong
    have hnum : phnum data < 256 ^ 2 := leAt_lt data 56 2
    rw [Mem.elfLoad, hhead]
    refine .bind (.silent _) (field_then (hin (by decide)) ?_)
    have hloop := fun s => @elfSegments_follows data s sp fuel hlong hfit hphs hfuel (fuel - phnum data - 1)
      (phnum data) 0 (2 ^ 64 - 1) 0 0 (Nat.zero_add _)
    rw [show fuel - phnum data - 1 + phnum data + 1 = fuel by omega] at hloop
    refine .bind (hloop _) ?_
    generalize Mem.elfSegments sp data (headersFrom data 0 (phnum data)) (2 ^ 64 - 1) 0 0
      (switchIf (decide (cur ≠ sp)) sp s).2 = out
    obtain ⟨e, s2⟩ := out
    cases e with
    | refused => exact .pure _
    | failed => exact .bind (.silent _) (.pure _)
    | through lo hi n =>
      refine .ite (fun h0 => .bind (.silent _) ?_) fun h0 => field_then (hin (by decide)) (.bind (.silent _) ?_)
      · exact .of_eq (by rw [if_pos h0]; rfl)
      · exact .of_eq (by rw [if_neg h0]; rfl)
  · have hnone : Mem.elfHeader data = none := not_isSome_iff_eq_none.mp hnone
    rw [Mem.elfLoad, hnone]
    rfl

end Segments

end Trace

/-- **`elf_load` is safe on arbitrary bytes.** With fuel enough, which any fuel is that
exceeds the number of pages of the user range, it ends, as the loader of the memory system
does; it reads inside the image, maps pages of the user range, and writes bytes of the
segments only. -/
theorem elf_load_safe (cur sp : Nat) (data : List Byte) (s : State) (fuel : Nat) (hfuel : 2 ^ 48 ≤ fuel) :
    ∃ log, Trace.elfLoad fuel cur sp data ⟨s, []⟩ =
        some ((elfLoad cur sp data s).1, ⟨(elfLoad cur sp data s).2, log⟩) ∧
      ∀ a ∈ log, a.Allowed data := by
  obtain ⟨log, hrun, hok⟩ := Trace.elfLoad_follows cur sp data s hfuel []
  rw [append_nil] at hrun
  exact ⟨log, hrun, hok⟩

theorem elf_load_safe_tiny : ∃ s, Reachable memSys s ∧ 2 ^ 48 ≤ 2 ^ 48 ∧
    ∃ log, Trace.elfLoad (2 ^ 48) 0 1 twoSegments ⟨s, []⟩ =
        some ((elfLoad 0 1 twoSegments s).1, ⟨(elfLoad 0 1 twoSegments s).2, log⟩) ∧
      ∀ a ∈ log, a.Allowed twoSegments := by
  have hrun : (BootMap.tiny.run (fun _ _ => 0#64) [.vmmCreate .fits]).isSome = true := by decide +kernel
  obtain ⟨s, hs⟩ := isSome_iff_exists.mp hrun
  exact ⟨s, BootMap.run_reachable hs, Nat.le_refl _, elf_load_safe 0 1 twoSegments s (2 ^ 48) (Nat.le_refl _)⟩

end Exyde.Mem
