import Exyde.Lib.Runs
import Exyde.Vfs.Ramfs

/-! # A RAMFS file is a list of bytes

Reads, writes and truncations of one regular file, compared with the same operations on
a list of bytes. They agree as long as no write leaves a gap behind the old end inside a
block that is large enough already, which is not cleared, and no truncation is to a size
that the allocator rounds up to zero. -/

namespace Exyde.Vfs

open List Option
open Exyde.Lib (Trap System Reach)

/-! ## Files as lists -/

namespace ByteFile

def extend (l : List UInt8) (n : Nat) : List UInt8 := l ++ List.replicate (n - l.length) 0

def read (l : List UInt8) (n off : Nat) : List UInt8 := (l.drop off).take n

/-- A write beyond the end first extends the list. -/
def write (l buf : List UInt8) (off : Nat) : List UInt8 :=
  if buf = [] then l else (extend l off).take off ++ buf ++ l.drop (off + buf.length)

def truncate (l : List UInt8) (size : Nat) : List UInt8 := (extend l size).take size

end ByteFile

/-! ## Blocks -/

variable {p : List UInt8} {size : Nat} {a : Alloc}

theorem malloc_eq_some : malloc a size = some p ↔
      (size ≠ 0 ∧ a.block = true ∧ headerSize + max 16 (alignUp size) ≤ arenaSize) ∧
        (List.range (max 16 (alignUp size))).map a.fresh = p := by
  simp only [malloc]
  split
  next h => rw [Option.some.injEq, and_iff_right h]
  next h => exact ⟨fun h0 => absurd h0 (by simp), fun h0 => absurd h0.1 h⟩

theorem length_malloc (h : malloc a size = some p) : p.length = max 16 (alignUp size) := by
  rw [← (malloc_eq_some.mp h).2, length_map, length_range]

theorem malloc_fits (h : malloc a size = some p)
    (hs : size ≤ 2 ^ 64 - 16) : size ≤ p.length ∧ size < arenaSize := by
  have hlen := length_malloc h
  have hroom := (malloc_eq_some.mp h).1.2.2
  have hle : size ≤ alignUp size := by
    unfold alignUp
    omega
  unfold headerSize at hroom
  omega

theorem copyTo_of {dst src : List UInt8} {off : Nat} (h : off + src.length ≤ dst.length) :
    copyTo dst off src = some (dst.take off ++ src ++ dst.drop (off + src.length)) :=
  if_pos (.inr h)

theorem slice_of {src : List UInt8} {off n : Nat} (h : off + n ≤ src.length) :
    slice src off n = some ((src.drop off).take n) :=
  if_pos (.inr h)

/-! ## The doubling loop -/

theorem doubleUntil_spec {need fuel c newcap : Nat} (hc : c ≤ 2 ^ 63)
    (h : doubleUntil need fuel c = some newcap) : need ≤ newcap ∧ newcap ≤ 2 ^ 63 := by
  induction fuel generalizing c with
  | zero => cases h
  | succ fuel ih =>
    rw [doubleUntil] at h
    split at h
    next hn =>
      cases h
      exact ⟨hn, hc⟩
    · split at h
      · cases h
      · exact ih (by omega) h

/-! ## One file -/

namespace Vnode

variable {vn vn' : Vnode} {buf : List UInt8} {off size : Nat} {a : Alloc}

def bytes (vn : Vnode) : List UInt8 := vn.data.take vn.size

/-- The file lies in its block, which lies in the arena. -/
structure Fits (vn : Vnode) : Prop where
  size_le : vn.size ≤ vn.capacity
  capacity_le : vn.capacity ≤ vn.data.length
  small : vn.capacity < arenaSize

/-- Nothing is left of earlier contents between the end of the file and `off`. -/
def CleanTo (vn : Vnode) (off : Nat) : Prop := ∀ b ∈ (vn.data.take off).drop vn.size, b = 0

instance decidableCleanTo (vn : Vnode) (off : Nat) : Decidable (vn.CleanTo off) :=
  inferInstanceAs (Decidable (∀ b ∈ _, _))

theorem Fits.new (type : VType) : (Vnode.new type).Fits :=
  ⟨Nat.le_refl _, Nat.le_refl _, Nat.zero_lt_succ _⟩

theorem Fits.length_bytes (h : vn.Fits) : vn.bytes.length = vn.size := by
  have h1 := h.size_le
  have h2 := h.capacity_le
  rw [bytes, length_take]
  omega

/-- The bytes before `off` are those of the file, extended by zeros if the block is clean. -/
theorem Fits.take_data (h : vn.Fits) (hoff : off ≤ vn.data.length) (hclean : vn.CleanTo off) :
    vn.data.take off = (ByteFile.extend vn.bytes off).take off := by
  rw [ByteFile.extend, h.length_bytes]
  by_cases hle : off ≤ vn.size
  · rw [Nat.sub_eq_zero_of_le hle, replicate_zero, append_nil, bytes, take_take,
      Nat.min_eq_left hle]
  have hgap : (vn.data.take off).drop vn.size = List.replicate (off - vn.size) 0 := by
    refine eq_replicate_iff.mpr ⟨?_, hclean⟩
    rw [length_drop, length_take]
    omega
  have hhead : (vn.data.take off).take vn.size = vn.bytes := by
    rw [take_take, Nat.min_eq_left (by omega), bytes]
  have hwhole : vn.data.take off = vn.bytes ++ List.replicate (off - vn.size) 0 := by
    rw [← take_append_drop vn.size (vn.data.take off), hhead, hgap]
  rw [← hwhole, take_take, Nat.min_self]

theorem Fits.take_data_ne (h : vn.Fits) (hdirty : ¬ vn.CleanTo off) :
    vn.data.take off ≠ (ByteFile.extend vn.bytes off).take off := by
  intro heq
  apply hdirty
  intro b hb
  rw [heq, ByteFile.extend, h.length_bytes, drop_take, drop_append,
    drop_eq_nil_of_le (Nat.le_of_eq h.length_bytes), nil_append] at hb
  exact eq_of_mem_replicate (mem_of_mem_drop (mem_of_mem_take hb))

/-- The file keeps its node; only its bytes change. -/
structure Rewrites (vn vn' : Vnode) : Prop where
  fits : vn'.Fits
  same : vn' = { vn with data := vn'.data, size := vn'.size, capacity := vn'.capacity }

theorem Rewrites.refl (h : vn.Fits) : vn.Rewrites vn := ⟨h, rfl⟩

theorem Rewrites.type (h : vn.Rewrites vn') : vn'.type = vn.type := by rw [h.same]

theorem Rewrites.refcount (h : vn.Rewrites vn') : vn'.refcount = vn.refcount := by rw [h.same]

/-- **A read** gives the bytes of the list. -/
theorem Fits.read (h : vn.Fits) (hreg : vn.type = .reg) (n off : Nat) :
    ramfsRead n off vn = some (.ok (ByteFile.read vn.bytes n off), vn) := by
  have h1 := h.size_le
  have h2 := h.capacity_le
  have hbytes : (vn.data.drop off).take (min n (vn.size - off)) = ByteFile.read vn.bytes n off := by
    rw [ByteFile.read, bytes, drop_take, take_take]
  rw [ramfsRead, if_neg (not_not_intro hreg)]
  split
  next hend =>
    rw [← hbytes, Nat.sub_eq_zero_of_le hend, Nat.min_zero, take_zero]
  · rw [slice_of (by omega), hbytes]
    rfl

/-- The bytes go into the block; whether the file then holds what it should depends
on what lay between its end and `off`. -/
theorem Fits.put (h : vn.Fits) (hroom : off + buf.length ≤ vn.capacity) :
    ∃ vn', putBytes buf off vn = some (.ok buf.length, vn') ∧ vn.Rewrites vn' ∧
      vn'.bytes = vn.data.take off ++ buf ++ vn.bytes.drop (off + buf.length) := by
  have h1 := h.size_le
  have h2 := h.capacity_le
  have hlen : (vn.data.take off).length = off := by
    rw [length_take]
    omega
  rw [putBytes, copyTo_of (by omega)]
  refine ⟨_, rfl, ⟨⟨?_, ?_, h.small⟩, rfl⟩, ?_⟩
  · split <;> omega
  · simp only [length_append, length_take, length_drop]
    omega
  · simp only [bytes]
    split
    next hlt =>
      have hrest : (vn.data.take vn.size).drop (off + buf.length) = [] := by
        apply drop_eq_nil_of_le
        rw [length_take]
        omega
      rw [hrest, append_nil]
      apply take_left'
      rw [length_append, hlen]
    · rw [take_append, take_of_length_le, drop_take, length_append, hlen]
      rw [length_append, hlen]
      omega

/-- The file moves to a larger block, which is clean up to `off`. -/
theorem Fits.move (h : vn.Fits) {nd : List UInt8} {newcap : Nat} (hcap : vn.capacity ≤ newcap)
    (hnd : newcap ≤ nd.length) (hsmall : newcap < arenaSize) (hoff : off ≤ newcap) :
    ∃ vn', vn.moveTo nd newcap off = some vn' ∧ vn.Rewrites vn' ∧ vn'.capacity = newcap ∧
      vn'.bytes = vn.bytes ∧ vn'.CleanTo off := by
  have h1 := h.size_le
  have h2 := h.capacity_le
  have hlen := h.length_bytes
  have hcopy : copyTo nd 0 vn.bytes = some (vn.bytes ++ nd.drop vn.size) := by
    rw [copyTo_of (by omega), hlen, take_zero, nil_append, Nat.zero_add]
  have hfill : copyTo (vn.bytes ++ nd.drop vn.size) vn.size (List.replicate (off - vn.size) 0) =
      some (vn.bytes ++ (List.replicate (off - vn.size) 0 ++ nd.drop (vn.size + (off - vn.size)))) := by
    rw [copyTo_of (by simp only [length_append, length_replicate, length_drop]; omega),
      take_left' hlen, length_replicate, drop_append,
      drop_eq_nil_of_le (by omega), nil_append, hlen, drop_drop, append_assoc]
    congr 4
    omega
  have hmove : vn.moveTo nd newcap off = some { vn with
      data := vn.bytes ++ (List.replicate (off - vn.size) 0 ++ nd.drop (vn.size + (off - vn.size)))
      capacity := newcap } := by
    rw [moveTo, slice_of (by omega), drop_zero]
    change (copyTo nd 0 vn.bytes >>= _) = _
    rw [hcopy, Nat.min_eq_left hoff]
    change (copyTo _ _ _ >>= _) = _
    rw [hfill]
    rfl
  refine ⟨_, hmove, ⟨⟨?_, ?_, hsmall⟩, rfl⟩, rfl, ?_, ?_⟩
  · dsimp only
    omega
  · simp only [length_append, length_replicate, length_drop, hlen]
    omega
  · exact take_left' hlen
  · intro b hb
    rw [drop_take, drop_left' hlen] at hb
    have hzeros : (List.replicate (off - vn.size) (0 : UInt8) ++
        nd.drop (vn.size + (off - vn.size))).take (off - vn.size) = List.replicate (off - vn.size) 0 :=
      take_left' length_replicate
    rw [hzeros] at hb
    exact eq_of_mem_replicate hb

/-- A write that fits the block finds no leftovers in the gap it skips. -/
def SkipsClean (vn : Vnode) (buf : List UInt8) (off : Nat) : Prop :=
  buf ≠ [] → off + buf.length ≤ vn.capacity → vn.CleanTo off

section

variable (h : vn.Fits)

include h

theorem Fits.put_eq_write (hroom : off + buf.length ≤ vn.capacity) (hne : buf ≠ []) :
    vn.data.take off ++ buf ++ vn.bytes.drop (off + buf.length) = ByteFile.write vn.bytes buf off ↔
      vn.CleanTo off := by
  have h2 := h.capacity_le
  rw [ByteFile.write, if_neg hne, append_left_inj, append_left_inj]
  constructor
  · intro heq
    exact Classical.not_not.mp fun hdirty => h.take_data_ne hdirty heq
  · exact h.take_data (by omega)

/-- **A write** fails and changes nothing, or it writes all bytes: to the list as
well, if and only if the gap it skips is clean. -/
theorem Fits.write (hreg : vn.type = .reg) (a : Alloc) (hoff : off < 2 ^ 64)
    (hbuf : buf.length < 2 ^ 64) :
    (∃ e, ramfsWrite a buf off vn = some (.error e, vn) ∧ vn.SkipsClean buf off) ∨
      ∃ vn', ramfsWrite a buf off vn = some (.ok buf.length, vn') ∧ vn.Rewrites vn' ∧
        (vn'.bytes = ByteFile.write vn.bytes buf off ↔ vn.SkipsClean buf off) := by
  have hsmall := h.small
  have harena : arenaSize = 4194304 := rfl
  rw [ramfsWrite, if_neg (not_not_intro hreg)]
  by_cases hnil : buf = []
  · subst hnil
    refine .inr ⟨vn, rfl, .refl h, iff_of_true rfl ?_⟩
    intro hne
    exact absurd rfl hne
  have hpos : buf.length ≠ 0 := fun h0 => hnil (length_eq_zero_iff.mp h0)
  simp only [hpos, if_false]
  split
  next hwrap =>
    -- the end of the write is beyond 2 ^ 64, so it does not lie in the block
    refine .inl ⟨_, rfl, fun _ hle => ?_⟩
    omega
  next hwrap =>
    split
    next hlarge =>
      have hskip : vn.SkipsClean buf off := fun _ hle => by omega
      split
      · exact .inl ⟨_, rfl, hskip⟩
      next newcap hdouble =>
        obtain ⟨hge, hle⟩ := doubleUntil_spec (by split <;> omega) hdouble
        split
        · exact .inl ⟨_, rfl, hskip⟩
        next nd hnd =>
          obtain ⟨hlen, hcap⟩ := malloc_fits hnd (by omega)
          have hend : off ≤ newcap := by omega
          obtain ⟨vn1, hmove, hrw, hcap1, hbytes, hclean⟩ := h.move (by omega) hlen hcap hend
          have hroom : off + buf.length ≤ vn1.capacity := by omega
          obtain ⟨vn2, hput, hrw2, hbytes2⟩ := hrw.fits.put hroom
          have hsame := hrw2.same
          rw [hrw.same] at hsame
          refine .inr ⟨vn2, ?_, ⟨hrw2.fits, hsame⟩, iff_of_true ?_ hskip⟩
          · rw [hmove]
            exact hput
          · rw [hbytes2, ← hbytes]
            exact (hrw.fits.put_eq_write hroom hnil).mpr hclean
    next hfits =>
      have hroom : off + buf.length ≤ vn.capacity := by omega
      obtain ⟨vn1, hput, hrw, hbytes⟩ := h.put hroom
      refine .inr ⟨vn1, hput, hrw, ?_⟩
      rw [hbytes, h.put_eq_write hroom hnil]
      exact ⟨fun hclean _ _ => hclean, fun hskip => hskip hnil hroom⟩

/-- **A truncation** fails and changes nothing, or cuts or extends the list. -/
theorem Fits.truncate (hreg : vn.type = .reg)
    (hround : size ≤ 2 ^ 64 - 16 ∨ a.block = false) :
    (∃ e, ramfsTruncate a size vn = some (.error e, vn)) ∨
      ∃ vn', ramfsTruncate a size vn = some (.ok (), vn') ∧ vn.Rewrites vn' ∧
        vn'.bytes = ByteFile.truncate vn.bytes size := by
  have h1 := h.size_le
  have h2 := h.capacity_le
  have hlen := h.length_bytes
  rw [ramfsTruncate, if_neg (not_not_intro hreg)]
  split
  next heq =>
    refine .inr ⟨vn, rfl, .refl h, ?_⟩
    rw [ByteFile.truncate, ByteFile.extend, hlen, heq, Nat.sub_self, replicate_zero,
      append_nil, take_of_length_le (Nat.le_of_eq hlen)]
  · split
    next hcap =>
      rw [copyTo_of (by rw [length_replicate]; omega)]
      refine .inr ⟨_, rfl, ⟨⟨hcap, ?_, h.small⟩, rfl⟩, ?_⟩
      · simp only [length_append, length_take, length_drop, length_replicate]
        omega
      rw [bytes, ByteFile.truncate, ByteFile.extend, hlen]
      dsimp only
      rw [← bytes, length_replicate]
      by_cases hle : size ≤ vn.size
      · rw [Nat.sub_eq_zero_of_le hle, replicate_zero, append_nil, bytes,
          Nat.add_zero, take_append_drop, take_take, Nat.min_eq_left hle]
      · apply take_append_of_le_length
        rw [length_append, length_replicate]
        omega
    next hcap =>
      rw [calloc]
      cases hnd : malloc a size with
      | none => exact .inl ⟨_, rfl⟩
      | some nd =>
        have hround' : size ≤ 2 ^ 64 - 16 := by
          rcases hround with hle | hno
          · exact hle
          · rw [(malloc_eq_some.mp hnd).1.2.1] at hno
            cases hno
        obtain ⟨hfit, hsmall⟩ := malloc_fits hnd hround'
        have hzero : copyTo nd 0 (List.replicate size 0) =
            some (List.replicate size 0 ++ nd.drop size) := by
          rw [copyTo_of (by rw [length_replicate]; omega), length_replicate,
            take_zero, nil_append, Nat.zero_add]
        have hcopy : copyTo (List.replicate size 0 ++ nd.drop size) 0 vn.bytes =
            some (vn.bytes ++ (List.replicate (size - vn.size) 0 ++ nd.drop size)) := by
          rw [copyTo_of (by rw [length_append, length_replicate]; omega), hlen,
            take_zero, nil_append, Nat.zero_add, drop_append,
            drop_replicate, length_replicate,
            Nat.sub_eq_zero_of_le (show vn.size ≤ size by omega), drop_zero]
        refine .inr ⟨{ vn with
          data := vn.bytes ++ (List.replicate (size - vn.size) 0 ++ nd.drop size)
          capacity := size, size := size }, ?_, ⟨⟨Nat.le_refl _, ?_, hsmall⟩, rfl⟩, ?_⟩
        · simp only [map_some, hzero, bind_eq_bind, bind_some]
          rw [Nat.min_eq_left (by omega), slice_of (by omega), drop_zero, bind_some]
          change (copyTo _ 0 vn.bytes).bind _ = _
          rw [hcopy]
          rfl
        · simp only [length_append, length_replicate, length_drop, hlen]
          omega
        · rw [bytes, ByteFile.truncate, ByteFile.extend, hlen, ← append_assoc]
          dsimp only
          apply take_append_of_le_length
          rw [length_append, length_replicate, hlen]
          omega

theorem Fits.truncate_zero (hreg : vn.type = .reg) (a : Alloc) :
    ∃ vn', ramfsTruncate a 0 vn = some (.ok (), vn') ∧ vn.Rewrites vn' ∧ vn'.bytes = [] := by
  have hround : 0 ≤ 2 ^ 64 - 16 ∨ a.block = false := .inl (Nat.zero_le _)
  rcases h.truncate hreg hround with ⟨e, he⟩ | ⟨vn', hvn', hrw, hbytes⟩
  · rw [ramfsTruncate, if_neg (not_not_intro hreg), if_pos (Nat.zero_le _)] at he
    have hcopy : copyTo vn.data vn.size (List.replicate (0 - vn.size) 0) ≠ none := by
      simp [copyTo]
    split at he
    · cases he
    · obtain ⟨data, hdata⟩ := ne_none_iff_exists'.mp hcopy
      rw [hdata] at he
      cases he
  · exact ⟨vn', hvn', hrw, hbytes⟩

theorem Fits.write_runs (a : Alloc) (hoff : off < 2 ^ 64) (hbuf : buf.length < 2 ^ 64) :
    ∃ r vn', ramfsWrite a buf off vn = some (r, vn') ∧ vn.Rewrites vn' := by
  by_cases hreg : vn.type = .reg
  · rcases h.write hreg a hoff hbuf with ⟨e, he, _⟩ | ⟨vn', hvn', hrw, _⟩
    · exact ⟨_, vn, he, .refl h⟩
    · exact ⟨_, vn', hvn', hrw⟩
  · exact ⟨_, vn, if_pos hreg, .refl h⟩

theorem Fits.read_runs (n off : Nat) : ∃ r, ramfsRead n off vn = some (r, vn) := by
  by_cases hreg : vn.type = .reg
  · exact ⟨_, h.read hreg n off⟩
  · exact ⟨_, if_pos hreg⟩

/-- A size that rounds up to zero gets a block of 16 bytes, which clearing overruns. -/
theorem Fits.truncate_traps (hreg : vn.type = .reg) (hsize : 2 ^ 64 - 16 < size)
    (hlt : size < 2 ^ 64) (hblock : a.block = true) : ramfsTruncate a size vn = none := by
  have h1 := h.size_le
  have hsmall := h.small
  have harena : arenaSize = 4194304 := rfl
  have hround : alignUp size = 0 := by
    unfold alignUp
    omega
  have hmalloc : malloc a size = some ((List.range 16).map a.fresh) := by
    refine malloc_eq_some.mpr ⟨⟨by omega, hblock, ?_⟩, ?_⟩
    · rw [hround]
      decide
    · rw [hround]
      rfl
  have htrap : copyTo ((List.range 16).map a.fresh) 0 (List.replicate size 0) = none := by
    refine if_neg ?_
    rw [length_replicate, length_map, length_range, replicate_eq_nil_iff]
    omega
  rw [ramfsTruncate, if_neg (not_not_intro hreg), if_neg (by omega), if_neg (by omega), calloc,
    hmalloc, map_some, htrap]
  rfl

end

end Vnode

/-! ## Runs -/

/-- What a caller can hand to a write. -/
abbrev Buffer := { l : List UInt8 // l.length < 2 ^ 64 }

inductive FileOp
  | read (n off : UInt64)
  | write (a : Alloc) (buf : Buffer) (off : UInt64)
  | truncate (a : Alloc) (size : UInt64)

/-- A file beside a list of bytes: an operation that succeeds on the file is done
to the list, one that fails is not. -/
def fileSys : System (Vnode × List UInt8) FileOp where
  start st := st = (Vnode.new .reg, [])
  step st e :=
    match e with
    | .read n off => (ramfsRead n.toNat off.toNat st.1).map fun r => (r.2, st.2)
    | .write a buf off => (ramfsWrite a buf.1 off.toNat st.1).map fun r =>
      (r.2, match r.1 with
        | .ok _ => ByteFile.write st.2 buf.1 off.toNat
        | .error _ => st.2)
    | .truncate a size => (ramfsTruncate a size.toNat st.1).map fun r =>
      (r.2, match r.1 with
        | .ok _ => ByteFile.truncate st.2 size.toNat
        | .error _ => st.2)

/-- A write skips no leftovers, and the allocator is not asked for a size that it
rounds up to zero. -/
def Clears (st : Vnode × List UInt8) : FileOp → Prop
  | .read .. => True
  | .write _ buf off => st.1.SkipsClean buf.1 off.toNat
  | .truncate a size => size.toNat ≤ 2 ^ 64 - 16 ∨ a.block = false

structure IsList (st : Vnode × List UInt8) : Prop where
  fits : st.1.Fits
  reg : st.1.type = .reg
  bytes : st.1.bytes = st.2

namespace IsList

variable {st st' : Vnode × List UInt8} {e : FileOp}

/-- **One operation** traps and does not clear, or leaves a regular file in its
block, which holds the list if and only if the operation clears. -/
theorem step_cases (h : IsList st) (e : FileOp) : (fileSys.step st e = none ∧ ¬ Clears st e) ∨
      ∃ st', fileSys.step st e = some st' ∧ st'.1.Fits ∧ st'.1.type = .reg ∧
        (st'.1.bytes = st'.2 ↔ Clears st e) := by
  cases e with
  | read n off =>
    refine .inr ⟨st, ?_, h.fits, h.reg, iff_of_true h.bytes trivial⟩
    simp only [fileSys]
    rw [h.fits.read h.reg]
    rfl
  | write a buf off =>
    right
    simp only [fileSys, Clears]
    rcases h.fits.write h.reg a off.toNat_lt buf.2 with ⟨e, hw, hclean⟩ | ⟨vn, hw, hrw, hiff⟩
    · rw [hw]
      exact ⟨_, rfl, h.fits, h.reg, iff_of_true h.bytes hclean⟩
    · rw [hw, ← h.bytes]
      exact ⟨_, rfl, hrw.fits, hrw.type.trans h.reg, hiff⟩
  | truncate a size =>
    simp only [fileSys, Clears]
    by_cases hround : size.toNat ≤ 2 ^ 64 - 16 ∨ a.block = false
    · right
      rcases h.fits.truncate h.reg hround with ⟨e, ht⟩ | ⟨vn, ht, hrw, hb⟩
      · rw [ht]
        exact ⟨_, rfl, h.fits, h.reg, iff_of_true h.bytes hround⟩
      · rw [ht, ← h.bytes]
        exact ⟨_, rfl, hrw.fits, hrw.type.trans h.reg, iff_of_true hb hround⟩
    · left
      obtain ⟨hsize, hblock⟩ := not_or.mp hround
      rw [h.fits.truncate_traps h.reg (by omega) size.toNat_lt (by simpa using hblock)]
      exact ⟨rfl, hround⟩

theorem step_iff (h : IsList st) (e : FileOp) :
    (∃ st', fileSys.step st e = some st' ∧ st'.1.bytes = st'.2) ↔ Clears st e := by
  rcases h.step_cases e with ⟨htrap, hbad⟩ | ⟨st', hstep, _, _, hiff⟩
  · rw [htrap]
    simpa using hbad
  · rw [hstep, ← hiff]
    simp

theorem step (h : IsList st) (hclear : Clears st e) (hstep : fileSys.step st e = some st') :
    IsList st' := by
  rcases h.step_cases e with ⟨_, hbad⟩ | ⟨st1, hstep1, hfits, hreg, hiff⟩
  · exact absurd hclear hbad
  · cases hstep1.symm.trans hstep
    exact ⟨hfits, hreg, hiff.mpr hclear⟩

theorem of_reach (h : Reach fileSys Clears st) : IsList st := by
  refine h.invariant ?_ fun _ _ _ hI hclear hstep => hI.step hclear hstep
  intro s hs
  subst hs
  exact ⟨.new .reg, rfl, rfl⟩

end IsList

/-- **Files are byte lists**, along every run whose operations clear what they
uncover: every read gives the bytes of the list, and the next operation keeps file
and list the same if and only if it clears too. -/
theorem ramfs_file_is_list {st : Vnode × List UInt8} (h : Reach fileSys Clears st) :
    st.1.bytes = st.2 ∧
    (∀ n off : Nat, ramfsRead n off st.1 = some (.ok (ByteFile.read st.2 n off), st.1)) ∧
    ∀ e, (∃ st', fileSys.step st e = some st' ∧ st'.1.bytes = st'.2) ↔ Clears st e := by
  have hI := IsList.of_reach h
  refine ⟨hI.bytes, fun n off => ?_, hI.step_iff⟩
  rw [hI.fits.read hI.reg, hI.bytes]

/-- The allocator finds room, and new blocks are full of `b`. -/
def Alloc.filled (b : UInt8) : Alloc := ⟨true, true, true, fun _ => b⟩

theorem ramfs_file_is_list_gap : ∃ st, Reach fileSys Clears st ∧
    ramfsRead 9 1 st.1 = some (.ok [2, 0, 0, 9], st.1) ∧ st.2 = [1, 2, 0, 0, 9] := by
  let write1 : FileOp := .write (.filled 0) ⟨[1, 2], by decide⟩ 0
  let write2 : FileOp := .write (.filled 0) ⟨[9], by decide⟩ 4
  let st1 := (fileSys.step (Vnode.new .reg, []) write1).get rfl
  let st2 := (fileSys.step st1 write2).get rfl
  have hclear1 : Clears (Vnode.new .reg, []) write1 := fun _ h => absurd h (by decide)
  have hclear2 : Clears st1 write2 := fun _ _ => show st1.1.CleanTo 4 by decide +kernel
  have h₂ : Reach fileSys Clears st2 := .step (.step (.start rfl) hclear1 rfl) hclear2 rfl
  obtain ⟨_, hread, _⟩ := ramfs_file_is_list h₂
  exact ⟨st2, h₂, hread 9 1, rfl⟩

/-- Three bytes are written, cut off, and come back when a byte is written behind
them; and a truncation to the largest size overruns its block. -/
theorem ramfs_leftovers_return :
    ((fileSys.run (Vnode.new .reg, []) [.write (.filled 0) ⟨[1, 2, 3], by decide⟩ 0,
        .truncate (.filled 0) 0, .write (.filled 0) ⟨[9], by decide⟩ 3]).map fun st =>
      ((ramfsRead 4 0 st.1).map Prod.fst, st.2)) = some (some (.ok [1, 2, 3, 9]), [0, 0, 0, 9]) ∧
    ramfsTruncate (.filled 0) (2 ^ 64 - 1) (Vnode.new .reg) = none := by
  constructor
  · rfl
  · exact (Vnode.Fits.new .reg).truncate_traps rfl (by decide) (by decide) rfl

end Exyde.Vfs
