import Exyde.Mem.Noninterference

/-! # The barrier before user memory

`user_range_ok` accepts exactly the ranges of mapped user memory. `strncpy_from_user`
checks and reads byte after byte; `dst` is the kernel memory from its argument on. -/

namespace Exyde.Mem

open Function
open Exyde.Lib
open Pmm (pageDown)

variable {s : State} {sp usrc max : Nat} {dst : Nat → Byte} {space : Space}

/-- `uaccess_memcpy_from_user` of one byte; `none` is a page fault. -/
def State.memcpyFromUser (s : State) (va : Nat) : Option Byte :=
  (s.translate va).map fun f => s.byte f (va % 4096)

/-- The loop of `strncpy_from_user` from index `i` on, with `n` turns left. -/
def State.strncpyLoop (s : State) (sp usrc max : Nat) :
    Nat → Nat → (Nat → Byte) → Except Errno Unit × (Nat → Byte)
  | 0, _, dst => (.error .ENAMETOOLONG, update dst (max - 1) 0#8)
  | n + 1, i, dst =>
    let va := (usrc + i) % 2 ^ 64
    if va < usrc then (.error .EFAULT, dst)
    else if !s.userRangeOk sp va 1 then (.error .EFAULT, dst)
    else
      match s.memcpyFromUser va with
      | none => (.error .EFAULT, dst)
      | some c =>
        if c = 0#8 then (.ok (), update dst i c)
        else s.strncpyLoop sp usrc max n (i + 1) (update dst i c)

/-- `strncpy_from_user`; `null` says whether `dst` is the null pointer. -/
def State.strncpyFromUser (s : State) (sp : Nat) (null : Bool) (dst : Nat → Byte) (usrc max : Nat) :
    Except Errno Unit × (Nat → Byte) :=
  if max = 0 ∨ null = true then (.error .EINVAL, dst) else s.strncpyLoop sp usrc max max 0 dst

/-- The bytes are in the user window, and every page that meets them is mapped for the user. -/
def State.InUser (s : State) (sp va n : Nat) : Prop :=
  n = 0 ∨ userVaBase ≤ va ∧ va + n ≤ userVaTop ∧
    ∀ page, page % 4096 = 0 → page < va + n → va < page + 4096 →
      ∃ pa flags, s.vmmQuery sp page = some (pa, flags) ∧ hasFlag flags vmUser = true

theorem userPage_iff (s : State) (sp page : Nat) : s.userPage sp page = true ↔
    ∃ pa flags, s.vmmQuery sp page = some (pa, flags) ∧ hasFlag flags vmUser = true := by
  rw [State.userPage]
  cases s.vmmQuery sp page with
  | none => simp
  | some q =>
    obtain ⟨pa, flags⟩ := q
    simp

theorem inUser_iff {va n : Nat} (hva : va < 2 ^ 64) (hn : n < 2 ^ 64) :
    s.userRangeOk sp va n = true ↔ s.InUser sp va n := by
  rw [userRangeOk_iff hn hva, State.InUser]
  simp only [userPage_iff]

theorem memcpyFromUser_eq (h : Active s sp space) {va : Nat} (hva : va < 2 ^ 64) (hin : s.InUser sp va 1) :
    s.memcpyFromUser va = s.userByte sp va ∧ ∃ c, s.userByte sp va = some c := by
  obtain ⟨huser, hpage⟩ := userRangeOk_user ((inUser_iff hva (by decide)).mpr hin) (by decide) hva va
    (Nat.le_refl _) (by omega)
  obtain ⟨g, hg⟩ := userPage_mapped h.layout h.live huser hpage
  rw [State.memcpyFromUser, translate_eq h.layout h.live h.loaded h.user huser, h.layout.userByte_eq h.live huser, hg]
  exact ⟨rfl, _, rfl⟩

/-- The string from index `i` on ends at `k`, and all of it may be read. -/
def State.EndsAt (s : State) (sp usrc i k : Nat) : Prop :=
  i ≤ k ∧ s.userByte sp (usrc + k) = some 0#8 ∧ ∀ j, i ≤ j → j ≤ k → s.InUser sp (usrc + j) 1

/-- **One turn** passes on to the next byte. -/
theorem strncpyLoop_succ (h : Active s sp space) (husrc : usrc < 2 ^ 64) {i : Nat} (hi : i < 2 ^ 64) (n : Nat) :
    s.strncpyLoop sp usrc max (n + 1) i dst = (.error .EFAULT, dst) ∧ ¬ s.InUser sp (usrc + i) 1 ∨
    s.InUser sp (usrc + i) 1 ∧ ∃ c, s.userByte sp (usrc + i) = some c ∧
      s.strncpyLoop sp usrc max (n + 1) i dst = if c = 0#8 then (.ok (), update dst i c)
        else s.strncpyLoop sp usrc max n (i + 1) (update dst i c) := by
  have htop : userVaTop < 2 ^ 64 := by decide
  rw [State.strncpyLoop]
  by_cases hin : s.InUser sp (usrc + i) 1
  · obtain h0 | ⟨hlow, hhigh, _⟩ := id hin
    · cases h0
    obtain ⟨heq, c, hc⟩ := memcpyFromUser_eq h (by omega) hin
    have hok : s.userRangeOk sp (usrc + i) 1 = true := (inUser_iff (by omega) (by decide)).mpr hin
    refine .inr ⟨hin, c, hc, ?_⟩
    simp only [Nat.mod_eq_of_lt (show usrc + i < 2 ^ 64 by omega), if_neg (show ¬ usrc + i < usrc by omega),
      hok, heq, hc, Bool.not_true, Bool.false_eq_true, if_false]
  · refine .inl ⟨?_, hin⟩
    by_cases hwrap : (usrc + i) % 2 ^ 64 < usrc
    · simp only [if_pos hwrap]
    · have hmod : (usrc + i) % 2 ^ 64 = usrc + i := by omega
      have hno : s.userRangeOk sp (usrc + i) 1 = false :=
        Bool.eq_false_iff.mpr fun hok => hin ((inUser_iff (by omega) (by decide)).mp hok)
      simp only [hmod, hno, Bool.not_false, if_true, ite_self]

/-- What a call that succeeds has copied: the string up to its first end mark. -/
structure Copied (s : State) (sp usrc max i : Nat) (dst dst' : Nat → Byte) (k : Nat) : Prop where
  lt : k < max
  ends : s.EndsAt sp usrc i k
  first : ∀ j, i ≤ j → j < k → s.userByte sp (usrc + j) ≠ some 0#8
  bytes : ∀ j, i ≤ j → j ≤ k → s.userByte sp (usrc + j) = some (dst' j)
  before : ∀ j < i, dst' j = dst j

/-- **The loop** copies a string that ends in time, and fails on any other; it writes below `max`. -/
theorem strncpyLoop_spec (h : Active s sp space) (husrc : usrc < 2 ^ 64) (hmax : 0 < max) (hmax' : max < 2 ^ 64)
    (n i : Nat) (hn : i + n = max) (dst : Nat → Byte) : ∃ res dst', s.strncpyLoop sp usrc max n i dst = (res, dst') ∧
      (∀ j, max ≤ j → dst' j = dst j) ∧ ((res = .ok () ∧ ∃ k, Copied s sp usrc max i dst dst' k) ∨
        (res ≠ .ok () ∧ ∀ k < max, ¬ s.EndsAt sp usrc i k)) := by
  induction n generalizing i dst with
  | zero =>
    refine ⟨_, _, rfl, fun j hj => update_of_ne (by omega) .., .inr ⟨by simp, fun k hk hend => ?_⟩⟩
    exact absurd hend.1 (by omega)
  | succ n ih =>
    rcases strncpyLoop_succ h husrc (show i < 2 ^ 64 by omega) n with ⟨heq, hno⟩ | ⟨hin, c, hc, heq⟩
    · refine ⟨_, _, heq, fun _ _ => rfl, .inr ⟨by simp, fun k _ hend => ?_⟩⟩
      exact hno (hend.2.2 i (Nat.le_refl _) hend.1)
    rw [heq]
    by_cases h0 : c = 0#8
    · subst h0
      have hend : s.EndsAt sp usrc i i := ⟨Nat.le_refl _, hc, fun j h1 h2 => Nat.le_antisymm h1 h2 ▸ hin⟩
      refine ⟨_, _, if_pos rfl, fun j hj => update_of_ne (by omega) .., .inl ⟨rfl, i, by omega, hend,
        fun j h1 h2 => absurd h1 (by omega), fun j h1 h2 => ?_, fun j hj => update_of_ne (by omega) ..⟩⟩
      rw [← Nat.le_antisymm h1 h2, hc, update_self]
    · rw [if_neg h0]
      obtain ⟨res, dst', hrun, hframe, hres⟩ := ih (i + 1) (by omega) (update dst i c)
      have hold : ∀ j, j ≠ i → update dst i c j = dst j := fun j hj => update_of_ne hj ..
      refine ⟨res, dst', hrun, fun j hj => (hframe j hj).trans (hold j (by omega)), ?_⟩
      rcases hres with ⟨hok, k, hcopied⟩ | ⟨hbad, hnone⟩
      · -- byte `i` comes before what the rest of the loop has copied
        have hcases : ∀ P : Nat → Prop, P i → (∀ j, i + 1 ≤ j → P j) → ∀ j, i ≤ j → P j := by
          intro P hi hrest j hle
          rcases Nat.eq_or_lt_of_le hle with rfl | hlt
          · exact hi
          · exact hrest j hlt
        obtain ⟨hle, hnul, hall⟩ := hcopied.ends
        have hlast : some (dst' i) = some c := by rw [hcopied.before i (Nat.lt_succ_self i), update_self]
        refine .inl ⟨hok, k, hcopied.lt, ⟨by omega, hnul, ?_⟩, ?_, ?_, fun j hj => ?_⟩
        · exact hcases _ (fun _ => hin) hall
        · exact hcases _ (fun _ => by rw [hc]; simpa using h0) hcopied.first
        · exact hcases _ (fun _ => hc.trans hlast.symm) hcopied.bytes
        · exact (hcopied.before j (by omega)).trans (hold j (by omega))
      · refine .inr ⟨hbad, fun k hk hend => hnone k hk ⟨?_, hend.2.1, fun j hj => hend.2.2 j (by omega)⟩⟩
        refine Nat.lt_of_le_of_ne hend.1 ?_
        rintro rfl
        exact h0 (Option.some.inj (hc.symm.trans hend.2.1))

/-- **The barrier is exact.** The range check accepts a range exactly if it is empty or lies in the
user window with every page that meets it mapped for the user. With the tables of the space loaded,
`strncpy_from_user` succeeds exactly if the string ends below `max` and may be read up to there;
it has then copied the string with its first end mark, and it never writes from `max` on. -/
theorem user_access_exact (hreach : Reachable memSys s) (sp : Nat) :
    (∀ va n : BitVec 64, s.userRangeOk sp va.toNat n.toNat = true ↔ s.InUser sp va.toNat n.toNat) ∧
    (s.Target sp sp → ∀ (usrc max : BitVec 64) (dst : Nat → Byte), ∃ res dst',
      s.strncpyFromUser sp false dst usrc.toNat max.toNat = (res, dst') ∧
      (res = .ok () ↔ ∃ k < max.toNat, s.userByte sp (usrc.toNat + k) = some 0#8 ∧
        ∀ j ≤ k, s.InUser sp (usrc.toNat + j) 1) ∧
      (res = .ok () → ∃ k < max.toNat, s.userByte sp (usrc.toNat + k) = some 0#8 ∧
        (∀ j < k, s.userByte sp (usrc.toNat + j) ≠ some 0#8) ∧
        ∀ j ≤ k, s.userByte sp (usrc.toNat + j) = some (dst' j)) ∧
      ∀ j, max.toNat ≤ j → dst' j = dst j) := by
  refine ⟨fun va n => inUser_iff va.isLt n.isLt, fun ht usrc max dst => ?_⟩
  rw [State.strncpyFromUser]
  by_cases h0 : max.toNat = 0
  · rw [if_pos (.inl h0), h0]
    exact ⟨_, _, rfl, ⟨by simp, by simp⟩, by simp, fun _ _ => rfl⟩
  obtain ⟨space, hs, hcr3⟩ := ht.space
  obtain ⟨res, dst', hrun, hframe, hres⟩ := strncpyLoop_spec
    ⟨.reachable hreach, hs, ht.1.1, hcr3 rfl⟩ usrc.isLt (Nat.pos_of_ne_zero h0) max.isLt _ 0 (Nat.zero_add _) dst
  rw [if_neg (by simp [h0])]
  refine ⟨res, dst', hrun, ?_, ?_, hframe⟩
  · rcases hres with ⟨hok, k, hc⟩ | ⟨hbad, hnone⟩
    · exact iff_of_true hok ⟨k, hc.lt, hc.ends.2.1, fun j => hc.ends.2.2 j (Nat.zero_le j)⟩
    · refine iff_of_false hbad fun hend => ?_
      obtain ⟨k, hk, hnul, hin⟩ := hend
      exact hnone k hk ⟨Nat.zero_le k, hnul, fun j _ => hin j⟩
  · intro hok
    rcases hres with ⟨_, k, hc⟩ | ⟨hbad, _⟩
    · exact ⟨k, hc.lt, hc.ends.2.1, fun j => hc.first j (Nat.zero_le j), fun j => hc.bytes j (Nat.zero_le j)⟩
    · exact absurd hok hbad

def loadedSpace : List Event :=
  [.vmmCreate .fits, .sysMap 1 0#64 (BitVec.ofNat 64 userVaBase) 1#64 2#64, .vmmSwitch 1]

theorem exists_loadedSpace : ∃ s, Reachable memSys s ∧ s.Target 1 1 ∧
    s.userRangeOk 1 userVaBase 8 = true ∧ s.userRangeOk 1 (userVaBase + 8) 4 = true := by
  obtain ⟨s, hs, hready⟩ : ∃ s ∈ BootMap.tiny.run (fun _ _ => 0#64) loadedSpace,
      s.Target 1 1 ∧ s.userRangeOk 1 userVaBase 8 = true ∧
        s.userRangeOk 1 (userVaBase + 8) 4 = true := by decide +kernel
  exact ⟨s, BootMap.run_reachable hs, hready⟩

theorem user_access_exact_loaded : ∃ s, Reachable memSys s ∧ s.Target 1 1 ∧
    s.InUser 1 userVaBase 8 ∧ ∀ dst, ∃ res dst',
      s.strncpyFromUser 1 false dst userVaBase 4 = (res, dst') ∧ ∀ j, 4 ≤ j → dst' j = dst j := by
  obtain ⟨s, hreach, ht, hbuf, _⟩ := exists_loadedSpace
  obtain ⟨hrange, hstr⟩ := user_access_exact hreach 1
  refine ⟨s, hreach, ht, (hrange (BitVec.ofNat 64 userVaBase) 8).mp hbuf, fun dst => ?_⟩
  obtain ⟨res, dst', hrun, _, _, hframe⟩ := hstr ht (BitVec.ofNat 64 userVaBase) 4 dst
  exact ⟨res, dst', hrun, hframe⟩

end Exyde.Mem
