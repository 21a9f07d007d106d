import Exyde.Vfs.Ramfs
import Mathlib.Algebra.Ring.Int.Defs

/-! # `strtol` and `strtoul`

A pointer into a string is what is left of the string there, without the NUL. Both
functions have their own copy of one parser; here they share it, with their limits and
what they make of the result as parameters. -/

namespace Exyde.Libc

/-- What a call answers, where it leaves `*endptr` and what it stores in `errno`. -/
structure Parsed where
  value : Int
  endptr : List Nat
  errno : Option Vfs.Errno
  deriving DecidableEq

def isSpace (c : Nat) : Bool := c ∈ [0x20, 0x09, 0x0A, 0x0B, 0x0C, 0x0D]

/-- `none` is the source's `-1`. -/
def digitVal (c : Nat) : Option Nat :=
  if 0x30 ≤ c ∧ c ≤ 0x39 then some (c - 0x30)
  else if 0x61 ≤ c ∧ c ≤ 0x7A then some (10 + (c - 0x61))
  else if 0x41 ≤ c ∧ c ≤ 0x5A then some (10 + (c - 0x41))
  else none

/-- The optional sign, and whether it is a minus. -/
def takeSign (p : List Nat) : Bool × List Nat :=
  if p[0]? = some 0x2B ∨ p[0]? = some 0x2D then (p[0]? = some 0x2D, p.tail) else (false, p)

/-- `p[0] == '0' && (p[1] == 'x' || p[1] == 'X')` -/
def HexPrefix (p : List Nat) : Prop :=
  p[0]? = some 0x30 ∧ (p[1]? = some 0x78 ∨ p[1]? = some 0x58)
  deriving Decidable

/-- The base to read digits in and where they start; `none` for a base that is refused. -/
def selectBase (base : Int) (p : List Nat) : Option (Nat × List Nat) :=
  if base = 0 then
    if HexPrefix p then some (16, p.drop 2)
    else if p[0]? = some 0x30 then some (8, p)
    else some (10, p)
  else if base = 16 then some (16, if HexPrefix p then p.drop 2 else p)
  else if base < 2 ∨ base > 36 then none
  else some (base.toNat, p)

/-- The variables of the digit loop. -/
structure Digits where
  acc : Nat
  overflow : Bool
  any : Bool

def digitLoop (base cutoff cutlim : Nat) : List Nat → Digits → Digits × List Nat
  | [], n => (n, [])
  | c :: p, n =>
    match digitVal c with
    | none => (n, c :: p)
    | some d =>
      if d ≥ base then (n, c :: p)
      else if n.overflow then digitLoop base cutoff cutlim p { n with any := true }
      else if n.acc > cutoff ∨ n.acc = cutoff ∧ d > cutlim then
        digitLoop base cutoff cutlim p { n with overflow := true, any := true }
      else digitLoop base cutoff cutlim p ⟨(n.acc * base + d) % 2 ^ 64, false, true⟩

def parse (limit : Bool → Nat) (value : Bool → Digits → Int) (s : List Nat) (base : Int) : Parsed :=
  let (negative, p) := takeSign (s.dropWhile isSpace)
  match selectBase base p with
  | none => ⟨0, s, some .EINVAL⟩
  | some (b, p) =>
    let (n, p) := digitLoop b (limit negative / b) (limit negative % b) p ⟨0, false, false⟩
    ⟨value negative n, if n.any then p else s, if n.overflow then some .ERANGE else none⟩

def ulongMax : Nat := 2 ^ 64 - 1

def longMax : Nat := 2 ^ 63 - 1

section

variable (negative : Bool) {n : Digits}

/-- The negation is done on a `long long` and wraps. -/
def ulongValue (n : Digits) : Int :=
  if n.overflow then ulongMax
  else if negative then ((2 ^ 64 - n.acc) % 2 ^ 64 : Nat)
  else n.acc

def strtoul : List Nat → Int → Parsed := parse (fun _ => ulongMax) ulongValue

def longLimit : Nat := if negative then longMax + 1 else longMax

def longValue (n : Digits) : Int :=
  if n.overflow then if negative then -(longMax + 1) else longMax
  else if negative then -n.acc
  else n.acc

def strtol : List Nat → Int → Parsed := parse longLimit longValue

/-! ## The digit loop -/

def isDigit (base c : Nat) : Bool := (digitVal c).any (· < base)

/-- The number that digits denote, read on from `v`. -/
def numeral (base : Nat) (ds : List Nat) (v : Nat) : Nat :=
  ds.foldl (fun v c => v * base + (digitVal c).getD 0) v

/-- The loop has read a number `v`. -/
structure Counted (limit v : Nat) (n : Digits) : Prop where
  overflow : n.overflow = true ↔ limit < v
  acc : v ≤ limit → n.acc = v

/-- The test before the multiplication finds out whether the result would pass the limit. -/
theorem cutoff_iff {base limit acc d : Nat} (hd : d < base) :
    (acc > limit / base ∨ acc = limit / base ∧ d > limit % base) ↔ limit < acc * base + d := by
  have hlimit := Nat.div_add_mod limit base
  have hrem := Nat.mod_lt limit (Nat.zero_lt_of_lt hd)
  rw [Nat.mul_comm] at hlimit
  rcases Nat.lt_trichotomy acc (limit / base) with hlt | rfl | hgt
  · have := Nat.mul_le_mul_right base hlt
    rw [Nat.succ_mul] at this
    omega
  · omega
  · have := Nat.mul_le_mul_right base hgt
    rw [Nat.succ_mul] at this
    omega

theorem digitLoop_digit {base limit v c d : Nat} (hlimit : limit < 2 ^ 64)
    (hc : digitVal c = some d) (hd : d < base) (p : List Nat) (h : Counted limit v n) :
    ∃ n', n'.any = true ∧ Counted limit (v * base + d) n' ∧
      digitLoop base (limit / base) (limit % base) (c :: p) n =
        digitLoop base (limit / base) (limit % base) p n' := by
  have hmore : v ≤ v * base + d :=
    Nat.le_add_right_of_le (Nat.le_mul_of_pos_right v (Nat.zero_lt_of_lt hd))
  have hcut := @cutoff_iff base limit n.acc d hd
  simp only [digitLoop, hc, Nat.not_le.mpr hd, if_false]
  split
  next ho =>
    have hpast := h.overflow.mp ho
    exact ⟨{ n with any := true }, rfl, ⟨iff_of_true ho (by omega), fun hle => by omega⟩, rfl⟩
  next ho =>
  have hv : v ≤ limit := Nat.le_of_not_lt fun hlt => ho (h.overflow.mpr hlt)
  rw [h.acc hv] at hcut ⊢
  split
  next hpast =>
    rw [hcut] at hpast
    exact ⟨_, rfl, ⟨iff_of_true rfl hpast, fun hle => by omega⟩, rfl⟩
  next hfits =>
    rw [hcut] at hfits
    exact ⟨_, rfl, ⟨iff_of_false Bool.false_ne_true hfits, fun _ => Nat.mod_eq_of_lt (by omega)⟩, rfl⟩

theorem digitLoop_counted {limit v : Nat} (base : Nat) (hlimit : limit < 2 ^ 64)
    (p : List Nat) (h : Counted limit v n) :
    ∃ n', digitLoop base (limit / base) (limit % base) p n = (n', p.dropWhile (isDigit base)) ∧
      Counted limit (numeral base (p.takeWhile (isDigit base)) v) n' ∧
      n'.any = (n.any || !(p.takeWhile (isDigit base)).isEmpty) := by
  induction p generalizing v n with
  | nil => exact ⟨n, rfl, h, by simp⟩
  | cons c p ih =>
    cases hdigit : isDigit base c with
    | true =>
      obtain ⟨d, hc, hd⟩ := (Option.any_eq_true _ _).mp hdigit
      obtain ⟨n1, hany, h1, hstep⟩ := digitLoop_digit hlimit hc (of_decide_eq_true hd) p h
      obtain ⟨n2, hrest, h2, hany2⟩ := ih h1
      refine ⟨n2, ?_, ?_, ?_⟩
      · rw [hstep, hrest, List.dropWhile_cons_of_pos hdigit]
      · simpa [List.takeWhile_cons_of_pos hdigit, numeral, hc] using h2
      · simp [List.takeWhile_cons_of_pos hdigit, hany2, hany]
    | false =>
      refine ⟨n, ?_, by simpa [hdigit, numeral] using h, by simp [hdigit]⟩
      cases hc : digitVal c with
      | none => simp [digitLoop, hc, hdigit]
      | some d =>
        have hd : base ≤ d := by simpa [isDigit, hc] using hdigit
        simp [digitLoop, hc, hdigit, hd]

/-! ## What the functions answer -/

theorem Counted.fits {limit v : Nat} (h : Counted limit v n) (hv : v ≤ limit) :
    n.overflow = false ∧ n.acc = v := by
  refine ⟨Bool.eq_false_iff.mpr fun ho => ?_, h.acc hv⟩
  exact absurd (h.overflow.mp ho) (Nat.not_lt.mpr hv)

def signed (v : Nat) : Int := if negative then -v else v

/-- The number, clamped to `LONG_MIN..LONG_MAX`. -/
def longResult (v : Nat) : Int × Option Vfs.Errno :=
  let x := signed negative v
  (max (-2 ^ 63) (min (2 ^ 63 - 1) x), if -2 ^ 63 ≤ x ∧ x ≤ 2 ^ 63 - 1 then none else some .ERANGE)

def ulongResult (v : Nat) : Int × Option Vfs.Errno :=
  if v < 2 ^ 64 then (signed negative v % 2 ^ 64, none) else (2 ^ 64 - 1, some .ERANGE)

end

section Answer

variable {s p : List Nat} {base : Int} {negative : Bool} {sel : Nat × List Nat} {v : Nat} {n : Digits}

theorem Counted.long (h : Counted (longLimit negative) v n) :
    (longValue negative n, if n.overflow then some .ERANGE else none) = longResult negative v := by
  have hmax : longMax = 2 ^ 63 - 1 := rfl
  by_cases hv : v ≤ longLimit negative
  · obtain ⟨ho, ha⟩ := h.fits hv
    rw [longValue, longResult, ho, ha]
    cases negative <;> simp [longLimit, signed] at hv ⊢ <;> omega
  · have ho := h.overflow.mpr (Nat.lt_of_not_le hv)
    rw [longValue, longResult, ho]
    cases negative <;> simp [longLimit, signed] at hv ⊢ <;> omega

theorem Counted.ulong (h : Counted ulongMax v n) :
    (ulongValue negative n, if n.overflow then some .ERANGE else none) = ulongResult negative v := by
  have hmax : ulongMax = 2 ^ 64 - 1 := rfl
  by_cases hv : v ≤ ulongMax
  · obtain ⟨ho, ha⟩ := h.fits hv
    rw [ulongResult, if_pos (show v < 2 ^ 64 by omega), ulongValue, ho, ha]
    cases negative <;> simp [signed] <;> omega
  · rw [ulongResult, if_neg (show ¬ v < 2 ^ 64 by omega), ulongValue,
      h.overflow.mpr (Nat.lt_of_not_le hv)]
    rfl

/-- All the digits from `sel.2` on, in base `sel.1`, are read, and `result` says what the
number they denote becomes. Without a digit nothing of `s` is read. -/
def answer (result : Bool → Nat → Int × Option Vfs.Errno) (negative : Bool) (s : List Nat)
    (sel : Nat × List Nat) : Parsed :=
  if sel.2.takeWhile (isDigit sel.1) = [] then ⟨0, s, none⟩
  else
    let (value, errno) := result negative (numeral sel.1 (sel.2.takeWhile (isDigit sel.1)) 0)
    ⟨value, sel.2.dropWhile (isDigit sel.1), errno⟩

theorem parse_eq {limit : Bool → Nat} {value : Bool → Digits → Int}
    {result : Bool → Nat → Int × Option Vfs.Errno} (hlimit : limit negative < 2 ^ 64)
    (hresult : ∀ {v n}, Counted (limit negative) v n →
      (value negative n, if n.overflow then some .ERANGE else none) = result negative v)
    (hzero : result negative 0 = (0, none)) (hp : takeSign (s.dropWhile isSpace) = (negative, p))
    (hq : selectBase base p = some sel) : parse limit value s base = answer result negative s sel := by
  have hzeros : Counted (limit negative) 0 ⟨0, false, false⟩ := ⟨by simp, fun _ => rfl⟩
  obtain ⟨n, hloop, hn, hany⟩ := digitLoop_counted sel.1 hlimit sel.2 hzeros
  obtain ⟨hvalue, herrno⟩ := Prod.mk.inj (hresult hn)
  simp only [parse, hp, hq, hloop, hany, hvalue, herrno, answer]
  cases sel.2.takeWhile (isDigit sel.1) with
  | nil => simp [numeral, hzero]
  | cons => simp

theorem strtol_eq (hp : takeSign (s.dropWhile isSpace) = (negative, p))
    (hq : selectBase base p = some sel) : strtol s base = answer longResult negative s sel :=
  parse_eq (by cases negative <;> decide) Counted.long (by cases negative <;> rfl) hp hq

theorem strtoul_eq (hp : takeSign (s.dropWhile isSpace) = (negative, p))
    (hq : selectBase base p = some sel) : strtoul s base = answer ulongResult negative s sel :=
  parse_eq (by decide) Counted.ulong (by cases negative <;> rfl) hp hq

end Answer

/-- **The two parsers agree** on the end of the number, on the bases they refuse, and on
the value of every number that fits a `long`. -/
theorem strtol_agrees_with_strtoul (s : List Nat) (base : Int) :
    (strtol s base).endptr = (strtoul s base).endptr ∧
    ((strtol s base).errno = some .EINVAL ↔ (strtoul s base).errno = some .EINVAL) ∧
    ((strtol s base).errno ≠ some .ERANGE →
      (strtoul s base).errno ≠ some .ERANGE ∧
      (strtol s base).value % 2 ^ 64 = (strtoul s base).value) := by
  cases hp : takeSign (s.dropWhile isSpace) with
  | mk negative p =>
    cases hq : selectBase base p with
    | none => simp [strtol, strtoul, parse, hp, hq]
    | some sel =>
      rw [strtol_eq hp hq, strtoul_eq hp hq]
      unfold answer
      split
      · simp
      generalize numeral sel.1 (sel.2.takeWhile (isDigit sel.1)) 0 = v
      simp only [longResult, ulongResult, signed]
      grind

/-! ## The C standard -/

/-- The base of the digits and where they start: `0x` and `0X` are a prefix only before a
hexadecimal digit. -/
def subject (base : Int) (p : List Nat) : Nat × List Nat :=
  if (base = 0 ∨ base = 16) ∧ HexPrefix p ∧ p[2]?.any (isDigit 16) then (16, p.drop 2)
  else if base = 0 then (if p[0]? = some 0x30 then 8 else 10, p)
  else (base.toNat, p)

/-- White space, a sign, a prefix and all the digits that follow are read. -/
def standard (result : Bool → Nat → Int × Option Vfs.Errno) (s : List Nat) (base : Int) : Parsed :=
  let (negative, p) := takeSign (s.dropWhile isSpace)
  answer result negative s (subject base p)

/-- `0x` or `0X` stands before something that is not a hexadecimal digit, in base 0 or 16. -/
def BarePrefix (base : Int) (p : List Nat) : Prop :=
  (base = 0 ∨ base = 16) ∧ HexPrefix p ∧ p[2]?.any (isDigit 16) = false
  deriving Decidable

theorem takeSign_suffix (p : List Nat) : (takeSign p).2 <:+ p := by
  unfold takeSign
  split
  · exact List.tail_suffix p
  · exact List.suffix_refl p

theorem selectBase_subject {base : Int} {p : List Nat} (hbase : base = 0 ∨ 2 ≤ base ∧ base ≤ 36)
    (hbare : ¬ BarePrefix base p) : selectBase base p = some (subject base p) := by
  unfold selectBase subject
  unfold BarePrefix at hbare
  grind

/-- Behind a bare prefix the code finds no digit and gives up on the `0` as well. -/
theorem answer_bare {base : Int} {p s : List Nat} (hbare : BarePrefix base p) (hp : p <:+ s)
    (result : Bool → Nat → Int × Option Vfs.Errno) (negative : Bool) :
    selectBase base p = some (16, p.drop 2) ∧
    answer result negative s (16, p.drop 2) ≠ answer result negative s (subject base p) := by
  obtain ⟨hbase, hhex, hno⟩ := hbare
  refine ⟨by rcases hbase with rfl | rfl <;> simp [selectBase, hhex], fun heq => ?_⟩
  obtain ⟨b, hsub, hdigit⟩ : ∃ b, subject base p = (b, p) ∧ isDigit b 0x30 = true := by
    rcases hbase with rfl | rfl
    · exact ⟨8, by simp [subject, hno, hhex.1], by decide⟩
    · exact ⟨16, by simp [subject, hno], by decide⟩
  have hnone : (p.drop 2).takeWhile (isDigit 16) = [] := by
    rcases p with _ | ⟨c, _ | ⟨x, _ | ⟨y, w⟩⟩⟩ <;> simp_all
  obtain ⟨w, rfl⟩ : ∃ w, p = 0x30 :: w := ⟨p.tail, by
    rcases p with _ | ⟨c, w⟩ <;> simp_all [HexPrefix]⟩
  have hend := congrArg (fun r => r.endptr.length) heq
  simp only [answer, hsub, if_pos hnone, List.takeWhile_cons_of_pos hdigit,
    List.dropWhile_cons_of_pos hdigit, if_neg (List.cons_ne_nil _ _)] at hend
  have hlen : w.length < s.length := hp.length_le
  have := (w.dropWhile_suffix (isDigit b)).length_le
  omega

/-- **The functions follow the standard** on exactly those strings that do not have a bare
prefix where the digits should be. -/
theorem strto_standard_iff (s : List Nat) (base : Int) (hbase : base = 0 ∨ 2 ≤ base ∧ base ≤ 36) :
    (strtol s base = standard longResult s base ∧ strtoul s base = standard ulongResult s base) ↔
      ¬ BarePrefix base (takeSign (s.dropWhile isSpace)).2 := by
  have hsuffix := (takeSign_suffix (s.dropWhile isSpace)).trans (List.dropWhile_suffix _)
  cases hp : takeSign (s.dropWhile isSpace) with
  | mk negative p =>
    rw [hp] at hsuffix
    simp only [standard, hp]
    by_cases hbare : BarePrefix base p
    · obtain ⟨hq, hne⟩ := answer_bare hbare hsuffix longResult negative
      refine iff_of_false (fun h => hne ?_) (not_not_intro hbare)
      rw [← strtol_eq hp hq, h.1]
    · have hq := selectBase_subject hbase hbare
      exact iff_of_true ⟨strtol_eq hp hq, strtoul_eq hp hq⟩ hbare

/-- `strtol("0x1f", &end, 0)` -/
theorem strto_standard_hex : strtol [0x30, 0x78, 0x31, 0x66] 0 = ⟨31, [], none⟩ := by
  rw [((strto_standard_iff _ 0 (.inl rfl)).mpr (by decide)).1]
  decide

/-- `strtol("0xg", &end, 16)` leaves `end` at the start and not behind the `0`. -/
theorem strto_bare_prefix : strtol [0x30, 0x78, 0x67] 16 = ⟨0, [0x30, 0x78, 0x67], none⟩ ∧
    standard longResult [0x30, 0x78, 0x67] 16 = ⟨0, [0x78, 0x67], none⟩ := by
  decide

end Exyde.Libc
