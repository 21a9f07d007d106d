import Exyde.Libc.EnvSpec
import Exyde.Libc.InitrdArchive

/-! # Where the initrd lies

The kernel writes the address and the size of the archive into the environment of `init`,
as hexadecimal digits, and `initrd_init` reads them there. -/

namespace Exyde.Libc.Initrd

open List

/-! ## The kernel's side -/

/-- `EXYDE_INITRD_BASE=` -/
def baseKey : List Nat :=
  [0x45, 0x58, 0x59, 0x44, 0x45, 0x5F, 0x49, 0x4E, 0x49, 0x54, 0x52, 0x44, 0x5F, 0x42, 0x41, 0x53, 0x45, 0x3D]

/-- `EXYDE_INITRD_SIZE=` -/
def sizeKey : List Nat :=
  [0x45, 0x58, 0x59, 0x44, 0x45, 0x5F, 0x49, 0x4E, 0x49, 0x54, 0x52, 0x44, 0x5F, 0x53, 0x49, 0x5A, 0x45, 0x3D]

/-- The loop over the digits, from the last one on; `i` are to go. -/
def fillHex (l : Nat) : Nat → Nat → List Nat → List Nat
  | 0, _, buf => buf
  | i + 1, v, buf => fillHex l i (v / 16) (buf.set (l + 2 + i) (hexChar false (v % 16)))

/-- What `userspace_selftest` makes of a buffer on its stack: the key, `0x`, the digits. -/
def formatEnv (p : List Nat) (v : Nat) (buf : List Nat) : List Nat :=
  let l := p.length
  (fillHex l 16 v (p ++ [0x30, 0x78] ++ buf.drop (l + 2))).set (l + 18) 0

def cstring (buf : List Nat) : List Nat := buf.takeWhile (· ≠ 0)

theorem zero_notMem_cstring (buf : List Nat) : 0 ∉ cstring buf := fun hmem => by
  simpa using all_eq_true.mp all_takeWhile 0 hmem

/-- `envp`, whose first entry is `PATH=/`. -/
def initEnvp (base size : Nat) (buf1 buf2 : List Nat) : List (List Nat) :=
  [pathEntry.val, cstring (formatEnv baseKey base buf1), cstring (formatEnv sizeKey size buf2)]

/-! ## The side of `init` -/

/-- The loop of `parse_env_hex_u64`; `v << 4 | d` adds up and loses what is above 64 bits. -/
def parseEnvDigits : List Nat → Nat → Option Nat
  | [], v => some v
  | c :: p, v =>
    match hexdigit c with
    | none => none
    | some d => parseEnvDigits p ((v * 16 + d) % 2 ^ 64)

/-- `parse_env_hex_u64` of a string; `none` is the source's `-1`. -/
def parseEnvHex (s : List Nat) : Option Nat :=
  if s[0]? = some 0x30 ∧ (s[1]? = some 0x78 ∨ s[1]? = some 0x58) then parseEnvDigits (s.drop 2) 0
  else none

/-! ## Digits -/

def HexDigits (p : List Nat) : Prop := ∀ c ∈ p, (hexdigit c).isSome

/-- The number that digits denote, read on from `v`. -/
def hexNumber (p : List Nat) (v : Nat) : Nat := p.foldl (fun v c => v * 16 + (hexdigit c).getD 0) v

variable {p : List Nat}

theorem parseEnvDigits_eq (h : HexDigits p) (v : Nat) :
    parseEnvDigits p (v % 2 ^ 64) = some (hexNumber p v % 2 ^ 64) := by
  induction p generalizing v with
  | nil => rfl
  | cons c p ih =>
    obtain ⟨hc, hp⟩ := forall_mem_cons.mp h
    obtain ⟨d, hd⟩ := Option.isSome_iff_exists.mp hc
    have hmod : (v % 2 ^ 64 * 16 + d) % 2 ^ 64 = (v * 16 + d) % 2 ^ 64 := by omega
    simp only [parseEnvDigits, hd, hmod, ih hp]
    simp [hexNumber, hd]

theorem parseEnvDigits_none (h : ¬HexDigits p) (v : Nat) : parseEnvDigits p v = none := by
  induction p generalizing v with
  | nil => exact absurd nofun h
  | cons c p ih =>
    rw [parseEnvDigits]
    split
    · rfl
    next d hd => exact ih (fun hp => h (forall_mem_cons.mpr ⟨by simp [hd], hp⟩)) _

variable (upper : Bool)

theorem hexChars_digits (k n : Nat) : HexDigits (hexChars upper k n) := by
  induction k generalizing n with
  | zero => nofun
  | succ k ih =>
    rw [hexChars, HexDigits, forall_mem_append]
    refine ⟨ih _, forall_mem_singleton.mpr ?_⟩
    rw [hexdigit_hexChar upper (Nat.mod_lt _ (by decide))]
    rfl

theorem hexNumber_hexChars {k n : Nat} (h : n < 16 ^ k) (v : Nat) :
    hexNumber (hexChars upper k n) v = v * 16 ^ k + n := by
  induction k generalizing n with
  | zero => simp_all [hexNumber, hexChars]
  | succ k ih =>
    rw [Nat.pow_succ] at h ⊢
    have hlast := hexdigit_hexChar upper (Nat.mod_lt n (by decide : 0 < 16))
    simp only [hexNumber] at ih
    simp only [hexNumber, hexChars, foldl_append, foldl_cons, foldl_nil, hlast, Option.getD_some]
    rw [ih (by omega), Nat.add_mul, Nat.mul_assoc, Nat.add_assoc, Nat.div_add_mod']

theorem HexDigits.terminates (h : HexDigits p) : 0 ∉ p := fun h0 => by
  simpa [hexdigit] using h 0 h0

/-! ## The handover -/

theorem fillHex_eq {l k : Nat} {x y z : List Nat} (hx : x.length = l + 2) (hy : y.length = k) (v : Nat) :
    fillHex l k v (x ++ (y ++ z)) = x ++ (hexChars false k v ++ z) := by
  induction k generalizing y z v with
  | zero => rw [fillHex, hexChars, length_eq_zero_iff.mp hy]
  | succ k ih =>
    rcases eq_nil_or_concat' y with rfl | ⟨y, c, rfl⟩
    · cases hy
    · have hlen : y.length = k := by simpa using hy
      have hset : (x ++ (y ++ [c] ++ z)).set (l + 2 + k) (hexChar false (v % 16)) =
          x ++ (y ++ hexChar false (v % 16) :: z) := by
        rw [← hx, ← hlen, set_append_right _ _ (by omega), Nat.add_sub_cancel_left, append_assoc,
          set_append_right _ _ (by omega), Nat.sub_self]
        rfl
      rw [fillHex, hset, ih hlen, hexChars, append_assoc, singleton_append]

theorem cstring_formatEnv {p buf : List Nat} (hp : 0 ∉ p) (hbuf : p.length + 19 ≤ buf.length) (v : Nat) :
    cstring (formatEnv p v buf) = p ++ 0x30 :: 0x78 :: hexChars false 16 v := by
  have hlen := length_take_of_le (l := buf.drop (p.length + 2)) (i := 16) (by rw [length_drop]; omega)
  obtain ⟨c, z, hz⟩ := exists_cons_of_length_pos (l := (buf.drop (p.length + 2)).drop 16)
    (by simp only [length_drop]; omega)
  have hfill : formatEnv p v buf = (p ++ [0x30, 0x78] ++ hexChars false 16 v) ++ 0 :: z := by
    rw [formatEnv, ← take_append_drop 16 (buf.drop (p.length + 2)), hz, fillHex_eq (by simp) hlen,
      ← append_assoc, set_append_right _ _ (by simp [hexChars_length])]
    simp [hexChars_length]
  have hstr : 0 ∉ p ++ [0x30, 0x78] ++ hexChars false 16 v := by
    simp [hp, (hexChars_digits false 16 v).terminates]
  rw [cstring, hfill, takeWhile_append_of_pos (fun c hc => by
    have hne : c ≠ 0 := fun h0 => hstr (h0 ▸ hc)
    simpa using hne)]
  simp

theorem parseEnvHex_digits {c : Nat} (hc : c = 0x78 ∨ c = 0x58) :
    parseEnvHex (0x30 :: c :: p) = parseEnvDigits p (0 % 2 ^ 64) := by
  rw [parseEnvHex, if_pos (by simp [hc])]
  rfl

/-- A string of `0x` and hexadecimal digits. -/
def Hexadecimal (s : List Nat) : Prop :=
  ∃ c p, s = 0x30 :: c :: p ∧ (c = 0x78 ∨ c = 0x58) ∧ HexDigits p

def baseName : CStr := ⟨baseKey.dropLast, by decide⟩

def sizeName : CStr := ⟨sizeKey.dropLast, by decide⟩

theorem getenv_hex {s : EnvState} (pre : List Libc.Entry) {post : List Libc.Entry} {e : Libc.Entry} {name : CStr} {v : Nat}
    (hrep : Rep s (pre ++ e :: post)) (hname : ¬BadName name)
    (hpre : ∀ e0 ∈ pre, ¬Matches name.val e0.str.val) (hv : v < 2 ^ 64)
    (he : e.str.val = name.val ++ equalsSign :: 0x30 :: 0x78 :: hexChars false 16 v) :
    ∃ q w, getenv (some name) s = some (some q, s) ∧ Denotes s (some q) (some w) ∧
      w.val.length = 18 ∧ parseEnvHex w.val = some v := by
  obtain ⟨q, hq, hdenotes⟩ := getenv_eq hrep (some name)
  have hm : Matches name.val e.str.val := ⟨_, by rw [he, append_assoc]; rfl⟩
  have hvalue : (valueFrom e.str name.val.length).val = 0x30 :: 0x78 :: hexChars false 16 v := by
    simp [valueFrom, he]
  rw [Option.bind_some, envMap_hit hname hpre hm] at hdenotes
  cases q with
  | none => cases hdenotes
  | some q =>
    refine ⟨q, _, hq, hdenotes, by simp [hvalue, hexChars_length], ?_⟩
    rw [hvalue, parseEnvHex_digits (.inl rfl), parseEnvDigits_eq (hexChars_digits false 16 v),
      hexNumber_hexChars false hv, Nat.zero_mul, Nat.zero_add, Nat.mod_eq_of_lt hv]

/-- **The handover.** What the kernel writes is read back. The decoder rejects what is not
hexadecimal, and it answers with the number that the digits denote just when that fits. -/
theorem initrd_handover (str : List Nat) :
    (∀ {s : EnvState} {es : List Libc.Entry} {base size : Nat} {buf1 buf2 : List Nat}, Rep s es →
      base < 2 ^ 64 → size < 2 ^ 64 → buf1.length = 48 → buf2.length = 48 →
      es.map (fun e => e.str.val) = initEnvp base size buf1 buf2 →
      ∀ kv ∈ [(baseName, base), (sizeName, size)],
        ∃ q w, getenv (some kv.1) s = some (some q, s) ∧ Denotes s (some q) (some w) ∧
          w.val.length = 18 ∧ parseEnvHex w.val = some kv.2) ∧
    (¬Hexadecimal str → parseEnvHex str = none) ∧
    ∀ c p v, str = 0x30 :: c :: p → c = 0x78 ∨ c = 0x58 → parseEnvHex str = some v →
      (v = hexNumber p 0 ↔ hexNumber p 0 < 2 ^ 64) := by
  refine ⟨?_, ?_, ?_⟩
  · intro s es base size buf1 buf2 hrep hbase hsize hlen1 hlen2 hes
    rw [initEnvp, cstring_formatEnv (by decide) (by rw [hlen1]; decide),
      cstring_formatEnv (by decide) (by rw [hlen2]; decide)] at hes
    simp only [map_eq_cons_iff, map_eq_nil_iff] at hes
    obtain ⟨e0, _, rfl, h0, e1, _, rfl, h1, e2, _, rfl, h2, rfl⟩ := hes
    simp only [mem_cons, not_mem_nil, or_false, forall_eq_or_imp, forall_eq]
    constructor
    · refine getenv_hex [e0] hrep (by decide) ?_ hbase h1
      rw [forall_mem_singleton, h0]
      decide
    · refine getenv_hex [e0, e1] hrep (by decide) ?_ hsize h2
      simp only [forall_mem_cons, h0, h1]
      exact ⟨by decide, by simp [Matches, sizeName, sizeKey, baseKey], fun _ h => by cases h⟩
  · intro hs
    rw [parseEnvHex]
    split_ifs with hx
    · refine parseEnvDigits_none (fun hp => hs ?_) 0
      obtain ⟨h0, h1⟩ := hx
      match str with
      | c0 :: c :: p => exact ⟨c, p, by simpa using h0, by simpa using h1, hp⟩
      | [_] | [] => simp at h1
    · rfl
  · rintro c p v rfl hc hv
    rw [parseEnvHex_digits hc] at hv
    by_cases hp : HexDigits p
    · rw [parseEnvDigits_eq hp, Option.some.injEq] at hv
      omega
    · rw [parseEnvDigits_none hp] at hv
      cases hv

/-- The environment that `init` is given, for an archive of 0x2800 bytes at 0x7f0000. -/
def initEnv : List CStr :=
  [pathEntry, ⟨_, zero_notMem_cstring (formatEnv baseKey 0x7f0000 (replicate 48 0))⟩,
    ⟨_, zero_notMem_cstring (formatEnv sizeKey 0x2800 (replicate 48 0))⟩]

theorem initrd_handover_archive : Rep (givenState initEnv) (givenEntries initEnv) ∧
      ∀ kv ∈ [(baseName, 0x7f0000), (sizeName, 0x2800)],
        ∃ q w, getenv (some kv.1) (givenState initEnv) = some (some q, givenState initEnv) ∧
          Denotes (givenState initEnv) (some q) (some w) ∧ w.val.length = 18 ∧
          parseEnvHex w.val = some kv.2 :=
  have hbuf : (replicate 48 0 : List Nat).length = 48 := rfl
  ⟨givenState_rep initEnv,
    (initrd_handover []).1 (givenState_rep initEnv) (by decide) (by decide) hbuf hbuf rfl⟩

/-- 17 digits are too many. -/
theorem parseEnvHex_wraps : parseEnvHex ([0x30, 0x78, 0x31] ++ replicate 16 0x30) = some 0 ∧
      hexNumber (0x31 :: replicate 16 0x30) 0 = 2 ^ 64 := by
  decide

end Exyde.Libc.Initrd
