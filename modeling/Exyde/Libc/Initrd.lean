import Exyde.Vfs.Ramfs

/-! # `initrd_find`

The archive is the list of its bytes, and a pointer into it is what is left of the list
there. Reading behind the last byte is `none`. Sizes are natural numbers: the archive
lies in user memory, where none of the sums can wrap. -/

namespace Exyde.Libc.Initrd

def cpioMagic : List Nat := [0x30, 0x37, 0x30, 0x37, 0x30, 0x31]

/-- `TRAILER!!!` -/
def trailerName : List Nat := [0x54, 0x52, 0x41, 0x49, 0x4C, 0x45, 0x52, 0x21, 0x21, 0x21]

/-- `none` is the source's `-1`. -/
def hexdigit (c : Nat) : Option Nat :=
  if 0x30 ≤ c ∧ c ≤ 0x39 then some (c - 0x30)
  else if 0x61 ≤ c ∧ c ≤ 0x66 then some (c - 0x61 + 10)
  else if 0x41 ≤ c ∧ c ≤ 0x46 then some (c - 0x41 + 10)
  else none

/-- The loop of `parse_hex8`, with `i` digits to go; `v << 4 | d` adds up. -/
def parseHex : Nat → Nat → List Nat → Option (Option Nat)
  | 0, v, _ => some (some v)
  | _ + 1, _, [] => none
  | i + 1, v, c :: p =>
    match hexdigit c with
    | none => some none
    | some d => parseHex i (v * 16 + d) p

def align4 (n : Nat) : Nat := (n + 3) / 4 * 4

/-- `memcmp(p, s, n) == 0` for a constant `s` of `n` bytes. -/
def memcmpEq : List Nat → List Nat → Option Bool
  | _, [] => some true
  | [], _ :: _ => none
  | x :: p, c :: s => if x = c then memcmpEq p s else some false

/-- `strcmp(p, s) == 0` for a string `s`, without its NUL. -/
def strcmpEq : List Nat → List Nat → Option Bool
  | [], _ => none
  | x :: _, [] => some (x = 0)
  | x :: p, c :: s => if x ≠ 0 ∧ x = c then strcmpEq p s else some (x = c)

/-- What the loop does with an entry. -/
inductive Step
  | fail (e : Vfs.Errno)
  | found (data size : Nat)
  | next (off : Nat)

section Program

variable (a path : List Nat)

def isTrailer (off namesize : Nat) : Option Bool :=
  if namesize = 11 then memcmpEq (a.drop off) trailerName else some false

def isNamed (off namesize : Nat) : Option Bool :=
  if namesize > 1 then strcmpEq (a.drop off) path else some false

/-- The body of the loop. -/
def visit (off : Nat) : Option Step := do
  if (← memcmpEq (a.drop off) cpioMagic) = false then return .fail .EINVAL
  let some namesize ← parseHex 8 0 (a.drop (off + 94)) | return .fail .EINVAL
  let some filesize ← parseHex 8 0 (a.drop (off + 54)) | return .fail .EINVAL
  let nameOff := off + 110
  if nameOff + namesize > a.length then return .fail .EINVAL
  if ← isTrailer a nameOff namesize then return .fail .ENOENT
  let dataOff := align4 (nameOff + namesize)
  if dataOff + filesize > a.length then return .fail .EINVAL
  if ← isNamed a path nameOff namesize then return .found dataOff filesize
  return .next (align4 (dataOff + filesize))

def findLoop : Nat → Nat → Option (Except Vfs.Errno (Nat × Nat))
  | 0, _ => none
  | fuel + 1, off =>
    if off + 110 ≤ a.length then
      match visit a path off with
      | none => none
      | some (.fail e) => some (.error e)
      | some (.found data size) => some (.ok (data, size))
      | some (.next off) => findLoop fuel off
    else some (.error .ENOENT)

/-- There is an archive once `g_ready` is set. `NULL` is `none` for the path. -/
def initrdFind (fuel : Nat) (archive path : Option (List Nat)) :
    Option (Except Vfs.Errno (Nat × Nat)) :=
  match archive, path with
  | none, _ => some (.error .ENOENT)
  | some _, none => some (.error .EINVAL)
  | some a, some path => if path = [] then some (.error .EINVAL) else findLoop a path fuel 0

end Program

/-! ## The entries of an archive -/

/-- At `off` stands an entry with `n` bytes of name and `f` bytes of body, all of them in
the archive, that is not the trailer. -/
structure Entry (a : List Nat) (off n f : Nat) : Prop where
  header : off + 110 ≤ a.length
  magic : memcmpEq (a.drop off) cpioMagic = some true
  namesize : parseHex 8 0 (a.drop (off + 94)) = some (some n)
  filesize : parseHex 8 0 (a.drop (off + 54)) = some (some f)
  name : off + 110 + n ≤ a.length
  body : align4 (off + 110 + n) + f ≤ a.length
  more : isTrailer a (off + 110) n = some false

/-- The offsets of the first entries, up to one that has the path as its name. -/
inductive Visited (a path : List Nat) : Nat → Prop
  | first : Visited a path 0
  | next {off n f : Nat} : Visited a path off → Entry a off n f →
      isNamed a path (off + 110) n ≠ some true →
      Visited a path (align4 (align4 (off + 110 + n) + f))

variable {a path p s : List Nat} {off n f : Nat}

theorem memcmpEq_isSome (h : s.length ≤ p.length) : ∃ b, memcmpEq p s = some b := by
  fun_induction memcmpEq p s <;> simp_all

theorem parseHex_isSome {i v : Nat} (h : i ≤ p.length) : ∃ r, parseHex i v p = some r := by
  fun_induction parseHex i v p <;> simp_all

theorem strcmpEq_none_iff (hs : 0 ∉ s) : strcmpEq p s = none ↔ p <+: s := by
  fun_induction strcmpEq p s <;> simp_all
  grind

theorem isNamed_none_iff (hpath : 0 ∉ path) :
    isNamed a path off n = none ↔ 1 < n ∧ a.drop off <+: path := by
  unfold isNamed
  split
  next hn => simp [strcmpEq_none_iff hpath, hn]
  next hn => exact iff_of_false nofun fun h => hn h.1

theorem visit_entry (h : Entry a off n f) :
    visit a path off = (isNamed a path (off + 110) n).map fun same =>
      if same then .found (align4 (off + 110 + n)) f
      else .next (align4 (align4 (off + 110 + n) + f)) := by
  simp only [visit, h.magic, h.namesize, h.filesize, h.more, Nat.not_lt.mpr h.name,
    Nat.not_lt.mpr h.body, Option.bind_eq_bind, Option.bind_some, if_false, gt_iff_lt]
  cases isNamed a path (off + 110) n with
  | none => rfl
  | some same => cases same <;> rfl

theorem visit_other (hoff : off + 110 ≤ a.length) (h : ∀ n f, ¬ Entry a off n f) :
    ∃ e, visit a path off = some (.fail e) := by
  have hlen (k : Nat) : (a.drop (off + k)).length = a.length - (off + k) := List.length_drop
  obtain ⟨b, hmagic⟩ := memcmpEq_isSome (p := a.drop off) (s := cpioMagic) (by simp [cpioMagic]; omega)
  obtain ⟨rn, hn⟩ := parseHex_isSome (p := a.drop (off + 94)) (i := 8) (v := 0) (by rw [hlen]; omega)
  obtain ⟨rf, hf⟩ := parseHex_isSome (p := a.drop (off + 54)) (i := 8) (v := 0) (by rw [hlen]; omega)
  simp only [visit, hmagic, hn, hf, Option.bind_eq_bind, Option.bind_some]
  rcases b with _ | _
  · exact ⟨_, rfl⟩
  rcases rn with _ | n
  · exact ⟨_, rfl⟩
  rcases rf with _ | f
  · exact ⟨_, rfl⟩
  by_cases hname : off + 110 + n > a.length
  · exact ⟨_, if_pos hname⟩
  have htrailer : ∃ b, isTrailer a (off + 110) n = some b := by
    unfold isTrailer
    split
    · exact memcmpEq_isSome (by simp [trailerName]; omega)
    · exact ⟨_, rfl⟩
  obtain ⟨b, htrailer⟩ := htrailer
  simp only [hname, htrailer, if_false, Option.bind_some]
  rcases b with _ | _
  · have hbody : align4 (off + 110 + n) + f > a.length := Nat.lt_of_not_le fun hle =>
      h n f ⟨hoff, hmagic, hn, hf, Nat.le_of_not_lt hname, hle, htrailer⟩
    exact ⟨_, if_pos hbody⟩
  · exact ⟨_, rfl⟩

theorem lt_next (off n f : Nat) : off < align4 (align4 (off + 110 + n) + f) := by
  unfold align4
  omega

/-- From any offset the walk goes on from, it ends, unless a comparison of a name with the
path runs over the end of the archive. -/
theorem findLoop_some {fuel : Nat} (hv : Visited a path off) (hpos : 0 < fuel)
    (hfuel : a.length < off + fuel)
    (h : ∀ off n f, Visited a path off → Entry a off n f → isNamed a path (off + 110) n ≠ none) :
    ∃ r, findLoop a path fuel off = some r ∧ ∀ d n, r = .ok (d, n) → d + n ≤ a.length := by
  induction fuel generalizing off with
  | zero => omega
  | succ fuel ih =>
    rw [findLoop]
    split
    next hoff =>
      by_cases hentry : ∃ n f, Entry a off n f
      · obtain ⟨n, f, hentry⟩ := hentry
        rw [visit_entry hentry]
        cases hnamed : isNamed a path (off + 110) n with
        | none => exact absurd hnamed (h off n f hv hentry)
        | some same =>
          cases same with
          | true =>
            refine ⟨_, rfl, fun d k hok => ?_⟩
            cases hok
            exact hentry.body
          | false =>
            have := lt_next off n f
            exact ih (hv.next hentry (by simp [hnamed])) (by omega) (by omega)
      · obtain ⟨e, he⟩ := visit_other hoff fun n f he => hentry ⟨n, f, he⟩
        rw [he]
        exact ⟨_, rfl, nofun⟩
    · exact ⟨_, rfl, nofun⟩

/-- Where there is an answer, the walk has come to every visited entry, and compared it. -/
theorem Visited.reached {r : Except Vfs.Errno (Nat × Nat)} (hv : Visited a path off)
    (h : ∃ fuel, findLoop a path fuel 0 = some r) : ∃ fuel, findLoop a path fuel off = some r := by
  induction hv with
  | first => exact h
  | next hv hentry hnamed ih =>
    obtain ⟨fuel, hr⟩ := ih
    cases fuel with
    | zero => cases hr
    | succ fuel =>
      rw [findLoop, if_pos hentry.header, visit_entry hentry] at hr
      revert hr hnamed
      rcases isNamed a path _ _ with _ | _ | _
      · exact fun _ => nofun
      · exact fun _ hr => ⟨fuel, hr⟩
      · exact fun hnamed => absurd rfl hnamed

/-- **The lookup is safe** for exactly those archives in which no entry it comes to has a
name that agrees with the path up to the last byte of the archive. -/
theorem initrdFind_safe_iff (a path : List Nat) (hpath : 0 ∉ path) :
    (∃ fuel r, initrdFind fuel (some a) (some path) = some r ∧
      ∀ d n, r = .ok (d, n) → d + n ≤ a.length) ↔
    ∀ off n f, Visited a path off → Entry a off n f → 1 < n → ¬ a.drop (off + 110) <+: path := by
  by_cases hempty : path = []
  · subst hempty
    refine iff_of_true ⟨0, _, rfl, nofun⟩ fun off n f _ hentry hn hprefix => ?_
    have := List.drop_eq_nil_iff.mp (List.prefix_nil.mp hprefix)
    have := hentry.name
    omega
  have hrun (fuel : Nat) : initrdFind fuel (some a) (some path) = findLoop a path fuel 0 :=
    if_neg hempty
  simp only [hrun]
  constructor
  · rintro ⟨fuel, r, hr, -⟩ off n f hv hentry hn hprefix
    obtain ⟨k, hk⟩ := hv.reached ⟨fuel, hr⟩
    cases k with
    | zero => cases hk
    | succ k =>
      rw [findLoop, if_pos hentry.header, visit_entry hentry,
        (isNamed_none_iff hpath).mpr ⟨hn, hprefix⟩] at hk
      cases hk
  · intro h
    obtain ⟨r, hr⟩ := findLoop_some .first (Nat.succ_pos a.length) (by omega)
      fun off n f hv hentry hnone =>
        h off n f hv hentry ((isNamed_none_iff hpath).mp hnone).1 ((isNamed_none_iff hpath).mp hnone).2
    exact ⟨_, r, hr⟩

/-- One entry without a body, whose name `in` lacks its NUL and ends the archive. -/
def unterminated : List Nat :=
  cpioMagic ++ List.replicate 95 0x30 ++ [0x32] ++ List.replicate 8 0x30 ++ [0x69, 0x6E]

/-- Looking for `a` in it. -/
theorem initrdFind_safe_other : ∃ fuel r, initrdFind fuel (some unterminated) (some [0x61]) = some r ∧
    ∀ d n, r = .ok (d, n) → d + n ≤ unterminated.length := by
  refine (initrdFind_safe_iff unterminated [0x61] (by decide)).mpr fun off n f _ hentry hn => ?_
  obtain rfl : off = 0 := by
    have : off + 110 + n ≤ 112 := hentry.name
    omega
  decide

/-- Looking for `init` in it. -/
theorem initrdFind_reads_past_end :
    ¬ ∃ fuel r, initrdFind fuel (some unterminated) (some [0x69, 0x6E, 0x69, 0x74]) = some r := by
  rintro ⟨_ | fuel, r, hr⟩ <;> cases hr

end Exyde.Libc.Initrd
