import Exyde.Libc.Initrd

/-! # newc archives

What `initrd_find` makes of an archive of any files. -/

namespace Exyde.Libc.Initrd

open List

def hexChar (upper : Bool) (d : Nat) : Nat :=
  if d < 10 then 0x30 + d else if upper then 0x37 + d else 0x57 + d

/-- The last `k` hexadecimal digits of `n`. -/
def hexChars (upper : Bool) : Nat → Nat → List Nat
  | 0, _ => []
  | k + 1, n => hexChars upper k (n / 16) ++ [hexChar upper (n % 16)]

/-- A file to be archived. The header fields that `initrd_find` does not read are any
characters: those before the size, those between the sizes, and the checksum. -/
structure File where
  upper : Bool
  before : List Nat
  between : List Nat
  check : List Nat
  name : List Nat
  body : List Nat
  before_length : before.length = 48
  between_length : between.length = 32
  check_length : check.length = 8
  name_terminates : 0 ∉ name
  name_ne_nil : name ≠ []
  name_fits : name.length + 1 < 2 ^ 32
  body_fits : body.length < 2 ^ 32

def File.header (f : File) : List Nat :=
  cpioMagic ++ f.before ++ hexChars f.upper 8 f.body.length ++ f.between ++
    hexChars f.upper 8 (f.name.length + 1) ++ f.check

/-- The zeros behind `n` bytes. -/
def padding (n : Nat) : List Nat := replicate (align4 n - n) 0

def File.bytes (f : File) : List Nat :=
  f.header ++ (f.name ++ 0 :: padding (110 + (f.name.length + 1))) ++ (f.body ++ padding f.body.length)

/-- The entries of the files and of the trailer. -/
def archive (files : List File) (trailer : File) : List Nat := (files ++ [trailer]).flatMap File.bytes

theorem hexChars_length (upper : Bool) (k n : Nat) : (hexChars upper k n).length = k := by
  induction k generalizing n with
  | zero => rfl
  | succ k ih => simp [hexChars, ih]

theorem hexdigit_hexChar (upper : Bool) {d : Nat} (h : d < 16) :
    hexdigit (hexChar upper d) = some d := by
  revert d
  cases upper <;> decide

theorem parseHex_hexChars (upper : Bool) {k n : Nat} (h : n < 16 ^ k) (j v : Nat) (p : List Nat) :
    parseHex (j + k) v (hexChars upper k n ++ p) = parseHex j (v * 16 ^ k + n) p := by
  induction k generalizing n j p with
  | zero => simp_all [hexChars]
  | succ k ih =>
    rw [Nat.pow_succ] at h ⊢
    rw [hexChars, append_assoc, ← Nat.add_assoc, Nat.add_right_comm, ih (by omega), singleton_append,
      parseHex, hexdigit_hexChar upper (Nat.mod_lt _ (by decide))]
    simp only
    congr 1
    rw [Nat.add_mul, Nat.mul_assoc, Nat.add_assoc, Nat.div_add_mod']

theorem parseHex_eight (upper : Bool) {n : Nat} (h : n < 2 ^ 32) (p : List Nat) :
    parseHex 8 0 (hexChars upper 8 n ++ p) = some (some n) := by
  rw [parseHex_hexChars upper (k := 8) h 0 0 p, parseHex, Nat.zero_mul, Nat.zero_add]

theorem memcmpEq_append {l s : List Nat} (h : l.length = s.length) (p : List Nat) :
    memcmpEq (l ++ p) s = some (decide (l = s)) := by
  induction l generalizing s <;> cases s <;> simp_all [memcmpEq]
  grind

theorem strcmpEq_append {l s : List Nat} (hl : 0 ∉ l) (hs : 0 ∉ s) (p : List Nat) :
    strcmpEq (l ++ 0 :: p) s = some (decide (l = s)) := by
  induction l generalizing s <;> cases s <;> simp_all [strcmpEq]
  · grind
  · grind

theorem align4_add {m : Nat} (h : m % 4 = 0) (n : Nat) : align4 (m + n) = m + align4 n := by
  unfold align4
  omega

theorem length_add_padding (n : Nat) : n + (padding n).length = align4 n := by
  rw [padding, length_replicate]
  unfold align4
  omega

theorem le_align4 (n : Nat) : n ≤ align4 n := by
  unfold align4; omega

theorem File.header_length (f : File) : f.header.length = 110 := by
  simp [header, cpioMagic, hexChars_length, f.before_length, f.between_length, f.check_length]

theorem File.bytes_length (f : File) :
    f.bytes.length = align4 (110 + (f.name.length + 1)) + align4 f.body.length := by
  rw [← length_add_padding, ← length_add_padding]
  simp only [bytes, length_append, length_cons, f.header_length]
  omega

section

variable {pre : List Nat} (f : File) (post path : List Nat)

/-- The parts of an entry are where the lookup expects them. -/
theorem File.reads (hpre : pre.length % 4 = 0) :
    let a := pre ++ (f.bytes ++ post)
    memcmpEq (a.drop pre.length) cpioMagic = some true ∧
    parseHex 8 0 (a.drop (pre.length + 94)) = some (some (f.name.length + 1)) ∧
    parseHex 8 0 (a.drop (pre.length + 54)) = some (some f.body.length) ∧
    (∃ p, a.drop (pre.length + 110) = f.name ++ 0 :: p) ∧
    (a.drop (align4 (pre.length + 110 + (f.name.length + 1)))).take f.body.length = f.body := by
  intro a
  have hsplit {y : List Nat} (x : List Nat) (k : Nat) (ha : a = x ++ y) (hk : x.length = k) :
      a.drop k = y := by rw [ha, drop_left' hk]
  refine ⟨?_, ?_, ?_, ⟨_, hsplit (pre ++ f.header) _ (by simp [a, bytes]; rfl) (by simp [f.header_length])⟩, ?_⟩
  · rw [hsplit pre _ (by simp only [a, bytes, header, append_assoc]; rfl) rfl, memcmpEq_append rfl]
    rfl
  · rw [hsplit (pre ++ (cpioMagic ++ (f.before ++ (hexChars f.upper 8 f.body.length ++ f.between)))) _
        (by simp only [a, bytes, header, append_assoc]; rfl)
        (by simp [cpioMagic, hexChars_length, f.before_length, f.between_length]),
      parseHex_eight f.upper f.name_fits]
  · rw [hsplit (pre ++ (cpioMagic ++ f.before)) _ (by simp only [a, bytes, header, append_assoc]; rfl)
        (by simp [cpioMagic, f.before_length]),
      parseHex_eight f.upper f.body_fits]
  · rw [hsplit (pre ++ (f.header ++ (f.name ++ 0 :: padding (110 + (f.name.length + 1))))) _
        (by simp only [a, bytes, append_assoc]; rfl) ?_, take_left' rfl]
    rw [Nat.add_assoc, align4_add hpre, ← length_add_padding]
    simp only [length_append, length_cons, f.header_length]
    omega

/-- **One round of the lookup**, on the entry of a file or of the trailer. -/
theorem File.visit_eq (hpre : pre.length % 4 = 0) (hpath : 0 ∉ path) :
    visit (pre ++ (f.bytes ++ post)) path pre.length =
      some (if f.name = trailerName then .fail .ENOENT
        else if f.name = path then
          .found (align4 (pre.length + 110 + (f.name.length + 1))) f.body.length
        else .next (pre ++ f.bytes).length) := by
  obtain ⟨hmagic, hn, hf, ⟨p, hname⟩, -⟩ := f.reads post hpre
  have hname1 := le_align4 (110 + (f.name.length + 1))
  have hbody1 := le_align4 f.body.length
  have hbytes := f.bytes_length
  have hlen : (pre ++ (f.bytes ++ post)).length = pre.length + (f.bytes.length + post.length) := by
    rw [length_append, length_append]
  have hend : align4 (pre.length + 110 + (f.name.length + 1)) =
      pre.length + align4 (110 + (f.name.length + 1)) := by
    rw [Nat.add_assoc, align4_add hpre]
  have hnext : align4 (pre.length + align4 (110 + (f.name.length + 1)) + f.body.length) =
      (pre ++ f.bytes).length := by
    rw [align4_add (by unfold align4; omega), length_append, hbytes, Nat.add_assoc]
  have htrailer : isTrailer (pre ++ (f.bytes ++ post)) (pre.length + 110) (f.name.length + 1) =
      some (decide (f.name = trailerName)) := by
    unfold isTrailer
    split
    next h => rw [hname, memcmpEq_append (Nat.succ.inj h)]
    next h => rw [decide_eq_false fun heq => h (by rw [heq]; rfl)]
  have hnamed : isNamed (pre ++ (f.bytes ++ post)) path (pre.length + 110) (f.name.length + 1) =
      some (decide (f.name = path)) := by
    have hpos := length_pos_iff.mpr f.name_ne_nil
    rw [isNamed, if_pos (by omega), hname, strcmpEq_append f.name_terminates hpath]
  have hnameFits : ¬pre.length + 110 + (f.name.length + 1) > (pre ++ (f.bytes ++ post)).length := by
    omega
  have hbodyFits : ¬pre.length + align4 (110 + (f.name.length + 1)) + f.body.length >
      (pre ++ (f.bytes ++ post)).length := by
    omega
  simp only [visit, hmagic, hn, hf, htrailer, hnamed, hend, hnext, if_neg hnameFits, if_neg hbodyFits,
    Option.bind_eq_bind, Option.bind_some, decide_eq_true_eq, Bool.true_eq_false, if_false]
  split_ifs <;> rfl

theorem findLoop_entry (hpre : pre.length % 4 = 0) (hpath : 0 ∉ path) (fuel : Nat) :
    findLoop (pre ++ (f.bytes ++ post)) path (fuel + 1) pre.length =
      if f.name = trailerName then some (.error .ENOENT)
      else if f.name = path then
        some (.ok (align4 (pre.length + 110 + (f.name.length + 1)), f.body.length))
      else findLoop (pre ++ (f.bytes ++ post)) path fuel (pre ++ f.bytes).length := by
  have hheader : pre.length + 110 ≤ (pre ++ (f.bytes ++ post)).length := by
    have hname := le_align4 (110 + (f.name.length + 1))
    rw [length_append, length_append, f.bytes_length]
    omega
  rw [findLoop, if_pos hheader, f.visit_eq post path hpre hpath]
  split_ifs <;> rfl

end

/-- What the answer of a lookup says of the files of the archive. -/
def Answers (a path : List Nat) (files : List File) : Except Vfs.Errno (Nat × Nat) → Prop
  | .error e => e = (if path = [] then .EINVAL else .ENOENT) ∧ files.find? (fun f => f.name = path) = none
  | .ok (d, n) => ∃ f, files.find? (fun f => f.name = path) = some f ∧
      n = f.body.length ∧ (a.drop d).take n = f.body

section

variable {files : List File} {trailer : File} {path : List Nat} (rest : List Nat) {fuel : Nat}
  (htrailer : trailer.name = trailerName) (hfiles : ∀ f ∈ files, f.name ≠ trailerName) (hpath : 0 ∉ path)
  (hfuel : files.length < fuel)
include htrailer hfiles hpath hfuel

theorem findLoop_files (hne : path ≠ []) (pre : List Nat) (hpre : pre.length % 4 = 0) :
    let a := pre ++ (archive files trailer ++ rest)
    ∃ r, findLoop a path fuel pre.length = some r ∧ Answers a path files r := by
  -- `pre` is what the lookup has walked over.
  induction files generalizing pre fuel with
  | nil =>
    obtain ⟨fuel, rfl⟩ := Nat.exists_eq_succ_of_ne_zero (Nat.ne_of_gt hfuel)
    refine ⟨.error .ENOENT, ?_, (if_neg hne).symm, rfl⟩
    simp only [archive, nil_append, flatMap_singleton]
    rw [findLoop_entry trailer rest path hpre hpath, if_pos htrailer]
  | cons f files ih =>
    obtain ⟨fuel, rfl⟩ := Nat.exists_eq_succ_of_ne_zero (Nat.ne_of_gt (Nat.zero_lt_of_lt hfuel))
    have hf := hfiles f mem_cons_self
    simp only [archive, cons_append, flatMap_cons, append_assoc, Answers, find?_cons]
    rw [findLoop_entry f _ path hpre hpath, if_neg hf]
    split_ifs with hname
    · refine ⟨_, rfl, f, ?_, rfl, (f.reads _ hpre).2.2.2.2⟩
      rw [decide_eq_true hname]
    have hnext : (pre ++ f.bytes).length % 4 = 0 := by
      rw [length_append, f.bytes_length]
      unfold align4
      omega
    obtain ⟨r, hr, hanswers⟩ := ih (fun g hg => hfiles g (mem_cons_of_mem f hg))
      (Nat.lt_of_succ_lt_succ hfuel) _ hnext
    refine ⟨r, ?_, ?_⟩
    · simpa [archive] using hr
    · simpa [archive, hname, hne, Answers] using hanswers

omit htrailer hfiles hpath hfuel in
theorem find_nil (hnil : path = []) : files.find? (fun f => f.name = path) = none :=
  find?_eq_none.mpr fun f _ => by simpa [hnil] using f.name_ne_nil

/-- **The lookup decodes the archive**: it answers with the body of the first file of that
name. When there is none, the error is `ENOENT`, or `EINVAL` for the empty path. -/
theorem initrdFind_decodes :
    ∃ r, initrdFind fuel (some (archive files trailer ++ rest)) (some path) = some r ∧
      Answers (archive files trailer ++ rest) path files r := by
  rw [initrdFind]
  split_ifs with hnil
  · exact ⟨_, rfl, (if_pos hnil).symm, find_nil hnil⟩
  · exact findLoop_files rest htrailer hfiles hpath hfuel hnil [] rfl

/-- `S_ISREG` of the mode, which is the second field of the header. -/
def File.regular (f : File) : Bool :=
  match parseHex 8 0 (f.before.drop 8) with
  | some (some mode) => mode &&& 0xF000 == 0x8000
  | _ => false

/-- The lookup does not read the mode. It finds only regular files in the archives where the
first entry of the name has the body of the first regular one. -/
theorem initrdFind_regular_iff :
    (∀ d n, initrdFind fuel (some (archive files trailer ++ rest)) (some path) = some (.ok (d, n)) →
      ∃ g, files.find? (fun g => g.regular ∧ g.name = path) = some g ∧ n = g.body.length ∧
        ((archive files trailer ++ rest).drop d).take n = g.body) ↔
    ∀ f, files.find? (fun f => f.name = path) = some f →
      ∃ g, files.find? (fun g => g.regular ∧ g.name = path) = some g ∧ g.body = f.body := by
  rw [initrdFind]
  split_ifs with hnil
  · simp [find_nil hnil]
  obtain ⟨r, hr, hanswers⟩ := findLoop_files rest htrailer hfiles hpath hfuel hnil [] rfl
  simp only [nil_append, length_nil] at hr hanswers
  rw [hr]
  cases r with
  | error e => simp [hanswers.2]
  | ok v =>
    obtain ⟨f, hf, hn, hbody⟩ := hanswers
    constructor
    · intro h f1 hf1
      obtain ⟨g, hg, -, hgbody⟩ := h v.1 v.2 rfl
      refine ⟨g, hg, ?_⟩
      rw [← hgbody, hbody]
      exact Option.some.inj (hf.symm.trans hf1) ▸ rfl
    · rintro h d n ⟨⟩
      obtain ⟨g, hg, hgbody⟩ := h f hf
      exact ⟨g, hg, hn.trans (by rw [hgbody]), hbody.trans hgbody.symm⟩

end

/-- The entry of an empty file, with this digit for the type in its mode. -/
def File.empty (kind : Nat) (name : List Nat) (hterm : 0 ∉ name) (hne : name ≠ [])
    (hfits : name.length + 1 < 2 ^ 32) : File where
  upper := true
  before := replicate 12 0x30 ++ kind :: replicate 35 0x30
  between := replicate 32 0x30
  check := replicate 8 0x30
  name := name
  body := []
  before_length := rfl
  between_length := rfl
  check_length := rfl
  name_terminates := hterm
  name_ne_nil := hne
  name_fits := hfits
  body_fits := by decide

def File.trailer : File := .empty 0x30 trailerName (by decide) (by decide) (by decide)

def File.a (kind : Nat) : File := .empty kind [0x61] (by decide) (by decide) (by decide)

theorem initrdFind_decodes_a :
    ∃ r, initrdFind 2 (some (archive [.a 0x38] .trailer ++ [])) (some [0x61]) = some r ∧
      Answers (archive [.a 0x38] .trailer ++ []) [0x61] [.a 0x38] r :=
  initrdFind_decodes [] rfl (by simp [File.a, File.empty, trailerName]) (by decide) (by decide)

theorem initrdFind_no_name :
    initrdFind 1 (some (archive [] .trailer)) (some []) = some (.error .EINVAL) := rfl

theorem initrdFind_regular_file :
    initrdFind 2 (some (archive [.a 0x38] .trailer ++ [])) (some [0x61]) = some (.ok (112, 0)) ∧
    ∀ d n, initrdFind 2 (some (archive [.a 0x38] .trailer ++ [])) (some [0x61]) = some (.ok (d, n)) →
      ∃ g, [File.a 0x38].find? (fun g => g.regular ∧ g.name = [0x61]) = some g ∧ n = g.body.length ∧
        ((archive [.a 0x38] .trailer ++ []).drop d).take n = g.body := by
  refine ⟨by decide +kernel, (initrdFind_regular_iff [] rfl ?_ (by decide) (by decide)).mpr ?_⟩
  · simp [File.a, File.empty, trailerName]
  · rintro f ⟨⟩
    exact ⟨_, rfl, rfl⟩

/-- A directory is found. -/
theorem initrdFind_directory :
    initrdFind 2 (some (archive [.a 0x34] .trailer)) (some [0x61]) = some (.ok (112, 0)) ∧
      (File.a 0x34).regular = false := by
  decide +kernel

end Exyde.Libc.Initrd
