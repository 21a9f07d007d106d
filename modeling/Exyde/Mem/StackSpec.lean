import Exyde.Mem.LoadSpec

/-! # The first stack of a process

`map_user_stack` maps four pages below the top of the stack; `exec_build_initial_stack`
writes the strings right below the top and, below the next 16-byte boundary, the frame
of pointers to them. -/

namespace Exyde.Mem

open List
open Exyde.Lib (Prog Lockstep)

variable {s s' s0 : State} {r : Nat} {space : Space} {N : Nat → Prop} {img : Image}

/-! ## Mapping the stack -/

def StackPages (a : Nat) : Prop :=
  userStackTopInit - execStackPages * 4096 ≤ a ∧ a < userStackTopInit

theorem mapUserStack_spec (h : Layout s) (hs : s.space r = some space) (hr : r ≠ 0) :
    Lockstep Twin (mapUserStack r userStackTopInit execStackPages) s fun ok s' => Layout s' ∧
      s'.space = s.space ∧ s'.cr3 = s.cr3 ∧
      (ok = true → Filled s r StackPages (fun _ => none) s') := by
  have hsub : ∀ i < execStackPages,
      sub64 userStackTopInit ((i + 1) * 4096) = userStackTopInit - (i + 1) * 4096 := by decide
  have htop : userStackTopInit = 0x8001000000 := rfl
  have huser : ∀ i < execStackPages, sub64 userStackTopInit ((i + 1) * 4096) < 2 ^ 48 := by decide
  have hloop := mapLoop_spec h hs (fun i hi => .user hr (huser i hi)) vmUserPage
  refine .bind (hloop.mono fun m s' ⟨h', hb, _, hm⟩ => .pure ⟨h', hb.space, hb.cr3, fun hk => ?_⟩)
  have hmn := of_decide_eq_true hk
  rcases hm with ⟨_, hmaps⟩ | hlt
  · have hset : (fun a => False ∨ ∃ i < execStackPages,
        a / 4096 = sub64 userStackTopInit ((i + 1) * 4096) / 4096) = StackPages := by
      funext a
      apply propext
      unfold StackPages
      constructor
      · intro ha
        obtain ⟨i, hi, hpg⟩ := ha.resolve_left id
        rw [hsub i hi] at hpg
        omega
      · intro ⟨hlo, hhi⟩
        refine .inr ⟨(userStackTopInit - 1 - a) / 4096, by omega, ?_⟩
        rw [hsub _ (by omega)]
        omega
    rw [← hset]
    exact (Filled.refl s r).maps h' hb hmaps huser
  · omega

/-! ## Pushing -/

/-- A push that succeeds moves `rsp` down by what it writes: a wrapped address
is not in the user window. -/
theorem pushBytes_spec (h : Active s r space) (hF : Filled s0 r N img s) (rsp : Nat) {bs : List Byte}
    (hrsp : rsp < 2 ^ 64) (hne : bs ≠ []) (hlen : bs.length < 2 ^ 64) :
    Lockstep Twin (pushBytes r rsp bs) s fun out s' => Active s' r space ∧
      ∀ rsp', out = some rsp' → rsp' + bs.length = rsp ∧ Filled s0 r N (img.write rsp' bs) s' := by
  have hpos : 0 < bs.length := length_pos_iff.mpr hne
  have hval : sub64 rsp bs.length = (rsp + 2 ^ 64 - bs.length) % 2 ^ 64 := by
    unfold sub64
    rw [Nat.mod_eq_of_lt hlen]
  have hcopy := h.copy hF (sub64 rsp bs.length) hlen (by omega)
  refine .bind (hcopy.mono fun ok s' ⟨h', hok⟩ => .ite (fun hk => .pure ⟨h', ?_⟩) fun _ =>
    .pure ⟨h', fun _ hno => by cases hno⟩)
  intro rsp' hout
  cases hout
  obtain ⟨hF', huser⟩ := hok hk
  -- the last byte is at a user address
  have hlast := (huser (sub64 rsp bs.length + bs.length - 1) (by omega) (by omega)).2
  exact ⟨by omega, hF'⟩

def stringBytes (strs : List CString) : List Byte := strs.flatMap CString.bytes

def stringVas : Nat → List CString → List Nat
  | _, [] => []
  | va, str :: rest => va :: stringVas (va + str.bytes.length) rest

@[simp] theorem stringVas_length (va : Nat) (strs : List CString) :
    (stringVas va strs).length = strs.length := by
  induction strs generalizing va with
  | nil => rfl
  | cons str rest ih => exact congrArg Nat.succ (ih _)

theorem CString.bytes_length (c : CString) : 0 < c.bytes.length ∧ c.bytes.length < 2 ^ 64 := by
  have := c.property.2
  simp only [CString.bytes, length_append, length_singleton]
  omega

theorem pushStrings_spec (strs : List CString) (rsp : Nat) (h : Active s r space)
    (hF : Filled s0 r N img s) (hrsp : rsp < 2 ^ 64) :
    Lockstep Twin (pushStrings r rsp strs) s fun out s' => Active s' r space ∧
      ∀ rsp' vas, out = some (rsp', vas) → rsp' + (stringBytes strs).length = rsp ∧
        vas = stringVas rsp' strs ∧ Filled s0 r N (img.write rsp' (stringBytes strs)) s' := by
  induction strs generalizing s with
  | nil =>
    refine .pure ⟨h, fun rsp' vas hout => ?_⟩
    cases hout
    refine ⟨rfl, rfl, ?_⟩
    rw [show stringBytes [] = [] from rfl, Image.write_nil]
    exact hF
  | cons str rest ih =>
    refine .bind ((ih h hF).mono fun out s1 ⟨h₁, hout1⟩ => ?_)
    cases out with
    | none => exact .pure ⟨h₁, fun _ _ hno => by cases hno⟩
    | some out =>
      obtain ⟨rsp1, vas⟩ := out
      obtain ⟨hsum, hvas, hF1⟩ := hout1 rsp1 vas rfl
      have hbytes := str.bytes_length
      refine .bind ((pushBytes_spec h₁ hF1 rsp1 (by omega)
        (length_pos_iff.mp hbytes.1) hbytes.2).mono fun out s2 ⟨h₂, hout2⟩ => ?_)
      cases out with
      | none => exact .pure ⟨h₂, fun _ _ hno => by cases hno⟩
      | some rsp2 =>
        obtain ⟨hdown, hF2⟩ := hout2 rsp2 rfl
        refine .pure ⟨h₂, fun rsp' vas' hout => ?_⟩
        cases hout
        have happ : stringBytes (str :: rest) = str.bytes ++ stringBytes rest := rfl
        rw [happ, length_append, ← Image.write_append_down, hdown]
        exact ⟨by omega, by rw [hvas, stringVas, hdown], hF2⟩

def wordBytes (ws : List Nat) : List Byte := ws.flatMap u64Bytes

@[simp] theorem wordBytes_length (ws : List Nat) : (wordBytes ws).length = 8 * ws.length := by
  induction ws with
  | nil => rfl
  | cons w ws ih =>
    rw [show wordBytes (w :: ws) = u64Bytes w ++ wordBytes ws from rfl, length_append, ih,
      length_cons]
    simp only [u64Bytes, length_map, length_range]
    omega

theorem pushWords_spec (ws : List Nat) (rsp : Nat) (h : Active s r space)
    (hF : Filled s0 r N img s) (hrsp : rsp < 2 ^ 64) :
    Lockstep Twin (pushWords r rsp ws) s fun out s' => Active s' r space ∧
      ∀ rsp', out = some rsp' → rsp' + 8 * ws.length = rsp ∧
        Filled s0 r N (img.write rsp' (wordBytes ws)) s' := by
  induction ws generalizing s with
  | nil =>
    refine .pure ⟨h, fun rsp' hout => ?_⟩
    cases hout
    refine ⟨rfl, ?_⟩
    rw [show wordBytes [] = [] from rfl, Image.write_nil]
    exact hF
  | cons w ws ih =>
    refine .bind ((ih h hF).mono fun out s1 ⟨h₁, hout1⟩ => ?_)
    cases out with
    | none => exact .pure ⟨h₁, fun _ hno => by cases hno⟩
    | some rsp1 =>
      obtain ⟨hsum, hF1⟩ := hout1 rsp1 rfl
      have hlen : (u64Bytes w).length = 8 := by simp [u64Bytes]
      have hpush := pushBytes_spec h₁ hF1 rsp1 (by omega)
        (length_pos_iff.mp (by omega)) (by omega : (u64Bytes w).length < 2 ^ 64)
      refine hpush.mono fun out s2 ⟨h₂, hout2⟩ => ⟨h₂, fun rsp' hout => ?_⟩
      obtain ⟨hdown, hF2⟩ := hout2 rsp' hout
      have happ : wordBytes (w :: ws) = u64Bytes w ++ wordBytes ws := rfl
      rw [happ, ← Image.write_append_down, hdown, length_cons]
      exact ⟨by omega, hF2⟩

/-! ## The frame -/

def frameStrings (argv envp : List CString) : List Byte := stringBytes argv ++ stringBytes envp

def frameSize (argv envp : List CString) : Nat :=
  argv.length + envp.length + 3 + (argv.length + envp.length + 3) % 2

/-- Where the strings start, and where the words end. -/
def stringBase (top : Nat) (argv envp : List CString) : Nat :=
  top - (frameStrings argv envp).length

/-- The words of the frame below `top`. -/
def stackWords (top : Nat) (argv envp : List CString) : List Nat :=
  frameWords (stringVas (stringBase top argv envp) argv)
    (stringVas (stringBase top argv envp + (stringBytes argv).length) envp)

def stackImage (top : Nat) (argv envp : List CString) (img : Image) : Image :=
  (img.write (stringBase top argv envp) (frameStrings argv envp)).write
    (stringBase top argv envp / 16 * 16 - 8 * frameSize argv envp)
    (wordBytes (stackWords top argv envp))

theorem stackWords_length (top : Nat) (argv envp : List CString) :
    (stackWords top argv envp).length = frameSize argv envp := by
  unfold stackWords frameWords frameSize
  rw [stringVas_length, stringVas_length]
  by_cases hodd : (argv.length + envp.length + 3) % 2 = 1
  · rw [if_pos hodd]
    simp only [length_append, stringVas_length, length_cons, length_nil]
    omega
  · rw [if_neg hodd]
    simp only [length_append, stringVas_length, length_cons, length_nil]
    omega

def FrameFits (top : Nat) (argv envp : List CString) : Prop :=
  (frameStrings argv envp).length ≤ top ∧
    8 * frameSize argv envp ≤ stringBase top argv envp / 16 * 16

theorem pushFrame_spec {top : Nat} (argv envp : List CString) (h : Active s r space)
    (hF : Filled s0 r N img s) (htop : top < 2 ^ 64) :
    Lockstep Twin (pushFrame r top argv envp) s fun rsp s' => Active s' r space ∧
      (rsp ≠ 0 → FrameFits top argv envp ∧ Filled s0 r N (stackImage top argv envp img) s') := by
  refine .bind ((pushStrings_spec envp top h hF htop).mono fun out s1 ⟨h₁, hout1⟩ => ?_)
  cases out with
  | none => exact .pure ⟨h₁, fun hno => absurd rfl hno⟩
  | some out =>
    obtain ⟨rsp1, envpVa⟩ := out
    obtain ⟨hsum1, hvas1, hF1⟩ := hout1 _ _ rfl
    refine .bind ((pushStrings_spec argv rsp1 h₁ hF1 (by omega)).mono
      fun out s2 ⟨h₂, hout2⟩ => ?_)
    cases out with
    | none => exact .pure ⟨h₂, fun hno => absurd rfl hno⟩
    | some out =>
      obtain ⟨rsp2, argvVa⟩ := out
      obtain ⟨hsum2, hvas2, hF2⟩ := hout2 _ _ rfl
      rw [← hsum2, Image.write_append_down] at hF2
      have hall : (frameStrings argv envp).length =
          (stringBytes argv).length + (stringBytes envp).length := length_append
      have hbase : stringBase top argv envp = rsp2 := by unfold stringBase; omega
      have hwords : frameWords argvVa envpVa = stackWords top argv envp := by
        rw [stackWords, hbase, hvas2, hvas1, hsum2]
      refine .bind ((pushWords_spec _ (rsp2 / 16 * 16) h₂ hF2 (by omega)).mono
        fun out s3 ⟨h3, hout3⟩ => ?_)
      cases out with
      | none => exact .pure ⟨h3, fun hno => absurd rfl hno⟩
      | some rsp3 =>
        obtain ⟨hsum3, hF3⟩ := hout3 _ rfl
        rw [hwords] at hsum3 hF3
        rw [stackWords_length] at hsum3
        refine .pure ⟨h3, fun _ => ⟨⟨by omega, by rw [hbase]; omega⟩, ?_⟩⟩
        unfold stackImage
        rwa [hbase, show rsp2 / 16 * 16 - 8 * frameSize argv envp = rsp3 by omega]

/-- **`exec_build_initial_stack`** keeps the layout; where it succeeds it has
written the frame and its strings. -/
theorem execBuildInitialStack_spec {cur top : Nat} (argv envp : List CString) (h : Layout s)
    (hs : s.space r = some space) (hr : r ≠ 0) (hcur : cur = r → s.cr3 = space.pml4)
    (hF : Filled s0 r N img s) (htop : top < 2 ^ 64) :
    Lockstep Twin (execBuildInitialStack cur r top argv envp) s fun rsp s' => Layout s' ∧
      (rsp ≠ 0 → FrameFits top argv envp ∧ Filled s0 r N (stackImage top argv envp img) s') := by
  refine .ite (fun _ => .pure ⟨h, fun hno => absurd rfl hno⟩) fun _ => ?_
  refine .bind ((enter_spec h hs hr hcur hF).mono fun _ s1 ⟨h₁, hF1⟩ => ?_)
  refine .bind ((pushFrame_spec argv envp h₁ hF1 htop).mono fun rsp s2 ⟨h₂, hout⟩ => ?_)
  refine .bind ((leave_spec _ cur).mono fun _ s3 ⟨a, hs3⟩ => .pure ?_)
  subst hs3
  exact ⟨h₂.layout.setCr3 a, fun hne => ⟨(hout hne).1, (hout hne).2.setCr3 a⟩⟩

/-- The strings and the frame reach down to the lowest stack page, without a gap. -/
def StackWhole (argv envp : List CString) : Prop :=
  execStackPages * 4096 ≤ (frameStrings argv envp).length ∨
    (frameStrings argv envp).length % 16 = 0 ∧
      execStackPages * 4096 ≤ (frameStrings argv envp).length + 8 * frameSize argv envp
  deriving Decidable

/-- Every byte of the stack pages was written exactly if `StackWhole`. -/
theorem covered_stack {argv envp : List CString} (hfit : FrameFits userStackTopInit argv envp) :
    Covered StackPages (stackImage userStackTopInit argv envp fun _ => none) ↔
      StackWhole argv envp := by
  obtain ⟨hfit1, hfit2⟩ := hfit
  have htop : userStackTopInit = 0x8001000000 := rfl
  have hpages : execStackPages = 4 := rfl
  have hlow : userVaBase = 0x8000000000 := rfl
  have hbase : stringBase userStackTopInit argv envp =
    userStackTopInit - (frameStrings argv envp).length := rfl
  have hwritten : ∀ a, stackImage userStackTopInit argv envp (fun _ => none) a ≠ none ↔
      (stringBase userStackTopInit argv envp / 16 * 16 - 8 * frameSize argv envp ≤ a ∧
        a < stringBase userStackTopInit argv envp / 16 * 16) ∨
      (stringBase userStackTopInit argv envp ≤ a ∧ a < userStackTopInit) := by
    intro a
    simp only [stackImage, Image.write, wordBytes_length, stackWords_length]
    split
    · exact ⟨fun _ => .inl (by omega), fun _ => by simp⟩
    · split
      · exact ⟨fun _ => .inr (by omega), fun _ => by simp⟩
      · exact ⟨fun hno => absurd rfl hno, fun _ => by omega⟩
  have hcov : Covered StackPages (stackImage userStackTopInit argv envp fun _ => none) ↔
      ∀ a, StackPages a → stackImage userStackTopInit argv envp (fun _ => none) a ≠ none := by
    refine ⟨fun hc a ha => hc a ?_ ha, fun hc a _ ha => hc a ha⟩
    unfold StackPages at ha
    exact ⟨by omega, by omega⟩
  rw [hcov]
  simp only [hwritten]
  unfold StackPages StackWhole
  constructor
  · intro hc
    -- the lowest byte of the pages, and the byte right below the strings
    have h1 := hc (userStackTopInit - execStackPages * 4096) (by omega)
    by_cases hbig : execStackPages * 4096 ≤ (frameStrings argv envp).length
    · exact .inl hbig
    · have h2 := hc (stringBase userStackTopInit argv envp - 1) (by omega)
      exact .inr ⟨by omega, by omega⟩
  · intro hw a ha
    omega

end Exyde.Mem
