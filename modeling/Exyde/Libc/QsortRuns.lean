import Exyde.Lib.Runs
import Exyde.Libc.QsortSplit

/-! # Runs of `qsort`

The main loop takes a range from the stack, sorts it or splits it, and pushes the two
parts. A range is done after at most as many rounds as it has elements. It is then in
order exactly if no split in it was wrong, and that is a function of the elements that
the range had before (`cleanSplits`). -/

namespace Exyde.Libc

open Exyde.Lib List Option
open Set (EqOn Icc)

variable {σ : Type} {v : Vec} {compar : Compar σ} {s s' : SortState σ}
  {l h y fuel rounds : Nat} {rest new rs : List (Nat × Nat)}
  {le : List (BitVec 8) → List (BitVec 8) → Prop}

/-! ## Pending ranges -/

def Vec.range (v : Vec) (r : Nat × Nat) : Nat × Nat := (v.ptr r.1, v.ptr r.2)

/-- The stack holds the ranges `rs`: they lie in the array and have no place in common. -/
structure Pending (v : Vec) (rs : List (Nat × Nat)) (s : SortState σ) : Prop where
  stack : s.stack = rs.map v.range
  valid : ∀ r ∈ rs, r.1 ≤ r.2 ∧ r.2 < v.nmemb
  apart : rs.Pairwise fun r q => r.2 < q.1 ∨ q.2 < r.1
  depth : rs.length ≤ stackMax

theorem Pending.rest_apart (hp : Pending v ((l, h) :: rest) s) : ∀ r ∈ rest, r.2 < l ∨ h < r.1 := by
  intro r hr
  have := (pairwise_cons.mp hp.apart).1 r hr
  omega

theorem Pending.replace (hp : Pending v ((l, h) :: rest) s)
    (hstack : s'.stack = (new ++ rest).map v.range)
    (hin : ∀ r ∈ new, l ≤ r.1 ∧ r.1 ≤ r.2 ∧ r.2 ≤ h)
    (hnew : new.Pairwise fun r q => r.2 < q.1 ∨ q.2 < r.1)
    (hdepth : (new ++ rest).length ≤ stackMax) : Pending v (new ++ rest) s' := by
  have hlh : h < v.nmemb := (hp.valid (l, h) mem_cons_self).2
  refine ⟨hstack, fun r hr => ?_, ?_, hdepth⟩
  · rcases mem_append.mp hr with hr | hr
    · have := hin r hr
      omega
    · exact hp.valid r (mem_cons_of_mem _ hr)
  · refine pairwise_append.mpr ⟨hnew, (pairwise_cons.mp hp.apart).2, fun r hr q hq => ?_⟩
    have h1 := hin r hr
    have h2 := hp.rest_apart q hq
    omega

/-! ## One round -/

/-- The ranges that a split at `y` leaves, the one pushed last first. -/
def halves (l h y : Nat) : List (Nat × Nat) :=
  (y + 1, h) :: if l < y then [(l, y - 1)] else []

theorem mem_halves {r : Nat × Nat} (hy : l ≤ y ∧ y < h) (hr : r ∈ halves l h y) :
    l ≤ r.1 ∧ r.1 ≤ r.2 ∧ r.2 ≤ h := by
  rcases mem_cons.mp hr with rfl | hr
  · omega
  · split at hr
    · rw [mem_singleton.mp hr]
      omega
    · exact absurd hr not_mem_nil

theorem halves_apart (l h y : Nat) : (halves l h y).Pairwise fun r q => r.2 < q.1 ∨ q.2 < r.1 := by
  rw [halves]
  split
  · apply pairwise_pair.mpr
    omega
  · simp

theorem halves_length (l h y : Nat) : (halves l h y).length ≤ 2 := by
  rw [halves]
  split <;> simp

theorem push_ends {r : Nat × Nat} {Q : Unit → SortState σ → Prop} (hroom : s.stack.length < stackMax)
    (hQ : Q () { s with stack := r :: s.stack }) : Trap.Ends (push r) s Q :=
  ⟨(), _, if_pos hroom, hQ⟩

theorem pushHalves_ends (hsize : 0 < v.size) (hy : l ≤ y ∧ y < h)
    (hroom : s.stack.length + 2 ≤ stackMax) :
    Trap.Ends (do
        pushIf (v.ptr y > v.ptr l) (v.ptr l, v.ptr y - v.size)
        pushIf (v.ptr y < v.ptr h) (v.ptr y + v.size, v.ptr h) : SortM σ Unit) s
      fun _ s' => s'.mem = s.mem ∧ s'.stack = (halves l h y).map v.range ++ s.stack := by
  have hlast : ∀ {s1 : SortState σ}, s1.stack.length < stackMax → s1.mem = s.mem →
      Trap.Ends (pushIf (v.ptr y < v.ptr h) (v.ptr y + v.size, v.ptr h)) s1 fun _ s' =>
        s'.mem = s.mem ∧ s'.stack = v.range (y + 1, h) :: s1.stack := by
    intro s1 hlen hmem
    rw [pushIf, if_pos ((Vec.ptr_lt_iff hsize).mpr hy.2), ← v.ptr_succ]
    exact push_ends hlen ⟨hmem, rfl⟩
  refine .bind (.ite (fun hgt => push_ends (by omega) ?_) fun hle => .pure ?_)
  · have hly : l < y := (Vec.ptr_lt_iff hsize).mp hgt
    rw [Vec.ptr_pred (by omega), halves, if_pos hly]
    exact hlast (by simp only [length_cons]; omega) rfl
  · rw [halves, if_neg (mt (Vec.ptr_lt_iff hsize).mpr hle)]
    exact hlast (by omega) rfl

/-- What a round does with the range `[l, h]` on top of the stack: it sorts the range, or it
splits it and leaves the halves. -/
inductive Round (v : Vec) (compar : Compar σ) (l h : Nat) (rest : List (Nat × Nat))
    (s s' : SortState σ) : Prop
  | sorted (pending : Pending v rest s')
      (order : Simulates v compar l h s fun le _ a =>
        AscendingOn le l h (v.elem s'.mem) ∧ cleanSplits le rest.length l h a = true)
  | split (y : Nat) (wide : l + 8 ≤ h) (room : ¬ stackMax < rest.length + 2)
      (bounds : l ≤ y ∧ y < h) (pending : Pending v (halves l h y ++ rest) s')
      (elems : Simulates v compar l h s fun le _ a =>
        ∃ b, split le l h a = (b, y) ∧ EqOn b (v.elem s'.mem) (Icc l h))

theorem Pending.pop (hp : Pending v ((l, h) :: rest) s) (hstack : s'.stack = rest.map v.range) :
    Pending v rest s' :=
  ⟨hstack, fun r hr => hp.valid r (mem_cons_of_mem _ hr), (pairwise_cons.mp hp.apart).2,
    Nat.le_of_succ_le hp.depth⟩

theorem sortRound_ends (compar : Compar σ) (hsize : 0 < v.size) (hfuel : v.nmemb < fuel)
    (hp : Pending v ((l, h) :: rest) s) :
    Trap.Ends (sortRound v compar fuel) s fun _ s' =>
      Permuted v l h s.mem s'.mem ∧ Round v compar l h rest s s' := by
  have hlh : l ≤ h := (hp.valid (l, h) mem_cons_self).1
  have hh : h < v.nmemb := (hp.valid (l, h) mem_cons_self).2
  let s0 : SortState σ := { s with stack := rest.map v.range }
  have hpop : pop s = some (v.range (l, h), s0) := by
    rw [pop, hp.stack]
    rfl
  refine .bind ⟨_, s0, hpop, ?_⟩
  simp only [Vec.range, Vec.ptr_dist hsize]
  refine .ite (fun hsmall => ?_) fun hlarge => ?_
  · refine (insertionSort_sorts hsize hh hlh hfuel).mono fun _ s' hs' => ⟨hs'.1.toPermuted, ?_⟩
    refine .sorted (hp.pop hs'.1.stack) fun le _ hle a ha => ⟨hs'.2 le hle, ?_⟩
    rw [cleanSplits, if_pos (by omega)]
  refine .bind ((splitRange_ends hsize (by omega) hh hfuel).mono fun i s1 hs1 => ?_)
  obtain ⟨y, rfl, hly, hyh, hmoved, hsplit⟩ := hs1
  have hlen : s1.stack.length = rest.length := by
    rw [hmoved.stack]
    exact length_map _
  refine .bind (.read rfl ?_)
  refine .ite (fun hfull => ?_) fun hroom => ?_
  · refine (insertionSort_sorts hsize hh hlh hfuel).mono fun _ s' hs' => ?_
    refine ⟨(hmoved.trans hs'.1).toPermuted, .sorted (hp.pop (hs'.1.stack.trans hmoved.stack))
      fun le _ hle a ha => ⟨hs'.2 le (hmoved.orders hh hle), ?_⟩⟩
    rw [cleanSplits, if_pos (by omega)]
  · refine (pushHalves_ends hsize ⟨hly, hyh⟩ (by omega)).mono fun _ s' hs' => ?_
    obtain ⟨hmem, hstack⟩ := hs'
    have hpending : Pending v (halves l h y ++ rest) s' := by
      refine hp.replace ?_ (fun r hr => mem_halves ⟨hly, hyh⟩ hr) (halves_apart l h y) ?_
      · rw [hstack, hmoved.stack, map_append]
      · have := halves_length l h y
        rw [length_append]
        omega
    rw [hmem]
    refine ⟨hmoved.toPermuted, .split y (by omega) (by omega) ⟨hly, hyh⟩ hpending ?_⟩
    rw [hmem]
    exact hsplit

/-! ## Whole runs -/

theorem sortLoop_succ (rounds : Nat) (s : SortState σ) : sortLoop v compar fuel (rounds + 1) s =
      if s.stack.length > 0 then
        (sortRound v compar fuel s).bind fun r => sortLoop v compar fuel rounds r.2
      else some ((), s) := by
  refine (Trap.read_bind (f := fun s : SortState σ => some s.stack.length) rfl _).trans ?_
  split
  · rfl
  · rfl

theorem sortLoop_round (hp : Pending v ((l, h) :: rest) s)
    (hround : sortRound v compar fuel s = some ((), s')) :
    sortLoop v compar fuel (rounds + 1) s = sortLoop v compar fuel rounds s' := by
  rw [sortLoop_succ, if_pos (by rw [hp.stack]; simp), hround]
  rfl

/-- **The loop is done with the range** on top of the stack after `k` rounds. -/
structure Done (v : Vec) (compar : Compar σ) (fuel l h : Nat) (rest : List (Nat × Nat))
    (s : SortState σ) (k : Nat) (s' : SortState σ) : Prop where
  steps : ∀ rounds, sortLoop v compar fuel (k + rounds) s = sortLoop v compar fuel rounds s'
  bound : k ≤ h - l + 1
  pending : Pending v rest s'
  permuted : Permuted v l h s.mem s'.mem
  order : Simulates v compar l h s fun le _ a =>
    (AscendingOn le l h (v.elem s'.mem) ↔ cleanSplits le rest.length l h a = true)

/-- After a split at `y`: the right half is done in `s2`, then the left one in `s'`. -/
theorem ascendingOn_halves {s1 s2 : SortState σ} {a b : Nat → List (BitVec 8)} (hy : l ≤ y ∧ y < h)
    (hh : h < v.nmemb) (hwide : l + 8 ≤ h) (hroom : ¬ stackMax < rest.length + 2) [DecidableRel le]
    (hle : Orders v compar s.mem le) (ha : EqOn a (v.elem s.mem) (Icc l h))
    (hsplit : split le l h a = (b, y)) (hb : EqOn b (v.elem s1.mem) (Icc l h))
    (hright : Permuted v (y + 1) h s1.mem s2.mem) (hleft : Permuted v l (y - 1) s2.mem s'.mem)
    (hascr : AscendingOn le (y + 1) h (v.elem s2.mem) ↔
      cleanSplits le (if l < y then rest.length + 1 else rest.length) (y + 1) h b = true)
    (hascl : AscendingOn le l (y - 1) (v.elem s'.mem) ↔
      cleanSplits le rest.length l (y - 1) b = true) :
    AscendingOn le l h (v.elem s'.mem) ↔ cleanSplits le rest.length l h a = true := by
  have htotal : TotalOn le l h a := by
    intro x z hx hz
    rw [ha hx, ha hz]
    exact hle.totalOn hh x z hx hz
  obtain ⟨hlow, hhigh⟩ := split_spec htotal hwide hsplit
  have hyb : b y = v.elem s1.mem y := hb ⟨hy.1, by omega⟩
  rw [cleanSplits.eq_def le _ l h, if_neg (by omega)]
  simp only [hsplit, Bool.and_eq_true, decide_eq_true_eq]
  rw [ascendingOn_sides hle.trans ⟨hy.1, by omega⟩ ?_ hright.elems hleft.elems, hascr, hascl, ← hhigh]
  · refine and_congr_left' (forall_congr' fun k => imp_congr_right fun h1 => imp_congr_right fun h2 => ?_)
    rw [hyb, hb ⟨by omega, h2⟩]
  · intro k h1 h2
    rw [← hyb, ← hb ⟨h1, by omega⟩]
    exact hlow k h1 h2

theorem Pending.done (hsize : 0 < v.size) (hfuel : v.nmemb < fuel)
    (hp : Pending v ((l, h) :: rest) s) : ∃ k s', Done v compar fuel l h rest s k s' := by
  -- by the size of the range; the halves are smaller
  induction hn : h - l using Nat.strong_induction_on generalizing l h rest s with
  | _ n ih =>
    have hh : h < v.nmemb := (hp.valid (l, h) mem_cons_self).2
    obtain ⟨_, s1, hround, hperm, hcase⟩ := sortRound_ends compar hsize hfuel hp
    cases hcase with
    | sorted hrest horder =>
      refine ⟨1, s1, fun rounds => ?_, by omega, hrest, hperm, fun le _ hle a ha => ?_⟩
      · rw [Nat.add_comm]
        exact sortLoop_round hp hround
      · exact iff_of_true (horder le hle a ha).1 (horder le hle a ha).2
    | split y hwide hroom hy hpend helems =>
      by_cases hly : l < y
      · rw [halves, if_pos hly] at hpend
        obtain ⟨kr, s2, hr⟩ := ih _ (by omega) hpend rfl
        obtain ⟨kl, s3, hl⟩ := ih _ (by omega) hr.pending rfl
        have hbr := hr.bound
        have hbl := hl.bound
        refine ⟨1 + kr + kl, s3, fun rounds => ?_, by omega, hl.pending, ?_, fun le _ hle a ha => ?_⟩
        · rw [Nat.add_assoc, Nat.add_assoc, Nat.add_comm 1, sortLoop_round hp hround, hr.steps, hl.steps]
        · exact hperm.trans ((hr.permuted.mono (by omega) (le_refl h)).trans
            (hl.permuted.mono (le_refl l) (by omega)))
        · obtain ⟨b, hsplit, hb⟩ := helems le hle a ha
          have hle1 := hperm.orders hh hle
          refine ascendingOn_halves hy hh hwide hroom hle ha hsplit hb hr.permuted hl.permuted ?_
            (hl.order le (hr.permuted.orders hh hle1) b fun k hk => ?_)
          · rw [if_pos hly]
            exact hr.order le hle1 b (hb.mono (Set.Icc_subset_Icc_left (by omega)))
          · have hky := hk.2
            rw [hb ⟨hk.1, by omega⟩, hr.permuted.elems.outside (.inl (by omega))]
      · rw [halves, if_neg hly] at hpend
        obtain ⟨kr, s2, hr⟩ := ih _ (by omega) hpend rfl
        have hbr := hr.bound
        refine ⟨1 + kr, s2, fun rounds => ?_, by omega, hr.pending, ?_, fun le _ hle a ha => ?_⟩
        · rw [Nat.add_assoc, Nat.add_comm 1, sortLoop_round hp hround, hr.steps]
        · exact hperm.trans (hr.permuted.mono (by omega) (le_refl h))
        · obtain ⟨b, hsplit, hb⟩ := helems le hle a ha
          refine ascendingOn_halves hy hh hwide hroom hle ha hsplit hb hr.permuted (.refl _ _ _ _) ?_
            (iff_of_true (fun x z h1 h2 h3 => by omega) ?_)
          · rw [if_neg hly]
            exact hr.order le (hperm.orders hh hle) b (hb.mono (Set.Icc_subset_Icc_left (by omega)))
          · rw [cleanSplits, if_pos (by omega)]

def sortSys (v : Vec) (compar : Compar σ) (fuel : Nat) (mem : Bytes) (env : σ) :
    System (SortState σ) Unit where
  start s := 2 ≤ v.nmemb ∧ 0 < v.size ∧ s = ⟨mem, env, [v.whole]⟩
  step s _ := if s.stack = [] then none else (sortRound v compar fuel s).map Prod.snd

variable {mem : Bytes} {env : σ}

theorem sortSys_step {e : Unit} (h : (sortSys v compar fuel mem env).step s e = some s') :
    s.stack ≠ [] ∧ sortRound v compar fuel s = some ((), s') := by
  obtain ⟨hne, h⟩ := Option.ite_none_left_eq_some.mp h
  obtain ⟨r, hr, rfl⟩ := map_eq_some_iff.mp h
  exact ⟨hne, hr⟩

theorem Pending.start (hn : 2 ≤ v.nmemb) (mem : Bytes) (env : σ) :
    Pending v [(0, v.nmemb - 1)] (⟨mem, env, [v.whole]⟩ : SortState σ) := by
  refine ⟨?_, ?_, pairwise_singleton _ _, by simp [stackMax]⟩
  · simp [Vec.whole, Vec.range, Vec.ptr]
  · intro r hr
    rw [mem_singleton.mp hr]
    exact ⟨Nat.zero_le _, by simp only; omega⟩

theorem Pending.reachable (hsize : 0 < v.size) (hfuel : v.nmemb < fuel)
    (hreach : Reachable (sortSys v compar fuel mem env) s) : ∃ rs, Pending v rs s := by
  refine hreach.invariant (I := fun s => ∃ rs, Pending v rs s) (fun s hs => ?_)
    fun s e s' hp _ hstep => ?_
  · obtain ⟨hn, _, rfl⟩ := hs
    exact ⟨_, .start hn mem env⟩
  · obtain ⟨rs, hp⟩ := hp
    obtain ⟨hne, hround⟩ := sortSys_step hstep
    match rs, hp with
    | [], hp => exact absurd hp.stack hne
    | (l, h) :: rest, hp =>
      obtain ⟨_, s1, hs1, _, hcase⟩ := sortRound_ends compar hsize hfuel hp
      cases hs1.symm.trans hround
      cases hcase with
      | sorted hrest => exact ⟨rest, hrest⟩
      | split y _ _ _ hpend => exact ⟨_, hpend⟩

theorem qsort_ends (compar : Compar σ) (mem : Bytes) (env : σ) (hn : 2 ≤ v.nmemb) (hsize : 0 < v.size)
    (hfuel : v.nmemb < fuel) :
    ∃ k s', qsort fuel v (some compar) mem env = some (s'.mem, s'.env) ∧
      Done v compar fuel 0 (v.nmemb - 1) [] ⟨mem, env, [v.whole]⟩ k s' := by
  obtain ⟨k, s', hdone⟩ : ∃ k s', Done v compar fuel 0 (v.nmemb - 1) [] ⟨mem, env, [v.whole]⟩ k s' :=
    (Pending.start hn mem env).done hsize hfuel
  refine ⟨k, s', ?_, hdone⟩
  have hbound := hdone.bound
  obtain ⟨rounds, rfl⟩ : ∃ rounds, fuel = k + (rounds + 1) := ⟨fuel - k - 1, by omega⟩
  have hrun : sortLoop v compar (k + (rounds + 1)) (k + (rounds + 1)) ⟨mem, env, [v.whole]⟩ =
      some ((), s') := by
    rw [hdone.steps, sortLoop_succ, hdone.pending.stack]
    rfl
  simp only [qsort]
  rw [if_neg (by omega)]
  exact congrArg (Option.map _) hrun

/-- **`qsort` is safe for every comparison function.** It ends, without a trap; the array
holds the same elements in some order, no other byte has changed, and there are never
more than 64 ranges on the stack. -/
theorem qsort_safe (v : Vec) (compar : Option (Compar σ)) (mem : Bytes) (env : σ)
    (hfuel : v.nmemb < fuel) :
    ∃ mem' env', qsort fuel v compar mem env = some (mem', env') ∧
      ((List.range v.nmemb).map (v.elem mem')).Perm ((List.range v.nmemb).map (v.elem mem)) ∧
      (∀ p, ¬ v.Holds p 1 → mem' p = mem p) ∧
      ∀ cmp, compar = some cmp → ∀ s, Reachable (sortSys v cmp fuel mem env) s →
        s.stack.length ≤ stackMax := by
  have hstack : ∀ cmp s, Reachable (sortSys v cmp fuel mem env) s → s.stack.length ≤ stackMax := by
    intro cmp s hreach
    by_cases hsize : 0 < v.size
    · obtain ⟨rs, hp⟩ := Pending.reachable hsize hfuel hreach
      rw [hp.stack, length_map]
      exact hp.depth
    · -- there are no rounds
      exact (hreach.invariant (I := fun _ => False) (fun s hs => hsize hs.2.1)
        fun _ _ _ hfalse _ _ => hfalse).elim
  have hsame : ∃ mem' env', some (mem, env) = some (mem', env') ∧
      ((List.range v.nmemb).map (v.elem mem')).Perm ((List.range v.nmemb).map (v.elem mem)) ∧
      (∀ p, ¬ v.Holds p 1 → mem' p = mem p) ∧
      ∀ cmp, compar = some cmp → ∀ s, Reachable (sortSys v cmp fuel mem env) s →
        s.stack.length ≤ stackMax :=
    ⟨mem, env, rfl, .refl _, fun _ _ => rfl, fun cmp _ => hstack cmp⟩
  cases compar with
  | none => exact hsame
  | some cmp =>
    by_cases hsmall : v.nmemb < 2 ∨ v.size = 0
    · simp only [qsort, if_pos hsmall]
      exact hsame
    obtain ⟨_, s', hrun, hdone⟩ := qsort_ends cmp mem env (by omega) (by omega) hfuel
    exact ⟨s'.mem, s'.env, hrun, hdone.permuted.elems.perm (by omega), hdone.permuted.outside,
      fun cmp _ => hstack cmp⟩

def intsAt (l : List Nat) : Bytes := fun p =>
  BitVec.ofNat 8 (l.getD ((p - 4096) / 4) 0 / 256 ^ ((p - 4096) % 4))

def fickle : Compar Nat := fun calls _ _ _ => (if calls % 2 = 0 then 1 else -1, calls + 1)

theorem qsort_safe_fickle :
    ∃ mem' env', qsort 13 ⟨4096, 12, 4⟩ (some fickle) (intsAt [5, 1, 4, 2, 8, 0, 9, 3, 7, 6, 5, 2]) 0 =
        some (mem', env') ∧
      ((List.range 12).map (Vec.elem ⟨4096, 12, 4⟩ mem')).Perm
        ((List.range 12).map (Vec.elem ⟨4096, 12, 4⟩ (intsAt [5, 1, 4, 2, 8, 0, 9, 3, 7, 6, 5, 2]))) := by
  obtain ⟨mem', env', hrun, hperm, _⟩ := qsort_safe ⟨4096, 12, 4⟩ (some fickle)
    (intsAt [5, 1, 4, 2, 8, 0, 9, 3, 7, 6, 5, 2]) 0 (show 12 < 13 by decide)
  exact ⟨mem', env', hrun, hperm⟩

/-! ## Order -/

/-- **`qsort` sorts exactly the arrays whose splits are clean**: for elements of any size and
every comparison function that answers by a total preorder. -/
theorem qsort_sorts_iff [DecidableRel le] (env : σ) (hsize : 0 < v.size)
    (hle : Orders v compar mem le) (hfuel : v.nmemb < fuel) :
    ∃ mem' env', qsort fuel v (some compar) mem env = some (mem', env') ∧
      (Ascending le v.nmemb (v.elem mem') ↔
        cleanSplits le 0 0 (v.nmemb - 1) (v.elem mem) = true) := by
  by_cases hn : v.nmemb < 2
  · refine ⟨mem, env, ?_, iff_of_true (fun x y hxy hy => by omega) ?_⟩
    · simp only [qsort, if_pos (Or.inl hn)]
    · rw [cleanSplits, if_pos (by omega)]
  · obtain ⟨_, s', hrun, hdone⟩ := qsort_ends compar mem env (by omega) hsize hfuel
    refine ⟨s'.mem, s'.env, hrun, ?_⟩
    refine Iff.trans ?_ (hdone.order le hle _ fun _ _ => rfl)
    exact ⟨fun hasc x y _ hxy hy => hasc x y hxy (by omega),
      fun hasc x y hxy hy => hasc x y (Nat.zero_le x) hxy (by omega)⟩

def intAt (m : Bytes) (p : Nat) : Int := (BitVec.ofNat 32 (m.load p 4)).toInt

def cmpInt : Compar Unit := fun e m p q =>
  ((if intAt m p > intAt m q then 1 else 0) - (if intAt m p < intAt m q then 1 else 0), e)

def intOf (bs : List (BitVec 8)) : Int :=
  (BitVec.ofNat 32 (bs.foldr (fun b n => b.toNat + 256 * n) 0)).toInt

theorem intOf_elem (hsize : v.size = 4) (m : Bytes) (k : Nat) :
    intOf (v.elem m k) = intAt m (v.ptr k) := by
  rw [intOf, intAt, Vec.elem, hsize]
  rfl

def IntLe (a b : List (BitVec 8)) : Prop := intOf a ≤ intOf b

instance instDecidableRelIntLe : DecidableRel IntLe := fun a b => Int.decLe (intOf a) (intOf b)

theorem cmpInt_orders (hsize : v.size = 4) : Orders v cmpInt mem IntLe := by
  refine ⟨fun a b c => le_trans, fun e m x y _ _ _ => ?_, fun e m x y _ _ _ => ?_⟩
  all_goals
    simp only [cmpInt, IntLe, intOf_elem hsize]
    split <;> split <;> omega

theorem qsort_sorts_iff_test :
    ∃ mem' env', qsort 13 ⟨4096, 12, 4⟩ (some cmpInt) (intsAt [5, 1, 4, 2, 8, 0, 9, 3, 7, 6, 5, 2]) () =
        some (mem', env') ∧ Ascending IntLe 12 (Vec.elem ⟨4096, 12, 4⟩ mem') := by
  have hle : Orders ⟨4096, 12, 4⟩ cmpInt (intsAt [5, 1, 4, 2, 8, 0, 9, 3, 7, 6, 5, 2]) IntLe :=
    cmpInt_orders rfl
  obtain ⟨mem', env', hrun, hsorts⟩ := qsort_sorts_iff () (by decide) hle (show 12 < 13 by decide)
  exact ⟨mem', env', hrun, hsorts.mpr (by decide +kernel)⟩

/-- **Nine numbers that `qsort` leaves out of order.** The pivot 6 is exchanged with 5, which
neither scan has looked at, and 5 ends behind it. -/
theorem qsort_unsorted :
    ∃ mem', qsort 10 ⟨4096, 9, 4⟩ (some cmpInt) (intsAt [1, 2, 3, 4, 7, 5, 6, 8, 9]) () = some (mem', ()) ∧
      (List.range 9).map (fun k => intAt mem' (4096 + k * 4)) = [1, 2, 3, 4, 6, 7, 5, 8, 9] ∧
      ¬ Ascending IntLe 9 (Vec.elem ⟨4096, 9, 4⟩ mem') := by
  have hrun : (qsort 10 ⟨4096, 9, 4⟩ (some cmpInt) (intsAt [1, 2, 3, 4, 7, 5, 6, 8, 9]) ()).map
      (fun r => (List.range 9).map fun k => intAt r.1 (4096 + k * 4)) =
      some [1, 2, 3, 4, 6, 7, 5, 8, 9] := by decide +kernel
  obtain ⟨⟨mem', u⟩, hmem, hints⟩ := map_eq_some_iff.mp hrun
  refine ⟨mem', hmem, hints, fun hasc => ?_⟩
  have hpair : intAt mem' 4116 ≤ intAt mem' 4120 := hasc 5 6 (by decide) (by decide)
  have h5 : some (intAt mem' 4116) = some 7 := congrArg (fun l => l[5]?) hints
  have h6 : some (intAt mem' 4120) = some 5 := congrArg (fun l => l[6]?) hints
  rw [Option.some.inj h5, Option.some.inj h6] at hpair
  exact absurd hpair (by decide)

end Exyde.Libc
