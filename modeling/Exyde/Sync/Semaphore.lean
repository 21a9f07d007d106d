import Mathlib.Tactic.Ring
import Exyde.Sync.Mutex

/-! # Semaphores

A post adds a unit and wakes one waiter; another thread may take the unit before the
woken one runs, which then waits again. No unit is lost and no waiter is left beside a
unit that nobody is coming for, as long as the count stays within an `int`. -/

namespace Exyde.Sync

open Exyde.Lib State Objects

@[simp] def Note.sem? : Note → Option Nat
  | .took k | .posted k => some k
  | _ => none

/-- What a pass means for semaphore `k`. -/
inductive SemCase (o : Objects) (k : Nat) (p : Pass) : Prop
  | other : p.objects.sem k = o.sem k → p.note.sem? ≠ some k → p.act.spares (.sem k) → SemCase o k p
  | wait : o.sem k ≤ 0 → p = ⟨o, .block (.semWait k), .nothing⟩ → SemCase o k p
  | take : 0 < o.sem k → p.objects.sem k = toInt32 (o.sem k - 1) → p.act = .proceed →
      p.note = .took k → SemCase o k p
  | post : p = o.semPost k → SemCase o k p

section

variable {o : Objects} {t : Tid} {j k : Nat} {refuse : Bool}

theorem setSem_of_ne {v : Int} (h : j ≠ k) : (o.setSem j v).sem k = o.sem k :=
  Function.update_of_ne (Ne.symm h) ..

theorem setSem_self {v : Int} : (o.setSem k v).sem k = toInt32 v := Function.update_self ..

theorem semWait_case : SemCase o k (o.semWait j) := by
  unfold semWait
  by_cases hj : j = k
  · subst hj
    split
    next h0 => exact .wait h0 rfl
    next h0 => exact .take (by omega) setSem_self rfl rfl
  · split
    · exact .other rfl (by simp) (by simp [Point.queue, hj])
    · exact .other (setSem_of_ne hj) (by simp [hj]) trivial

theorem semTrywait_case : SemCase o k (o.semTrywait j) := by
  unfold semTrywait
  split
  · exact .other rfl (by simp) trivial
  next h0 =>
    by_cases hj : j = k
    · subst hj
      exact .take (by omega) setSem_self rfl rfl
    · exact .other (setSem_of_ne hj) (by simp [hj]) trivial

theorem mutexLock_sem {m : Nat} {again : Point} (hq : again.queue = .mutex m) :
    SemCase o k (o.mutexLock t m again) := by
  unfold mutexLock
  split <;> exact .other rfl (by simp) (by simp [hq])

theorem call_sem (c : Call) : SemCase o k (c.pass o t refuse) := by
  cases c with
  | semWait j => exact semWait_case
  | semTrywait j => exact semTrywait_case
  | semPost j =>
    by_cases hj : j = k
    · subst hj; exact .post rfl
    · exact .other (setSem_of_ne hj) (by simp [Call.pass, semPost, hj])
        (by simp [Call.pass, semPost, hj])
  | lock m => exact mutexLock_sem rfl
  | unlock m =>
    simp only [Call.pass]
    split
    · exact .other rfl (by simp) (by simp)
    next o' ho =>
      obtain ⟨-, -, rfl⟩ := mutexUnlock_ok ho
      exact .other rfl (by simp) (by simp)
  | condWait c m =>
    simp only [Call.pass, condWait]
    split
    · exact .other rfl (by simp) (by simp)
    next o' ho =>
      obtain ⟨-, -, rfl⟩ := mutexUnlock_ok ho
      exact .other rfl (by simp) (by simp [Point.queue])
  | signal _ | broadcast _ =>
    exact .other rfl (by simp [Call.pass]) (by simp [Call.pass])
  | trylock _ | send _ | trySend _ | procWait _ | procExit _ =>
    simp only [Call.pass, mutexTrylock, send, trySend, put,
      procWait, procExit]
    split <;> exact .other rfl (by simp) (by simp [Point.queue])
  | recv _ | tryRecv _ =>
    simp only [Call.pass, recv, tryRecv, take]
    split
    · exact .other rfl (by simp) (by simp [Point.queue])
    · split <;> exact .other rfl (by simp) (by simp)

theorem point_sem (p : Point) : SemCase o k (p.pass o t refuse) := by
  rcases point_pass p with ⟨c, hc⟩ | ⟨n, -, hc⟩ <;> rw [hc]
  · exact call_sem c
  · exact mutexLock_sem rfl

theorem toInt32_of_fits {n : Int} (h0 : 0 ≤ n) (h1 : n < 2 ^ 31) : toInt32 n = n := by
  have h : n.bmod (2 ^ 32) = n := Int.bmod_eq_of_le (by omega) (by omega)
  exact h

def Objects.Fits (o : Objects) (k : Nat) (p : Pass) : Prop :=
  p.note = .posted k → o.sem k + 1 < 2 ^ 31

theorem SemCase.count {p : Pass} (h : SemCase o k p) (h0 : 0 ≤ o.sem k) (h1 : o.sem k < 2 ^ 31)
    (hfit : o.Fits k p) :
    0 ≤ p.objects.sem k ∧ p.objects.sem k < 2 ^ 31 ∧
      p.objects.sem k = o.sem k + (if p.note = .posted k then 1 else 0) -
        if p.note = .took k then 1 else 0 := by
  cases h with
  | other ho hn _ =>
    have hp : p.note ≠ .posted k := fun h => hn (by rw [h]; rfl)
    have ht : p.note ≠ .took k := fun h => hn (by rw [h]; rfl)
    rw [ho, if_neg hp, if_neg ht]
    omega
  | wait _ hp =>
    subst hp
    simp only [reduceCtorEq, if_false]
    omega
  | take hpos ho _ hn =>
    rw [ho, hn, toInt32_of_fits (by omega) (by omega)]
    simp only [reduceCtorEq, if_false, if_true]
    omega
  | post hp =>
    subst hp
    have hlt : o.sem k + 1 < 2 ^ 31 := hfit rfl
    have hsem : (o.semPost k).objects.sem k = o.sem k + 1 :=
      setSem_self.trans (toInt32_of_fits (by omega) hlt)
    rw [hsem]
    simp only [semPost, reduceCtorEq, if_false, if_true]
    omega

theorem SemCase.units {p : Pass} (h : SemCase o k p) (h0 : 0 ≤ o.sem k) (h1 : o.sem k < 2 ^ 31)
    (hfit : o.Fits k p) :
    UnitCase (.sem k) (o.sem k).toNat (p.objects.sem k).toNat p.act := by
  obtain ⟨-, -, hcount⟩ := h.count h0 h1 hfit
  cases h with
  | other ho _ hs => exact .spare (by rw [ho]) hs
  | wait hle hp =>
    subst hp
    exact .taker (.wait _ rfl (by simpa using hle) (by simpa using hle))
  | take hpos _ ha hn =>
    rw [hn] at hcount
    simp only [reduceCtorEq, if_false, if_true] at hcount
    rw [ha]
    exact .taker (.take (by omega))
  | post hp =>
    subst hp
    simp only [semPost, reduceCtorEq, if_false, if_true] at hcount
    exact .give (by simp only [semPost]; omega)

theorem point_semWait {p : Point} (hq : p.queue = .sem k) (h0 : 0 ≤ o.sem k)
    (h1 : o.sem k < 2 ^ 31) :
    TakeCase (.sem k) (o.sem k).toNat ((p.pass o t refuse).objects.sem k).toNat
      (p.pass o t refuse).act := by
  have hpass : p.pass o t refuse = o.semWait k := by cases p <;> cases hq; rfl
  rw [hpass]
  unfold semWait
  split
  next hle => exact .wait _ rfl (by simpa using hle) (by simpa using hle)
  next hle =>
    have hsem : (o.setSem k (o.sem k - 1)).sem k = o.sem k - 1 :=
      setSem_self.trans (toInt32_of_fits (by omega) (by omega))
    exact .take (by rw [hsem]; omega)

end

/-! ## The invariant -/

/-- The count is what was there, posted and not taken, and no waiter is
stranded beside a unit. -/
structure SemOk (n : Nat → Nat) (s : State) (k : Nat) : Prop where
  balance : s.objects.sem k = n k + s.posts k - s.waits k
  nonneg : 0 ≤ s.objects.sem k
  fits : s.objects.sem k < 2 ^ 31
  gate : (s.waiters.gate (s.objects.sem k).toNat (.sem k)).Ok

/-- A post leaves fewer than 2^31 - n posts outstanding. -/
def PostsFit (n : Nat → Nat) (s : State) : SyncEvent → Prop
  | .call _ (.semPost k) _ => (s.posts k + 1 : Int) - s.waits k < 2 ^ 31 - n k
  | _ => True

instance (n : Nat → Nat) (s : State) (e : SyncEvent) : Decidable (PostsFit n s e) := by
  unfold PostsFit
  split <;> infer_instance

section

variable {n : Nat → Nat} {s s' : State} {t : Tid} {k : Nat}

theorem posts_record (note : Note) :
    (s.record t note).posts k = s.posts k + if note = .posted k then 1 else 0 := by
  cases note with
  | posted j =>
    by_cases hj : k = j
    · subst hj; simp [record]
    · simp [record, hj, Ne.symm hj]
  | nothing | acquired _ | released _ | took _ => simp [record]

theorem waits_record (note : Note) :
    (s.record t note).waits k = s.waits k + if note = .took k then 1 else 0 := by
  cases note with
  | took j =>
    by_cases hj : k = j
    · subst hj; simp [record]
    · simp [record, hj, Ne.symm hj]
  | nothing | acquired _ | released _ | posted _ => simp [record]

theorem call_posts {c : Call} {refuse : Bool} {o : Objects}
    (h : (c.pass o t refuse).note = .posted k) : c = .semPost k := by
  cases c with
  | semPost j => cases h; rfl
  | signal _ | broadcast _ => cases h
  | lock _ | trylock _ | unlock _ | condWait _ _ | semWait _ | semTrywait _ | send _ | trySend _ | procWait _ | procExit _ =>
    simp only [Call.pass, mutexLock, mutexTrylock, condWait, semWait, semTrywait, send, trySend, put,
      procWait, procExit] at h
    split at h <;> cases h
  | recv _ | tryRecv _ =>
    simp only [Call.pass, recv, tryRecv, take] at h
    split at h
    · cases h
    · split at h <;> cases h

theorem SemOk.pass (h : SemOk n s k) {s1 : State} {p : Pass} (hc : SemCase s.objects k p)
    (hfit : s.objects.Fits k p) (hposts : s1.posts = s.posts) (hwaits : s1.waits = s.waits)
    (hgate : ((s1.run t p).waiters.gate (p.objects.sem k).toNat (.sem k)).Ok) :
    SemOk n (s1.run t p) k := by
  obtain ⟨h0, h1, hcount⟩ := hc.count h.nonneg h.fits hfit
  refine ⟨?_, h0, h1, hgate⟩
  have hrun : (s1.run t p).posts k = (s1.record t p.note).posts k ∧
      (s1.run t p).waits k = (s1.record t p.note).waits k := ⟨rfl, rfl⟩
  have hbal := h.balance
  show p.objects.sem k = _
  rw [hrun.1, hrun.2, posts_record, waits_record, hposts, hwaits, hcount, hbal]
  push_cast
  ring

theorem SemOk.step (h : SemOk n s k) (hpl : Placed s) {e : SyncEvent} (hs : s.step e = some s')
    (hfit : PostsFit n s e) : SemOk n s' k := by
  obtain ⟨-, hcase⟩ := step_case hs
  cases hcase with
  | call t c refuse hd heq =>
    subst heq
    have hc : SemCase s.objects k (c.pass s.objects t refuse) := call_sem c
    have hlt : s.objects.Fits k (c.pass s.objects t refuse) := by
      intro hpost
      obtain rfl := call_posts hpost
      have hb := h.balance
      have hf : (s.posts k + 1 : Int) - s.waits k < 2 ^ 31 - n k := hfit
      omega
    exact h.pass hc hlt rfl rfl
      ((hc.units h.nonneg h.fits hlt).ok hpl.ok (hpl.on_none hd) h.gate)
  | resume t refuse p hw hd heq =>
    subst heq
    have hc : SemCase s.objects k (p.pass s.objects t refuse) := point_sem p
    have hlt : s.objects.Fits k (p.pass s.objects t refuse) := fun hpost =>
      absurd hpost ((point_quiet p refuse).2 k)
    have hposts : (s.awake t).posts = s.posts := rfl
    exact h.pass hc hlt hposts rfl (hpl.resume_ok hw hd (hc.units h.nonneg h.fits hlt)
      (fun hq => point_semWait hq h.nonneg h.fits) h.gate)

theorem init_semOk (hn : n k < 2 ^ 31) (ring : Nat → Ring) : SemOk n (init n ring) k where
  balance := by simp [init]
  nonneg := Int.natCast_nonneg _
  fits := by simp only [init]; omega
  gate := fun hlt => absurd hlt (Nat.lt_irrefl 0)

/-- **Semaphore conservation.** The count is the initial value and the posts less
the completed waits, it is never negative, and beside a waiter it is at most the
number of popped waiters still to run. -/
theorem semaphore_conserved (hn : ∀ k, n k < 2 ^ 31)
    (h : Reach (syncSystem n) (PostsFit n) s) (k : Nat) :
    s.objects.sem k = n k + s.posts k - s.waits k ∧ 0 ≤ s.objects.sem k ∧
      (s.waiters.queue (.sem k) ≠ [] → s.objects.sem k ≤ s.waiters.wokenOn (.sem k)) := by
  obtain ⟨hok, -⟩ := reach_keeps (I := fun s => SemOk n s k) h (init_semOk (hn k))
    fun s e s' hok hpl hfit hs => hok.step hpl hs hfit
  refine ⟨hok.balance, hok.nonneg, fun hq => ?_⟩
  have hgate := hok.gate (List.length_pos_iff.mpr hq)
  simp only [Waiters.gate] at hgate
  omega

end

/-- Two threads wait on a semaphore of value 0; a post has popped the first of
them, which has not run yet. -/
theorem semaphore_conserved_posted :
    ∃ s, Reach (syncSystem fun _ => 0) (PostsFit fun _ => 0) s ∧ s.waiters.queue (.sem 0) = [2] ∧
      s.objects.sem 0 = 1 ∧ s.objects.sem 0 ≤ s.waiters.wokenOn (.sem 0) := by
  obtain ⟨s, hs, hqueue, hcount⟩ : ∃ s ∈ (syncSystem fun _ => 0).runOk (PostsFit fun _ => 0)
      (init (fun _ => 0) fun _ => ⟨0, 1⟩)
      [.call 1 (.semWait 0) false, .call 2 (.semWait 0) false, .call 3 (.semPost 0) false],
      s.waiters.queue (.sem 0) = [2] ∧ s.objects.sem 0 = 1 := by decide +kernel
  have hreach := Reach.runOk hs (.start ⟨_, rfl⟩)
  obtain ⟨-, -, hwoken⟩ := semaphore_conserved (fun _ => by decide) hreach 0
  exact ⟨s, hreach, hqueue, hcount, hwoken (by rw [hqueue]; simp)⟩

end Exyde.Sync
