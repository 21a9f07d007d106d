import Mathlib.Data.List.Nodup
import Mathlib.Data.List.Count
import Exyde.Lib.Gate

/-! # Wait queues and the threads on their way out of them

Any number of queues, each member of at most one. Whoever is popped has been woken but
has not run yet; it keeps the queue it came from until it does. -/

namespace Exyde.Lib

open List

/-- `on`: the queue somebody was last put on, until they run again. -/
structure Waiters (κ ι : Type) where
  on : ι → Option κ
  queue : κ → List ι
  woken : List ι

namespace Waiters

variable {κ ι : Type}

def init : Waiters κ ι := ⟨fun _ => none, fun _ => [], []⟩

def park [DecidableEq κ] [DecidableEq ι] (w : Waiters κ ι) (t : ι) (k : κ) : Waiters κ ι :=
  { w with
    on := Function.update w.on t (some k)
    queue := Function.update w.queue k (w.queue k ++ [t]) }

/-- The head of queue `k`, if there is one, is popped and woken. -/
def wake [DecidableEq κ] (w : Waiters κ ι) (k : κ) : Waiters κ ι :=
  match w.queue k with
  | [] => w
  | t :: rest => { w with queue := Function.update w.queue k rest, woken := w.woken ++ [t] }

def wakeAll [DecidableEq κ] (w : Waiters κ ι) (k : κ) : Waiters κ ι :=
  { w with queue := Function.update w.queue k [], woken := w.woken ++ w.queue k }

def resume [DecidableEq ι] (w : Waiters κ ι) (t : ι) : Waiters κ ι :=
  { w with on := Function.update w.on t none, woken := w.woken.erase t }

/-- Those popped from queue `k` that have not run since. -/
def wokenOn [DecidableEq κ] (w : Waiters κ ι) (k : κ) : Nat := w.woken.countP fun t => w.on t = some k

/-- Nobody is in two places, and nobody who waits is in none. -/
structure Ok (w : Waiters κ ι) : Prop where
  queue_nodup : ∀ k, (w.queue k).Nodup
  woken_nodup : w.woken.Nodup
  queued : ∀ k t, t ∈ w.queue k → w.on t = some k ∧ t ∉ w.woken
  woken : ∀ t, t ∈ w.woken → w.on t ≠ none
  placed : ∀ k t, w.on t = some k → t ∈ w.queue k ∨ t ∈ w.woken

variable {w : Waiters κ ι} {t : ι} {k : κ}

theorem Ok.init : (init : Waiters κ ι).Ok where
  queue_nodup _ := nodup_nil
  woken_nodup := nodup_nil
  queued k t ht := by cases ht
  woken t ht := by cases ht
  placed k t ht := by cases ht

theorem Ok.absent (h : w.Ok) (ht : w.on t = none) : (∀ k, t ∉ w.queue k) ∧ t ∉ w.woken := by
  refine ⟨fun k hm => ?_, fun hm => h.woken t hm ht⟩
  have := (h.queued k t hm).1
  rw [ht] at this
  cases this

theorem Ok.park [DecidableEq κ] [DecidableEq ι] (h : w.Ok) (ht : w.on t = none) : (w.park t k).Ok := by
  obtain ⟨habs, hnw⟩ := h.absent ht
  have hmem : ∀ l u, u ∈ (w.park t k).queue l → (l = k ∧ u = t) ∨ (u ≠ t ∧ u ∈ w.queue l) := by
    intro l u hu
    by_cases hut : u = t
    · subst hut
      by_cases hl : l = k
      · exact Or.inl ⟨hl, rfl⟩
      · simp only [Waiters.park, Function.update_of_ne hl] at hu
        exact absurd hu (habs l)
    · refine Or.inr ⟨hut, ?_⟩
      by_cases hl : l = k
      · subst hl; simpa [Waiters.park, hut] using hu
      · simpa [Waiters.park, hl] using hu
  refine ⟨?_, h.woken_nodup, ?_, ?_, ?_⟩
  · intro l
    by_cases hl : l = k
    · subst hl
      simp only [Waiters.park, Function.update_self]
      exact (h.queue_nodup l).append (nodup_singleton t) (disjoint_singleton.mpr (habs l))
    · simpa [Waiters.park, hl] using h.queue_nodup l
  · intro l u hu
    rcases hmem l u hu with ⟨rfl, rfl⟩ | ⟨hut, hu⟩
    · exact ⟨Function.update_self .., hnw⟩
    · simp only [Waiters.park, Function.update_of_ne hut]
      exact h.queued l u hu
  · intro u hu
    have hut : u ≠ t := by rintro rfl; exact hnw hu
    simp only [Waiters.park, Function.update_of_ne hut]
    exact h.woken u hu
  · intro l u hu
    by_cases hut : u = t
    · subst hut
      simp only [Waiters.park, Function.update_self, Option.some.injEq] at hu
      subst hu
      exact Or.inl (by simp [Waiters.park])
    · simp only [Waiters.park, Function.update_of_ne hut] at hu ⊢
      refine (h.placed l u hu).imp_left fun hm => ?_
      by_cases hl : l = k
      · subst hl; simp [hm]
      · simpa [hl] using hm

/-- Taking members off the front of one queue and waking them, one or all. -/
theorem Ok.split [DecidableEq κ] (h : w.Ok) {front rest : List ι} (hq : w.queue k = front ++ rest) :
    Ok { w with queue := Function.update w.queue k rest, woken := w.woken ++ front } := by
  have hnodup := hq ▸ h.queue_nodup k
  obtain ⟨hfront, hrest, hdisj⟩ := nodup_append'.mp hnodup
  have hsub : ∀ l u, u ∈ Function.update w.queue k rest l → u ∈ w.queue l := by
    intro l u hu
    by_cases hl : l = k
    · subst hl; rw [hq]; simp only [Function.update_self] at hu; exact mem_append_right _ hu
    · simpa [hl] using hu
  have hpopped : ∀ u, u ∈ front → w.on u = some k ∧ u ∉ w.woken :=
    fun u hu => h.queued k u (by rw [hq]; exact mem_append_left _ hu)
  refine ⟨?_, ?_, ?_, ?_, ?_⟩
  · intro l
    by_cases hl : l = k
    · subst hl; simpa using hrest
    · simpa [hl] using h.queue_nodup l
  · exact h.woken_nodup.append hfront fun u h1 h2 => (hpopped u h2).2 h1
  · intro l u hu
    obtain ⟨hon, hnw⟩ := h.queued l u (hsub l u hu)
    refine ⟨hon, fun hm => ?_⟩
    rcases mem_append.mp hm with hold | hnew
    · exact hnw hold
    · have hl : l = k := Option.some.inj (hon.symm.trans (hpopped u hnew).1)
      subst hl
      have hu : u ∈ rest := by simpa using hu
      exact hdisj hnew hu
  · intro u hu
    rcases mem_append.mp hu with hu | hu
    · exact h.woken u hu
    · rw [(hpopped u hu).1]; simp
  · intro l u hu
    rcases h.placed l u hu with hm | hm
    · by_cases hl : l = k
      · subst hl
        rw [hq] at hm
        rcases mem_append.mp hm with hm | hm
        · exact Or.inr (mem_append_right _ hm)
        · exact Or.inl (by simpa using hm)
      · exact Or.inl (by simpa [hl] using hm)
    · exact Or.inr (mem_append_left _ hm)

theorem Ok.wake [DecidableEq κ] (h : w.Ok) (k : κ) : (w.wake k).Ok := by
  unfold Waiters.wake
  split
  · exact h
  next t rest hq => exact h.split (show w.queue k = [t] ++ rest from hq)

theorem Ok.wakeAll [DecidableEq κ] (h : w.Ok) (k : κ) : (w.wakeAll k).Ok :=
  h.split (append_nil _).symm

theorem Ok.resume [DecidableEq ι] (h : w.Ok) (ht : t ∈ w.woken) : (w.resume t).Ok := by
  have hne : ∀ l u, u ∈ w.queue l → u ≠ t := by
    intro l u hu heq
    subst heq
    exact (h.queued l u hu).2 ht
  refine ⟨h.queue_nodup, h.woken_nodup.erase t, ?_, ?_, ?_⟩
  · intro l u hu
    simp only [Waiters.resume, Function.update_of_ne (hne l u hu)]
    exact ⟨(h.queued l u hu).1, fun hm => (h.queued l u hu).2 (mem_of_mem_erase hm)⟩
  · intro u hu
    have hut : u ≠ t := by
      rintro rfl
      exact (List.Nodup.not_mem_erase h.woken_nodup) hu
    simp only [Waiters.resume, Function.update_of_ne hut]
    exact h.woken u (mem_of_mem_erase hu)
  · intro l u hu
    have hut : u ≠ t := by rintro rfl; simp [Waiters.resume] at hu
    simp only [Waiters.resume, Function.update_of_ne hut] at hu ⊢
    exact (h.placed l u hu).imp_right (mem_erase_of_ne hut).mpr

/-! ## Counting -/

variable [DecidableEq κ] {l : κ}

theorem countP_update [DecidableEq ι] {on : ι → Option κ} {l : List ι} (ht : t ∉ l) (v : Option κ) (k : κ) :
    (l.countP fun u => Function.update on t v u = some k) = l.countP fun u => on u = some k := by
  apply countP_congr
  intro u hu
  have hut : u ≠ t := by rintro rfl; exact ht hu
  rw [Function.update_of_ne hut]

theorem wokenOn_park [DecidableEq ι] (h : w.Ok) (ht : w.on t = none) (l : κ) :
    (w.park t k).wokenOn l = w.wokenOn l :=
  countP_update (h.absent ht).2 (some k) l

theorem wake_of_nil (hq : w.queue k = []) : w.wake k = w := by
  simp [Waiters.wake, hq]

theorem wokenOn_wake (h : w.Ok) {rest : List ι} (hq : w.queue k = t :: rest) (l : κ) :
    (w.wake k).wokenOn l = w.wokenOn l + if l = k then 1 else 0 := by
  have hon : w.on t = some k := (h.queued k t (by simp [hq])).1
  simp only [Waiters.wake, hq, wokenOn, countP_append, countP_singleton, hon]
  by_cases hl : l = k
  · simp [hl]
  · simp [hl, Ne.symm hl]

theorem wokenOn_resume [DecidableEq ι] (h : w.Ok) (ht : t ∈ w.woken) (l : κ) :
    w.wokenOn l = (w.resume t).wokenOn l + if w.on t = some l then 1 else 0 := by
  have hgone : t ∉ w.woken.erase t := List.Nodup.not_mem_erase h.woken_nodup
  have hrest : (w.resume t).wokenOn l = (w.woken.erase t).countP fun u => w.on u = some l :=
    countP_update hgone none l
  rw [hrest, wokenOn, (perm_cons_erase ht).countP_eq, countP_cons]
  simp

theorem exists_woken (h : 0 < w.wokenOn k) : ∃ t, t ∈ w.woken ∧ w.on t = some k := by
  obtain ⟨t, ht, hon⟩ := countP_pos_iff.mp h
  exact ⟨t, ht, by simpa using hon⟩

/-! ## Gates -/

def gate (w : Waiters κ ι) (avail : Nat) (k : κ) : Gate :=
  ⟨avail, (w.queue k).length, w.wokenOn k⟩

theorem gate_park [DecidableEq ι] (h : w.Ok) (ht : w.on t = none) :
    Gate.Move true (w.gate 0 k) ((w.park t k).gate 0 k) := by
  have hlen : ((w.park t k).queue k).length = (w.queue k).length + 1 := by simp [Waiters.park]
  rw [gate, gate, wokenOn_park h ht, hlen]
  exact .park rfl

theorem gate_park_of_ne [DecidableEq ι] (h : w.Ok) (ht : w.on t = none) (hl : l ≠ k) (avail : Nat) :
    (w.park t k).gate avail l = w.gate avail l := by
  have hlen : (w.park t k).queue l = w.queue l := Function.update_of_ne hl ..
  rw [gate, gate, wokenOn_park h ht, hlen]

theorem gate_wake (h : w.Ok) (avail : Nat) :
    Gate.Move false (w.gate avail k) ((w.wake k).gate (avail + 1) k) := by
  cases hq : w.queue k with
  | nil =>
    rw [wake_of_nil hq]
    simp only [gate, hq, length_nil]
    exact .give rfl
  | cons t rest =>
    simp only [gate, wokenOn_wake h hq, if_true]
    simp only [Waiters.wake, hq, Function.update_self, length_cons]
    exact .giveWake rfl

theorem gate_wake_of_ne (h : w.Ok) (hl : l ≠ k) (avail : Nat) :
    (w.wake k).gate avail l = w.gate avail l := by
  cases hq : w.queue k with
  | nil => rw [wake_of_nil hq]
  | cons t rest =>
    simp only [gate, wokenOn_wake h hq, hl, if_false, Nat.add_zero]
    simp only [Waiters.wake, hq, Function.update_of_ne hl]

theorem gate_wakeAll_of_ne (h : w.Ok) (hl : l ≠ k) (avail : Nat) :
    (w.wakeAll k).gate avail l = w.gate avail l := by
  have hnone : (w.queue k).countP (fun t => w.on t = some l) = 0 := by
    rw [countP_eq_zero]
    intro t ht
    rw [(h.queued k t ht).1]
    simpa using Ne.symm hl
  have hlen : (w.wakeAll k).queue l = w.queue l := Function.update_of_ne hl ..
  have hwoken : (w.wakeAll k).wokenOn l = w.wokenOn l := by
    have happ : (w.wakeAll k).wokenOn l = (w.woken ++ w.queue k).countP fun t => w.on t = some l := rfl
    rw [happ, countP_append, hnone, Nat.add_zero, wokenOn]
  rw [gate, gate, hlen, hwoken]

end Waiters

end Exyde.Lib
