import Mathlib.Data.List.Nodup
import Mathlib.Logic.Function.Basic

/-! # Intrusive queues

A queue is a head and a tail pointer; the members are linked through a field of their
own, which many queues may share. `Holds` says which list a queue stands for. -/

namespace Exyde.Lib

open Function List

structure Fifo (α : Type) where
  head : Option α
  tail : Option α
  deriving DecidableEq, Repr

variable {α : Type}

/-- The members of `l`, in order, are linked from `h`, and the last link is null. -/
def Chain (link : α → Option α) : Option α → List α → Prop
  | h, [] => h = none
  | h, t :: l => h = some t ∧ Chain link (link t) l

structure Fifo.Holds (q : Fifo α) (link : α → Option α) (l : List α) : Prop where
  chain : Chain link q.head l
  tail : q.tail = l.getLast?
  nodup : l.Nodup

namespace Fifo

def empty : Fifo α := ⟨none, none⟩

variable [DecidableEq α]

/-- The links after `t` is put behind the tail. -/
def pushLink (q : Fifo α) (link : α → Option α) (t : α) : α → Option α :=
  match q.tail with
  | some u => update (update link t none) u (some t)
  | none => update link t none

def push (q : Fifo α) (t : α) : Fifo α :=
  match q.tail with
  | some _ => ⟨q.head, some t⟩
  | none => ⟨some t, some t⟩

def pop (q : Fifo α) (link : α → Option α) (t : α) : Fifo α :=
  match link t with
  | some u => ⟨some u, q.tail⟩
  | none => ⟨none, none⟩

end Fifo

section

variable {q : Fifo α} {link : α → Option α} {l : List α} {t u : α} {h : Option α}
  {link' : α → Option α}

theorem Fifo.Holds.empty : (Fifo.empty : Fifo α).Holds link [] := ⟨rfl, rfl, nodup_nil⟩

theorem Fifo.Holds.head (hq : q.Holds link l) : q.head = l.head? := by
  cases l with
  | nil => exact hq.chain
  | cons a l => exact hq.chain.1

theorem Chain.congr (hc : Chain link h l) (heq : ∀ t ∈ l, link' t = link t) : Chain link' h l := by
  induction l generalizing h with
  | nil => exact hc
  | cons a l ih =>
    refine ⟨hc.1, ?_⟩
    rw [heq a (mem_cons_self ..)]
    exact ih hc.2 fun t ht => heq t (mem_cons_of_mem _ ht)

theorem Fifo.Holds.congr (hq : q.Holds link l)
    (heq : ∀ t ∈ l, link' t = link t) : q.Holds link' l :=
  ⟨hq.chain.congr heq, hq.tail, hq.nodup⟩

variable [DecidableEq α]

theorem Chain.frame (hc : Chain link h l) (ht : t ∉ l) (v : Option α) :
    Chain (update link t v) h l := by
  refine hc.congr fun u hu => update_of_ne ?_ ..
  rintro rfl
  exact ht hu

theorem Chain.snoc (hc : Chain link h (l ++ [u])) (hnodup : (l ++ [u]).Nodup) (ht : t ∉ l ++ [u])
    (hnull : link t = none) : Chain (update link u (some t)) h (l ++ [u, t]) := by
  induction l generalizing h with
  | nil =>
    have htu : t ≠ u := fun heq => ht (by simp [heq])
    exact ⟨hc.1, by rw [update_self], by rw [update_of_ne htu]; exact hnull⟩
  | cons a l ih =>
    obtain ⟨hta, htl⟩ := ne_and_not_mem_of_not_mem_cons ht
    obtain ⟨ha, hnodup⟩ := nodup_cons.mp hnodup
    have hau : a ≠ u := fun heq => ha (by simp [heq])
    refine ⟨hc.1, ?_⟩
    rw [update_of_ne hau]
    exact ih hc.2 hnodup htl

theorem Fifo.Holds.frame (hq : q.Holds link l) (ht : t ∉ l) (v : Option α) :
    q.Holds (update link t v) l :=
  ⟨hq.chain.frame ht v, hq.tail, hq.nodup⟩

theorem Fifo.Holds.push (hq : q.Holds link l) (ht : t ∉ l) :
    (q.push t).Holds (q.pushLink link t) (l ++ [t]) := by
  have hnodup : (l ++ [t]).Nodup :=
    hq.nodup.append (nodup_singleton t) (disjoint_singleton.mpr ht)
  have htail : (l ++ [t]).getLast? = some t := by simp
  have hnull : update link t none t = none := update_self ..
  rcases eq_nil_or_concat' l with rfl | ⟨l', u, rfl⟩
  · have hnone : q.tail = none := hq.tail
    simp only [Fifo.push, Fifo.pushLink, hnone]
    exact ⟨⟨rfl, hnull⟩, htail.symm, hnodup⟩
  · have hsome : q.tail = some u := by rw [hq.tail]; simp
    simp only [Fifo.push, Fifo.pushLink, hsome]
    refine ⟨?_, htail.symm, hnodup⟩
    rw [append_assoc]
    exact (hq.chain.frame ht none).snoc hq.nodup ht hnull

/-- A queue shares its link with another one: pushing there is not noticed here. -/
theorem Fifo.Holds.frame_push {q' : Fifo α} {l' : List α} (hq : q.Holds link l)
    (hq' : q'.Holds link l') (hdisj : List.Disjoint l l') (ht : t ∉ l) :
    q.Holds (q'.pushLink link t) l := by
  unfold Fifo.pushLink
  split
  next u hu =>
    have hmem : u ∈ l' := by
      rw [hq'.tail] at hu
      exact mem_of_getLast? hu
    exact (hq.frame ht none).frame (fun hm => hdisj hm hmem) _
  · exact hq.frame ht none

theorem Fifo.Holds.pop (hq : q.Holds link (t :: l)) :
    (q.pop link t).Holds (update link t none) l := by
  obtain ⟨ht, hnodup⟩ := nodup_cons.mp hq.nodup
  have hchain : Chain link (link t) l := hq.chain.2
  have hframe := hchain.frame ht none
  cases l with
  | nil =>
    have hnone : link t = none := hchain
    simp only [Fifo.pop, hnone]
    exact ⟨rfl, rfl, hnodup⟩
  | cons b l =>
    have hsome : link t = some b := hchain.1
    rw [hsome] at hframe
    simp only [Fifo.pop, hsome]
    exact ⟨hframe, by rw [hq.tail]; simp, hnodup⟩

end

end Exyde.Lib
