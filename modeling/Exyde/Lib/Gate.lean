import Mathlib.Tactic.Common

/-! # Wait gates

The counting pattern behind "wake one waiter for every unit given": units available,
threads parked, and threads that were popped and have not run yet. Threads that never
parked may take a unit first. As long as no woken thread leaves without a unit that only
it was coming for, nobody sleeps beside a unit that no woken thread is coming for. -/

namespace Exyde.Lib

structure Gate where
  avail : Nat
  parked : Nat
  woken : Nat

/-- A unit beside a parked thread has a woken thread coming for it. -/
def Gate.Ok (g : Gate) : Prop := 0 < g.parked → g.avail ≤ g.woken

/-- What one pass of a thread does to a gate; `taker` tells the threads that
take units from those that give them. -/
inductive Gate.Move (taker : Bool) : Gate → Gate → Prop
  | stay {g : Gate} : Move taker g g
  | park {w k : Nat} : taker = true → Move taker ⟨0, w, k⟩ ⟨0, w + 1, k⟩
  | take {a w k : Nat} : taker = true → Move taker ⟨a + 1, w, k⟩ ⟨a, w, k⟩
  | give {a k : Nat} : taker = false → Move taker ⟨a, 0, k⟩ ⟨a + 1, 0, k⟩
  | giveWake {a w k : Nat} : taker = false → Move taker ⟨a, w + 1, k⟩ ⟨a + 1, w, k + 1⟩

/-- A pass of a thread that was not woken by this gate. -/
theorem Gate.Move.ok {taker : Bool} {g g' : Gate} (h : Gate.Move taker g g') (hok : g.Ok) :
    g'.Ok := by
  cases h with
  | stay => exact hok
  | park _ => intro _; exact Nat.zero_le _
  | take _ =>
    intro hp
    have := hok hp
    simp only at this ⊢
    omega
  | give _ => intro hp; exact absurd hp (Nat.lt_irrefl 0)
  | giveWake _ =>
    intro _
    have := hok (Nat.succ_pos _)
    simp only at this ⊢
    omega

/-- A pass of a woken taker, which spends its wakeup: it parks again or takes a
unit; if it just leaves, the others must manage with the wakeups that remain. -/
theorem Gate.Move.resume_ok {a w k : Nat} {g' : Gate} (h : Gate.Move true ⟨a, w, k⟩ g')
    (hstay : g' = ⟨a, w, k⟩ → Gate.Ok ⟨a, w, k⟩) (hok : Gate.Ok ⟨a, w, k + 1⟩) : g'.Ok := by
  cases h with
  | stay => exact hstay rfl
  | park _ => intro _; exact Nat.zero_le _
  | take _ =>
    intro hp
    have := hok hp
    simp only at this ⊢
    omega
  | give hf | giveWake hf => cases hf

end Exyde.Lib
