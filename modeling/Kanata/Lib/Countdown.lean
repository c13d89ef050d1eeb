import Mathlib.Data.List.Basic

/-!
# Kanata.Lib.Countdown — a countdown that activity sets back

A counter goes down by one in each step and is set back to its limit by a step with activity.
`Runs limit n steps` says that it is above zero at the beginning of each of the steps.

`runs_iff`: it is above zero at a step when the start, or a step with activity, is not too long
ago.
-/

namespace Countdown

variable {limit n : Nat} {active : Bool} {steps : List Bool}

/-- The counter after a step. -/
def next (limit n : Nat) (active : Bool) : Nat := (if active then limit else n) - 1

/-- The counter is above zero at the beginning of each step. -/
def Runs (limit : Nat) : Nat → List Bool → Prop
  | _, [] => True
  | n, active :: steps => 0 < n ∧ Runs limit (next limit n active) steps

theorem next_le (h : n ≤ limit) : next limit n active ≤ limit := by
  unfold next
  split
  · exact Nat.sub_le limit 1
  · exact Nat.le_trans (Nat.sub_le n 1) h

/-- Step `j` is less than `n` steps after the start, or less than `limit` steps after one with
activity. -/
def Fresh (limit n : Nat) (steps : List Bool) (j : Nat) : Prop :=
  j < n ∨ ∃ i, i < j ∧ steps[i]? = some true ∧ j - i < limit

theorem fresh_zero : Fresh limit n steps 0 ↔ 0 < n := by
  constructor
  · rintro (h | ⟨i, hi, -⟩)
    · exact h
    · exact absurd hi (Nat.not_lt_zero i)
  · exact Or.inl

/-- The first step only sets the counter of the others. -/
theorem fresh_succ (h : n ≤ limit) (j : Nat) :
    Fresh limit n (active :: steps) (j + 1) ↔ Fresh limit (next limit n active) steps j := by
  constructor
  · rintro (hj | ⟨i, hi, hactive, hlt⟩)
    · left
      unfold next
      split <;> omega
    · rcases i with _ | i
      · left
        obtain rfl : active = true := Option.some.inj hactive
        unfold next
        rw [if_pos rfl]
        omega
      · exact .inr ⟨i, by omega, hactive, by omega⟩
  · rintro (hj | ⟨i, hi, hactive, hlt⟩)
    · unfold next at hj
      split at hj
      · rename_i hyes
        exact .inr ⟨0, Nat.succ_pos j, by rw [hyes]; rfl, by omega⟩
      · exact .inl (by omega)
    · exact .inr ⟨i + 1, by omega, hactive, by omega⟩

theorem runs_iff (h : n ≤ limit) :
    Runs limit n steps ↔ ∀ j, j < steps.length → Fresh limit n steps j := by
  induction steps generalizing n with
  | nil => simp [Runs]
  | cons active steps ih =>
    rw [Runs, ih (next_le h)]
    constructor
    · rintro ⟨hpos, hrest⟩ j hj
      rcases j with _ | j
      · exact fresh_zero.mpr hpos
      · exact (fresh_succ h j).mpr (hrest j (Nat.lt_of_succ_lt_succ hj))
    · intro hall
      refine ⟨fresh_zero.mp (hall 0 (Nat.succ_pos _)), fun j hj => ?_⟩
      exact (fresh_succ h j).mp (hall (j + 1) (Nat.succ_lt_succ hj))

end Countdown
