import Mathlib.Data.List.Basic

/-!
# Kanata.Lib.Incremental — evaluating a sequence while it grows

A function `f` may answer on a sequence or not. `firstOf f` delivers the elements
one at a time, evaluates after each and keeps the first answer. It looks at the
nonempty prefixes of the sequence from the shortest on.
-/

namespace Incremental

variable {α β : Type}

/-- The first answer while `xs` is delivered behind `before`. -/
def firstOf (f : List α → Option β) : List α → List α → Option β
  | _, [] => none
  | before, x :: xs =>
    match f (before ++ [x]) with
    | some b => some b
    | none => firstOf f (before ++ [x]) xs

theorem firstOf_cons_of_some {f : List α → Option β} {before xs : List α} {x : α} {b : β}
    (h : f (before ++ [x]) = some b) : firstOf f before (x :: xs) = some b := by
  simp only [firstOf, h]

theorem firstOf_cons_of_none {f : List α → Option β} {before xs : List α} {x : α}
    (h : f (before ++ [x]) = none) :
    firstOf f before (x :: xs) = firstOf f (before ++ [x]) xs := by
  simp only [firstOf, h]

/-- There is no answer iff no prefix has one. -/
theorem firstOf_eq_none_iff {f : List α → Option β} :
    ∀ {xs before : List α}, firstOf f before xs = none ↔
      ∀ m < xs.length, f (before ++ xs.take (m + 1)) = none
  | [], before => by simp [firstOf]
  | x :: xs, before => by
    cases hx : f (before ++ [x]) with
    | some b =>
      rw [firstOf_cons_of_some hx]
      constructor
      · intro h
        cases h
      · intro h
        have := h 0 (Nat.zero_lt_succ _)
        simp [hx] at this
    | none =>
      rw [firstOf_cons_of_none hx, firstOf_eq_none_iff]
      constructor
      · intro h m hm
        cases m with
        | zero => simpa using hx
        | succ m => simpa using h m (Nat.lt_of_succ_lt_succ hm)
      · intro h m hm
        simpa using h (m + 1) (Nat.succ_lt_succ hm)

/-- The answer is the one of the shortest prefix that has one. -/
theorem firstOf_eq_some_iff {f : List α → Option β} {b : β} :
    ∀ {xs before : List α}, firstOf f before xs = some b ↔
      ∃ m < xs.length, f (before ++ xs.take (m + 1)) = some b ∧
        ∀ m' < m, f (before ++ xs.take (m' + 1)) = none
  | [], before => by simp [firstOf]
  | x :: xs, before => by
    cases hx : f (before ++ [x]) with
    | some c =>
      rw [firstOf_cons_of_some hx]
      constructor
      · intro h
        refine ⟨0, Nat.zero_lt_succ _, by simpa [hx] using h, ?_⟩
        intro m' hm'
        exact absurd hm' (Nat.not_lt_zero m')
      · rintro ⟨m, _, hm, hfirst⟩
        cases m with
        | zero => simpa [hx] using hm
        | succ m =>
          have := hfirst 0 (Nat.succ_pos m)
          simp [hx] at this
    | none =>
      rw [firstOf_cons_of_none hx, firstOf_eq_some_iff]
      constructor
      · rintro ⟨m, hlt, hm, hfirst⟩
        refine ⟨m + 1, Nat.succ_lt_succ hlt, by simpa using hm, ?_⟩
        intro m' hm'
        cases m' with
        | zero => simpa using hx
        | succ m' => simpa using hfirst m' (Nat.lt_of_succ_lt_succ hm')
      · rintro ⟨m, hlt, hm, hfirst⟩
        cases m with
        | zero => simp [hx] at hm
        | succ m =>
          refine ⟨m, Nat.lt_of_succ_lt_succ hlt, by simpa using hm, ?_⟩
          intro m' hm'
          simpa using hfirst (m' + 1) (Nat.succ_lt_succ hm')

end Incremental
