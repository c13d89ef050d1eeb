import Mathlib.Data.List.Basic

/-!
# Kanata.Lib.EraseFirst — the first matching elements of a list

`eraseFirst p n xs` is `xs` without its first `n` elements that satisfy `p`. It
removes as much as a filter exactly when there are no more than `n` of them.
-/

namespace EraseFirst

variable {α : Type} {p r : α → Bool}

def eraseFirst (p : α → Bool) : Nat → List α → List α
  | _, [] => []
  | 0, x :: xs => x :: xs
  | n + 1, x :: xs => if p x then eraseFirst p n xs else x :: eraseFirst p (n + 1) xs

@[simp] theorem eraseFirst_nil (n : Nat) : eraseFirst p n [] = [] := by
  cases n <;> rfl

@[simp] theorem eraseFirst_zero (xs : List α) : eraseFirst p 0 xs = xs := by
  cases xs <;> rfl

theorem eraseFirst_of_pos {x : α} (h : p x = true) (n : Nat) (xs : List α) :
    eraseFirst p (n + 1) (x :: xs) = eraseFirst p n xs := if_pos h

theorem eraseFirst_of_neg {x : α} (h : p x = false) :
    ∀ (n : Nat) (xs : List α), eraseFirst p n (x :: xs) = x :: eraseFirst p n xs
  | 0, xs => by rw [eraseFirst_zero, eraseFirst_zero]
  | n + 1, xs => if_neg (by rw [h]; exact Bool.false_ne_true)

/-- What is removed does not count. -/
theorem countP_eraseFirst (hdisj : ∀ x, p x = true → r x = false) :
    ∀ (n : Nat) (xs : List α), (eraseFirst p n xs).countP r = xs.countP r
  | n, [] => by rw [eraseFirst_nil]
  | 0, x :: xs => by rw [eraseFirst_zero]
  | n + 1, x :: xs => by
    cases hx : p x with
    | true =>
      rw [eraseFirst_of_pos hx, countP_eraseFirst hdisj n xs,
        List.countP_cons_of_neg (by rw [hdisj x hx]; exact Bool.false_ne_true)]
    | false =>
      have ih := countP_eraseFirst hdisj (n + 1) xs
      rw [eraseFirst_of_neg hx, List.countP_cons, List.countP_cons, ih]

/-- The filter removes no more than the first `n` elements. -/
theorem eraseFirst_eq_filter_iff :
    ∀ {n : Nat} {xs : List α}, eraseFirst p n xs = xs.filter (fun x => !p x) ↔ xs.countP p ≤ n
  | n, [] => by simp
  | n, x :: xs => by
    cases hx : p x with
    | false =>
      -- the element stays on both sides
      have hkeep : (x :: xs).filter (fun x => !p x) = x :: xs.filter fun x => !p x :=
        List.filter_cons_of_pos (by rw [hx]; rfl)
      have hcount : (x :: xs).countP p = xs.countP p :=
        List.countP_cons_of_neg (by rw [hx]; exact Bool.false_ne_true)
      rw [eraseFirst_of_neg hx, hkeep, hcount, List.cons_inj_right]
      exact eraseFirst_eq_filter_iff
    | true =>
      have hdrop : (x :: xs).filter (fun x => !p x) = xs.filter fun x => !p x :=
        List.filter_cons_of_neg (by rw [hx]; exact Bool.false_ne_true)
      have hcount : (x :: xs).countP p = xs.countP p + 1 := List.countP_cons_of_pos hx
      rw [hdrop, hcount]
      cases n with
      | succ n =>
        rw [eraseFirst_of_pos hx, eraseFirst_eq_filter_iff]
        omega
      | zero =>
        -- the list is longer than what the filter leaves
        rw [eraseFirst_zero]
        constructor
        · intro heq
          have hlen := congrArg List.length heq
          have hle := List.length_filter_le (fun x => !p x) xs
          rw [List.length_cons] at hlen
          omega
        · intro hle
          omega

end EraseFirst
