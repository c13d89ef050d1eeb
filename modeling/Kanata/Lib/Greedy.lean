import Mathlib.Data.List.Basic

/-!
# Kanata.Lib.Greedy — the greedy partition of a list into runs

`meaning` gives a value to some runs of a list. The greedy partition takes the
longest prefix that has a value, goes on behind it, and skips an element only when
no run from it on has one.
-/

variable {α β : Type} {meaning : List α → Option β}

/-- The runs of the greedy partition, with their values. -/
inductive Greedy (meaning : List α → Option β) : List α → List (List α × β) → Prop where
  | nil : Greedy meaning [] []
  | run {xs : List α} {n : Nat} {b : β} {parts : List (List α × β)} (hpos : 0 < n)
      (hle : n ≤ xs.length) (hvalue : meaning (xs.take n) = some b)
      (hlongest : ∀ m, n < m → m ≤ xs.length → meaning (xs.take m) = none)
      (rest : Greedy meaning (xs.drop n) parts) :
      Greedy meaning xs ((xs.take n, b) :: parts)
  | skip {x : α} {xs : List α} {parts : List (List α × β)}
      (hnone : ∀ m, 0 < m → m ≤ xs.length + 1 → meaning ((x :: xs).take m) = none)
      (rest : Greedy meaning xs parts) : Greedy meaning (x :: xs) parts

namespace Greedy

variable {xs : List α} {parts parts' : List (List α × β)}

/-- A list has one greedy partition. -/
theorem unique (h : Greedy meaning xs parts) (h' : Greedy meaning xs parts') : parts = parts' := by
  induction h generalizing parts' with
  | nil =>
    cases h' with
    | nil => rfl
    | run hpos hle _ _ _ => exact absurd hle (by simp only [List.length_nil]; omega)
  | @run xs n b parts hpos hle hvalue hlongest _ ih =>
    cases h' with
    | nil => exact absurd hle (by simp only [List.length_nil]; omega)
    | @run _ n' b' parts' hpos' hle' hvalue' hlongest' rest' =>
      -- neither run is longer than the other
      rcases Nat.lt_trichotomy n n' with hlt | rfl | hlt
      · rw [hlongest n' hlt hle'] at hvalue'
        cases hvalue'
      · rw [hvalue] at hvalue'
        cases hvalue'
        rw [ih rest']
      · rw [hlongest' n hlt hle] at hvalue
        cases hvalue
    | skip hnone _ =>
      rw [hnone n hpos hle] at hvalue
      cases hvalue
  | @skip x xs parts hnone _ ih =>
    cases h' with
    | run hpos hle hvalue _ _ =>
      rw [hnone _ hpos hle] at hvalue
      cases hvalue
    | skip _ rest' => exact ih rest'

/-- There are no more runs than elements. -/
theorem length_le (h : Greedy meaning xs parts) : parts.length ≤ xs.length := by
  induction h with
  | nil => exact Nat.le_refl _
  | @run xs n b parts hpos hle _ _ _ ih =>
    rw [List.length_drop] at ih
    rw [List.length_cons]
    omega
  | skip _ _ ih => exact Nat.le_succ_of_le ih

/-- A run is not empty, has its value, and its elements are elements of the list. -/
theorem of_mem (h : Greedy meaning xs parts) {part : List α × β} (hmem : part ∈ parts) :
    part.1 ≠ [] ∧ meaning part.1 = some part.2 ∧ ∀ x ∈ part.1, x ∈ xs := by
  induction h with
  | nil => cases hmem
  | @run xs n b parts hpos hle hvalue _ _ ih =>
    rcases List.mem_cons.mp hmem with rfl | hmem
    · refine ⟨?_, hvalue, fun x hx => List.mem_of_mem_take hx⟩
      intro hnil
      have hlen := congrArg List.length hnil
      rw [List.length_take, List.length_nil] at hlen
      omega
    · rcases ih hmem with ⟨hne, hpart, hall⟩
      exact ⟨hne, hpart, fun x hx => List.mem_of_mem_drop (hall x hx)⟩
  | skip _ _ ih =>
    rcases ih hmem with ⟨hne, hpart, hall⟩
    exact ⟨hne, hpart, fun x hx => List.mem_cons_of_mem _ (hall x hx)⟩

end Greedy
