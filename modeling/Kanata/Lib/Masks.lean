import Mathlib.Data.List.Basic

/-!
# Kanata.Lib.Masks — sets as bit masks

Some elements have a bit of their own (`OwnBits`), and a list stands for the set of those
among its elements: the disjunction of their bits. With these lemmas a test of masks is a
statement about the elements.
-/

namespace Masks

variable {α : Type} {w : Nat} {mask : α → Option (BitVec w)}

/-- Each element that has a mask has one bit, and no two have the same. -/
structure OwnBits (mask : α → Option (BitVec w)) : Prop where
  one_bit : ∀ a m, mask a = some m → ∃ i, ∀ j, m.getLsbD j = true ↔ j = i
  injective : ∀ a b m, mask a = some m → mask b = some m → a = b

/-- The masks of the elements together. -/
def maskOf (mask : α → Option (BitVec w)) (xs : List α) : BitVec w :=
  xs.foldl (fun m x => m ||| (mask x).getD 0) 0

theorem getLsbD_foldl (xs : List α) (m : BitVec w) (j : Nat) :
    (xs.foldl (fun m x => m ||| (mask x).getD 0) m).getLsbD j = true ↔
      m.getLsbD j = true ∨ ∃ x ∈ xs, ((mask x).getD 0).getLsbD j = true := by
  induction xs generalizing m with
  | nil => simp
  | cons x xs ih => rw [List.foldl_cons, ih, BitVec.getLsbD_or, Bool.or_eq_true]; simp [or_assoc]

theorem getLsbD_maskOf (xs : List α) (j : Nat) :
    (maskOf mask xs).getLsbD j = true ↔ ∃ x ∈ xs, ∃ m, mask x = some m ∧ m.getLsbD j = true := by
  rw [maskOf, getLsbD_foldl]
  constructor
  · rintro (h | ⟨x, hx, h⟩)
    · simp at h
    · cases hm : mask x with
      | none => simp [hm] at h
      | some m =>
        rw [hm, Option.getD_some] at h
        exact ⟨x, hx, m, hm, h⟩
  · rintro ⟨x, hx, m, hm, h⟩
    exact .inr ⟨x, hx, by rw [hm]; exact h⟩

theorem maskOf_append (xs ys : List α) :
    maskOf mask (xs ++ ys) = ys.foldl (fun m x => m ||| (mask x).getD 0) (maskOf mask xs) :=
  List.foldl_append

section Own

variable (hmask : OwnBits mask) {xs ys : List α}

include hmask

/-- An element is in a list when its bit is in the mask of the list. -/
theorem mem_iff {a : α} {m : BitVec w} (ha : mask a = some m) {i : Nat}
    (hi : m.getLsbD i = true) : (maskOf mask ys).getLsbD i = true ↔ a ∈ ys := by
  rcases hmask.one_bit a m ha with ⟨i', hbits⟩
  obtain rfl := (hbits i).mp hi
  rw [getLsbD_maskOf]
  constructor
  · rintro ⟨y, hy, m', hm', hbit⟩
    rcases hmask.one_bit y m' hm' with ⟨i'', hbits'⟩
    obtain rfl := (hbits' i).mp hbit
    have heq : m' = m := by
      refine BitVec.eq_of_getLsbD_eq fun j _ => ?_
      rw [Bool.eq_iff_iff, hbits, hbits']
    subst heq
    rw [hmask.injective a y m' ha hm']
    exact hy
  · intro hmem
    exact ⟨a, hmem, m, ha, hi⟩

theorem subset_iff (hxs : ∀ x ∈ xs, (mask x).isSome = true) :
    maskOf mask xs &&& maskOf mask ys = maskOf mask xs ↔ ∀ x ∈ xs, x ∈ ys := by
  constructor
  · intro h x hx
    rcases Option.isSome_iff_exists.mp (hxs x hx) with ⟨m, hm⟩
    rcases hmask.one_bit x m hm with ⟨i, hbits⟩
    have hi := (hbits i).mpr rfl
    have hbit : (maskOf mask xs).getLsbD i = true := (mem_iff hmask hm hi).mpr hx
    rw [← h, BitVec.getLsbD_and, Bool.and_eq_true] at hbit
    exact (mem_iff hmask hm hi).mp hbit.2
  · intro h
    refine BitVec.eq_of_getLsbD_eq fun j _ => ?_
    rw [BitVec.getLsbD_and, Bool.eq_iff_iff, Bool.and_eq_true, and_iff_left_iff_imp]
    intro hj
    rcases (getLsbD_maskOf xs j).mp hj with ⟨x, hx, m, hm, hbit⟩
    exact (mem_iff hmask hm hbit).mpr (h x hx)

theorem disjoint_iff (hxs : ∀ x ∈ xs, (mask x).isSome = true) :
    maskOf mask xs &&& maskOf mask ys = 0 ↔ ∀ x ∈ xs, x ∉ ys := by
  constructor
  · intro h x hx hmem
    rcases Option.isSome_iff_exists.mp (hxs x hx) with ⟨m, hm⟩
    rcases hmask.one_bit x m hm with ⟨i, hbits⟩
    have hi := (hbits i).mpr rfl
    have hboth : (maskOf mask xs &&& maskOf mask ys).getLsbD i = true := by
      rw [BitVec.getLsbD_and, (mem_iff hmask hm hi).mpr hx, (mem_iff hmask hm hi).mpr hmem]
      rfl
    rw [h] at hboth
    simp at hboth
  · intro h
    refine BitVec.eq_of_getLsbD_eq fun j _ => ?_
    rw [BitVec.getLsbD_and, Bool.eq_iff_iff, Bool.and_eq_true]
    constructor
    · rintro ⟨hj, hj'⟩
      rcases (getLsbD_maskOf xs j).mp hj with ⟨x, hx, m, hm, hbit⟩
      exact absurd ((mem_iff hmask hm hbit).mp hj') (h x hx)
    · intro hzero
      simp at hzero

end Own

end Masks
