import Mathlib.Data.List.Basic
import Mathlib.Logic.Function.Iterate

/-!
# Kanata.Lib.Rearrange — swaps on a list

`swap` exchanges two elements. `Reads f a b` says which index of `a` each index of
`b` shows, and composes along a chain of rearrangements. `Arranged n a b` says
that `b` is `a` with its first `n` elements in some order, which is what an
algorithm that works on a prefix preserves.
-/

namespace Rearrange

variable {α : Type}

/-- The list with two elements exchanged. Out of bounds it is the list itself. -/
def swap (a : List α) (i j : Nat) : List α :=
  match a[i]?, a[j]? with
  | some x, some y => (a.set i y).set j x
  | _, _ => a

/-- The index that is shown at `x` after a swap. -/
def swapIdx (i j x : Nat) : Nat := if x = i then j else if x = j then i else x

theorem swapIdx_swapIdx (i j x : Nat) : swapIdx i j (swapIdx i j x) = x := by
  unfold swapIdx
  split_ifs <;> omega

section Swap

variable {a : List α} {i j n : Nat}

theorem swap_eq (hi : i < a.length) (hj : j < a.length) :
    swap a i j = (a.set i a[j]).set j a[i] := by
  unfold swap
  rw [List.getElem?_eq_getElem hi, List.getElem?_eq_getElem hj]

theorem length_swap : (swap a i j).length = a.length := by
  unfold swap
  split <;> simp

theorem getElem?_swap (hi : i < a.length) (hj : j < a.length) (x : Nat) :
    (swap a i j)[x]? = a[swapIdx i j x]? := by
  rw [swap_eq hi hj]
  unfold swapIdx
  by_cases hxi : x = i
  · subst hxi
    by_cases hxj : x = j
    · subst hxj
      simp [hi]
    · rw [List.getElem?_set_ne (Ne.symm hxj), List.getElem?_set_self hi, if_pos rfl,
        List.getElem?_eq_getElem hj]
  · rw [if_neg hxi]
    by_cases hxj : x = j
    · subst hxj
      rw [List.getElem?_set_self (by simpa using hj), if_pos rfl, List.getElem?_eq_getElem hi]
    · rw [List.getElem?_set_ne (Ne.symm hxj), List.getElem?_set_ne (Ne.symm hxi), if_neg hxj]

end Swap

/-! ## Which index is where -/

/-- What `b` shows at `x` is what `a` has at `f x`. -/
def Reads (f : Nat → Nat) (a b : List α) : Prop := ∀ x, b[x]? = a[f x]?

theorem Reads.refl (a : List α) : Reads id a a := fun _ => rfl

theorem Reads.trans {f g : Nat → Nat} {a b c : List α} (h : Reads f a b) (h' : Reads g b c) :
    Reads (f ∘ g) a c := fun x => (h' x).trans (h (g x))

theorem Reads.congr {f g : Nat → Nat} {a b : List α} (h : Reads f a b) (hfg : ∀ x, f x = g x) :
    Reads g a b := fun x => by rw [h x, hfg x]

theorem reads_swap {a : List α} {i j : Nat} (hi : i < a.length) (hj : j < a.length) :
    Reads (swapIdx i j) a (swap a i j) := getElem?_swap hi hj

/-! ## Rearranged prefixes -/

/-- `b` is `a` with its first `n` elements in some order. -/
structure Arranged (n : Nat) (a b : List α) : Prop where
  prefix_perm : (b.take n).Perm (a.take n)
  rest : b.drop n = a.drop n

namespace Arranged

variable {a b c : List α} {i j m n : Nat}

theorem refl (n : Nat) (a : List α) : Arranged n a a := ⟨List.Perm.refl _, rfl⟩

theorem trans (h : Arranged n a b) (h' : Arranged n b c) : Arranged n a c :=
  ⟨h'.prefix_perm.trans h.prefix_perm, h'.rest.trans h.rest⟩

theorem symm (h : Arranged n a b) : Arranged n b a := ⟨h.prefix_perm.symm, h.rest.symm⟩

theorem perm (h : Arranged n a b) : b.Perm a := by
  rw [← List.take_append_drop n b, ← List.take_append_drop n a, h.rest]
  exact h.prefix_perm.append_right _

theorem length_eq (h : Arranged n a b) : b.length = a.length := h.perm.length_eq

/-- A longer prefix is in some order as well. -/
theorem mono (h : Arranged n a b) (hle : n ≤ m) : Arranged m a b := by
  have hsplit : ∀ l : List α, l.take m = l.take n ++ (l.drop n).take (m - n) := by
    intro l
    have hm : n + (m - n) = m := by omega
    rw [← List.take_add, hm]
  constructor
  · rw [hsplit a, hsplit b, h.rest]
    exact h.prefix_perm.append_right _
  · have hm : n + (m - n) = m := by omega
    rw [← hm, ← List.drop_drop, ← List.drop_drop, h.rest]

theorem swap (hi : i < n) (hj : j < n) (hn : n ≤ a.length) :
    Arranged n a (Rearrange.swap a i j) := by
  have hi' : i < a.length := Nat.lt_of_lt_of_le hi hn
  have hj' : j < a.length := Nat.lt_of_lt_of_le hj hn
  rw [swap_eq hi' hj']
  constructor
  · have hlen : (a.take n).length = n := by
      rw [List.length_take]
      omega
    have hperm := @List.set_set_perm _ (a.take n) i j (by omega) (by omega)
    rw [List.getElem_take, List.getElem_take] at hperm
    rw [List.take_set, List.take_set]
    exact hperm
  · rw [List.drop_set_of_lt hj, List.drop_set_of_lt hi]

/-- With the same element behind it, the shorter prefix is in some order. -/
theorem shrink (h : Arranged (n + 1) a b) (hn : n < a.length) (hlast : b[n]? = a[n]?) :
    Arranged n a b := by
  have hb : n < b.length := by
    rw [h.length_eq]
    exact hn
  have hx : b[n] = a[n] := by
    rw [List.getElem?_eq_getElem hb, List.getElem?_eq_getElem hn] at hlast
    exact Option.some.inj hlast
  constructor
  · have hperm := h.prefix_perm
    rw [List.take_add_one, List.take_add_one, hlast] at hperm
    exact (List.perm_append_right_iff _).mp hperm
  · rw [List.drop_eq_getElem_cons hb, List.drop_eq_getElem_cons hn, hx, h.rest]

end Arranged

/-! ## Cycles -/

/-- Along a cycle of `m + 1` indices each of them comes back. -/
theorem iterate_cycle {f c : Nat → Nat} {m : Nat} (hstep : ∀ j < m, f (c j) = c (j + 1))
    (hlast : f (c m) = c 0) {j : Nat} (hj : j ≤ m) :
    (∀ i, j + i ≤ m → f^[i] (c j) = c (j + i)) ∧ f^[m + 1] (c j) = c j := by
  have hrun : ∀ i j, j + i ≤ m → f^[i] (c j) = c (j + i) := by
    intro i
    induction i with
    | zero =>
      intro j _
      rfl
    | succ i ih =>
      intro j hij
      rw [Function.iterate_succ_apply', ih j (by omega), hstep (j + i) (by omega)]
      rfl
  refine ⟨fun i hi => hrun i j hi, ?_⟩
  -- to the end of the cycle, once around, and on to where it started
  have hsplit : m + 1 = j + (1 + (m - j)) := by omega
  have hend : j + (m - j) = m := by omega
  rw [hsplit, Function.iterate_add_apply, Function.iterate_add_apply, hrun (m - j) j (by omega),
    hend, Function.iterate_one, hlast, hrun j 0 (by omega), Nat.zero_add]

end Rearrange
