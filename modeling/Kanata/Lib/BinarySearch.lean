import Mathlib.Data.List.Basic
import Mathlib.Order.Compare
import Mathlib.Order.Lattice

/-!
# Kanata.Lib.BinarySearch — binary search of a sorted list

`searchBy compare xs` is the search of a slice with a comparison of its elements
with what is looked for. It answers the index of an element that compares equal, or
the index where such an element could be inserted.

* `searchBy_ok`: what is found compares equal;
* `searchBy_error`: in a list that ascends for the comparison, the elements before the
  answer are less and the others greater, so that none compares equal;
* `search_ok`, `SortedBy.search_error`: the same for a list sorted by a key.
-/

namespace BinarySearch

variable {α : Type}

/-- How the element at an index compares. No index outside of the list is asked for. -/
def probe (compare : α → Ordering) (xs : List α) (i : Nat) : Ordering :=
  match xs[i]? with
  | some x => compare x
  | none => .gt

/-- The window of `size` indices from `base` on is halved until one index is left. -/
def narrow (probe : Nat → Ordering) : Nat → Nat → Nat → Nat
  | 0, _, base => base
  | fuel + 1, size, base =>
    if size ≤ 1 then base
    else
      let half := size / 2
      let mid := base + half
      narrow probe fuel (size - half) (if probe mid = .gt then base else mid)

def searchBy (compare : α → Ordering) (xs : List α) : Except Nat Nat :=
  if xs.length = 0 then .error 0
  else
    let base := narrow (probe compare xs) xs.length xs.length 0
    match probe compare xs base with
    | .eq => .ok base
    | .lt => .error (base + 1)
    | .gt => .error base

/-- First the lesser elements, then the equal ones, then the greater ones. -/
def Ascending (compare : α → Ordering) (xs : List α) : Prop :=
  xs.Pairwise fun x y => (compare x = .gt → compare y = .gt) ∧ (compare y = .lt → compare x = .lt)

section Search

variable {compare : α → Ordering} {xs : List α}

/-- An index that compares less comes after such indices only, and one that compares
greater before such indices only. -/
theorem Ascending.probe (h : Ascending compare xs) {i j : Nat} (hij : i < j) (hj : j < xs.length) :
    (probe compare xs i = .gt → probe compare xs j = .gt) ∧
      (probe compare xs j = .lt → probe compare xs i = .lt) := by
  have hi : i < xs.length := Nat.lt_trans hij hj
  simp only [BinarySearch.probe, List.getElem?_eq_getElem hi, List.getElem?_eq_getElem hj]
  exact List.pairwise_iff_getElem.mp h i j hi hj hij

/-- The search keeps a window with these properties. -/
structure Window (f : Nat → Ordering) (n base size : Nat) : Prop where
  nonempty : 0 < size
  inside : base + size ≤ n
  left : base = 0 ∨ f base ≠ .gt
  right : ∀ j, base + size ≤ j → j < n → f j = .gt

theorem narrow_window {f : Nat → Ordering} {n : Nat}
    (hf : ∀ i j, i < j → j < n → f i = .gt → f j = .gt) :
    ∀ {fuel size base : Nat}, size ≤ fuel + 1 → Window f n base size →
      Window f n (narrow f fuel size base) 1
  | 0, size, base, hfuel, hw => by
    have hsize : size = 1 := by
      have := hw.nonempty
      omega
    rwa [hsize] at hw
  | fuel + 1, size, base, hfuel, hw => by
    unfold narrow
    split
    · next hsize =>
      have hsize : size = 1 := by
        have := hw.nonempty
        omega
      rwa [hsize] at hw
    · next hsize =>
      have hinside := hw.inside
      refine narrow_window hf (by omega) ?_
      split
      · -- the greater half is left out
        next hgt =>
        refine ⟨by omega, by omega, hw.left, fun j hj hjn => ?_⟩
        rcases Nat.lt_or_ge (base + size / 2) j with hlt | hge
        · exact hf _ j hlt hjn hgt
        · have : j = base + size / 2 := by omega
          rwa [this]
      · next hgt =>
        refine ⟨by omega, by omega, .inr hgt, fun j hj hjn => hw.right j (by omega) hjn⟩

theorem narrow_searchBy (h : Ascending compare xs) (hxs : 0 < xs.length) :
    Window (probe compare xs) xs.length (narrow (probe compare xs) xs.length xs.length 0) 1 := by
  refine narrow_window (fun i j hij hj => (h.probe hij hj).1) (by omega) ?_
  exact ⟨hxs, by omega, .inl rfl, fun j hj hjn => by omega⟩

theorem searchBy_ok {i : Nat} (h : searchBy compare xs = .ok i) :
    ∃ pre x post, xs = pre ++ x :: post ∧ pre.length = i ∧ compare x = .eq := by
  unfold searchBy at h
  split at h
  · cases h
  · dsimp only at h
    split at h
    · next heq =>
      cases h
      generalize narrow (probe compare xs) xs.length xs.length 0 = base at heq ⊢
      have hbase : base < xs.length := by
        by_contra hge
        rw [probe, List.getElem?_eq_none (by omega)] at heq
        cases heq
      rw [probe, List.getElem?_eq_getElem hbase] at heq
      refine ⟨xs.take base, xs[base], xs.drop (base + 1), ?_, ?_, heq⟩
      · rw [← List.drop_eq_getElem_cons hbase, List.take_append_drop]
      · rw [List.length_take, Nat.min_eq_left (Nat.le_of_lt hbase)]
    · cases h
    · cases h

/-- The elements of a list on the two sides of an index. -/
theorem split_at_index {i : Nat} (hi : i ≤ xs.length)
    (hless : ∀ j, j < i → probe compare xs j = .lt)
    (hgreater : ∀ j, i ≤ j → j < xs.length → probe compare xs j = .gt) :
    ∃ pre post, xs = pre ++ post ∧ pre.length = i ∧ (∀ x ∈ pre, compare x = .lt) ∧
      ∀ x ∈ post, compare x = .gt := by
  refine ⟨xs.take i, xs.drop i, (List.take_append_drop i xs).symm, ?_, ?_, ?_⟩
  · rw [List.length_take, Nat.min_eq_left hi]
  · intro x hx
    rcases List.mem_take_iff_getElem.mp hx with ⟨j, hj, rfl⟩
    have := hless j (by omega)
    rwa [probe, List.getElem?_eq_getElem (by omega)] at this
  · intro x hx
    rcases List.mem_drop_iff_getElem.mp hx with ⟨j, hj, rfl⟩
    have := hgreater (i + j) (by omega) (by omega)
    rwa [probe, List.getElem?_eq_getElem (by omega)] at this

theorem searchBy_error (hasc : Ascending compare xs) {i : Nat}
    (h : searchBy compare xs = .error i) :
    ∃ pre post, xs = pre ++ post ∧ pre.length = i ∧ (∀ x ∈ pre, compare x = .lt) ∧
      ∀ x ∈ post, compare x = .gt := by
  unfold searchBy at h
  split at h
  · next hnil =>
    cases h
    exact split_at_index (by omega) (fun j hj => by omega) (fun j _ hj => by omega)
  · next hnil =>
    have hw := narrow_searchBy hasc (by omega)
    dsimp only at h
    generalize narrow (probe compare xs) xs.length xs.length 0 = base at h hw
    have hinside := hw.inside
    split at h
    · cases h
    · next hlt =>
      cases h
      refine split_at_index (by omega) (fun j hj => ?_) fun j hj hjn => hw.right j hj hjn
      rcases Nat.lt_or_ge j base with hlt' | hge
      · exact (hasc.probe hlt' (by omega)).2 hlt
      · have : j = base := by omega
        rwa [this]
    · next hgt =>
      cases h
      -- only the first index may compare greater
      have hfirst : i = 0 := hw.left.resolve_right (not_not_intro hgt)
      refine split_at_index (by omega) (fun j hj => by omega) fun j hj hjn => ?_
      rcases Nat.lt_or_ge i j with hlt' | hge
      · exact hw.right j (by omega) hjn
      · have : j = i := by omega
        rwa [this]

end Search

/-! ## Search for a key -/

section Key

variable {κ : Type} [LinearOrder κ]

/-- The comparison of an element's key with the key looked for. -/
def cmpKey (key : α → κ) (k : κ) (x : α) : Ordering := cmp (key x) k

/-- Sorted by the key, each key once. -/
def SortedBy (key : α → κ) (xs : List α) : Prop := xs.Pairwise fun x y => key x < key y

/-- A list sorted by a key ascends for the comparison with any key. -/
theorem SortedBy.ascending {key : α → κ} {xs : List α} (h : SortedBy key xs) (k : κ) :
    Ascending (cmpKey key k) xs := by
  refine h.imp fun {x y} hlt => ⟨?_, ?_⟩
  · intro hx
    rw [cmpKey, cmp_eq_gt_iff] at hx ⊢
    exact hx.trans hlt
  · intro hy
    rw [cmpKey, cmp_eq_lt_iff] at hy ⊢
    exact hlt.trans hy

theorem search_ok {key : α → κ} {k : κ} {xs : List α} {i : Nat}
    (h : searchBy (cmpKey key k) xs = .ok i) :
    ∃ pre x post, xs = pre ++ x :: post ∧ pre.length = i ∧ key x = k := by
  rcases searchBy_ok h with ⟨pre, x, post, hxs, hi, hx⟩
  exact ⟨pre, x, post, hxs, hi, (cmp_eq_eq_iff _ _).mp hx⟩

theorem SortedBy.search_error {key : α → κ} {k : κ} {xs : List α} (hsorted : SortedBy key xs)
    {i : Nat} (h : searchBy (cmpKey key k) xs = .error i) :
    ∃ pre post, xs = pre ++ post ∧ pre.length = i ∧ (∀ x ∈ pre, key x < k) ∧
      ∀ x ∈ post, k < key x := by
  rcases searchBy_error (hsorted.ascending k) h with ⟨pre, post, hxs, hi, hpre, hpost⟩
  refine ⟨pre, post, hxs, hi, fun x hx => ?_, fun x hx => ?_⟩
  · exact (cmp_eq_lt_iff _ _).mp (hpre x hx)
  · exact (cmp_eq_gt_iff _ _).mp (hpost x hx)

end Key

/-- An element put in at the index behind a prefix. -/
theorem insertIdx_length (pre post : List α) (x : α) :
    (pre ++ post).insertIdx pre.length x = pre ++ x :: post := by
  induction pre with
  | nil => rfl
  | cons y pre ih => exact congrArg (y :: ·) ih

end BinarySearch
