import Mathlib.Data.List.Perm.Basic

/-!
# Kanata.Lib.StableSort — sorting a list whose comparison agrees with a rank

A comparison may be an order on the elements of one list and not on the whole
type. `Ranked le rank xs` says that on `xs` it compares ranks. Then the merge sort
by `le` orders `xs` by rank and keeps the order of elements of one rank.
-/

namespace StableSort

variable {α β : Type} {le : α → α → Bool} {rank : α → Nat} {xs : List α}

/-- On the elements of the list, the comparison is that of the ranks. -/
def Ranked (le : α → α → Bool) (rank : α → Nat) (xs : List α) : Prop :=
  ∀ a ∈ xs, ∀ b ∈ xs, le a b = decide (rank a ≤ rank b)

theorem mergeSort_eq_of_ranked (h : Ranked le rank xs) :
    xs.mergeSort le = xs.mergeSort fun a b => decide (rank a ≤ rank b) := by
  have hmap := List.map_mergeSort (r := le) (s := fun a b => decide (rank a ≤ rank b)) (f := id)
    (l := xs) h
  rwa [List.map_id, List.map_id] at hmap

theorem pairwise_of_ranked (h : Ranked le rank xs) :
    (xs.mergeSort le).Pairwise fun a b => rank a ≤ rank b := by
  rw [mergeSort_eq_of_ranked h]
  have htrans : ∀ a b c, decide (rank a ≤ rank b) = true → decide (rank b ≤ rank c) = true →
      decide (rank a ≤ rank c) = true := by
    intro a b c hab hbc
    simp only [decide_eq_true_eq] at hab hbc ⊢
    exact Nat.le_trans hab hbc
  have htotal : ∀ a b, (decide (rank a ≤ rank b) || decide (rank b ≤ rank a)) = true := by
    intro a b
    simp only [Bool.or_eq_true, decide_eq_true_eq]
    exact Nat.le_total (rank a) (rank b)
  have hsorted := List.pairwise_mergeSort htrans htotal xs
  simpa only [decide_eq_true_eq] using hsorted

/-- Elements in the order of their ranks stay in their order. -/
theorem sublist_of_ranked {ys : List α} (h : Ranked le rank xs)
    (hys : ys.Pairwise fun a b => rank a ≤ rank b) (hsub : ys.Sublist xs) :
    ys.Sublist (xs.mergeSort le) := by
  rw [mergeSort_eq_of_ranked h]
  refine List.sublist_mergeSort ?_ ?_ ?_ hsub
  · intro a b c hab hbc
    simp only [decide_eq_true_eq] at hab hbc ⊢
    exact Nat.le_trans hab hbc
  · intro a b
    simp only [Bool.or_eq_true, decide_eq_true_eq]
    exact Nat.le_total (rank a) (rank b)
  · simpa only [decide_eq_true_eq] using hys

/-- A selection whose elements have one rank is not reordered. -/
theorem filter_of_ranked (h : Ranked le rank xs) {p : α → Bool}
    (hp : ∀ a ∈ xs, ∀ b ∈ xs, p a = true → p b = true → rank a = rank b) :
    (xs.mergeSort le).filter p = xs.filter p := by
  have hrank : (xs.filter p).Pairwise fun a b => rank a ≤ rank b := by
    refine List.pairwise_of_forall_mem_list ?_
    intro a ha b hb
    rcases List.mem_filter.mp ha with ⟨ha, hpa⟩
    rcases List.mem_filter.mp hb with ⟨hb, hpb⟩
    exact Nat.le_of_eq (hp a ha b hb hpa hpb)
  have hsub := (sublist_of_ranked h hrank List.filter_sublist).filter p
  rw [List.filter_filter] at hsub
  simp only [Bool.and_self] at hsub
  have hlen : (xs.filter p).length = ((xs.mergeSort le).filter p).length :=
    ((List.mergeSort_perm xs le).filter p).length_eq.symm
  exact (hsub.eq_of_length hlen).symm

/-- In a list ordered by rank, a lower rank comes first. -/
theorem pair_sublist_of_lt {ys : List α} (h : ys.Pairwise fun a b => rank a ≤ rank b) {a b : α}
    (ha : a ∈ ys) (hb : b ∈ ys) (hlt : rank a < rank b) : [a, b].Sublist ys := by
  rcases List.append_of_mem hb with ⟨before, after, rfl⟩
  have hbefore : a ∈ before := by
    rcases List.mem_append.mp ha with ha | ha
    · exact ha
    · rcases List.mem_cons.mp ha with rfl | ha
      · exact absurd hlt (Nat.lt_irrefl _)
      · have hle := (List.pairwise_cons.mp (List.pairwise_append.mp h).2.1).1 a ha
        exact absurd hlt (Nat.not_lt.mpr hle)
  exact (List.singleton_sublist.mpr hbefore).append
    (List.singleton_sublist.mpr List.mem_cons_self)

end StableSort
