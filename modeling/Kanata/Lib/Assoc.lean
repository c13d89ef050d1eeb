import Mathlib.Data.List.Nodup
import Mathlib.Data.List.Perm.Basic

/-!
# Kanata.Lib.Assoc — lists of keys and values as finite maps

A list of pairs whose keys are distinct is a finite map. `lookup` is membership, so it does
not depend on the order of the pairs.
-/

namespace Assoc

variable {K V : Type} [DecidableEq K]

theorem lookup_eq_none {l : List (K × V)} {k : K} :
    l.lookup k = none ↔ k ∉ l.map Prod.fst := by
  rw [List.lookup_eq_none_iff]
  simp only [bne_iff_ne, List.mem_map, not_exists, not_and]
  exact ⟨fun h p hp heq => h p hp heq.symm, fun h p hp heq => h p hp heq.symm⟩

theorem lookup_concat (l : List (K × V)) (i k : K) (v : V) :
    (l ++ [(i, v)]).lookup k = (l.lookup k).or (if k = i then some v else none) := by
  rw [List.lookup_append]
  congr 1
  by_cases h : k = i
  · rw [if_pos h, h, List.lookup_cons_self]
  · rw [if_neg h, List.lookup_cons, beq_false_of_ne h]
    rfl

/-- A key that is not there yet can be added at the end. -/
theorem lookup_concat_self {l : List (K × V)} {i : K} (hfresh : i ∉ l.map Prod.fst) (v : V) :
    (l ++ [(i, v)]).lookup i = some v := by
  rw [lookup_concat, lookup_eq_none.mpr hfresh, if_pos rfl]
  rfl

theorem lookup_concat_of_ne {l : List (K × V)} {i k : K} (hne : k ≠ i) (v : V) :
    (l ++ [(i, v)]).lookup k = l.lookup k := by
  rw [lookup_concat, if_neg hne, Option.or_none]

theorem mem_of_lookup {l : List (K × V)} {k : K} {v : V} (h : l.lookup k = some v) :
    (k, v) ∈ l := by
  rcases List.lookup_eq_some_iff.mp h with ⟨l₁, l₂, rfl, -⟩
  exact List.mem_append_right _ List.mem_cons_self

theorem lookup_eq_some {l : List (K × V)} (hnodup : (l.map Prod.fst).Nodup) {k : K} {v : V} :
    l.lookup k = some v ↔ (k, v) ∈ l := by
  induction l with
  | nil => simp
  | cons p l ih =>
    rw [List.map_cons, List.nodup_cons] at hnodup
    rw [List.lookup_cons, List.mem_cons]
    by_cases h : k = p.1
    · subst h
      have hout : ∀ v, (p.1, v) ∉ l := fun v hmem =>
        hnodup.1 (List.mem_map.mpr ⟨_, hmem, rfl⟩)
      simp [hout, Prod.ext_iff, eq_comm]
    · rw [beq_false_of_ne h]
      simp only [ih hnodup.2, Prod.ext_iff, h, false_and, false_or]

/-- The order does not matter. -/
theorem lookup_perm {l l' : List (K × V)} (hperm : l.Perm l')
    (hnodup : (l.map Prod.fst).Nodup) (k : K) : l.lookup k = l'.lookup k := by
  have hnodup' : (l'.map Prod.fst).Nodup := (hperm.map Prod.fst).nodup_iff.mp hnodup
  refine Option.ext fun v => ?_
  rw [lookup_eq_some hnodup, lookup_eq_some hnodup', hperm.mem_iff]

end Assoc
