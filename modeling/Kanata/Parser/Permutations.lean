import Mathlib.Data.List.Perm.Subperm
import Mathlib.Data.List.Permutation
import Kanata.Lib.Fallible
import Kanata.Lib.Rearrange
import Kanata.Basic

/-!
# Kanata.Parser.Permutations — Heap's algorithm

`parser/src/cfg/permutations.rs`. The calls of one level of the recursion differ
in the array they start with (`stage`), and a level leaves the array in an order
that depends on its parity only (`finalIdx`): it exchanges the first and the last
element, or it goes around a cycle.

* `genPermutationsChecked_eq`: no index is out of bounds;
* `mem_genPermutations`: the orders that come out are all there are;
* `everyOrderOnce_genPermutations`: and each comes out once. There are as many as there
  are orders (`length_visited`), and none is missing.
-/

namespace Kanata

open Fallible Rearrange

variable {T : Type}

/-- The swap before call number `i + 1`, in a prefix of `k + 2` elements. -/
def swapFor (k i : Nat) (a : List T) : List T :=
  if (k + 2) % 2 = 0 then swap a i (k + 1) else swap a 0 (k + 1)

/-- `heaps_alg` for one more than `k` elements: the array afterwards and the
outputs. -/
def heapsAlg : Nat → List T → List (List T) → List T × List (List T)
  | 0, a, outs => (a, outs ++ [a])
  | k + 1, a, outs =>
    (List.range (k + 1)).foldl (fun s i => heapsAlg k (swapFor k i s.1) s.2) (heapsAlg k a outs)

/-- `gen_permutations`. The source is not called with an empty list. -/
def genPermutations (a : List T) : List (List T) := (heapsAlg (a.length - 1) a []).2

/-! ## Levels of the recursion -/

/-- The array after a level. -/
def final (k : Nat) (a : List T) : List T := (heapsAlg k a []).1

/-- The outputs of a level. -/
def visited (k : Nat) (a : List T) : List (List T) := (heapsAlg k a []).2

/-- The array before call number `i` of the level below. -/
def stage (k : Nat) (a : List T) : Nat → List T
  | 0 => a
  | i + 1 => swapFor k i (final k (stage k a i))

/-- Outputs are only ever appended. -/
theorem heapsAlg_eq (k : Nat) : ∀ (a : List T) (outs : List (List T)),
    heapsAlg k a outs = (final k a, outs ++ visited k a) := by
  induction k with
  | zero =>
    intro a outs
    rfl
  | succ k ih =>
    let round := fun (s : List T × List (List T)) (i : Nat) => heapsAlg k (swapFor k i s.1) s.2
    have hfold : ∀ (is : List Nat) (a : List T) (outs outs' : List (List T)),
        is.foldl round (a, outs ++ outs') =
          ((is.foldl round (a, outs')).1, outs ++ (is.foldl round (a, outs')).2) := by
      intro is
      induction is with
      | nil =>
        intro a outs outs'
        rfl
      | cons i is ihs =>
        intro a outs outs'
        have hround : ∀ outs, round (a, outs) i =
            (final k (swapFor k i a), outs ++ visited k (swapFor k i a)) := fun _ => ih _ _
        rw [List.foldl_cons, List.foldl_cons, hround, hround, List.append_assoc]
        exact ihs _ outs _
    intro a outs
    have hnone := hfold (List.range (k + 1)) (final k a) outs (visited k a)
    have hstart : heapsAlg k a outs = (final k a, outs ++ visited k a) := ih a outs
    have hempty : heapsAlg k a [] = (final k a, visited k a) := ih a []
    unfold final visited heapsAlg
    rw [hstart, hempty]
    exact hnone

theorem visited_zero (a : List T) : visited 0 a = [a] := rfl

theorem heapsAlg_range (k : Nat) (a : List T) (n : Nat) :
    (List.range n).foldl (fun s i => heapsAlg k (swapFor k i s.1) s.2) (heapsAlg k a []) =
      (final k (stage k a n), (List.range (n + 1)).flatMap fun i => visited k (stage k a i)) := by
  induction n with
  | zero =>
    rw [heapsAlg_eq]
    simp [stage]
  | succ n ih =>
    have hstage : stage k a (n + 1) = swapFor k n (final k (stage k a n)) := rfl
    rw [List.range_succ, List.foldl_append, ih]
    simp only [List.foldl_cons, List.foldl_nil]
    rw [heapsAlg_eq, ← hstage, List.range_succ (n := n + 1), List.flatMap_append,
      List.flatMap_singleton]

theorem final_succ (k : Nat) (a : List T) : final (k + 1) a = final k (stage k a (k + 1)) := by
  have h := congrArg Prod.fst (heapsAlg_range k a (k + 1))
  exact h

theorem visited_succ (k : Nat) (a : List T) :
    visited (k + 1) a = (List.range (k + 2)).flatMap fun i => visited k (stage k a i) := by
  have h := congrArg Prod.snd (heapsAlg_range k a (k + 1))
  exact h

/-! ## Only the prefix moves -/

theorem arranged_stage {k : Nat}
    (hfinal : ∀ a : List T, k < a.length → Arranged (k + 1) a (final k a))
    {a : List T} (ha : k + 1 < a.length) {i : Nat} (hi : i ≤ k + 1) :
    Arranged (k + 2) a (stage k a i) := by
  induction i with
  | zero => exact .refl _ _
  | succ i ih =>
    have hstage := ih (by omega)
    have hlen := hstage.length_eq
    have hnext := hstage.trans ((hfinal _ (by omega)).mono (Nat.le_succ _))
    unfold stage swapFor
    split
    · exact hnext.trans (.swap (by omega) (by omega) (by rw [hnext.length_eq]; omega))
    · exact hnext.trans (.swap (by omega) (by omega) (by rw [hnext.length_eq]; omega))

theorem arranged_final (k : Nat) : ∀ a : List T, k < a.length → Arranged (k + 1) a (final k a) := by
  induction k with
  | zero =>
    intro a _
    exact .refl _ _
  | succ k ih =>
    intro a ha
    have hstage := arranged_stage ih ha (Nat.le_refl (k + 1))
    rw [final_succ]
    exact hstage.trans ((ih _ (by rw [hstage.length_eq]; omega)).mono (Nat.le_succ _))

theorem arranged_of_mem_visited (k : Nat) : ∀ a : List T, k < a.length →
    ∀ b ∈ visited k a, Arranged (k + 1) a b := by
  induction k with
  | zero =>
    intro a _ b hb
    rw [visited_zero, List.mem_singleton] at hb
    rw [hb]
    exact .refl _ _
  | succ k ih =>
    intro a ha b hb
    rw [visited_succ, List.mem_flatMap] at hb
    rcases hb with ⟨i, hi, hb⟩
    have hstage := arranged_stage (arranged_final k) ha
      (Nat.le_of_lt_succ (List.mem_range.mp hi))
    exact hstage.trans ((ih _ (by rw [hstage.length_eq]; omega) b hb).mono (Nat.le_succ _))

/-! ## Where the elements are -/

/-- The index that `final k` shows at `x`. -/
def finalIdx (k x : Nat) : Nat :=
  if k % 2 = 0 then swapIdx 0 k x
  else if x = k then 0
  else if x + 1 = k then k
  else if x = 0 then k - 2
  else if x = 1 then k - 1
  else if x < k then x - 1
  else x

/-- The index that `stage k a i` shows at `x`, for an even number of elements. -/
def evenStageIdx (m i x : Nat) : Nat :=
  if i = 0 then x
  else if i = m then
    if x = 0 then m else if x = m then 0 else if x = 1 then m - 1 else if x < m then x - 1 else x
  else if x = 0 then if i % 2 = 1 then m else 0
  else if x + 1 = m then if i % 2 = 1 then 0 else m
  else if x = m then if i = 1 then m - 1 else i - 1
  else if m < x then x
  else if i ≤ x then x
  else if x = 1 then m - 1
  else x - 1

/-- One round for an odd number of elements. -/
def oddRound (m x : Nat) : Nat := finalIdx (m - 1) (swapIdx 0 m x)

/-- The cycle that `oddRound` goes around. -/
def oddCycle (m j : Nat) : Nat :=
  if j = 0 then m
  else if j = m then 0
  else if j + 1 = m then m - 1
  else if j + 2 = m then m - 2
  else m - 2 - j

theorem evenStageIdx_succ {m i : Nat} (hm : m % 2 = 1) (hi : i < m) (x : Nat) :
    evenStageIdx m (i + 1) x = evenStageIdx m i (finalIdx (m - 1) (swapIdx i m x)) := by
  have hfinal : ∀ y, finalIdx (m - 1) y = swapIdx 0 (m - 1) y := by
    intro y
    unfold finalIdx
    rw [if_pos (by omega)]
  rw [hfinal]
  by_cases h0 : i = 0
  · subst h0
    grind [evenStageIdx, swapIdx]
  · -- the two swaps move four indices at most
    by_cases hi' : x = i
    · have hx : swapIdx 0 (m - 1) (swapIdx i m x) = m := by grind [swapIdx]
      rw [hx]
      grind [evenStageIdx]
    by_cases hm' : x = m
    · have hx : swapIdx 0 (m - 1) (swapIdx i m x) = if i + 1 = m then 0 else i := by
        grind [swapIdx]
      rw [hx]
      grind [evenStageIdx]
    by_cases hzero : x = 0
    · have hx : swapIdx 0 (m - 1) (swapIdx i m x) = m - 1 := by grind [swapIdx]
      rw [hx]
      grind [evenStageIdx]
    by_cases hlast : x + 1 = m
    · have hx : swapIdx 0 (m - 1) (swapIdx i m x) = 0 := by grind [swapIdx]
      rw [hx]
      grind [evenStageIdx]
    · have hx : swapIdx 0 (m - 1) (swapIdx i m x) = x := by grind [swapIdx]
      rw [hx]
      grind [evenStageIdx]

theorem oddRound_cycle {m : Nat} (hm : m % 2 = 0) (hpos : 0 < m) :
    (∀ j < m, oddRound m (oddCycle m j) = oddCycle m (j + 1)) ∧
      oddRound m (oddCycle m m) = oddCycle m 0 := by
  have hpar : ¬ (m - 1) % 2 = 0 := by omega
  -- inside the cycle the swap does not matter
  have hinner : ∀ x, x ≠ 0 → x ≠ m → oddRound m x = finalIdx (m - 1) x := by
    intro x h0 hm'
    have hx : swapIdx 0 m x = x := by grind [swapIdx]
    unfold oddRound
    rw [hx]
  constructor
  · intro j hj
    by_cases hzero : j = 0
    · subst hzero
      grind [oddRound, finalIdx, oddCycle, swapIdx]
    by_cases hlast : j + 1 = m
    · have hc : oddCycle m j = m - 1 := by grind [oddCycle]
      rw [hc, hinner _ (by omega) (by omega)]
      grind [finalIdx, oddCycle]
    by_cases hlast' : j + 2 = m
    · have hc : oddCycle m j = m - 2 := by grind [oddCycle]
      rw [hc, hinner _ (by omega) (by omega)]
      grind [finalIdx, oddCycle]
    · have hc : oddCycle m j = m - 2 - j := by grind [oddCycle]
      rw [hc, hinner _ (by omega) (by omega)]
      grind [finalIdx, oddCycle]
  · grind [oddRound, finalIdx, oddCycle, swapIdx]

theorem oddRound_beyond {m x : Nat} (hx : m < x) : oddRound m x = x := by
  have hswap : swapIdx 0 m x = x := by grind [swapIdx]
  unfold oddRound
  rw [hswap]
  grind [finalIdx, swapIdx]

/-- Every index of the prefix is on the cycle. -/
theorem exists_oddCycle {m x : Nat} (hx : x ≤ m) : ∃ j ≤ m, oddCycle m j = x := by
  by_cases hm : x = m
  · exact ⟨0, Nat.zero_le m, by grind [oddCycle]⟩
  by_cases hzero : x = 0
  · exact ⟨m, Nat.le_refl m, by grind [oddCycle]⟩
  by_cases hlast : x + 1 = m
  · exact ⟨m - 1, by omega, by grind [oddCycle]⟩
  by_cases hlast' : x + 2 = m
  · exact ⟨m - 2, by omega, by grind [oddCycle]⟩
  · exact ⟨m - 2 - x, by omega, by grind [oddCycle]⟩

/-- What each level does to the array, and what the level above starts its calls
with. -/
theorem reads_stage {k : Nat}
    (hfinal : ∀ a : List T, k < a.length → Reads (finalIdx k) a (final k a)) {a : List T}
    (ha : k + 1 < a.length) {i : Nat} (hi : i ≤ k + 1) :
    Reads (if (k + 1) % 2 = 1 then evenStageIdx (k + 1) i else (oddRound (k + 1))^[i]) a
      (stage k a i) := by
  induction i with
  | zero =>
    refine (Reads.refl a).congr ?_
    intro x
    split
    · rfl
    · rfl
  | succ i ih =>
    have hstage := ih (by omega)
    have hlen := (arranged_stage (arranged_final k) ha (show i ≤ k + 1 by omega)).length_eq
    have hcall := hstage.trans (hfinal (stage k a i) (by omega))
    have hlen' : (final k (stage k a i)).length = a.length := by
      rw [(arranged_final k (stage k a i) (by omega)).length_eq, hlen]
    unfold stage swapFor
    by_cases hpar : (k + 1) % 2 = 1
    · rw [if_pos hpar] at hcall
      rw [if_pos hpar, if_pos (by omega)]
      refine (hcall.trans (reads_swap (by omega) (by omega))).congr ?_
      intro x
      exact (evenStageIdx_succ hpar (by omega) x).symm
    · rw [if_neg hpar] at hcall
      rw [if_neg hpar, if_neg (by omega)]
      refine (hcall.trans (reads_swap (by omega) (by omega))).congr ?_
      intro x
      exact (Function.iterate_succ_apply _ i x).symm

theorem reads_final (k : Nat) : ∀ a : List T, k < a.length → Reads (finalIdx k) a (final k a) := by
  induction k with
  | zero =>
    intro a _
    refine (Reads.refl a).congr ?_
    intro x
    grind [finalIdx, swapIdx]
  | succ k ih =>
    intro a ha
    have hstage := reads_stage ih ha (Nat.le_refl (k + 1))
    have hlen := (arranged_stage (arranged_final k) ha (Nat.le_refl (k + 1))).length_eq
    rw [final_succ]
    refine (hstage.trans (ih _ (by omega))).congr ?_
    intro x
    simp only [Function.comp]
    by_cases hpar : (k + 1) % 2 = 1
    · rw [if_pos hpar]
      have hk : finalIdx k x = swapIdx 0 k x := by
        unfold finalIdx
        rw [if_pos (by omega)]
      rw [hk]
      grind [evenStageIdx, finalIdx, swapIdx]
    · rw [if_neg hpar]
      -- once around the cycle but for the last swap
      have hround : finalIdx k x = oddRound (k + 1) (swapIdx 0 (k + 1) x) := by
        unfold oddRound
        rw [swapIdx_swapIdx]
        rfl
      rcases oddRound_cycle (m := k + 1) (by omega) (Nat.succ_pos k) with ⟨hcycle, hlast⟩
      have hback : ∀ y, (oddRound (k + 1))^[k + 2] y = y := by
        intro y
        by_cases hy : y ≤ k + 1
        · rcases exists_oddCycle hy with ⟨j, hj, rfl⟩
          exact (iterate_cycle hcycle hlast hj).2
        · exact Function.iterate_fixed (oddRound_beyond (by omega)) _
      have hswap : finalIdx (k + 1) x = swapIdx 0 (k + 1) x := by
        unfold finalIdx
        rw [if_pos (by omega)]
      rw [hround, ← Function.iterate_succ_apply, hback, hswap]

/-- Every element of the prefix is the last one of it in some call. -/
theorem exists_stage {k : Nat} {a : List T} (ha : k + 1 < a.length) {x : Nat} (hx : x ≤ k + 1) :
    ∃ i ≤ k + 1, (stage k a i)[k + 1]? = a[x]? := by
  by_cases hpar : (k + 1) % 2 = 1
  · have hidx : ∃ i ≤ k + 1, evenStageIdx (k + 1) i (k + 1) = x := by
      by_cases hlast : x = k + 1
      · exact ⟨0, Nat.zero_le _, by grind [evenStageIdx]⟩
      by_cases hzero : x = 0
      · exact ⟨k + 1, Nat.le_refl _, by grind [evenStageIdx]⟩
      by_cases hlast' : x = k
      · exact ⟨1, by omega, by grind [evenStageIdx]⟩
      · exact ⟨x + 1, by omega, by grind [evenStageIdx]⟩
    rcases hidx with ⟨i, hi, hidx⟩
    have hreads := reads_stage (reads_final k) ha hi (k + 1)
    rw [if_pos hpar, hidx] at hreads
    exact ⟨i, hi, hreads⟩
  · rcases exists_oddCycle hx with ⟨j, hj, hcycle⟩
    rcases oddRound_cycle (m := k + 1) (by omega) (Nat.succ_pos k) with ⟨hstep, hlast⟩
    have hrun := (iterate_cycle hstep hlast (Nat.zero_le _)).1 j (by omega)
    have hstart : oddCycle (k + 1) 0 = k + 1 := rfl
    rw [Nat.zero_add, hstart, hcycle] at hrun
    have hreads := reads_stage (reads_final k) ha hj (k + 1)
    rw [if_neg hpar, hrun] at hreads
    exact ⟨j, hj, hreads⟩

/-! ## All orders -/

/-- By induction on the size of the prefix: one of the calls has the right last
element, and the call visits every order of the others. -/
theorem mem_visited (k : Nat) : ∀ a b : List T, k < a.length → Arranged (k + 1) a b →
    b ∈ visited k a := by
  induction k with
  | zero =>
    intro a b ha hab
    have hperm := hab.prefix_perm
    have hone : a.take 1 = [a[0]] := by
      rw [List.take_add_one, List.take_zero, List.getElem?_eq_getElem ha]
      rfl
    rw [visited_zero, List.mem_singleton, ← List.take_append_drop 1 b, hab.rest]
    rw [hone, List.perm_singleton] at hperm
    rw [hperm, ← hone, List.take_append_drop]
  | succ k ih =>
    intro a b ha hab
    have hb : k + 1 < b.length := by
      rw [hab.length_eq]
      exact ha
    have hmem : b[k + 1] ∈ b.take (k + 2) :=
      List.mem_take_iff_getElem.mpr ⟨k + 1, by omega, rfl⟩
    rcases List.mem_take_iff_getElem.mp (hab.prefix_perm.mem_iff.mp hmem) with ⟨x, hx, hval⟩
    rcases exists_stage ha (show x ≤ k + 1 by omega) with ⟨i, hi, hlast⟩
    have hstage := arranged_stage (arranged_final k) ha hi
    have hlen := hstage.length_eq
    rw [visited_succ, List.mem_flatMap]
    refine ⟨i, List.mem_range.mpr (by omega), ih _ b (by omega) ?_⟩
    refine (hstage.symm.trans hab).shrink (by omega) ?_
    rw [hlast, List.getElem?_eq_getElem hb, List.getElem?_eq_getElem (by omega), hval]

/-- The permutations that are generated are the permutations. -/
theorem mem_genPermutations {a b : List T} (ha : a ≠ []) : b ∈ genPermutations a ↔ b.Perm a := by
  have hpos : 0 < a.length := List.length_pos_iff.mpr ha
  have hlt : a.length - 1 < a.length := by omega
  have hall : ∀ l : List T, l.length = a.length → l.take (a.length - 1 + 1) = l := by
    intro l hl
    exact List.take_of_length_le (by omega)
  constructor
  · intro hb
    exact (arranged_of_mem_visited (a.length - 1) a hlt b hb).perm
  · intro hb
    refine mem_visited (a.length - 1) a b hlt ⟨?_, ?_⟩
    · rw [hall b hb.length_eq, hall a rfl]
      exact hb
    · rw [List.drop_of_length_le (by have := hb.length_eq; omega),
        List.drop_of_length_le (by omega)]

/-! ## Panics -/

/-- `a.swap(i, j)`. -/
def swapChecked (a : List T) (i j : Nat) : Rust (List T) := do
  assertThat (i < a.length ∧ j < a.length) "index out of bounds"
  pure (swap a i j)

/-- `swapFor` with the panics of the source. -/
def swapForChecked (k i : Nat) (a : List T) : Rust (List T) :=
  if (k + 2) % 2 = 0 then swapChecked a i (k + 1) else swapChecked a 0 (k + 1)

/-- `heaps_alg` with the panics of the source. -/
def heapsAlgChecked : Nat → List T → List (List T) → Rust (List T × List (List T))
  -- only a `k` of 1 ends the recursion
  | 0, _, _ => panicWith "attempt to subtract with overflow"
  | 1, a, outs => pure (a, outs ++ [a])
  | k + 2, a, outs => do
    let s ← heapsAlgChecked (k + 1) a outs
    (List.range (k + 1)).foldlM (fun s i => do
      let a ← swapForChecked k i s.1
      heapsAlgChecked (k + 1) a s.2) s

/-- `gen_permutations` with the panics of the source. -/
def genPermutationsChecked (a : List T) : Rust (List (List T)) := do
  let s ← heapsAlgChecked a.length a []
  pure s.2

theorem swapChecked_eq {a : List T} {i j : Nat} (hi : i < a.length) (hj : j < a.length) :
    swapChecked a i j = .ok (swap a i j) := by
  unfold swapChecked
  rw [decide_eq_true ⟨hi, hj⟩]
  rfl

theorem length_swapFor (k i : Nat) (a : List T) : (swapFor k i a).length = a.length := by
  unfold swapFor
  split
  · exact length_swap
  · exact length_swap

/-- By induction on the size of the prefix, which never is longer than the array. -/
theorem heapsAlgChecked_eq (k : Nat) : ∀ (a : List T) (outs : List (List T)), k < a.length →
    heapsAlgChecked (k + 1) a outs = .ok (heapsAlg k a outs) := by
  induction k with
  | zero =>
    intro a outs _
    rfl
  | succ k ih =>
    have hrounds : ∀ (is : List Nat) (s : List T × List (List T)), (∀ i ∈ is, i < k + 1) →
        k + 1 < s.1.length →
        is.foldlM (fun s i => do
          let a ← swapForChecked k i s.1
          heapsAlgChecked (k + 1) a s.2) s =
            .ok (is.foldl (fun s i => heapsAlg k (swapFor k i s.1) s.2) s) := by
      intro is
      induction is with
      | nil =>
        intro s _ _
        rfl
      | cons i is ihs =>
        intro s his hlen
        have hi : i < k + 1 := his i List.mem_cons_self
        have hswap : swapForChecked k i s.1 = .ok (swapFor k i s.1) := by
          unfold swapForChecked swapFor
          split
          · exact swapChecked_eq (by omega) hlen
          · exact swapChecked_eq (by omega) hlen
        have hlen' : (swapFor k i s.1).length = s.1.length := length_swapFor k i s.1
        rw [List.foldlM_cons, hswap, ok_bind, ih _ _ (by omega), ok_bind, List.foldl_cons]
        refine ihs _ (fun i hi => his i (List.mem_cons_of_mem _ hi)) ?_
        -- the array keeps its length
        rw [heapsAlg_eq, (arranged_final k _ (by omega)).length_eq]
        omega
    intro a outs ha
    rw [heapsAlgChecked, ih a outs (by omega), ok_bind]
    refine hrounds _ _ (fun i hi => List.mem_range.mp hi) ?_
    rw [heapsAlg_eq, (arranged_final k a (by omega)).length_eq]
    exact ha

/-- `gen_permutations` of elements returns. -/
theorem genPermutationsChecked_eq {a : List T} (ha : a ≠ []) :
    genPermutationsChecked a = .ok (genPermutations a) := by
  have hpos : 0 < a.length := List.length_pos_iff.mpr ha
  have hlen : a.length = a.length - 1 + 1 := by omega
  have hrun := heapsAlgChecked_eq (a.length - 1) a [] (by omega)
  unfold genPermutationsChecked
  rw [hlen, hrun]
  rfl

/-! ## Each order once -/

/-- A level with `k + 1` elements gives as many lists as these have orders. -/
theorem length_visited (k : Nat) : ∀ a : List T, (visited k a).length = (k + 1).factorial := by
  induction k with
  | zero =>
    intro a
    rfl
  | succ k ih =>
    intro a
    rw [visited_succ, List.length_flatMap]
    simp only [ih, List.map_const', List.sum_replicate_nat, List.length_range]
    exact (Nat.factorial_succ (k + 1)).symm

section Map

variable {S : Type} (f : T → S)

theorem map_swap (a : List T) (i j : Nat) : swap (a.map f) i j = (swap a i j).map f := by
  unfold swap
  rw [List.getElem?_map, List.getElem?_map]
  cases a[i]? with
  | none => rfl
  | some x =>
    cases a[j]? with
    | none => rfl
    | some y =>
      show ((a.map f).set i (f y)).set j (f x) = _
      rw [← List.map_set, ← List.map_set]

theorem map_swapFor (k i : Nat) (a : List T) :
    swapFor k i (a.map f) = (swapFor k i a).map f := by
  unfold swapFor
  split
  · exact map_swap f a _ _
  · exact map_swap f a _ _

/-- The algorithm does not look at the elements. -/
theorem map_heapsAlg (k : Nat) : ∀ (a : List T) (outs : List (List T)),
    heapsAlg k (a.map f) (outs.map (List.map f)) =
      ((heapsAlg k a outs).1.map f, (heapsAlg k a outs).2.map (List.map f)) := by
  induction k with
  | zero =>
    intro a outs
    show (a.map f, outs.map (List.map f) ++ [a.map f]) =
      (a.map f, (outs ++ [a]).map (List.map f))
    rw [List.map_append]
    rfl
  | succ k ih =>
    have hrounds : ∀ (is : List Nat) (s : List T × List (List T)),
        is.foldl (fun s i => heapsAlg k (swapFor k i s.1) s.2) (s.1.map f, s.2.map (List.map f)) =
          ((is.foldl (fun s i => heapsAlg k (swapFor k i s.1) s.2) s).1.map f,
            (is.foldl (fun s i => heapsAlg k (swapFor k i s.1) s.2) s).2.map (List.map f)) := by
      intro is
      induction is with
      | nil =>
        intro s
        rfl
      | cons i is ihs =>
        intro s
        rw [List.foldl_cons, List.foldl_cons, map_swapFor, ih]
        exact ihs _
    intro a outs
    unfold heapsAlg
    rw [ih]
    exact hrounds _ _

theorem map_genPermutations (a : List T) :
    genPermutations (a.map f) = (genPermutations a).map (List.map f) := by
  unfold genPermutations
  rw [List.length_map]
  exact congrArg Prod.snd (map_heapsAlg f (a.length - 1) a [])

end Map

/-- Distinct elements: what comes out is the permutations, each once. -/
theorem genPermutations_perm {a : List T} (ha : a ≠ []) (hnodup : a.Nodup) :
    (genPermutations a).Perm a.permutations := by
  have hpos : 0 < a.length := List.length_pos_iff.mpr ha
  have hlen : (genPermutations a).length = a.permutations.length := by
    have hvisited : (genPermutations a).length = _ := length_visited (a.length - 1) a
    have hsize : a.length - 1 + 1 = a.length := by omega
    rw [hvisited, hsize, List.length_permutations]
  have hsub : a.permutations ⊆ genPermutations a := by
    intro b hb
    exact (mem_genPermutations ha).mpr (List.mem_permutations.mp hb)
  -- no permutation is missing, and there is no room for one to come twice
  have hsubperm := List.Nodup.subperm (List.nodup_permutations a hnodup) hsub
  exact (hsubperm.perm_of_length_le hlen.le).symm

theorem nodup_genPermutations {a : List T} (ha : a ≠ []) (hnodup : a.Nodup) :
    (genPermutations a).Nodup :=
  (genPermutations_perm ha hnodup).nodup_iff.mpr (List.nodup_permutations a hnodup)

/-- The list in every order of its positions, each of them once. -/
def EveryOrderOnce (a : List T) (out : List (List T)) : Prop :=
  out.length = a.length.factorial ∧ ∃ orders : List (List (Fin a.length)), orders.Nodup ∧
    (∀ p, p ∈ orders ↔ p.Perm (List.finRange a.length)) ∧ out = orders.map (List.map a.get)

theorem everyOrderOnce_genPermutations {a : List T} (ha : a ≠ []) :
    EveryOrderOnce a (genPermutations a) := by
  have hpos : 0 < a.length := List.length_pos_iff.mpr ha
  have hrange : List.finRange a.length ≠ [] := by
    intro hnil
    have hlen := List.length_finRange (n := a.length)
    rw [hnil] at hlen
    exact absurd hlen.symm hpos.ne'
  constructor
  · have hvisited : (genPermutations a).length = _ := length_visited (a.length - 1) a
    have hsize : a.length - 1 + 1 = a.length := by omega
    rw [hvisited, hsize]
  · refine ⟨genPermutations (List.finRange a.length), ?_, ?_, ?_⟩
    · exact nodup_genPermutations hrange (List.nodup_finRange _)
    · intro p
      exact mem_genPermutations hrange
    · rw [← map_genPermutations, List.map_get_finRange]

end Kanata
