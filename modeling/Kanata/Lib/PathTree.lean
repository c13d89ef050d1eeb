import Mathlib.Data.List.Basic
import Mathlib.Data.List.Induction
import Mathlib.Data.List.Infix

/-!
# Kanata.Lib.PathTree — trees grown path by path

A tree gives each path its node, if it has one: a value, and whether there are nodes
below. A path with a value is added by growing the nodes along it; nodes that are only
passed get a default value. Adding fails at a path that has a node already.

* `treeOf`: the tree of some paths with their values, whatever their order;
* `add_treeOf`: adding a path gives the tree with the path, or fails if the path leads
  to a node;
* `addAll_eq_some_iff`: adding many paths succeeds when no path comes after one that it
  is a prefix of.
-/

namespace PathTree

variable {K V : Type}

/-- The node of each path: a value, and whether there are nodes below. -/
abbrev Tree (K V : Type) := List K → Option (V × Bool)

section Add

variable [DecidableEq K] (dflt : V)

/-- A node is passed on the way to another one. -/
def visit (t : Tree K V) (p : List K) : Tree K V :=
  fun p' => if p' = p then some (((t p).map Prod.fst).getD dflt, true) else t p'

/-- A node is put at the end of a path. -/
def put (t : Tree K V) (p : List K) (v : V) : Tree K V :=
  fun p' => if p' = p then some (v, false) else t p'

/-- A path that goes on from `base` is added. -/
def add (t : Tree K V) (base : List K) : List K → V → Option (Tree K V)
  | [], _ => some t
  | [k], v => if (t (base ++ [k])).isSome then none else some (put t (base ++ [k]) v)
  | k :: k' :: ks, v => add (visit dflt t (base ++ [k])) (base ++ [k]) (k' :: ks) v

/-- The value of a path, the default for one that has none. -/
def valueOf (entries : List (List K × V)) (p : List K) : V :=
  (((entries.find? fun e => e.1 = p).map Prod.snd).getD dflt)

open Classical in
/-- The tree of some paths with their values. -/
noncomputable def treeOf (entries : List (List K × V)) : Tree K V := fun p =>
  if p ≠ [] ∧ ∃ e ∈ entries, p <+: e.1 then
    some (valueOf dflt entries p, decide (∃ e ∈ entries, p <+: e.1 ∧ p ≠ e.1))
  else none

open Classical in
/-- The tree of some paths, and the nodes on the way to `base`. -/
noncomputable def passing (entries : List (List K × V)) (base : List K) : Tree K V := fun p =>
  if p ≠ [] ∧ p <+: base then some (valueOf dflt entries p, true) else treeOf dflt entries p

end Add

theorem not_concat_prefix (q : List K) (k : K) : ¬q ++ [k] <+: q := by
  intro h
  have := h.length_le
  rw [List.length_append, List.length_singleton] at this
  omega

section Spec

variable [DecidableEq K] {dflt : V} {entries : List (List K × V)}

theorem treeOf_isSome_iff {p : List K} :
    (treeOf dflt entries p).isSome = true ↔ p ≠ [] ∧ ∃ e ∈ entries, p <+: e.1 := by
  unfold treeOf
  split
  · next h => simp [h]
  · next h => simpa using h

theorem valueOf_of_not_mem {p : List K} (h : ∀ e ∈ entries, e.1 ≠ p) :
    valueOf dflt entries p = dflt := by
  have hnone : (entries.find? fun e => e.1 = p) = none := by
    simpa using fun a b hmem => h (a, b) hmem
  rw [valueOf, hnone]
  rfl

theorem valueOf_append_of_ne {p q : List K} {v : V} (h : q ≠ p) :
    valueOf dflt (entries ++ [(q, v)]) p = valueOf dflt entries p := by
  simp [valueOf, List.find?_append, h]

theorem valueOf_append_self {q : List K} {v : V} (h : ∀ e ∈ entries, e.1 ≠ q) :
    valueOf dflt (entries ++ [(q, v)]) q = v := by
  have hnone : (entries.find? fun e => e.1 = q) = none := by
    simpa using fun a b hmem => h (a, b) hmem
  simp [valueOf, List.find?_append, hnone]

/-- The value of a node, the default where there is no node. -/
theorem treeOf_value (p : List K) (hp : p ≠ []) :
    ((treeOf dflt entries p).map Prod.fst).getD dflt = valueOf dflt entries p := by
  unfold treeOf
  split
  · rfl
  · next h =>
    have hnot : ∀ e ∈ entries, e.1 ≠ p := by
      rintro e he rfl
      exact h ⟨hp, e, he, List.prefix_refl _⟩
    rw [valueOf_of_not_mem hnot]
    rfl

theorem passing_nil (entries : List (List K × V)) :
    passing dflt entries [] = treeOf dflt entries := by
  funext p
  unfold passing
  rw [if_neg]
  rintro ⟨hne, hprefix⟩
  exact hne (List.prefix_nil.mp hprefix)

theorem passing_concat (base : List K) (k : K) :
    passing dflt entries (base ++ [k]) (base ++ [k]) =
      some (valueOf dflt entries (base ++ [k]), true) := by
  rw [passing, if_pos ⟨by simp, List.prefix_refl _⟩]

/-- Passing the next node of a path. -/
theorem visit_passing (base : List K) (k : K) :
    visit dflt (passing dflt entries base) (base ++ [k]) = passing dflt entries (base ++ [k]) := by
  funext p
  unfold visit
  split
  · next h =>
    subst h
    rw [passing_concat, passing, if_neg fun h => not_concat_prefix base k h.2,
      treeOf_value _ (by simp)]
  · next h =>
    simp only [passing, List.prefix_concat_iff, h, false_or]

/-- The last node of a path is put where there was none. -/
theorem put_passing {base : List K} {k : K} {v : V}
    (hnone : ∀ e ∈ entries, ¬base ++ [k] <+: e.1) (p : List K) :
    put (passing dflt entries base) (base ++ [k]) v p =
      treeOf dflt (entries ++ [(base ++ [k], v)]) p := by
  have hexists : ∀ P : List K × V → Prop, (∃ e ∈ entries ++ [(base ++ [k], v)], P e) ↔
      (∃ e ∈ entries, P e) ∨ P (base ++ [k], v) := by
    intro P
    simp only [List.mem_append, List.mem_singleton, or_and_right, exists_or, exists_eq_left]
  unfold put
  split
  · next hp =>
    subst hp
    have hvalue : valueOf dflt (entries ++ [(base ++ [k], v)]) (base ++ [k]) = v :=
      valueOf_append_self fun e he heq => hnone e he (heq ▸ List.prefix_refl _)
    have hbelow : ¬∃ e ∈ entries ++ [(base ++ [k], v)],
        base ++ [k] <+: e.1 ∧ base ++ [k] ≠ e.1 := by
      rw [hexists]
      rintro (⟨e, he, hprefix, _⟩ | ⟨_, hne⟩)
      · exact hnone e he hprefix
      · exact hne rfl
    rw [treeOf, if_pos ⟨by simp, _, List.mem_append_right _ List.mem_cons_self, List.prefix_refl _⟩,
      hvalue, decide_eq_false hbelow]
  · next hp =>
    have hvalue : valueOf dflt (entries ++ [(base ++ [k], v)]) p = valueOf dflt entries p :=
      valueOf_append_of_ne (Ne.symm hp)
    have hshorter : p <+: base ++ [k] ↔ p <+: base := by
      rw [List.prefix_concat_iff, or_iff_right hp]
    unfold passing
    split
    · next hpass =>
      -- a node on the way has the new one below
      have hbelow : ∃ e ∈ entries ++ [(base ++ [k], v)], p <+: e.1 ∧ p ≠ e.1 :=
        ⟨_, List.mem_append_right _ List.mem_cons_self, hshorter.mpr hpass.2, hp⟩
      rw [treeOf, if_pos ⟨hpass.1, hbelow.imp fun e he => ⟨he.1, he.2.1⟩⟩, hvalue,
        decide_eq_true hbelow]
    · next hpass =>
      have hnot : p ≠ [] → ¬p <+: base ++ [k] := fun hne hprefix =>
        hpass ⟨hne, hshorter.mp hprefix⟩
      by_cases hne : p = []
      · simp [treeOf, hne]
      · simp only [treeOf, hexists, hnot hne, hvalue, or_false, false_and]

/-- A path is added to a tree on the way to which the nodes of `base` were passed. -/
theorem add_passing : ∀ {ks : List K} {base : List K} {v : V}, ks ≠ [] →
    add dflt (passing dflt entries base) base ks v =
      if (treeOf dflt entries (base ++ ks)).isSome then none
      else some (treeOf dflt (entries ++ [(base ++ ks, v)]))
  | [], _, _, h => absurd rfl h
  | k :: k' :: ks, base, v, _ => by
    rw [add, visit_passing, add_passing (List.cons_ne_nil k' ks), List.append_assoc]
    rfl
  | [k], base, v, _ => by
    have hsame : passing dflt entries base (base ++ [k]) = treeOf dflt entries (base ++ [k]) := by
      rw [passing, if_neg fun h => not_concat_prefix base k h.2]
    rw [add, hsame]
    split
    · rfl
    · next hnone =>
      rw [treeOf_isSome_iff, not_and] at hnone
      have hnone : ∀ e ∈ entries, ¬base ++ [k] <+: e.1 := fun e he hprefix =>
        hnone (by simp) ⟨e, he, hprefix⟩
      congr 1
      funext p
      exact put_passing hnone p

/-- Adding a path fails at a node, and gives the tree with the path else. -/
theorem add_treeOf {q : List K} {v : V} (hq : q ≠ []) :
    add dflt (treeOf dflt entries) [] q v =
      if (treeOf dflt entries q).isSome then none
      else some (treeOf dflt (entries ++ [(q, v)])) := by
  rw [← passing_nil, add_passing hq, passing_nil, List.nil_append]

/-- Paths are added one after the other. -/
def addAll (dflt : V) (t : Tree K V) (entries : List (List K × V)) : Option (Tree K V) :=
  entries.foldlM (fun t e => add dflt t [] e.1 e.2) t

/-- No path comes after one that it is a prefix of. -/
def PrefixesFirst (entries : List (List K × V)) : Prop :=
  entries.Pairwise fun e e' => ¬e'.1 <+: e.1

/-- Many paths make the tree of all, exactly if prefixes come first. -/
theorem addAll_eq_some_iff : ∀ {entries' entries : List (List K × V)},
    (∀ e ∈ entries', e.1 ≠ []) → PrefixesFirst entries → ∀ t,
      (addAll dflt (treeOf dflt entries) entries' = some t ↔
        PrefixesFirst (entries ++ entries') ∧ t = treeOf dflt (entries ++ entries'))
  | [], entries, _, hfirst, t => by
    simp [addAll, eq_comm, hfirst]
  | e :: entries', entries, hne, hfirst, t => by
    have he := hne e List.mem_cons_self
    have hrest : ∀ e' ∈ entries', e'.1 ≠ [] := fun e' he' => hne e' (List.mem_cons_of_mem e he')
    have hassoc : entries ++ e :: entries' = (entries ++ [e]) ++ entries' := by simp
    unfold addAll
    rw [List.foldlM_cons, add_treeOf he, hassoc]
    split
    · next hnode =>
      rw [treeOf_isSome_iff] at hnode
      -- the path leads to a node of an earlier path
      rcases hnode with ⟨-, e₀, he₀, hprefix⟩
      constructor
      · rintro ⟨⟩
      · rintro ⟨hall, -⟩
        refine absurd hprefix ?_
        refine List.pairwise_append.mp (List.pairwise_append.mp hall).1 |>.2.2 e₀ he₀ e ?_
        exact List.mem_cons_self
    · next hnode =>
      rw [treeOf_isSome_iff] at hnode
      refine addAll_eq_some_iff hrest ?_ t
      refine List.pairwise_append.mpr ⟨hfirst, List.pairwise_singleton _ _, ?_⟩
      rintro e₀ he₀ e' he' hprefix
      rw [List.mem_singleton.mp he'] at hprefix
      exact hnode ⟨he, e₀, he₀, hprefix⟩

end Spec

end PathTree
