import Kanata.Parser.Sequence

/-!
# Kanata.Parser.Orders — each order of a group once

The sequences that a definition stores are its encodings. When the keys of each of its
groups are distinct, no encoding comes twice (`permute_once`), so no order of a group is
in the way of another one when they go to the table (`storeAll_eq`).

`orders_once` says this of Heap's algorithm, of the definitions that are accepted and of
a group that stands alone.
-/

namespace Kanata.Sequence

open Fallible

variable {M : Type → Type} [PatriciaMap M] {T : Type}

/-- The keys of each group of overlapping keys are distinct. -/
inductive GroupsDistinct : List UInt16 → Prop
  | nil : GroupsDistinct []
  | key {val : UInt16} {vals : List UInt16} (hkey : val &&& keyOverlapMarker = 0)
      (rest : GroupsDistinct vals) : GroupsDistinct (val :: vals)
  | group {val : UInt16} {vals : List UInt16} (hgroup : val &&& keyOverlapMarker ≠ 0)
      (hdistinct : (val :: vals.takeWhile (· ≠ keyOverlapMarker)).Nodup)
      (rest : GroupsDistinct ((vals.dropWhile (· ≠ keyOverlapMarker)).drop 1)) :
      GroupsDistinct (val :: vals)

/-! ## What comes out -/

/-- Distinct sequences of one length, and what is put behind them. -/
structure Fronts (len : Nat) (fronts : List (List UInt16)) : Prop where
  nodup : fronts.Nodup
  length_eq : ∀ p ∈ fronts, p.length = len

section Fronts

variable {len : Nat} {fronts : List (List UInt16)}

theorem Fronts.push (h : Fronts len fronts) (val : UInt16) :
    Fronts (len + 1) (fronts.map (· ++ [val])) where
  nodup := h.nodup.map fun _ _ heq => List.append_cancel_right heq
  length_eq p hp := by
    rcases List.mem_map.mp hp with ⟨front, hfront, rfl⟩
    rw [List.length_append, h.length_eq front hfront]
    rfl

/-- Each of them with each order of a group. -/
theorem Fronts.group (h : Fronts len fronts) {orders : List (List UInt16)} {n : Nat}
    (horders : Fronts n orders) (marker : UInt16) :
    Fronts (len + (n + 1))
      (fronts.flatMap fun p => orders.map fun p2 => p ++ (p2 ++ [marker])) where
  nodup := by
    rw [List.nodup_flatMap]
    constructor
    · intro front _
      refine horders.nodup.map ?_
      intro order order' heq
      exact List.append_cancel_right (List.append_cancel_left heq)
    · -- two sequences of one length differ already in front
      refine h.nodup.imp_of_mem ?_
      intro front front' hfront hfront' hne p hp hp'
      rcases List.mem_map.mp hp with ⟨order, _, rfl⟩
      rcases List.mem_map.mp hp' with ⟨order', _, heq⟩
      have hlen : front'.length = front.length := by
        rw [h.length_eq front hfront, h.length_eq front' hfront']
      exact hne (List.append_inj_left heq hlen).symm
  length_eq p hp := by
    rcases List.mem_flatMap.mp hp with ⟨front, hfront, hp⟩
    rcases List.mem_map.mp hp with ⟨order, horder, rfl⟩
    rw [List.length_append, List.length_append, h.length_eq front hfront,
      horders.length_eq order horder]
    rfl

theorem fronts_genPermutations {group : List UInt16} (hne : group ≠ []) (hdistinct : group.Nodup) :
    Fronts group.length (genPermutations group) where
  nodup := nodup_genPermutations hne hdistinct
  length_eq _ hp := ((mem_genPermutations hne).mp hp).length_eq

end Fronts

/-- A round that takes a group. -/
theorem permute_group_eq_ok {keySeqExpr : SExpr} {n : Nat} {val : UInt16} {vals : List UInt16}
    {fronts out : List (List UInt16)} (hgroup : val &&& keyOverlapMarker ≠ 0)
    (h : permute keySeqExpr (n + 1) (val :: vals) fronts = .ok out) :
    permute keySeqExpr n ((vals.dropWhile (· ≠ keyOverlapMarker)).drop 1)
      (fronts.flatMap fun p =>
        (genPermutations (val :: vals.takeWhile (· ≠ keyOverlapMarker))).map fun p2 =>
          p ++ (p2 ++ [keyOverlapMarker])) = .ok out := by
  rw [permute, if_neg hgroup] at h
  split at h
  · cases h
  · simp only at h
    split at h
    · cases h
    · split at h
      · exact h
      · cases h

/-- What comes out is the encodings, behind each of the sequences so far. -/
theorem mem_permute {keySeqExpr : SExpr} {n : Nat} : ∀ {vals : List UInt16}
    {fronts out : List (List UInt16)}, permute keySeqExpr n vals fronts = .ok out →
      ∀ {p : List UInt16}, p ∈ out ↔
        ∃ front ∈ fronts, ∃ tail, Encodes vals tail ∧ p = front ++ tail := by
  intro vals fronts out h p
  constructor
  · induction n generalizing vals fronts with
    | zero =>
      intro hp
      cases vals with
      | nil =>
        cases h
        exact ⟨p, hp, [], .nil, (List.append_nil p).symm⟩
      | cons val vals => cases h
    | succ n ih =>
      intro hp
      cases vals with
      | nil =>
        cases h
        exact ⟨p, hp, [], .nil, (List.append_nil p).symm⟩
      | cons val vals =>
        by_cases hkey : val &&& keyOverlapMarker = 0
        · rw [permute, if_pos hkey] at h
          rcases ih h hp with ⟨pushed, hpushed, tail, htail, rfl⟩
          rcases List.mem_map.mp hpushed with ⟨front, hfront, rfl⟩
          refine ⟨front, hfront, val :: tail, .key hkey htail, ?_⟩
          rw [List.append_assoc]
          rfl
        · rcases ih (permute_group_eq_ok hkey h) hp with ⟨put, hput, tail, htail, rfl⟩
          rcases List.mem_flatMap.mp hput with ⟨front, hfront, hmem⟩
          rcases List.mem_map.mp hmem with ⟨order, horder, rfl⟩
          have hperm := (mem_genPermutations (List.cons_ne_nil _ _)).mp horder
          refine ⟨front, hfront, order ++ keyOverlapMarker :: tail, .group hkey hperm htail, ?_⟩
          rw [List.append_assoc, List.append_assoc, List.singleton_append]
  · rintro ⟨front, hfront, tail, htail, rfl⟩
    exact permute_complete h htail front hfront

/-- Along the rounds the sequences stay distinct and of one length. -/
theorem permute_once {keySeqExpr : SExpr} {n : Nat} : ∀ {vals : List UInt16}
    {fronts out : List (List UInt16)} {len : Nat}, permute keySeqExpr n vals fronts = .ok out →
      GroupsDistinct vals → Fronts len fronts → ∃ len, Fronts len out := by
  induction n with
  | zero =>
    intro vals fronts out len h hdistinct hfronts
    cases vals with
    | nil =>
      cases h
      exact ⟨len, hfronts⟩
    | cons val vals => cases h
  | succ n ih =>
    intro vals fronts out len h hdistinct hfronts
    cases hdistinct with
    | nil =>
      cases h
      exact ⟨len, hfronts⟩
    | @key val vals hkey rest =>
      rw [permute, if_pos hkey] at h
      exact ih h rest (hfronts.push val)
    | @group val vals hgroup hnodup rest =>
      have horders := fronts_genPermutations (List.cons_ne_nil _ _) hnodup
      exact ih (permute_group_eq_ok hgroup h) rest (hfronts.group horders keyOverlapMarker)

/-! ## What is stored -/

section Store

variable [LawfulPatriciaMap M] {keySeqExpr : SExpr} {coord : KCoord}

/-- No sequence of the table is a prefix of this one, or the other way round. -/
def Apart (t : Trie M KCoord) (p : List UInt16) : Prop :=
  ∀ k, (t.get k).isSome → ¬k <+: p ∧ ¬p <+: k

theorem insertSequence_eq {t : Trie M KCoord} {p : List UInt16} (he : t.OfElements)
    (hne : p ≠ []) (h : Apart t p) :
    insertSequence keySeqExpr coord t p = .ok (t.insert p coord) := by
  have hanc : ¬t.ancestorExists p = true := by
    rw [Trie.ancestorExists_iff he]
    intro ⟨k, hk, hsome⟩
    exact (h k hsome).1 hk
  have hdesc : ¬t.descendantExists p = true := by
    rw [Trie.descendantExists_iff he]
    intro hor
    rcases hor with hnil | ⟨k, hk, hsome⟩
    · exact hne hnil
    · exact (h k hsome).2 hk
  unfold insertSequence
  rw [if_neg hanc, if_neg hdesc]
  rfl

/-- Distinct sequences of one length do not conflict. -/
theorem storeAll_eq {len : Nat} (hpos : 0 < len) : ∀ {ps : List (List UInt16)} {t : Trie M KCoord},
    Fronts len ps → t.OfElements → (∀ p ∈ ps, Apart t p) →
      ∃ t', ps.foldlM (insertSequence keySeqExpr coord) t = .ok t' ∧
        ∀ k, t'.get k = if k ∈ ps then some coord else t.get k
  | [], t, _, _, _ => by
    refine ⟨t, rfl, ?_⟩
    intro k
    rw [if_neg List.not_mem_nil]
  | p :: ps, t, hps, he, hapart => by
    have hlen : p.length = len := hps.length_eq p List.mem_cons_self
    have hne : p ≠ [] := List.length_pos_iff.mp (by omega)
    have hrest : Fronts len ps :=
      ⟨hps.nodup.of_cons, fun q hq => hps.length_eq q (List.mem_cons_of_mem p hq)⟩
    have hapart' : ∀ q ∈ ps, Apart (t.insert p coord) q := by
      intro q hq k hk
      rw [Trie.get_insert] at hk
      split at hk
      · -- the sequence that was just stored is another one of the same length
        rename_i heq
        subst heq
        have hdiff : k ≠ q := fun heq => (List.nodup_cons.mp hps.nodup).1 (heq ▸ hq)
        have hsame : k.length = q.length := by
          rw [hlen, hrest.length_eq q hq]
        exact ⟨fun hle => hdiff (hle.eq_of_length hsame),
          fun hle => hdiff (hle.eq_of_length hsame.symm).symm⟩
      · exact hapart q (List.mem_cons_of_mem p hq) k hk
    rcases storeAll_eq hpos hrest (he.insert p coord) hapart' with ⟨t', hfold, hget⟩
    refine ⟨t', ?_, ?_⟩
    · rw [List.foldlM_cons, insertSequence_eq he hne (hapart p List.mem_cons_self), ok_bind]
      exact hfold
    · intro k
      rw [hget, Trie.get_insert]
      by_cases hk : k ∈ ps
      · rw [if_pos hk, if_pos (List.mem_cons_of_mem p hk)]
      · by_cases hkp : k = p
        · rw [if_neg hk, if_pos hkp, if_pos (List.mem_cons.mpr (.inl hkp))]
        · have hnot : k ∉ p :: ps := List.not_mem_cons_of_ne_of_not_mem hkp hk
          rw [if_neg hk, if_neg hkp, if_neg hnot]

/-- What a definition stores: its encodings, one after the other. -/
def Stores (s : ParserState T) (keySeqExpr : SExpr) (coord : KCoord)
    (t t' : Trie M KCoord) : Prop :=
  ∃ (keySeq : List SExpr) (vals : List UInt16) (stored : List (List UInt16)),
    keySeqExpr.list s.vars = .ok (some keySeq) ∧ parseSequenceKeys s keySeq = .ok vals ∧
    stored.foldlM (insertSequence keySeqExpr coord) t = .ok t' ∧
    (∀ p, p ∈ stored ↔ Encodes vals p) ∧ (GroupsDistinct vals → stored.Nodup)

omit [LawfulPatriciaMap M] in
theorem defineSequence_stores {s : ParserState T} {vkeyExpr : SExpr} {t t' : Trie M KCoord}
    (h : defineSequence s vkeyExpr (some keySeqExpr) t = .ok t') :
    ∃ vkey y, vkeyExpr.atom s.vars = .ok (some vkey) ∧ s.virtualKeys.lookup vkey = some y ∧
      Stores s keySeqExpr (getFakeKeyCoords y) t t' := by
  rcases defineSequence_eq_ok h with
    ⟨vkey, y, keySeq, vals, stored, hvkey, hy, hkeySeq, hvals, hstored, h⟩
  have hsingle : Fronts 0 [([] : List UInt16)] := ⟨List.nodup_singleton _, by simp⟩
  refine ⟨vkey, y, hvkey, hy, keySeq, vals, stored, hkeySeq, hvals, h, ?_, ?_⟩
  · intro p
    rw [mem_permute hstored]
    simp
  · intro hdistinct
    rcases permute_once hstored hdistinct hsingle with ⟨_, hfronts⟩
    exact hfronts.nodup

/-- A group that stands alone. -/
theorem permute_lone_group {group : List UInt16} (hlow : 2 ≤ group.length)
    (hhigh : group.length ≤ 6)
    (hkeys : ∀ v ∈ group, v &&& keyOverlapMarker ≠ 0 ∧ v ≠ keyOverlapMarker) :
    permute keySeqExpr (group.length + 1) (group ++ [keyOverlapMarker]) [[]] =
      .ok ((genPermutations group).map (· ++ [keyOverlapMarker])) := by
  cases group with
  | nil => simp at hlow
  | cons val vals =>
    have hne : ∀ v ∈ vals, decide (v ≠ keyOverlapMarker) = true := fun v hv =>
      decide_eq_true (hkeys v (List.mem_cons_of_mem val hv)).2
    have htake : (vals ++ [keyOverlapMarker]).takeWhile (· ≠ keyOverlapMarker) = vals := by
      rw [List.takeWhile_append_of_pos hne]
      simp
    have hdrop : ((vals ++ [keyOverlapMarker]).dropWhile (· ≠ keyOverlapMarker)).drop 1 = [] := by
      rw [List.dropWhile_append_of_pos hne]
      simp
    rw [List.cons_append, permute, if_neg (hkeys val List.mem_cons_self).1,
      if_neg (hkeys val List.mem_cons_self).2]
    simp only [htake, hdrop]
    rw [if_neg (by omega), if_pos hhigh]
    show Except.ok _ = _
    rw [List.flatMap_singleton]
    simp only [List.nil_append]

/-- Heap's algorithm returns every order once. A definition that is accepted stores its
encodings, each once if the keys of its groups are distinct. A group of distinct keys goes
to a new table under every order. -/
theorem orders_once :
    (∀ (A : Type) (a : List A), a ≠ [] →
      ∃ out, genPermutationsChecked a = .ok out ∧ EveryOrderOnce a out) ∧
    (∀ (s : ParserState T) (vkeyExpr keySeqExpr : SExpr) (t t' : Trie M KCoord),
      defineSequence s vkeyExpr (some keySeqExpr) t = .ok t' →
        ∃ vkey y, vkeyExpr.atom s.vars = .ok (some vkey) ∧ s.virtualKeys.lookup vkey = some y ∧
          Stores s keySeqExpr (getFakeKeyCoords y) t t') ∧
    ∀ (keySeqExpr : SExpr) (coord : KCoord) (group : List UInt16), group.Nodup →
      2 ≤ group.length → group.length ≤ 6 →
      (∀ v ∈ group, v &&& keyOverlapMarker ≠ 0 ∧ v ≠ keyOverlapMarker) →
        ∃ (stored : List (List UInt16)) (t : Trie M KCoord),
          permute keySeqExpr (group.length + 1) (group ++ [keyOverlapMarker]) [[]] = .ok stored ∧
          stored.Nodup ∧
          (∀ p, p ∈ stored ↔
            ∃ order : List UInt16, order.Perm group ∧ p = order ++ [keyOverlapMarker]) ∧
          stored.foldlM (insertSequence keySeqExpr coord) Trie.new = .ok t ∧
          ∀ p, t.get p = if p ∈ stored then some coord else none := by
  refine ⟨?_, ?_, ?_⟩
  · intro A a ha
    exact ⟨_, genPermutationsChecked_eq ha, everyOrderOnce_genPermutations ha⟩
  · intro s vkeyExpr keySeqExpr t t' h
    exact defineSequence_stores h
  · intro keySeqExpr coord group hdistinct hlow hhigh hkeys
    have hne : group ≠ [] := List.length_pos_iff.mp (by omega)
    have hfronts := (fronts_genPermutations hne hdistinct).push keyOverlapMarker
    have hnew : ∀ p ∈ (genPermutations group).map (· ++ [keyOverlapMarker]),
        Apart (Trie.new : Trie M KCoord) p := by
      intro p _ k hk
      rw [Trie.get_new] at hk
      cases hk
    rcases storeAll_eq (Nat.succ_pos _) hfronts Trie.ofElements_new hnew with ⟨t, hfold, hget⟩
    refine ⟨_, t, permute_lone_group hlow hhigh hkeys, hfronts.nodup, ?_, hfold, ?_⟩
    · intro p
      rw [List.mem_map]
      simp only [mem_genPermutations hne, eq_comm]
    · intro p
      rw [hget, Trie.get_new]

end Store

/-- `orders_once` for three elements, for a definition with two orders and for its group. -/
theorem orders_once_overlap :
    EveryOrderOnce [1, 2, 3] [[1, 2, 3], [2, 1, 3], [3, 1, 2], [1, 3, 2], [2, 3, 1], [3, 2, 1]] ∧
    (∃ (t : Trie EntryMap KCoord) (vkey : String) (y : Nat),
      (SExpr.atomNode "v" default).atom twoKeys.vars = .ok (some vkey) ∧
      twoKeys.virtualKeys.lookup vkey = some y ∧
      Stores twoKeys (.listNode [.atomNode "O-" default,
        .listNode [.atomNode "a" default, .atomNode "b" default] default] default)
        (getFakeKeyCoords y) Trie.new t) ∧
    ∃ (stored : List (List UInt16)) (t : Trie EntryMap KCoord),
      permute (.atomNode "" default) 3 [0x41e, 0x430, 0x400] [[]] = .ok stored ∧ stored.Nodup ∧
      (∀ p, p ∈ stored ↔ ∃ order : List UInt16, order.Perm [0x41e, 0x430] ∧ p = order ++ [0x400]) ∧
      stored.foldlM (insertSequence (.atomNode "" default) (1, 0)) Trie.new = .ok t ∧
      ∀ p, t.get p = if p ∈ stored then some (1, 0) else none := by
  have horders := @orders_once EntryMap _ Unit _
  have hkeys : ∀ v ∈ ([0x41e, 0x430] : List UInt16),
      v &&& keyOverlapMarker ≠ 0 ∧ v ≠ keyOverlapMarker := by
    intro v hv
    simp only [List.mem_cons, List.not_mem_nil, or_false] at hv
    rcases hv with hv | hv
    · subst hv; constructor <;> decide
    · subst hv; constructor <;> decide
  refine ⟨?_, ?_, ?_⟩
  · rcases horders.1 Nat [1, 2, 3] (List.cons_ne_nil _ _) with ⟨out, hout, hevery⟩
    cases hout
    exact hevery
  · exact ⟨_, horders.2.1 twoKeys (.atomNode "v" default) _ Trie.new _ rfl⟩
  · exact horders.2.2 (.atomNode "" default) (1, 0) [0x41e, 0x430] (by decide) (by decide)
      (by decide) hkeys

end Kanata.Sequence
