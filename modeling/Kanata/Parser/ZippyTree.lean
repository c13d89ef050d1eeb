import Kanata.Lib.PathTree
import Kanata.Parser.Zippychord

/-!
# Kanata.Parser.ZippyTree — the nested maps are a tree of chord paths

* `Represents`: each map stands at a path, and its entries are the nodes below;
* `walkChords_grows`: a line adds its path to the tree, or fails where the tree does;
* `Represents.follow`: following a path through the maps gives its node;
* `zippy_file_iff`: a file whose lines are valid by themselves and have different paths
  is parsed, with the outputs of its lines, exactly if no line comes after one whose
  path goes on from its own.
-/

namespace Kanata

open Fallible SubsetMap PathTree

/-- The nodes are paths of chords, and their values are outputs. -/
abbrev ZchTree := Tree (List Nat) (List ZchOutput)

/-- What the tree says of an output of the maps. -/
def ZchChordOutput.node (o : ZchChordOutput) : List ZchOutput × Bool :=
  (o.zchOutput, o.zchFollowups.isSome)

namespace ZchHeap

/-- The output of a chord of a map. -/
def find? (heap : ZchHeap) (map : Nat) (chord : List Nat) : Option ZchChordOutput :=
  heap[map]?.bind (SubsetMap.find? · chord)

/-- The output of a path of chords. -/
def follow (heap : ZchHeap) : Nat → List (List Nat) → Option ZchChordOutput
  | _, [] => none
  | map, [chord] => heap.find? map chord
  | map, chord :: chord' :: chords => do
    let output ← heap.find? map chord
    let followups ← output.zchFollowups
    follow heap followups (chord' :: chords)

/-- One chord, then the rest from the map of its follow-ups. -/
theorem follow_cons_cons (heap : ZchHeap) (map : Nat) (chord chord' : List Nat)
    (chords : List (List Nat)) :
    heap.follow map (chord :: chord' :: chords) =
      ((heap.find? map chord).bind ZchChordOutput.zchFollowups).bind
        (heap.follow · (chord' :: chords)) := by
  rw [Option.bind_assoc]
  rfl

/-- The code finds an output where the map has one. -/
theorem get_eq_hasValue_iff {heap : ZchHeap} {map : Nat} {chord : List Nat} {o : ZchChordOutput} :
    heap.get map chord = .hasValue o ↔ heap.find? map chord = some o := by
  unfold ZchHeap.get find?
  cases heap[map]? with
  | none => simp
  | some chords => exact find?_eq_some_iff.symm

end ZchHeap

/-- `labels` has the path of each map, and the entries of a map are the nodes right below
its path. -/
structure Nodes (labels : List (List (List Nat))) (heap : ZchHeap) (t : ZchTree) : Prop where
  length : heap.length = labels.length
  nodup : labels.Nodup
  made : ∀ {i : Nat} {chords}, heap[i]? = some chords → Made chords
  node : ∀ {i : Nat} {q k}, labels[i]? = some q → k.Pairwise (· < ·) →
    t (q ++ [k]) = (heap.find? i k).map ZchChordOutput.node
  followups : ∀ {i : Nat} {q k o} {j : Nat}, labels[i]? = some q → k.Pairwise (· < ·) →
    heap.find? i k = some o → o.zchFollowups = some j → labels[j]? = some (q ++ [k])

/-- There is a map at each path on the way to a node, and at no other. -/
structure Represents (labels : List (List (List Nat))) (heap : ZchHeap) (t : ZchTree) : Prop
    extends Nodes labels heap t where
  root : labels[0]? = some []
  mem_labels : ∀ {q}, q ≠ [] → (q ∈ labels ↔ ∃ out, t q = some (out, true))
  closed : ∀ {q k}, (t (q ++ [k])).isSome → q ∈ labels

namespace ZchHeap

variable {heap : ZchHeap} {i : Nat} {k : List Nat} {o : ZchChordOutput}

/-- An insertion makes no map. -/
theorem length_insert : (heap.insert i k o).length = heap.length := by
  rw [ZchHeap.insert, List.length_modify]

/-- It changes one map. -/
theorem getElem?_insert (j : Nat) :
    (heap.insert i k o)[j]? =
      if i = j then (heap[j]?).map fun chords => (chords.ssmInsertKsorted k o).1 else heap[j]? := by
  rw [ZchHeap.insert, List.getElem?_modify]
  split
  · rfl
  · exact congrFun Option.map_id _

/-- A new map does not change the others. -/
theorem find?_append_left {j : Nat} (h : j < heap.length) (chords : ZchPossibleChords)
    (k' : List Nat) : find? (heap ++ [chords]) j k' = heap.find? j k' := by
  rw [find?, find?, List.getElem?_append_left h]

/-- A new map is empty. -/
theorem find?_fresh (k' : List Nat) : find? (heap ++ [ssmNew]) heap.length k' = none := by
  rw [find?, List.getElem?_concat_length]
  exact find?_new k'

end ZchHeap

section Nodes

variable {labels : List (List (List Nat))} {heap : ZchHeap} {t : ZchTree} {i : Nat}
  {q : List (List Nat)} {k : List Nat}

/-- Where there is a path there is a map. -/
theorem Nodes.lt_length (h : Nodes labels heap t) (hq : labels[i]? = some q) :
    i < heap.length := by
  rw [h.length]
  exact (List.getElem?_eq_some_iff.mp hq).1

/-- Two maps at one path are one map. -/
theorem Nodes.address_unique (h : Nodes labels heap t) {j : Nat} (hi : labels[i]? = some q)
    (hj : labels[j]? = some q) : i = j :=
  List.getElem?_inj (h.length ▸ h.lt_length hi) h.nodup |>.mp (hi.trans hj.symm)

/-- What the maps have after an insertion. -/
theorem Nodes.find?_insert (h : Nodes labels heap t) (hi : i < heap.length) (hk : IsKey k)
    (o : ZchChordOutput) (j : Nat) {k' : List Nat} (hk' : k'.Pairwise (· < ·)) :
    (heap.insert i k o).find? j k' = if i = j ∧ k' = k then some o else heap.find? j k' := by
  unfold ZchHeap.find?
  rw [ZchHeap.getElem?_insert]
  by_cases hj : i = j
  · subst hj
    have hchords : heap[i]? = some heap[i] := List.getElem?_eq_getElem hi
    simp only [if_true, true_and, hchords, Option.map_some, Option.bind_some,
      (h.made hchords).find?_insert hk hk']
  · simp [hj]

/-- An output is put at a chord of a map. -/
theorem Nodes.insert (h : Nodes labels heap t) (hq : labels[i]? = some q) (hk : IsKey k)
    {o : ZchChordOutput} (ho : ∀ j, o.zchFollowups = some j → labels[j]? = some (q ++ [k])) :
    Nodes labels (heap.insert i k o) fun p => if p = q ++ [k] then some o.node else t p := by
  have hi := h.lt_length hq
  -- a path of a map and a chord are the ones of the insertion, or others
  have hpath : ∀ {j : Nat} {q' k'}, labels[j]? = some q' →
      (q' ++ [k'] = q ++ [k] ↔ i = j ∧ k' = k) := by
    intro j q' k' hq'
    rw [← List.concat_eq_append, ← List.concat_eq_append, List.concat_inj]
    refine and_congr_left fun _ => ⟨fun heq => ?_, fun heq => ?_⟩
    · exact h.address_unique hq (heq ▸ hq')
    · subst heq
      exact Option.some.inj (hq'.symm.trans hq)
  constructor
  · rw [ZchHeap.length_insert, h.length]
  · exact h.nodup
  · intro j chords hchords
    rw [ZchHeap.getElem?_insert] at hchords
    split at hchords
    · rcases Option.map_eq_some_iff.mp hchords with ⟨chords', hchords', rfl⟩
      exact (h.made hchords').insert hk
    · exact h.made hchords
  · intro j q' k' hq' hk'
    rw [h.find?_insert hi hk o j hk']
    simp only [hpath hq']
    split
    · rfl
    · exact h.node hq' hk'
  · intro j q' k' o' j' hq' hk' hfind hfollow
    rw [h.find?_insert hi hk o j hk'] at hfind
    split at hfind
    · next heq =>
      cases hfind
      rw [(hpath hq').mpr heq]
      exact ho j' hfollow
    · exact h.followups hq' hk' hfind hfollow

/-- A new map stands at a path without nodes below. -/
theorem Nodes.alloc (h : Nodes labels heap t) {p : List (List Nat)} (hp : p ∉ labels)
    (hnone : ∀ k : List Nat, t (p ++ [k]) = none) :
    Nodes (labels ++ [p]) (heap ++ [ssmNew]) t := by
  -- a map is one of those before, or the new one
  have hold : ∀ {j : Nat} {q'}, (labels ++ [p])[j]? = some q' →
      labels[j]? = some q' ∨ j = heap.length ∧ q' = p := by
    intro j q' hq'
    rcases Nat.lt_or_ge j labels.length with hlt | hge
    · exact .inl (List.getElem?_append_left hlt ▸ hq')
    · rw [List.getElem?_append_right hge, List.getElem?_singleton] at hq'
      split at hq'
      · next hj =>
        cases hq'
        exact .inr ⟨by rw [h.length]; omega, rfl⟩
      · cases hq'
  constructor
  · rw [List.length_append, List.length_append, h.length]
    rfl
  · exact List.nodup_append.mpr ⟨h.nodup, List.nodup_singleton _, by
      rintro a ha b hb rfl
      exact hp (List.mem_singleton.mp hb ▸ ha)⟩
  · intro j chords hchords
    rcases List.mem_append.mp (List.mem_of_getElem? hchords) with hmem | hmem
    · rcases List.mem_iff_getElem?.mp hmem with ⟨j', hj'⟩
      exact h.made hj'
    · rw [List.mem_singleton.mp hmem]
      exact made_new
  · intro j q' k' hq' hk'
    rcases hold hq' with hq' | ⟨rfl, rfl⟩
    · rw [ZchHeap.find?_append_left (h.lt_length hq'), h.node hq' hk']
    · rw [ZchHeap.find?_fresh, hnone]
      rfl
  · intro j q' k' o j' hq' hk' hfind hfollow
    rcases hold hq' with hq' | ⟨rfl, rfl⟩
    · rw [ZchHeap.find?_append_left (h.lt_length hq')] at hfind
      have hlabel := h.followups hq' hk' hfind hfollow
      rw [List.getElem?_append_left (List.getElem?_eq_some_iff.mp hlabel).1, hlabel]
    · rw [ZchHeap.find?_fresh] at hfind
      cases hfind

end Nodes

section Represents

variable {labels : List (List (List Nat))} {heap : ZchHeap} {t : ZchTree} {i : Nat}
  {q : List (List Nat)} {k : List Nat}

/-- One empty map is the empty tree. -/
theorem represents_new : Represents [[]] [ssmNew] (fun _ => none) := by
  have hzero :
    ∀ {j : Nat} {q' : List (List Nat)}, [([] : List (List Nat))][j]? = some q' → j = 0 := by
    intro j q' hq'
    have := (List.getElem?_eq_some_iff.mp hq').1
    simpa using this
  constructor
  · constructor
    · rfl
    · exact List.nodup_singleton _
    · intro j chords hchords
      rw [List.mem_singleton.mp (List.mem_of_getElem? hchords)]
      exact made_new
    · intro j q' k' hq' hk'
      rw [hzero hq', ← List.nil_append [ssmNew], ← @List.length_nil ZchPossibleChords,
        ZchHeap.find?_fresh]
      rfl
    · intro j q' k' o j' hq' hk' hfind
      rw [hzero hq', ← List.nil_append [ssmNew], ← @List.length_nil ZchPossibleChords,
        ZchHeap.find?_fresh] at hfind
      cases hfind
  · rfl
  · intro q' hne
    simp [hne]
  · intro q' k' h
    cases h

/-- The last chord of a line is put into the map it leads to. -/
theorem Represents.put (h : Represents labels heap t) (hq : labels[i]? = some q) (hk : IsKey k)
    (hnone : t (q ++ [k]) = none) (out : List ZchOutput) :
    Represents labels (heap.insert i k ⟨out, none⟩) (PathTree.put t (q ++ [k]) out) := by
  constructor
  · exact h.toNodes.insert hq hk (by rintro j ⟨⟩)
  · exact h.root
  · intro q' hne
    rw [h.mem_labels hne]
    unfold PathTree.put
    split
    · next heq => simp [heq, hnone]
    · rfl
  · intro q' k' hsome
    unfold PathTree.put at hsome
    split at hsome
    · next heq =>
      rw [(List.append_inj' heq rfl).1]
      exact List.mem_of_getElem? hq
    · exact h.closed hsome

/-- A chord on the way gets a map of its own. -/
theorem Represents.grow (h : Represents labels heap t) (hq : labels[i]? = some q) (hk : IsKey k)
    (hleaf : q ++ [k] ∉ labels) :
    Represents (labels ++ [q ++ [k]])
      (ZchHeap.insert (heap ++ [ssmNew]) i k
        ⟨((t (q ++ [k])).map Prod.fst).getD [], some heap.length⟩)
      (visit [] t (q ++ [k])) := by
  -- no map stands here, so nothing goes on from here
  have hbelow : ∀ k' : List Nat, t (q ++ [k] ++ [k']) = none := by
    intro k'
    rw [← Option.not_isSome_iff_eq_none]
    exact fun hsome => hleaf (h.closed hsome)
  have hnodes := h.toNodes.alloc hleaf hbelow
  -- the new map stands at the path so far
  have hlabel : (labels ++ [q ++ [k]])[heap.length]? = some (q ++ [k]) := by
    rw [h.length, List.getElem?_concat_length]
  constructor
  · refine hnodes.insert ?_ hk ?_
    · rw [List.getElem?_append_left (List.getElem?_eq_some_iff.mp hq).1, hq]
    · rintro j ⟨⟩
      exact hlabel
  · rw [List.getElem?_append_left (List.getElem?_eq_some_iff.mp h.root).1, h.root]
  · intro q' hne
    rw [List.mem_append, List.mem_singleton, h.mem_labels hne]
    unfold visit
    split
    · next heq => simp [heq]
    · next heq => simp [heq]
  · intro q' k' hsome
    rw [List.mem_append]
    unfold visit at hsome
    split at hsome
    · next heq =>
      rw [(List.append_inj' heq rfl).1]
      exact .inl (List.mem_of_getElem? hq)
    · exact .inl (h.closed hsome)

/-- Nothing changes where there is a map. -/
theorem visit_of_some {out : List ZchOutput} {p : List (List Nat)} (h : t p = some (out, true)) :
    visit [] t p = t := by
  funext p'
  unfold visit
  split
  · next heq => simp [heq, h]
  · rfl

end Represents

/-! ## A line -/

section Line

variable {s : ZippyParser}

/-- Nothing is left to read. -/
theorem chordPath_nil (rounds : Nat) : chordPath s rounds [] = some [] := by
  cases rounds <;> rfl

/-- The first chord of an input and the path of the rest. -/
theorem chordPath_succ {rounds : Nat} {inputLeft : List Char} {path : List (List Nat)}
    (hne : inputLeft ≠ []) (h : chordPath s (rounds + 1) inputLeft = some path) (n : Nat)
    (line : List Char) :
    ∃ k rest ks, nextChord s n line inputLeft = .ok (k, rest) ∧ chordPath s rounds rest = some ks ∧
      path = k :: ks := by
  unfold chordPath at h
  rw [if_neg hne, Option.bind_eq_bind, Option.bind_eq_some_iff] at h
  rcases h with ⟨⟨k, rest⟩, hnext, h⟩
  rcases Option.bind_eq_some_iff.mp h with ⟨ks, hks, hpath⟩
  rw [nextChord_toOption n line, toOption_eq_some_iff] at hnext
  exact ⟨k, rest, ks, hnext, hks, (Option.some.inj hpath).symm⟩

/-- The chords of a path are sorted sets of keys. -/
theorem chordPath_isKey : ∀ {rounds : Nat} {inputLeft : List Char} {path : List (List Nat)},
    inputLeft.length ≤ rounds → chordPath s rounds inputLeft = some path →
    (∀ k ∈ path, IsKey k) ∧ (inputLeft ≠ [] → path ≠ [])
  | 0, inputLeft, path, hlength, h => by
    rw [List.length_eq_zero_iff.mp (Nat.le_zero.mp hlength)] at *
    cases h
    simp
  | rounds + 1, inputLeft, path, hlength, h => by
    by_cases hne : inputLeft = []
    · subst hne
      cases h
      simp
    · rcases chordPath_succ hne h 0 [] with ⟨k, rest, ks, hnext, hks, rfl⟩
      rcases nextChord_isKey hne hnext with ⟨hk, hlt⟩
      have hrest := chordPath_isKey (by omega) hks
      refine ⟨?_, fun _ => List.cons_ne_nil k ks⟩
      intro k' hk'
      rcases List.mem_cons.mp hk' with rfl | hk'
      · exact hk
      · exact hrest.1 k' hk'

/-- A computation on the maps does what the tree says. -/
def Grows (result : Except ZippyError ZchHeap) : Option ZchTree → Prop
  | some t => ∃ labels heap, result = .ok heap ∧ Represents labels heap t
  | none => ∃ e, result = .error e

/-- A line adds its path to the tree, or fails where the tree does. -/
theorem walkChords_grows {n : Nat} {line input : List Char} {output : List ZchOutput} :
    ∀ {rounds : Nat} {inputLeft : List Char} {labels heap t} {i : Nat} {q path},
      Represents labels heap t → labels[i]? = some q → inputLeft ≠ [] →
      inputLeft.length ≤ rounds → chordPath s rounds inputLeft = some path →
      Grows (walkChords s n line input output rounds inputLeft i heap) (add [] t q path output)
  | 0, inputLeft, _, _, _, _, _, _, _, _, hne, hlength, _ => by
    exact absurd (List.length_eq_zero_iff.mp (Nat.le_zero.mp hlength)) hne
  | rounds + 1, inputLeft, labels, heap, t, i, q, path, h, hq, hne, hlength, hpath => by
    rcases chordPath_succ hne hpath n line with ⟨k, rest, ks, hnext, hks, rfl⟩
    rcases nextChord_isKey hne hnext with ⟨hk, hlt⟩
    have hnode := h.node hq hk.2
    unfold walkChords
    rw [if_neg hne, hnext, ok_bind]
    dsimp only
    rcases rest with _ | ⟨c, rest⟩
    · rw [chordPath_nil] at hks
      cases hks
      rw [add]
      split
      · next o _ hget =>
        -- the path has a node
        rw [ZchHeap.get_eq_hasValue_iff] at hget
        rw [hnode, hget]
        exact ⟨_, rfl⟩
      · next hget =>
        -- no output was found, so the path has no node
        have hnone : t (q ++ [k]) = none := by
          rw [hnode, Option.map_eq_none_iff, Option.eq_none_iff_forall_ne_some]
          exact fun o ho => hget o (ZchHeap.get_eq_hasValue_iff.mpr ho)
        rw [hnone]
        exact ⟨_, _, rfl, h.put hq hk hnone output⟩
      · next heq _ => cases heq
      · next heq _ => cases heq
    · have hksne := (chordPath_isKey (by omega) hks).2 (List.cons_ne_nil c rest)
      rcases List.exists_cons_of_ne_nil hksne with ⟨k', ks', rfl⟩
      -- what the rest does once the next map stands at the path so far
      have hrest : ∀ {labels' heap' t'} {j : Nat}, Represents labels' heap' t' →
          labels'[j]? = some (q ++ [k]) →
          Grows (walkChords s n line input output rounds (c :: rest) j heap')
            (add [] t' (q ++ [k]) (k' :: ks') output) := fun h' hj =>
        walkChords_grows h' hj (List.cons_ne_nil c rest) (by omega) hks
      have hgrow : (∀ out, t (q ++ [k]) ≠ some (out, true)) →
          Grows (walkChords s n line input output rounds (c :: rest) heap.length
              (ZchHeap.insert (heap ++ [ssmNew]) i k
                ⟨((t (q ++ [k])).map Prod.fst).getD [], some heap.length⟩))
            (add [] (visit [] t (q ++ [k])) (q ++ [k]) (k' :: ks') output) := by
        intro hleaf
        refine hrest (h.grow hq hk ?_) ?_
        · rw [h.mem_labels (by simp)]
          exact fun hsome => hsome.elim hleaf
        · rw [h.length, List.getElem?_concat_length]
      rw [add]
      split
      · next heq _ => cases heq
      · next heq _ => cases heq
      · next o heq hget =>
        rw [ZchHeap.get_eq_hasValue_iff] at hget
        rw [hget, Option.map_some] at hnode
        rcases ho : o.zchFollowups with _ | followup
        · -- an earlier line ends here, and now a path goes on
          have hgrow := hgrow fun out hout => by
            rw [hnode, ZchChordOutput.node, ho] at hout
            cases hout
          rw [hnode] at hgrow
          exact hgrow
        · have hsome : t (q ++ [k]) = some (o.zchOutput, true) := by
            rw [hnode, ZchChordOutput.node, ho]
            rfl
          rw [visit_of_some hsome]
          exact hrest h (h.followups hq hk.2 hget ho)
      · next heq hget =>
        have hnone : t (q ++ [k]) = none := by
          rw [hnode, Option.map_eq_none_iff, Option.eq_none_iff_forall_ne_some]
          exact fun o ho => hget o (ZchHeap.get_eq_hasValue_iff.mpr ho)
        have hgrow := hgrow fun out hout => by
          rw [hnone] at hout
          cases hout
        rw [hnone] at hgrow
        exact hgrow

/-- A line that is processed has a path. -/
theorem exists_chordPath {n : Nat} {line input : List Char} {output : List ZchOutput} :
    ∀ {rounds : Nat} {inputLeft : List Char} {i : Nat} {heap heap' : ZchHeap},
      walkChords s n line input output rounds inputLeft i heap = .ok heap' →
      ∃ path, chordPath s rounds inputLeft = some path
  | 0, _, _, _, _, _ => ⟨[], rfl⟩
  | rounds + 1, inputLeft, i, heap, heap', h => by
    by_cases hne : inputLeft = []
    · exact ⟨[], by rw [hne, chordPath_nil]⟩
    unfold walkChords at h
    rw [if_neg hne, bind_eq_ok] at h
    rcases h with ⟨⟨k, rest⟩, hnext, h⟩
    have hrest : ∃ ks, chordPath s rounds rest = some ks := by
      dsimp only at h
      split at h
      · cases h
      · exact ⟨[], chordPath_nil rounds⟩
      · split at h
        · exact exists_chordPath h
        · exact exists_chordPath h
      · exact exists_chordPath h
    rcases hrest with ⟨ks, hks⟩
    have hnext : (nextChord s 0 [] inputLeft).toOption = some (k, rest) := by
      rw [nextChord_toOption n line, hnext]
      rfl
    refine ⟨k :: ks, ?_⟩
    rw [chordPath, if_neg hne, hnext, Option.bind_eq_bind, Option.bind_some]
    dsimp only
    rw [hks]
    rfl

/-- A line that is processed is an entry. -/
theorem exists_lineEntry {heap heap' : ZchHeap} {line : List Char} {n : Nat}
    (h : processLine s heap (line, n) = .ok heap') : ∃ e, lineEntry s line = some e := by
  unfold processLine at h
  dsimp only at h
  split at h
  · cases h
  next input output hsplit =>
  split at h
  · cases h
  next hne =>
  rcases bind_eq_ok.mp h with ⟨out, hout, hwalk⟩
  rcases exists_chordPath hwalk with ⟨path, hpath⟩
  rw [← toOption_eq_some_iff, outputs_toOption 0 []] at hout
  refine ⟨(path, out), ?_⟩
  simp only [lineEntry, hsplit, Option.bind_eq_bind, Option.bind_some, if_neg hne, hout, hpath]
  rfl

/-- A line with a path adds it. -/
theorem processLine_grows {labels heap t} {line : List Char} {n : Nat}
    {e : List (List Nat) × List ZchOutput} (h : Represents labels heap t)
    (he : lineEntry s line = some e) :
    Grows (processLine s heap (line, n)) (add [] t [] e.1 e.2) ∧ e.1 ≠ [] ∧ ∀ k ∈ e.1, IsKey k := by
  unfold lineEntry at he
  rcases Option.bind_eq_some_iff.mp he with ⟨⟨input, output⟩, hsplit, he⟩
  dsimp only at he
  split at he
  · cases he
  next hne =>
  rcases Option.bind_eq_some_iff.mp he with ⟨out, hout, he⟩
  rcases Option.bind_eq_some_iff.mp he with ⟨path, hpath, he⟩
  cases he
  rw [outputs_toOption n line, toOption_eq_some_iff] at hout
  have hkeys := chordPath_isKey le_rfl hpath
  refine ⟨?_, hkeys.2 hne, hkeys.1⟩
  unfold processLine
  simp only [hsplit, if_neg hne, hout, ok_bind]
  exact walkChords_grows h h.root hne le_rfl hpath

/-- The lines add their paths one after the other. -/
theorem processLines_grows : ∀ {numbered : List (List Char × Nat)}
    {entries : List (List (List Nat) × List ZchOutput)} {labels heap t},
    Represents labels heap t →
    List.Forall₂ (fun line e => lineEntry s line.1 = some e) numbered entries →
    Grows (numbered.foldlM (processLine s) heap) (addAll [] t entries)
  | _, _, labels, heap, t, h, .nil => ⟨labels, heap, rfl, h⟩
  | line :: numbered, e :: entries, labels, heap, t, h, .cons he hrest => by
    have hfirst := (@processLine_grows _ _ _ _ line.1 line.2 _ h he).1
    unfold addAll
    rw [List.foldlM_cons, List.foldlM_cons]
    rcases hadd : add [] t [] e.1 e.2 with _ | t'
    · rw [hadd] at hfirst
      rcases hfirst with ⟨err, herr⟩
      rw [herr]
      exact ⟨err, rfl⟩
    · rw [hadd] at hfirst
      rcases hfirst with ⟨labels', heap', hheap, h'⟩
      rw [hheap]
      exact processLines_grows h' hrest

end Line

/-! ## A file -/

section Follow

variable {labels : List (List (List Nat))} {heap : ZchHeap} {t : ZchTree}

/-- There is a map on every way to a node. -/
theorem Represents.mem_of_below (h : Represents labels heap t) :
    ∀ {ks q : List (List Nat)}, ks ≠ [] → (t (q ++ ks)).isSome → q ∈ labels
  | [k], q, _, hsome => h.closed hsome
  | k :: k' :: ks, q, _, hsome => by
    rw [← List.singleton_append, ← List.append_assoc] at hsome
    have hnext := h.mem_of_below (List.cons_ne_nil k' ks) hsome
    rcases (h.mem_labels (by simp)).mp hnext with ⟨out, hout⟩
    exact h.closed (Option.isSome_of_eq_some hout)

/-- Following a path from a map gives its node. -/
theorem Represents.follow (h : Represents labels heap t) :
    ∀ {ks q : List (List Nat)} {i : Nat}, labels[i]? = some q → ks ≠ [] →
      (∀ k ∈ ks, IsKey k) → (heap.follow i ks).map ZchChordOutput.node = t (q ++ ks)
  | [k], q, i, hq, _, hkeys => (h.node hq (hkeys k List.mem_cons_self).2).symm
  | k :: k' :: ks, q, i, hq, _, hkeys => by
    have hnode := h.node hq (hkeys k List.mem_cons_self).2
    have hrest : ∀ k₁ ∈ k' :: ks, IsKey k₁ := fun k₁ hk₁ => hkeys k₁ (List.mem_cons_of_mem k hk₁)
    -- the path so far, and what is left of it
    have happend : q ++ k :: k' :: ks = q ++ [k] ++ k' :: ks := by simp
    rw [ZchHeap.follow_cons_cons]
    rcases hfollowups : (heap.find? i k).bind ZchChordOutput.zchFollowups with _ | j
    · -- no map stands at the path so far, so that it leads nowhere
      have hnot : q ++ [k] ∉ labels := by
        rw [h.mem_labels (by simp), hnode]
        rintro ⟨out, hout⟩
        rcases Option.map_eq_some_iff.mp hout with ⟨o, ho, hnode⟩
        rw [ho, Option.bind_some] at hfollowups
        rw [ZchChordOutput.node, hfollowups] at hnode
        cases hnode
      have hnone : t (q ++ k :: k' :: ks) = none := by
        rw [happend, ← Option.not_isSome_iff_eq_none]
        exact fun hsome => hnot (h.mem_of_below (List.cons_ne_nil k' ks) hsome)
      rw [hnone]
      rfl
    · rcases Option.bind_eq_some_iff.mp hfollowups with ⟨o, ho, hj⟩
      have hlabel := h.followups hq (hkeys k List.mem_cons_self).2 ho hj
      rw [happend]
      exact h.follow hlabel (List.cons_ne_nil k' ks) hrest

end Follow

/-- The maps give the path of each entry its output, and a path that only leads to others
an empty output with followups. -/
structure ZchOutputs (heap : ZchHeap) (entries : List (List (List Nat) × List ZchOutput)) :
    Prop where
  lines : ∀ e ∈ entries, ∃ followups, heap.follow 0 e.1 = some ⟨e.2, followups⟩
  passed : ∀ e ∈ entries, ∀ p ≠ [], p <+: e.1 → (∀ e' ∈ entries, e'.1 ≠ p) →
    ∃ followups, heap.follow 0 p = some ⟨[], some followups⟩

section ZchOutputs

variable {entries : List (List (List Nat) × List ZchOutput)}

/-- Where the paths differ each has the output of its own line. -/
theorem valueOf_eq (hnodup : (entries.map Prod.fst).Nodup) {e : List (List Nat) × List ZchOutput}
    (he : e ∈ entries) : valueOf [] entries e.1 = e.2 := by
  have hsome : (entries.find? fun e' => e'.1 = e.1).isSome := by
    rw [List.find?_isSome]
    exact ⟨e, he, decide_eq_true rfl⟩
  rcases Option.isSome_iff_exists.mp hsome with ⟨e', hfind⟩
  -- the first entry of the path is the only one
  have hsame : e'.1 = e.1 := by simpa using List.find?_some hfind
  have heq : e' = e := List.inj_on_of_nodup_map hnodup (List.mem_of_find?_eq_some hfind) he hsame
  rw [valueOf, hfind, heq]
  rfl

/-- The tree of the entries says just that. -/
theorem Represents.outputs {labels heap} (h : Represents labels heap (treeOf [] entries))
    (hkeys : ∀ e ∈ entries, e.1 ≠ [] ∧ ∀ k ∈ e.1, IsKey k)
    (hnodup : (entries.map Prod.fst).Nodup) : ZchOutputs heap entries := by
  have hfollow : ∀ e ∈ entries, ∀ p ≠ [], p <+: e.1 →
      (heap.follow 0 p).map ZchChordOutput.node = treeOf [] entries p := by
    intro e he p hne hprefix
    refine h.follow h.root hne fun k hk => ?_
    exact (hkeys e he).2 k (List.IsPrefix.subset hprefix hk)
  constructor
  · intro e he
    have hnode := hfollow e he e.1 (hkeys e he).1 (List.prefix_refl _)
    rw [treeOf, if_pos ⟨(hkeys e he).1, e, he, List.prefix_refl _⟩, valueOf_eq hnodup he] at hnode
    rcases Option.map_eq_some_iff.mp hnode with ⟨⟨out, followups⟩, ho, hout⟩
    rcases (Prod.mk.inj hout).1 with rfl
    exact ⟨followups, ho⟩
  · intro e he p hne hprefix hnot
    have hnode := hfollow e he p hne hprefix
    -- the path is no line, and one goes on from it
    have hbelow : ∃ e ∈ entries, p <+: e.1 ∧ p ≠ e.1 := ⟨e, he, hprefix, (hnot e he).symm⟩
    rw [treeOf, if_pos ⟨hne, e, he, hprefix⟩, valueOf_of_not_mem hnot, decide_eq_true hbelow]
      at hnode
    rcases Option.map_eq_some_iff.mp hnode with ⟨⟨out, followups⟩, ho, hout⟩
    rcases Prod.mk.inj hout with ⟨rfl, hsome⟩
    rcases Option.isSome_iff_exists.mp hsome with ⟨map, rfl⟩
    exact ⟨map, ho⟩

end ZchOutputs

section File

variable (s : ZippyParser)

/-- The lines that are valid have their entries. -/
theorem forall₂_entriesOf {lines : List (List Char)}
    (hvalid : ∀ line ∈ lines, Text.isMeaningful line → ∃ heap, processLines s [line] = .ok heap) :
    List.Forall₂ (fun line e => lineEntry s line.1 = some e)
      (lines.zipIdx.filter fun numbered => Text.isMeaningful numbered.1) (entriesOf s lines) := by
  have hlines : (lines.zipIdx.filter fun numbered => Text.isMeaningful numbered.1).map Prod.fst =
      lines.filter Text.isMeaningful := by
    rw [← Function.comp_def Text.isMeaningful Prod.fst, ← List.filter_map, List.zipIdx_map_fst]
  have hentries : ∀ line ∈ lines.filter Text.isMeaningful, ∃ e, lineEntry s line = some e := by
    intro line hline
    rcases List.mem_filter.mp hline with ⟨hmem, hmeaningful⟩
    rcases hvalid line hmem hmeaningful with ⟨heap, hheap⟩
    have hfilter : ([line].zipIdx.filter fun numbered => Text.isMeaningful numbered.1) =
        [(line, 0)] := by simp [hmeaningful]
    rw [processLines, hfilter, List.foldlM_cons, bind_eq_ok] at hheap
    rcases hheap with ⟨heap₁, hfirst, -⟩
    exact exists_lineEntry hfirst
  have hall := forall₂_filterMap hentries
  rw [← hlines, List.forall₂_map_left_iff, hlines] at hall
  exact hall

/-- A file whose lines are valid by themselves and have different paths is parsed, and gives
each line its output, exactly if no line comes after one whose path goes on from its own. -/
theorem zippy_file_iff {lines : List (List Char)}
    (hvalid : ∀ line ∈ lines, Text.isMeaningful line → ∃ heap, processLines s [line] = .ok heap)
    (hdistinct : ((entriesOf s lines).map Prod.fst).Nodup) :
    (∃ heap, processLines s lines = .ok heap ∧ ZchOutputs heap (entriesOf s lines)) ↔
      PrefixesFirst (entriesOf s lines) := by
  have hentries := forall₂_entriesOf s hvalid
  have hkeys : ∀ e ∈ entriesOf s lines, e.1 ≠ [] ∧ ∀ k ∈ e.1, IsKey k := by
    intro e he
    rcases List.mem_filterMap.mp he with ⟨line, -, hline⟩
    exact (@processLine_grows _ _ _ _ line 0 _ represents_new hline).2
  have hempty :
      (fun _ => none) = treeOf ([] : List ZchOutput) ([] : List (List (List Nat) × _)) := by
    funext p
    simp [treeOf]
  have hadd := @addAll_eq_some_iff _ _ _ [] _ [] (fun e he => (hkeys e he).1) List.Pairwise.nil
  have hgrows := processLines_grows (hempty ▸ represents_new) hentries
  simp only [List.nil_append] at hadd
  constructor
  · rintro ⟨heap, hheap, -⟩
    rcases hall : addAll [] (treeOf [] []) (entriesOf s lines) with _ | t
    · -- the tree fails, and so does the parser
      rw [hall] at hgrows
      rcases hgrows with ⟨err, herr⟩
      rw [processLines, herr] at hheap
      cases hheap
    · exact ((hadd t).mp hall).1
  · intro hfirst
    rw [(hadd _).mpr ⟨hfirst, rfl⟩] at hgrows
    rcases hgrows with ⟨labels, heap, hheap, h⟩
    exact ⟨heap, hheap, h.outputs hkeys hdistinct⟩

end File

/-! ## Two orders of two lines -/

/-- The code of `a` is one. -/
theorem keyA_le : 30 ≤ keyCodeMax := by decide

/-- So is that of `b`. -/
theorem keyB_le : 48 ≤ keyCodeMax := by decide

/-- A parser that knows the keys of two letters. -/
def twoLetters : ZippyParser where
  userCfgCharToOutput _ := none
  strToOscode name :=
    if name = "a" then some ⟨30, keyA_le⟩
    else if name = "b" then some ⟨48, keyB_le⟩
    else none
  toLowercase := Char.toLower
  isUppercase := Char.isUpper

/-- That each line alone is accepted can be computed. -/
theorem twoLetters_valid {lines : List (List Char)}
    (h : ∀ line ∈ lines, (processLines twoLetters [line]).isOk = true) :
    ∀ line ∈ lines, Text.isMeaningful line → ∃ heap, processLines twoLetters [line] = .ok heap :=
  fun line hline _ => exists_ok_of_isOk (h line hline)

/-- The shorter path comes first, and both lines are read. -/
theorem zippy_file_iff_shorter_first :
    ∃ heap, processLines twoLetters ["a\tb".toList, "a b\ta".toList] = .ok heap ∧
      ZchOutputs heap (entriesOf twoLetters ["a\tb".toList, "a b\ta".toList]) := by
  have hfirst : PrefixesFirst (entriesOf twoLetters ["a\tb".toList, "a b\ta".toList]) := by
    unfold PrefixesFirst
    decide +kernel
  exact (zippy_file_iff twoLetters (twoLetters_valid (by decide +kernel))
    (by decide +kernel)).mpr hfirst

/-- The longer path comes first. Its chord leaves an output without a text, and the line of
that chord is taken for a second one. -/
theorem zippy_file_fails_longer_first :
    (∀ line ∈ ["a b\ta".toList, "a\tb".toList], Text.isMeaningful line →
        ∃ heap, processLines twoLetters [line] = .ok heap) ∧
      ((entriesOf twoLetters ["a b\ta".toList, "a\tb".toList]).map Prod.fst).Nodup ∧
      processLines twoLetters ["a b\ta".toList, "a\tb".toList] =
        .error (.duplicateChord ['a'] 1 "a\tb".toList) ∧
      processFile twoLetters "a b\ta\na\tb".toList =
        .error "Found duplicate input chord, which is disallowed a:\n2: a\tb" := by
  refine ⟨twoLetters_valid (by decide +kernel), by decide +kernel, ?_, ?_⟩
  · rfl
  · rfl

end Kanata
