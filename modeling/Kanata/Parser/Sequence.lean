import Kanata.Parser.Macro
import Kanata.Parser.Permutations
import Kanata.Parser.Trie

/-!
# Kanata.Parser.Sequence — from `defseq` to the table of sequences

The code of `parse_sequences` in `parser/src/cfg/sequence.rs`. The keys of a
definition are read as macro items and encoded with their modifiers, groups of
overlapping keys are put in every order, and each sequence goes to the table
unless it is a prefix of one that is there, or the other way round.

`sequences_unambiguous`: no sequence of the table is a prefix of another one, and
every encoding of every definition (`Encodes`) is in it.
-/

namespace Kanata.Sequence

open Fallible Macro

variable {M : Type → Type} [PatriciaMap M] {T : Type}

/-- What is used of `ParserState`: of the virtual keys, their positions. -/
structure ParserState (T : Type) extends Macro.ParserState T where
  virtualKeys : List (String × Nat)

def seqErr : String := "defseq expects pairs of parameters: <virtual_key_name> <key_list>"

def maskKeycodes : UInt16 := 0x03FF
def maskModded : UInt16 := 0xFC00
def keyOverlapMarker : UInt16 := 0x0400

/-- `mod_mask_for_keycode`. -/
def modMaskForKeycode (kc : KeyCode) : UInt16 :=
  if kc = lShift ∨ kc = rShift then 0x8000
  else if kc = lCtrl ∨ kc = rCtrl then 0x4000
  else if kc = lAlt then 0x2000
  else if kc = rAlt then 0x1000
  else if kc = lGui ∨ kc = rGui then 0x0800
  else if kc = keyOverlap then keyOverlapMarker
  else 0

/-- `u16::from`. -/
def ofOsCode (osc : OsCode) : UInt16 := UInt16.ofNat osc.code

/-! ## Keys -/

def isPress : Option (SequenceEvent T) → Bool
  | some (.press _) => true
  | _ => false

def isRelease : Option (SequenceEvent T) → Bool
  | some (.release _) => true
  | _ => false

/-- The loop over the events of an item. A press before another press is of a
modifier, and so is a release after another release. -/
def encodeEvents (expr : SExpr) : List (SequenceEvent T) → List KeyCode → Bool →
    Parse (List UInt16)
  | [], _, _ => pure []
  | .press pressed :: rest, modsCurrentlyHeld, doReleaseMod =>
    let modsCurrentlyHeld :=
      if isPress rest.head? then modsCurrentlyHeld ++ [pressed] else modsCurrentlyHeld
    let seqNum := modsCurrentlyHeld.foldl (fun n modk => n ||| modMaskForKeycode modk)
      (ofOsCode pressed)
    if seqNum &&& keyOverlapMarker = keyOverlapMarker ∧
      seqNum &&& maskModded ≠ keyOverlapMarker then
      bailExpr expr "O-(...) lists cannot be combined with other modifiers."
    else do
      let seq ← encodeEvents expr rest modsCurrentlyHeld doReleaseMod
      -- the overlap item goes at the end, not at the beginning
      pure (if pressed ≠ keyOverlap then seqNum :: seq else seq)
  | .release released :: rest, modsCurrentlyHeld, doReleaseMod =>
    if doReleaseMod && !modsCurrentlyHeld.contains released then
      liftRust (panicWith "had to be pressed to be released")
    else do
      let seq ← encodeEvents expr rest
        (if doReleaseMod then modsCurrentlyHeld.erase released else modsCurrentlyHeld)
        (isRelease rest.head?)
      pure (if released = keyOverlap then keyOverlapMarker :: seq else seq)
  | .tap _ :: _, _, _ | .delay _ :: _, _, _ | .custom _ :: _, _, _ | .complete :: _, _, _
  | .noOp :: _, _, _ => liftRust (panicWith "should be filtered out")

def isPressOrRelease : SequenceEvent T → Bool
  | .press _ => true
  | .release _ => true
  | _ => false

/-- `parse_sequence_keys`. An item takes at least one of the expressions. -/
def parseSequenceKeysAux (s : ParserState T) : Nat → List SExpr → Parse (List UInt16)
  | _, [] => pure []
  | 0, _ :: _ => liftRust (panicWith "stack overflow")
  | n + 1, head :: tail =>
    match parseMacroItemImpl s.toParserState s.stackDepth .action (head :: tail) with
    | .error (.panic p) => .error (.panic p)
    | .error (.error e) =>
      .error (.error { e with msg := seqErr ++ "\nFound invalid key/chord in key_list" })
    | .ok (events, rest) =>
      if events.all isPressOrRelease then do
        let keys ← encodeEvents head events [] false
        let allKeys ← parseSequenceKeysAux s n rest
        pure (keys ++ allKeys)
      else
        -- with two expressions consumed, the second one holds the bad key
        bailExpr (if rest.length = tail.length then head else tail.headD head)
          (seqErr ++ "\nFound invalid key/chord in key_list")

def parseSequenceKeys (s : ParserState T) (exprs : List SExpr) : Parse (List UInt16) :=
  parseSequenceKeysAux s exprs.length exprs

/-! ## Orders -/

/-- The loop that puts groups of overlapping keys in every order. A round takes at
least one of the values. -/
def permute (keySeqExpr : SExpr) : Nat → List UInt16 → List (List UInt16) →
    Parse (List (List UInt16))
  | _, [], permutations => pure permutations
  | 0, _ :: _, _ => liftRust (panicWith "stack overflow")
  | n + 1, val :: vals, permutations =>
    if val &&& keyOverlapMarker = 0 then
      permute keySeqExpr n vals (permutations.map (· ++ [val]))
    else if val = keyOverlapMarker then
      bailExpr keySeqExpr "O-(...) lists must have a minimum of 2 elements"
    else
      let valuesToPermute := val :: vals.takeWhile (· ≠ keyOverlapMarker)
      if valuesToPermute.length ≤ 1 then
        bailExpr keySeqExpr "O-(...) lists must have a minimum of 2 elements"
      else if valuesToPermute.length ≤ 6 then
        let ps := genPermutations valuesToPermute
        permute keySeqExpr n ((vals.dropWhile (· ≠ keyOverlapMarker)).drop 1)
          (permutations.flatMap fun p => ps.map fun p2 => p ++ (p2 ++ [keyOverlapMarker]))
      else bailExpr keySeqExpr "O-(...) lists must have a maximum of 6 elements"

/-! ## Definitions -/

/-- `FAKE_KEY_ROW`. -/
def fakeKeyRow : Nat := 1

/-- `get_fake_key_coords`. -/
def getFakeKeyCoords (y : Nat) : KCoord := (fakeKeyRow, y % (u16Max + 1))

/-- The checks and the insertion of one sequence. -/
def insertSequence (keySeqExpr : SExpr) (coord : KCoord) (sequences : Trie M KCoord)
    (p : List UInt16) : Parse (Trie M KCoord) :=
  if sequences.ancestorExists p then
    bailExpr keySeqExpr
      "Sequence has a conflict: its sequence contains an earlier defined sequence"
  else if sequences.descendantExists p then
    bailExpr keySeqExpr
      "Sequence has a conflict: its sequence is contained within an earlier defined seqence"
  else pure (sequences.insert p coord)

/-- A round of the loop over the pairs of a `defseq`. -/
def defineSequence (s : ParserState T) (vkeyExpr : SExpr) (keySeqExpr? : Option SExpr)
    (sequences : Trie M KCoord) : Parse (Trie M KCoord) := do
  let vkey ← okOrExpr vkeyExpr (seqErr ++ "\nvirtual_key_name must not be a list")
    (← vkeyExpr.atom s.vars)
  let y ← okOrExpr vkeyExpr (seqErr ++ "\nThe referenced key does not exist: " ++ vkey)
    (s.virtualKeys.lookup vkey)
  let keySeqExpr ← okOrExpr vkeyExpr (seqErr ++ "\nMissing key_list for " ++ vkey) keySeqExpr?
  let keySeq ← okOrExpr keySeqExpr (seqErr ++ "\nGot a non-list for key_list")
    (← keySeqExpr.list s.vars)
  if keySeq.isEmpty then bailExpr keySeqExpr (seqErr ++ "\nkey_list cannot be empty")
  else do
    let keycodeSeq ← parseSequenceKeys s keySeq
    let permutations ← permute keySeqExpr keycodeSeq.length keycodeSeq [[]]
    permutations.foldlM (insertSequence keySeqExpr (getFakeKeyCoords y)) sequences

def defineSequences (s : ParserState T) : List SExpr → Trie M KCoord → Parse (Trie M KCoord)
  | [], sequences => pure sequences
  | [vkeyExpr], sequences => defineSequence s vkeyExpr none sequences
  | vkeyExpr :: keySeqExpr :: rest, sequences => do
    let sequences ← defineSequence s vkeyExpr (some keySeqExpr) sequences
    defineSequences s rest sequences

/-- `parse_sequences`. -/
def parseSequences (exprs : List (List SExpr)) (s : ParserState T) : Parse (Trie M KCoord) :=
  exprs.foldlM
    (fun sequences expr => do
      let subexprs ← checkFirstExpr expr "defseq"
      defineSequences s subexprs sequences)
    Trie.new

/-! ## The orders of a definition -/

/-- The sequences that a list of elements stands for: its groups in any order,
each with its marker behind it. -/
inductive Encodes : List UInt16 → List UInt16 → Prop
  | nil : Encodes [] []
  | key {val : UInt16} {vals p : List UInt16} (hkey : val &&& keyOverlapMarker = 0)
      (rest : Encodes vals p) : Encodes (val :: vals) (val :: p)
  | group {val : UInt16} {vals group p : List UInt16} (hgroup : val &&& keyOverlapMarker ≠ 0)
      (horder : group.Perm (val :: vals.takeWhile (· ≠ keyOverlapMarker)))
      (rest : Encodes ((vals.dropWhile (· ≠ keyOverlapMarker)).drop 1) p) :
      Encodes (val :: vals) (group ++ keyOverlapMarker :: p)

/-- Every encoding comes out, behind each of the sequences so far. -/
theorem permute_complete {keySeqExpr : SExpr} : ∀ {n : Nat} {vals p : List UInt16}
    {permutations out : List (List UInt16)}, permute keySeqExpr n vals permutations = .ok out →
      Encodes vals p → ∀ front ∈ permutations, front ++ p ∈ out := by
  intro n
  induction n with
  | zero =>
    intro vals p permutations out h hp front hfront
    cases hp with
    | nil =>
      cases h
      rw [List.append_nil]
      exact hfront
    | key _ _ => cases h
    | group _ _ _ => cases h
  | succ n ih =>
    intro vals p permutations out h hp front hfront
    cases hp with
    | nil =>
      cases h
      rw [List.append_nil]
      exact hfront
    | @key val vals p hkey rest =>
      rw [permute, if_pos hkey] at h
      have hout := ih h rest (front ++ [val]) (List.mem_map.mpr ⟨front, hfront, rfl⟩)
      rwa [List.append_assoc] at hout
    | @group val vals group p hgroup horder rest =>
      rw [permute, if_neg hgroup] at h
      split at h
      · cases h
      · simp only at h
        split at h
        · cases h
        · split at h
          · have hmem : group ∈ genPermutations (val :: vals.takeWhile (· ≠ keyOverlapMarker)) :=
              (mem_genPermutations (List.cons_ne_nil _ _)).mpr horder
            have hfront' : front ++ (group ++ [keyOverlapMarker]) ∈
                permutations.flatMap fun p =>
                  (genPermutations (val :: vals.takeWhile (· ≠ keyOverlapMarker))).map fun p2 =>
                    p ++ (p2 ++ [keyOverlapMarker]) :=
              List.mem_flatMap.mpr ⟨front, hfront, List.mem_map.mpr ⟨group, hmem, rfl⟩⟩
            have hout := ih h rest _ hfront'
            rw [List.append_assoc, List.append_assoc, List.singleton_append] at hout
            exact hout
          · cases h

/-! ## The table -/

section Table

variable {s : ParserState T}

/-- The invariant of the table, and that it keeps what it has. -/
structure Extends (t t' : Trie M KCoord) : Prop where
  elements : t.OfElements → t'.OfElements
  prefixFree : t.OfElements → t.PrefixFree → t'.PrefixFree
  kept : t.OfElements → ∀ k v, t.get k = some v → t'.get k = some v

theorem Extends.refl (t : Trie M KCoord) : Extends t t where
  elements h := h
  prefixFree _ h := h
  kept _ _ _ h := h

theorem Extends.trans {t t' t'' : Trie M KCoord} (h : Extends t t') (h' : Extends t' t'') :
    Extends t t'' where
  elements he := h'.elements (h.elements he)
  prefixFree he hp := h'.prefixFree (h.elements he) (h.prefixFree he hp)
  kept he k v hk := h'.kept (h.elements he) k v (h.kept he k v hk)

/-- What the table says of a pair of a `defseq`: every encoding of its keys is
bound to its virtual key. -/
def Defined (s : ParserState T) (t : Trie M KCoord) (d : SExpr × SExpr) : Prop :=
  ∃ vkey y keySeq keycodeSeq, d.1.atom s.vars = .ok (some vkey) ∧
    s.virtualKeys.lookup vkey = some y ∧ d.2.list s.vars = .ok (some keySeq) ∧
    parseSequenceKeys s keySeq = .ok keycodeSeq ∧
    ∀ p, Encodes keycodeSeq p → t.get p = some (getFakeKeyCoords y)

theorem Defined.mono {t t' : Trie M KCoord} {d : SExpr × SExpr} (h : Defined s t d)
    (hext : Extends t t') (he : t.OfElements) : Defined s t' d := by
  rcases h with ⟨vkey, y, keySeq, keycodeSeq, hvkey, hy, hkeys, hseq, hall⟩
  refine ⟨vkey, y, keySeq, keycodeSeq, hvkey, hy, hkeys, hseq, ?_⟩
  intro p hp
  exact hext.kept he p _ (hall p hp)

/-- A `defseq` with a name and no keys is refused. -/
theorem defineSequence_none {vkeyExpr : SExpr} {t t' : Trie M KCoord} :
    defineSequence s vkeyExpr none t ≠ .ok t' := by
  intro h
  unfold defineSequence at h
  simp only [bind_eq_ok, okOrExpr_eq_ok] at h
  rcases h with ⟨_, _, _, _, _, _, _, hnone, _⟩
  cases hnone

variable [LawfulPatriciaMap M]

theorem insertSequence_spec {keySeqExpr : SExpr} {coord : KCoord} {t t' : Trie M KCoord}
    {p : List UInt16} (h : insertSequence keySeqExpr coord t p = .ok t') :
    Extends t t' ∧ t'.get p = some coord := by
  unfold insertSequence at h
  split at h
  · cases h
  · rename_i hanc
    split at h
    · cases h
    · rename_i hdesc
      cases h
      have hnone : t.OfElements →
          (∀ k', k' <+: p → t.get k' = none) ∧ ∀ k', p <+: k' → t.get k' = none := by
        intro he
        rw [Trie.ancestorExists_iff he] at hanc
        rw [Trie.descendantExists_iff he] at hdesc
        constructor
        · intro k' hk'
          exact Option.not_isSome_iff_eq_none.mp fun hsome => hanc ⟨k', hk', hsome⟩
        · intro k' hk'
          exact Option.not_isSome_iff_eq_none.mp fun hsome => hdesc (.inr ⟨k', hk', hsome⟩)
      refine ⟨⟨fun he => he.insert p coord, ?_, ?_⟩, ?_⟩
      · intro he hp
        exact (hp.insert (hnone he).1 (hnone he).2).1
      · -- a sequence that is stored is not `p`
        intro he k v hk
        have hne : k ≠ p := by
          rintro rfl
          rw [(hnone he).1 k (List.prefix_refl _)] at hk
          cases hk
        rw [Trie.get_insert, if_neg hne, hk]
      · rw [Trie.get_insert, if_pos rfl]

theorem insertAll_spec {keySeqExpr : SExpr} {coord : KCoord} :
    ∀ {ps : List (List UInt16)} {t t' : Trie M KCoord},
      ps.foldlM (insertSequence keySeqExpr coord) t = .ok t' → t.OfElements →
        Extends t t' ∧ ∀ p ∈ ps, t'.get p = some coord
  | [], t, t', h, _ => by
    cases h
    exact ⟨.refl t, fun p hp => by cases hp⟩
  | p :: ps, t, t', h, he => by
    rw [List.foldlM_cons, bind_eq_ok] at h
    rcases h with ⟨t₁, h₁, h⟩
    rcases insertSequence_spec h₁ with ⟨hext, hget⟩
    have he₁ := hext.elements he
    rcases insertAll_spec h he₁ with ⟨hrest, hall⟩
    refine ⟨hext.trans hrest, ?_⟩
    intro q hq
    rcases List.mem_cons.mp hq with rfl | hq
    · exact hrest.kept he₁ _ _ hget
    · exact hall q hq

omit [LawfulPatriciaMap M] in
/-- What a definition that is accepted reads and stores. -/
theorem defineSequence_eq_ok {vkeyExpr keySeqExpr : SExpr} {t t' : Trie M KCoord}
    (h : defineSequence s vkeyExpr (some keySeqExpr) t = .ok t') :
    ∃ vkey y keySeq keycodeSeq permutations, vkeyExpr.atom s.vars = .ok (some vkey) ∧
      s.virtualKeys.lookup vkey = some y ∧ keySeqExpr.list s.vars = .ok (some keySeq) ∧
      parseSequenceKeys s keySeq = .ok keycodeSeq ∧
      permute keySeqExpr keycodeSeq.length keycodeSeq [[]] = .ok permutations ∧
      permutations.foldlM (insertSequence keySeqExpr (getFakeKeyCoords y)) t = .ok t' := by
  unfold defineSequence at h
  simp only [bind_eq_ok, okOrExpr_eq_ok] at h
  rcases h with ⟨atom, hatom, vkey, hvkey, y, hy, e, hkey, list, hlist, keySeq, hkeySeq, h⟩
  cases hkey
  split at h
  · cases h
  · simp only [bind_eq_ok] at h
    rcases h with ⟨keycodeSeq, hseq, permutations, hperm, h⟩
    refine ⟨vkey, y, keySeq, keycodeSeq, permutations, ?_, hy, ?_, hseq, hperm, h⟩
    · rw [← hvkey]
      exact liftRust_eq_ok.mp hatom
    · rw [← hkeySeq]
      exact liftRust_eq_ok.mp hlist

theorem defineSequence_spec {vkeyExpr keySeqExpr : SExpr} {t t' : Trie M KCoord}
    (h : defineSequence s vkeyExpr (some keySeqExpr) t = .ok t') (he : t.OfElements) :
    Extends t t' ∧ Defined s t' (vkeyExpr, keySeqExpr) := by
  rcases defineSequence_eq_ok h with
    ⟨vkey, y, keySeq, keycodeSeq, permutations, hvkey, hy, hkeySeq, hseq, hperm, h⟩
  rcases insertAll_spec h he with ⟨hext, hall⟩
  refine ⟨hext, vkey, y, keySeq, keycodeSeq, hvkey, hy, hkeySeq, hseq, ?_⟩
  intro p hp
  exact hall p (permute_complete hperm hp [] List.mem_cons_self)

/-- The pairs of names and key lists. -/
def definitions : List SExpr → List (SExpr × SExpr)
  | vkeyExpr :: keySeqExpr :: rest => (vkeyExpr, keySeqExpr) :: definitions rest
  | _ => []

theorem defineSequences_spec : ∀ {subexprs : List SExpr} {t t' : Trie M KCoord},
    defineSequences s subexprs t = .ok t' → t.OfElements →
      Extends t t' ∧ ∀ d ∈ definitions subexprs, Defined s t' d
  | [], t, t', h, _ => by
    cases h
    exact ⟨.refl t, fun d hd => by cases hd⟩
  | [vkeyExpr], t, t', h, _ => absurd h defineSequence_none
  | vkeyExpr :: keySeqExpr :: rest, t, t', h, he => by
    rw [defineSequences, bind_eq_ok] at h
    rcases h with ⟨t₁, h₁, h⟩
    rcases defineSequence_spec h₁ he with ⟨hext, hdef⟩
    have he₁ := hext.elements he
    rcases defineSequences_spec h he₁ with ⟨hrest, hall⟩
    refine ⟨hext.trans hrest, ?_⟩
    intro d hd
    rcases List.mem_cons.mp hd with rfl | hd
    · exact hdef.mono hrest he₁
    · exact hall d hd

theorem defineAll_spec : ∀ {exprs : List (List SExpr)} {t t' : Trie M KCoord},
    exprs.foldlM
        (fun sequences expr => do
          let subexprs ← checkFirstExpr expr "defseq"
          defineSequences s subexprs sequences) t = .ok t' → t.OfElements →
      Extends t t' ∧ ∀ expr ∈ exprs, ∀ d ∈ definitions (expr.drop 1), Defined s t' d
  | [], t, t', h, _ => by
    cases h
    exact ⟨.refl t, fun expr hexpr => by cases hexpr⟩
  | expr :: exprs, t, t', h, he => by
    rw [List.foldlM_cons, bind_eq_ok] at h
    rcases h with ⟨t₁, h₁, h⟩
    rw [bind_eq_ok] at h₁
    rcases h₁ with ⟨subexprs, hsub, h₁⟩
    rcases defineSequences_spec h₁ he with ⟨hext, hdef⟩
    have he₁ := hext.elements he
    rcases defineAll_spec h he₁ with ⟨hrest, hall⟩
    refine ⟨hext.trans hrest, ?_⟩
    intro expr' hexpr' d hd
    rcases List.mem_cons.mp hexpr' with rfl | hexpr'
    · rcases checkFirstExpr_eq_ok.mp hsub with ⟨sp, rfl⟩
      exact (hdef d hd).mono hrest he₁
    · exact hall expr' hexpr' d hd

theorem parseSequences_prefixFree {exprs : List (List SExpr)} {t : Trie M KCoord}
    (h : parseSequences exprs s = .ok t) : t.OfElements ∧ t.PrefixFree := by
  have hext := (defineAll_spec h Trie.ofElements_new).1
  exact ⟨hext.elements Trie.ofElements_new,
    hext.prefixFree Trie.ofElements_new Trie.prefixFree_new⟩

/-- No sequence of the table is a prefix of another one, whatever they are bound
to, and every encoding of every definition is bound to the virtual key that the
definition names. -/
theorem sequences_unambiguous {exprs : List (List SExpr)} {t : Trie M KCoord}
    (h : parseSequences exprs s = .ok t) :
    (∀ k k' v v', t.get k = some v → t.get k' = some v' → k <+: k' → k = k') ∧
      ∀ expr ∈ exprs, ∀ d ∈ definitions (expr.drop 1), Defined s t d := by
  constructor
  · intro k k' v v' hk hk' hle
    exact (parseSequences_prefixFree h).2 k k' (by rw [hk]; rfl) (by rw [hk']; rfl) hle
  · exact (defineAll_spec h Trie.ofElements_new).2

end Table

/-- A parser that knows two keys and one virtual key. -/
def twoKeys : ParserState Unit where
  vars := none
  parseAction
    | .atomNode "a" _ => .ok (.keyCode keyA)
    | .atomNode "b" _ => .ok (.keyCode keyB)
    | e => bailExpr e "unknown key"
  quote s := s
  stackDepth := 2
  virtualKeys := [("v", 0)]

/-- `(defseq v (a O-(a b)))`. -/
def overlapDefinition : List SExpr :=
  [.atomNode "defseq" default, .atomNode "v" default,
    .listNode
      [.atomNode "a" default, .atomNode "O-" default,
        .listNode [.atomNode "a" default, .atomNode "b" default] default] default]

/-- `sequences_unambiguous` for a definition with two orders. -/
theorem sequences_unambiguous_overlap :
    ∃ t : Trie EntryMap KCoord, parseSequences [overlapDefinition] twoKeys = .ok t ∧
      (∀ k k' v v', t.get k = some v → t.get k' = some v' → k <+: k' → k = k') ∧
        ∀ expr ∈ [overlapDefinition], ∀ d ∈ definitions (expr.drop 1), Defined twoKeys t d :=
  ⟨_, rfl, sequences_unambiguous rfl⟩

example : (parseSequences [overlapDefinition] twoKeys).toOption.bind
    (fun t : Trie EntryMap KCoord => t.get [30, 0x430, 0x41e, 0x400]) = some (1, 0) := by rfl

end Kanata.Sequence
