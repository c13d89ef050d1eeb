import Kanata.Engine.SequenceItems
import Kanata.Parser.MacroNesting

/-!
# Kanata.Engine.SequenceEncoding — the encodings of a sequence, parsed and typed

* `EncodesAsTyped`: the parser returns, and its encodings are those of the keys as they are
  typed;
* `sequence_encodings_iff`: when it is so;
* `exists_stackDepth`: an item does not fit on the call stack only because the stack is
  limited, or because a variable leads back to itself;
* `encodesAsTyped_of_plain`: in particular with left modifiers, and keys in every group.
-/

namespace Kanata

open Fallible Macro Sequence Sequences

variable {T : Type}

/-! ## Key lists -/

section KeyLists

/-- Some items at the front of a text, and what is behind them. -/
inductive ReadsFront (read : List SExpr → MacroItem T → List SExpr → Prop) :
    List SExpr → List (MacroItem T) → List SExpr → Prop where
  | nil {acs : List SExpr} : ReadsFront read acs [] acs
  | cons {head : SExpr} {tail rest behind : List SExpr} {item : MacroItem T}
    {items : List (MacroItem T)} (h : read (head :: tail) item rest)
    (hrest : ReadsFront read rest items behind) :
    ReadsFront read (head :: tail) (item :: items) behind

variable (s : Sequence.ParserState T)

/-- The item at the front of a key list. -/
abbrev ReadsKey : List SExpr → MacroItem T → List SExpr → Prop :=
  Reads s.toParserState s.stackDepth .action

/-- The parser gets through items of keys at the front of a key list. -/
structure Front (exprs : List SExpr) (items : List (MacroItem T)) (behind : List SExpr) : Prop where
  reads : ReadsFront (ReadsKey s) exprs items behind
  keys : ∀ item ∈ items, item.ofKeys = true

/-- The next item does not fit on the call stack. -/
def Overflows : List SExpr → Prop
  | [] => False
  | head :: tail => parseMacroItemImpl s.toParserState s.stackDepth .action (head :: tail) =
      .error (.panic ⟨"stack overflow"⟩)

/-- The parser returns, and what it returns are the encodings of the keys as they are
typed. -/
structure EncodesAsTyped (exprs : List SExpr) : Prop where
  no_panic : ∀ p, parseSequenceKeys s exprs ≠ .error (.panic p)
  encodings : ∀ keys, parseSequenceKeys s exprs = .ok keys →
    ∃ items, ReadsAll (ReadsKey s) exprs items ∧ keys = typedEncodings items

variable {s}

theorem readsFront_iff {read : List SExpr → MacroItem T → List SExpr → Prop} {acs : List SExpr}
    {items : List (MacroItem T)} : ReadsFront read acs items [] ↔ ReadsAll read acs items := by
  constructor
  · intro h
    generalize hbehind : ([] : List SExpr) = behind at h
    induction h with
    | nil =>
      subst hbehind
      exact .nil
    | cons h _ ih => exact .cons h (ih hbehind)
  · intro h
    induction h with
    | nil => exact .nil
    | cons h _ ih => exact .cons h ih

theorem Front.cons {head : SExpr} {tail rest behind : List SExpr} {item : MacroItem T}
    {items : List (MacroItem T)} (h : ReadsKey s (head :: tail) item rest)
    (hkeys : item.ofKeys = true) (hrest : Front s rest items behind) :
    Front s (head :: tail) (item :: items) behind where
  reads := .cons h hrest.reads
  keys := List.forall_mem_cons.mpr ⟨hkeys, hrest.keys⟩

theorem Front.nil (exprs : List SExpr) : Front s exprs [] exprs where
  reads := .nil
  keys := List.forall_mem_nil _

/-- The encodings that the parser gives for items. -/
def seqNums (items : List (MacroItem T)) : List UInt16 :=
  items.flatMap fun item => (item.presses [] []).map SeqPress.seqNum

theorem encodeEvents_item {item : MacroItem T} (hno : item.NoOverlap) (hkeys : item.ofKeys = true)
    (expr : SExpr) : ComesTo (item.Released [] []) (encodeEvents expr item.events [] false)
      (.ok ((item.presses [] []).map SeqPress.seqNum)) := by
  have hflag : isRelease item.events.head? = false := by
    rcases item.events_head hkeys with hnil | ⟨kc, es, hcons⟩
    · rw [hnil]
      rfl
    · rw [hcons]
      rfl
  have h := (@MacroItem.encoded T expr [] [] counted_nil item hno hkeys []).comes
  rw [List.append_nil, hflag] at h
  refine h.congr Iff.rfl fun _ => ?_
  simp only [encodeEvents, encodedBefore]
  exact congrArg Except.ok (List.append_nil _)

/-- The rest of a key list after an item. -/
theorem parseSequenceKeysAux_cons {head : SExpr} {tail rest : List SExpr} {item : MacroItem T}
    (h : ReadsKey s (head :: tail) item rest) (hno : item.NoOverlap) (hkeys : item.ofKeys = true)
    (n : Nat) : ComesTo (item.Released [] []) (parseSequenceKeysAux s (n + 1) (head :: tail))
      (encodedBefore ((item.presses [] []).map SeqPress.seqNum)
        (parseSequenceKeysAux s n rest)) := by
  have hitem := encodeEvents_item hno hkeys head
  have hstep : parseSequenceKeysAux s (n + 1) (head :: tail) = (do
      let keys ← encodeEvents head item.events [] false
      let allKeys ← parseSequenceKeysAux s n rest
      pure (keys ++ allKeys)) := by
    rw [parseSequenceKeysAux, Reads.parse _ _ _ _ _ h]
    exact if_pos hkeys
  constructor
  · intro hreleased
    rw [hstep, hitem.of_holds hreleased]
    rfl
  · intro hnot
    rw [hstep, hitem.of_not hnot]
    rfl

theorem parseSequenceKeysAux_delay {head : SExpr} {tail rest : List SExpr} {item : MacroItem T}
    (h : ReadsKey s (head :: tail) item rest) (hkeys : ¬item.ofKeys = true) (n : Nat) :
    ∃ e, parseSequenceKeysAux s (n + 1) (head :: tail) = .error (.error e) := by
  rw [parseSequenceKeysAux, Reads.parse _ _ _ _ _ h]
  refine ⟨_, if_neg hkeys⟩

/-- The parser gets through items whose groups have their modifiers at the end. -/
theorem parseSequenceKeysAux_front {exprs behind : List SExpr} {items : List (MacroItem T)}
    (h : Front s exprs items behind) (hno : ∀ item ∈ items, item.NoOverlap)
    (hreleased : ∀ item ∈ items, item.Released [] []) {n : Nat} (hlen : exprs.length ≤ n) :
    ∃ m, behind.length ≤ m ∧ parseSequenceKeysAux s n exprs =
      encodedBefore (seqNums items) (parseSequenceKeysAux s m behind) := by
  rcases h with ⟨hreads, hkeys⟩
  induction hreads generalizing n with
  | nil => exact ⟨n, hlen, (encodedBefore_nil _).symm⟩
  | @cons head tail rest behind item items h _ ih =>
    cases n with
    | zero => cases hlen
    | succ n =>
      rw [List.forall_mem_cons] at hno hkeys hreleased
      have hrest : rest.length ≤ n :=
        Nat.le_trans (Reads.suffix _ _ _ _ h).length_le (Nat.le_of_succ_le_succ hlen)
      rcases ih hno.2 hreleased.2 hrest hkeys.2 with ⟨m, hm, heq⟩
      refine ⟨m, hm, ?_⟩
      rw [(parseSequenceKeysAux_cons h hno.1 hkeys.1 n).of_holds hreleased.1, heq,
        ← encodedBefore_append]
      rfl

/-- What a list gives that reads as items of keys. -/
theorem parseSequenceKeys_ok {exprs : List SExpr} {items : List (MacroItem T)}
    (h : Front s exprs items []) (hno : ∀ item ∈ items, item.NoOverlap)
    (hreleased : ∀ item ∈ items, item.Released [] []) :
    parseSequenceKeys s exprs = .ok (seqNums items) := by
  rcases parseSequenceKeysAux_front h hno hreleased (Nat.le_refl _) with ⟨m, _, heq⟩
  unfold parseSequenceKeys
  rw [heq, parseSequenceKeysAux]
  exact congrArg Except.ok (List.append_nil _)

/-- An item behind them that does not fit on the call stack is a panic. -/
theorem parseSequenceKeys_overflows {exprs behind : List SExpr} {items : List (MacroItem T)}
    (h : Front s exprs items behind) (hno : ∀ item ∈ items, item.NoOverlap)
    (hreleased : ∀ item ∈ items, item.Released [] []) (hoverflows : Overflows s behind) :
    parseSequenceKeys s exprs = .error (.panic ⟨"stack overflow"⟩) := by
  rcases parseSequenceKeysAux_front h hno hreleased (Nat.le_refl _) with ⟨m, hm, heq⟩
  unfold parseSequenceKeys
  rw [heq]
  cases behind with
  | nil => cases hoverflows
  | cons head tail =>
    cases m with
    | zero => cases hm
    | succ m =>
      unfold Overflows at hoverflows
      rw [parseSequenceKeysAux, hoverflows]
      rfl

/-- A group whose modifiers are gone at its end is a panic, after the items before it. -/
theorem parseSequenceKeysAux_panic {exprs behind : List SExpr} {items : List (MacroItem T)}
    (h : Front s exprs items behind) (hno : ∀ item ∈ items, item.NoOverlap)
    (hreleased : ¬∀ item ∈ items, item.Released [] []) {n : Nat} (hlen : exprs.length ≤ n) :
    parseSequenceKeysAux s n exprs = notPressed := by
  rcases h with ⟨hreads, hkeys⟩
  induction hreads generalizing n with
  | nil => exact absurd (List.forall_mem_nil _) hreleased
  | @cons head tail rest behind item items h _ ih =>
    cases n with
    | zero => cases hlen
    | succ n =>
      rw [List.forall_mem_cons] at hno hkeys hreleased
      have hrest : rest.length ≤ n :=
        Nat.le_trans (Reads.suffix _ _ _ _ h).length_le (Nat.le_of_succ_le_succ hlen)
      have hcons := parseSequenceKeysAux_cons h hno.1 hkeys.1 n
      by_cases hitem : item.Released [] []
      · rw [hcons.of_holds hitem, ih hno.2 (fun hall => hreleased ⟨hitem, hall⟩) hrest hkeys.2]
        rfl
      · exact hcons.of_not hitem

/-- What the parser gives comes of items of keys, whose groups have their modifiers at the
end; and if it panics then some group does not, or an item does not fit on the call stack. -/
theorem parseSequenceKeysAux_reads (haction : ∀ e p, s.parseAction e ≠ .error (.panic p)) :
    ∀ {n : Nat} {exprs : List SExpr}, exprs.length ≤ n →
    (∀ items behind, Front s exprs items behind → ∀ item ∈ items, item.NoOverlap) →
    (∀ keys, parseSequenceKeysAux s n exprs = .ok keys →
      ∃ items, Front s exprs items [] ∧ ∀ item ∈ items, item.Released [] []) ∧
    (∀ p, parseSequenceKeysAux s n exprs = .error (.panic p) →
      ∃ items behind, Front s exprs items behind ∧
        ((¬∀ item ∈ items, item.Released [] []) ∨ Overflows s behind))
  | n, [], _, _ => by
    refine ⟨fun keys _ => ⟨[], .nil [], List.forall_mem_nil _⟩, ?_⟩
    intro p hp
    rw [parseSequenceKeysAux] at hp
    cases hp
  | 0, _ :: _, hlen, _ => absurd hlen (Nat.not_succ_le_zero _)
  | n + 1, head :: tail, hlen, hno => by
    rcases hitem : parseMacroItemImpl s.toParserState s.stackDepth .action (head :: tail) with
      (e | p) | ⟨es, rest⟩
    · -- the item is refused
      have herr : ∃ e', parseSequenceKeysAux s (n + 1) (head :: tail) = .error (.error e') := by
        rw [parseSequenceKeysAux, hitem]
        exact ⟨_, rfl⟩
      rcases herr with ⟨e', herr⟩
      rw [herr]
      constructor
      · intro keys h
        cases h
      · intro p h
        cases h
    · -- only the call stack is in its way
      have hstack := (returning_parseMacroItemImpl haction _ _ head tail).of_error hitem p rfl
      have hpanic : parseSequenceKeysAux s (n + 1) (head :: tail) = .error (.panic p) := by
        rw [parseSequenceKeysAux, hitem]
      rw [hpanic]
      constructor
      · intro keys h
        cases h
      · intro p' _
        refine ⟨[], head :: tail, .nil _, .inr ?_⟩
        rw [hstack] at hitem
        exact hitem
    · rcases parseMacroItemImpl_reads hitem with ⟨item, hread, _⟩
      by_cases hkeys : item.ofKeys = true
      · have hfront : item.NoOverlap :=
          hno [item] rest ((Front.nil rest).cons hread hkeys) item (List.mem_singleton_self _)
        have hsuffix := Reads.suffix _ _ _ _ hread
        have hcons := parseSequenceKeysAux_cons hread hfront hkeys n
        have ih := parseSequenceKeysAux_reads haction
          (Nat.le_trans hsuffix.length_le (Nat.le_of_succ_le_succ hlen))
          fun items behind hitems i hi => hno (item :: items) behind (hitems.cons hread hkeys) i
            (List.mem_cons_of_mem _ hi)
        by_cases hreleased : item.Released [] []
        · rw [hcons.of_holds hreleased]
          constructor
          · intro keys hok
            rcases bind_eq_ok.mp hok with ⟨keys', hkeys', _⟩
            rcases ih.1 keys' hkeys' with ⟨items, hitems, hrel⟩
            exact ⟨item :: items, hitems.cons hread hkeys,
              List.forall_mem_cons.mpr ⟨hreleased, hrel⟩⟩
          · intro p hp
            have hrest : parseSequenceKeysAux s n rest = .error (.panic p) := by
              unfold encodedBefore at hp
              rcases hx : parseSequenceKeysAux s n rest with e | keys
              · rw [hx] at hp
                cases hp
                rfl
              · rw [hx] at hp
                cases hp
            rcases ih.2 p hrest with ⟨items, behind, hitems, hfails⟩
            refine ⟨item :: items, behind, hitems.cons hread hkeys, ?_⟩
            exact hfails.imp_left fun hnot hboth => hnot (List.forall_mem_cons.mp hboth).2
        · rw [hcons.of_not hreleased]
          constructor
          · intro keys h
            cases h
          · intro p _
            exact ⟨[item], rest, (Front.nil rest).cons hread hkeys, .inl (by simpa using hreleased)⟩
      · rcases parseSequenceKeysAux_delay hread hkeys n with ⟨e, he⟩
        rw [he]
        constructor
        · intro keys h
          cases h
        · intro p h
          cases h

/-- What is behind items is the end of the text. -/
theorem Front.suffix {exprs behind : List SExpr} {items : List (MacroItem T)}
    (h : Front s exprs items behind) : behind <:+ exprs := by
  have hreads := h.reads
  clear h
  induction hreads with
  | nil => exact List.suffix_refl _
  | cons hread _ ih => exact ih.trans ((Reads.suffix _ _ _ _ hread).trans (List.suffix_cons _ _))

/-- Items whose lists nest less deep than the call stack fit on it. -/
theorem Front.not_overflows {exprs behind : List SExpr} {items : List (MacroItem T)} {n : Nat}
    (h : Front s exprs items behind) (haction : ∀ e p, s.parseAction e ≠ .error (.panic p))
    (hnests : ∀ x ∈ exprs, Nests s.vars s.quote n x) (hdeep : n < s.stackDepth) :
    ¬Overflows s behind := by
  have hsuffix := h.suffix
  cases behind with
  | nil => exact id
  | cons head tail =>
    intro hoverflows
    have hfits := @parseMacroItemImpl_ensures _ _ haction _ _ .action head tail hdeep
      fun x hx => hnests x (hsuffix.subset hx)
    rcases hfits.of_error hoverflows with ⟨e, he⟩
    cases he

/-- If no variable leads back to itself, a call stack that is deep enough for a key list
overflows at none of its items. -/
theorem exists_stackDepth (haction : ∀ e p, s.parseAction e ≠ .error (.panic p))
    (hloopless : Acyclic.Loopless (LeadsOn s.vars s.quote)) (exprs : List SExpr) :
    ∃ n, ∀ s' : Sequence.ParserState T, s'.vars = s.vars → s'.quote = s.quote →
      s'.parseAction = s.parseAction → n < s'.stackDepth →
        ∀ items behind, Front s' exprs items behind → ¬Overflows s' behind := by
  rcases exists_nests_list fun x (_ : x ∈ exprs) => exists_nests hloopless x with ⟨n, hn⟩
  refine ⟨n, ?_⟩
  intro s' hvars hquote hsame hdeep items behind hitems
  refine hitems.not_overflows (hsame ▸ haction) ?_ hdeep
  rw [hvars, hquote]
  exact hn

theorem typedAll_flatMap (items : List (MacroItem T)) :
    typedAll [] items = items.flatMap fun item =>
      (item.presses [] []).map fun p => (p.key, p.held) := by
  induction items with
  | nil => simp only [typedAll, List.flatMap_nil]
  | cons item items ih =>
    simp only [typedAll, List.flatMap_cons, ← item.typed_eq []]
    rw [ih]

/-- Key by key, the encodings are those of the keys as typed if and only if each key
fits. -/
theorem seqNums_eq_iff (items : List (MacroItem T)) : seqNums items = typedEncodings items ↔
    ∀ item ∈ items, ∀ p ∈ item.presses [] [], p.Fits := by
  have hseqNums : seqNums items = (items.flatMap fun item => item.presses [] []).map
      SeqPress.seqNum := by
    rw [List.map_flatMap]
    rfl
  have htyped : typedEncodings items = (items.flatMap fun item => item.presses [] []).map
      fun p => pushedIntoSeq p.key (getModMaskForCurKeys p.held) := by
    unfold typedEncodings Sequences.typed
    rw [List.filterMap_map, typedAll_flatMap, ← List.map_flatMap, List.filterMap_map]
    exact congrFun (@List.filterMap_eq_map _ _
      fun p : SeqPress => pushedIntoSeq p.key (getModMaskForCurKeys p.held)) _
  rw [hseqNums, htyped, List.map_inj_left]
  simp only [SeqPress.seqNum_eq_iff, List.mem_flatMap]
  constructor
  · intro h item hitem p hp
    exact h p ⟨item, hitem, hp⟩
  · rintro h p ⟨item, hitem, hp⟩
    exact h item hitem p hp

variable {exprs : List SExpr}

/-- The parser returns, with the encodings of the keys as they are typed, if the groups have
their modifiers at their ends, the items fit on the call stack and the keys fit. -/
theorem encodesAsTyped_of_fits (haction : ∀ e p, s.parseAction e ≠ .error (.panic p))
    (hno : ∀ items behind, Front s exprs items behind → ∀ item ∈ items, item.NoOverlap)
    (hreleased : ∀ items behind, Front s exprs items behind →
      (∀ item ∈ items, item.Released [] []) ∧ ¬Overflows s behind)
    (hfits : ∀ items, Front s exprs items [] → ∀ item ∈ items, ∀ p ∈ item.presses [] [], p.Fits) :
    EncodesAsTyped s exprs := by
  have hreads := parseSequenceKeysAux_reads haction (Nat.le_refl _) hno
  constructor
  · intro p hp
    rcases hreads.2 p hp with ⟨items, behind, hitems, hnot | hoverflows⟩
    · exact hnot (hreleased items behind hitems).1
    · exact (hreleased items behind hitems).2 hoverflows
  · intro keys hkeys
    rcases hreads.1 keys hkeys with ⟨items, hitems, hrel⟩
    have hok := parseSequenceKeys_ok hitems (hno items [] hitems) hrel
    refine ⟨items, readsFront_iff.mp hitems.reads, ?_⟩
    rw [← (seqNums_eq_iff items).mpr (hfits items hitems)]
    exact Except.ok.inj (hkeys.symm.trans hok)

/-- With an action parser that returns: the parser of keys returns, with the encodings of the
keys as they are typed, if and only if in the items that it gets through each group has its
modifiers at its end, the next item fits on the call stack, and in a list that it gets
through to the end each key fits. -/
theorem sequence_encodings_iff (haction : ∀ e p, s.parseAction e ≠ .error (.panic p))
    (hno : ∀ items behind, Front s exprs items behind → ∀ item ∈ items, item.NoOverlap) :
    EncodesAsTyped s exprs ↔
      (∀ items behind, Front s exprs items behind →
        (∀ item ∈ items, item.Released [] []) ∧ ¬Overflows s behind) ∧
      ∀ items, Front s exprs items [] → ∀ item ∈ items, ∀ p ∈ item.presses [] [], p.Fits := by
  constructor
  · intro h
    have hreleased : ∀ items behind, Front s exprs items behind →
        ∀ item ∈ items, item.Released [] [] := by
      intro items behind hitems
      by_contra hnot
      exact h.no_panic _ (parseSequenceKeysAux_panic hitems (hno items behind hitems) hnot
        (Nat.le_refl _))
    constructor
    · intro items behind hitems
      refine ⟨hreleased items behind hitems, ?_⟩
      intro hoverflows
      exact h.no_panic _ (parseSequenceKeys_overflows hitems (hno items behind hitems)
        (hreleased items behind hitems) hoverflows)
    · intro items hitems
      have hok := parseSequenceKeys_ok hitems (hno items [] hitems)
        (hreleased items [] hitems)
      rcases h.encodings _ hok with ⟨items', hitems', hsame⟩
      have heq : items = items' := ReadsAll.unique (Reads.unique s.stackDepth .action) exprs items
        items' (readsFront_iff.mp hitems.reads) hitems'
      rw [← heq] at hsame
      exact (seqNums_eq_iff items).mp hsame
  · rintro ⟨hreleased, hfits⟩
    exact encodesAsTyped_of_fits haction hno hreleased hfits

end KeyLists

/-! ## Items that fit -/

/-- A key that is typed as itself. -/
def IsLeft (kc : KeyCode) : Prop := leftVariant kc = kc ∧ kc ≠ keyOverlap

mutual

/-- Keys that are no modifiers, under modifiers that have no left variant, and in each group
there are keys. -/
def MacroItem.Plain : MacroItem T → Prop
  | .delay _ => True
  | .key kc => IsLeft kc ∧ modMaskForKeycode kc = 0
  | .chord kcs => (∀ kc ∈ kcs, IsLeft kc) ∧ ∀ kc ∈ kcs.getLast?, modMaskForKeycode kc = 0
  | .custom _ => True
  | .list items => PlainAll items
  | .group mods items =>
    (∀ kc ∈ mods, IsLeft kc) ∧ (eventsOf items).isEmpty = false ∧ PlainAll items

def PlainAll : List (MacroItem T) → Prop
  | [] => True
  | item :: items => item.Plain ∧ PlainAll items

end

section Plain

@[simp] theorem exchanged_nil (held : List KeyCode) : exchanged held [] = held := by
  unfold exchanged
  rw [List.map_nil, List.map_nil, List.append_nil, List.diff_nil]

theorem pressRun_fits {follows : Bool} : ∀ {held kcs : List KeyCode}, (∀ kc ∈ kcs, IsLeft kc) →
    (follows = true ∨ ∀ kc ∈ kcs.getLast?, modMaskForKeycode kc = 0) →
      ∀ p ∈ pressRun follows held held kcs, p.Fits
  | _, [], _, _, p, hp => by cases hp
  | held, kc :: kcs, hleft, hlast, p, hp => by
    rw [List.forall_mem_cons] at hleft
    by_cases hcounts : (follows || !kcs.isEmpty) = true
    · -- the key counts
      simp only [pressRun, hcounts, if_true, List.mem_cons] at hp
      rcases hp with rfl | hp
      · exact ⟨hleft.1.1, hleft.1.2, rfl⟩
      · refine pressRun_fits hleft.2 (hlast.imp_right fun hmask kc' hkc' => ?_) p hp
        cases kcs with
        | nil => cases hkc'
        | cons kc'' kcs => exact hmask kc' (by rwa [List.getLast?_cons_cons])
    · -- it is the last one
      simp only [Bool.or_eq_true, Bool.not_eq_true', List.isEmpty_eq_false_iff, not_or,
        ne_eq, not_not, Bool.not_eq_true] at hcounts
      rcases hcounts with ⟨rfl, rfl⟩
      simp only [pressRun, List.isEmpty_nil, Bool.not_true, Bool.or_false, Bool.false_eq_true,
        if_false, List.mem_singleton] at hp
      subst hp
      have hmask : modMaskForKeycode kc = 0 := (hlast.resolve_left (by simp)) kc (by simp)
      refine ⟨hleft.1.1, hleft.1.2, ?_⟩
      unfold getModMaskForCurKeys
      rw [List.foldl_append, List.foldl_cons, List.foldl_nil, hmask, UInt16.or_zero]

mutual

theorem MacroItem.Plain.swaps : ∀ {item : MacroItem T}, item.Plain → item.swaps = []
  | .delay _, _ => by simp only [MacroItem.swaps]
  | .key _, _ => by simp only [MacroItem.swaps]
  | .chord _, _ => by simp only [MacroItem.swaps]
  | .custom _, _ => by simp only [MacroItem.swaps]
  | .list items, h => by
    simp only [MacroItem.Plain] at h
    simp only [MacroItem.swaps]
    exact PlainAll.swaps h
  | .group mods items, h => by
    simp only [MacroItem.Plain] at h
    simp only [MacroItem.swaps, h.2.1, Bool.false_eq_true, if_false]
    exact PlainAll.swaps h.2.2

theorem PlainAll.swaps : ∀ {items : List (MacroItem T)}, PlainAll items → swapsAll items = []
  | [], _ => by simp only [swapsAll]
  | item :: items, h => by
    simp only [PlainAll] at h
    simp only [swapsAll, h.1.swaps, PlainAll.swaps h.2, List.append_nil]

end

mutual

/-- Nothing is exchanged, so each group has its modifiers at its end. -/
theorem MacroItem.Plain.released : ∀ {item : MacroItem T} (held : List KeyCode), item.Plain →
    item.Released [] held
  | .delay _, _, _ => by simp only [MacroItem.Released]
  | .key _, _, _ => by simp only [MacroItem.Released]
  | .chord _, _, _ => by simp only [MacroItem.Released]
  | .custom _, _, _ => by simp only [MacroItem.Released]
  | .list items, held, h => by
    simp only [MacroItem.Plain] at h
    simp only [MacroItem.Released]
    exact PlainAll.released held h
  | .group mods items, held, h => by
    simp only [MacroItem.Plain] at h
    simp only [MacroItem.Released, h.2.1, Bool.false_eq_true, if_false, PlainAll.swaps h.2.2,
      List.append_nil, exchanged_nil]
    exact ⟨PlainAll.released (held ++ mods) h.2.2, (List.sublist_append_right _ _).subperm⟩

theorem PlainAll.released : ∀ {items : List (MacroItem T)} (held : List KeyCode),
    PlainAll items → ReleasedAll [] held items
  | [], _, _ => by simp only [ReleasedAll]
  | item :: items, held, h => by
    simp only [PlainAll] at h
    simp only [ReleasedAll, h.1.swaps, List.append_nil]
    exact ⟨h.1.released held, PlainAll.released held h.2⟩

end

mutual

theorem MacroItem.Plain.fits : ∀ {item : MacroItem T} (held : List KeyCode), item.Plain →
    ∀ p ∈ item.presses [] held, p.Fits
  | .delay _, _, _, p, hp => by
    simp only [MacroItem.presses, List.not_mem_nil] at hp
  | .key kc, held, h, p, hp => by
    simp only [MacroItem.Plain] at h
    simp only [MacroItem.presses, exchanged_nil] at hp
    exact pressRun_fits (by simpa using h.1) (.inr (by simpa using h.2)) p hp
  | .chord kcs, held, h, p, hp => by
    simp only [MacroItem.Plain] at h
    simp only [MacroItem.presses, exchanged_nil] at hp
    exact pressRun_fits h.1 (.inr h.2) p hp
  | .custom _, _, _, p, hp => by
    simp only [MacroItem.presses, List.not_mem_nil] at hp
  | .list items, held, h, p, hp => by
    simp only [MacroItem.Plain] at h
    simp only [MacroItem.presses] at hp
    exact PlainAll.fits held h p hp
  | .group mods items, held, h, p, hp => by
    simp only [MacroItem.Plain] at h
    simp only [MacroItem.presses, h.2.1, exchanged_nil, Bool.not_false, List.mem_append] at hp
    rcases hp with hp | hp
    · exact pressRun_fits h.1 (.inl rfl) p hp
    · exact PlainAll.fits (held ++ mods) h.2.2 p hp

theorem PlainAll.fits : ∀ {items : List (MacroItem T)} (held : List KeyCode), PlainAll items →
    ∀ p ∈ pressesAll [] held items, p.Fits
  | [], _, _, p, hp => by simp only [pressesAll, List.not_mem_nil] at hp
  | item :: items, held, h, p, hp => by
    simp only [PlainAll] at h
    simp only [pressesAll, h.1.swaps, List.append_nil, List.mem_append] at hp
    rcases hp with hp | hp
    · exact h.1.fits held p hp
    · exact PlainAll.fits held h.2 p hp

end

/-- With plain items, whose lists nest less deep than the call stack, the parser returns, and
its encodings are those of the keys as they are typed. -/
theorem encodesAsTyped_of_plain {s : Sequence.ParserState T} {exprs : List SExpr} {n : Nat}
    (haction : ∀ e p, s.parseAction e ≠ .error (.panic p))
    (hno : ∀ items behind, Front s exprs items behind → ∀ item ∈ items, item.NoOverlap)
    (hnests : ∀ x ∈ exprs, Nests s.vars s.quote n x) (hdeep : n < s.stackDepth)
    (hplain : ∀ items behind, Front s exprs items behind → ∀ item ∈ items, item.Plain) :
    EncodesAsTyped s exprs := by
  refine encodesAsTyped_of_fits haction hno ?_ ?_
  · intro items behind hitems
    refine ⟨fun item hitem => ?_, hitems.not_overflows haction hnests hdeep⟩
    exact (hplain items behind hitems item hitem).released []
  · intro items hitems item hitem
    exact (hplain items [] hitems item hitem).fits []

end Plain

/-- `(S-(a b))`. -/
def shiftBoth : List SExpr :=
  [.atomNode "S-" default,
    .listNode [.atomNode "a" default, .atomNode "b" default] default]

theorem reads_shiftBoth :
    ReadsKey twoKeys shiftBoth (.group [lShift] [.key keyA, .key keyB]) [] :=
  ReadsItem.group rfl rfl rfl rfl rfl (.cons (.key rfl rfl) (.cons (.key rfl rfl) .nil))

/-- What is read of a list of one item. -/
theorem readsFront_one {s : Sequence.ParserState T} {exprs behind : List SExpr} {item : MacroItem T}
    (h : ReadsKey s exprs item []) {items : List (MacroItem T)}
    (hitems : ReadsFront (ReadsKey s) exprs items behind) :
    (∀ i ∈ items, i = item) ∧ (behind = exprs ∨ behind = []) := by
  cases hitems with
  | nil => exact ⟨List.forall_mem_nil _, .inl rfl⟩
  | cons hread hrest =>
    rcases Reads.unique _ _ _ _ _ _ _ hread h with ⟨rfl, rfl⟩
    cases hrest
    exact ⟨by simp, .inr rfl⟩

/-- `sequence_encodings_iff` for a group of two keys. -/
theorem sequence_encodings_iff_group :
    EncodesAsTyped twoKeys shiftBoth ∧
      parseSequenceKeys twoKeys shiftBoth = .ok [0x802a, 0x801e, 0x8030] := by
  have hgroup := fun items behind (h : Front twoKeys shiftBoth items behind) =>
    readsFront_one reads_shiftBoth h.reads
  refine ⟨(sequence_encodings_iff ?_ ?_).mpr ⟨?_, ?_⟩, rfl⟩
  · intro e p hp
    unfold twoKeys at hp
    dsimp only at hp
    split at hp
    · cases hp
    · cases hp
    · cases hp
  · intro items behind hitems i hi
    rw [(hgroup items behind hitems).1 i hi]
    simp only [MacroItem.NoOverlap, NoOverlapAll]
    decide
  · intro items behind hitems
    constructor
    · intro i hi
      rw [(hgroup items behind hitems).1 i hi]
      have hevents : (eventsOf [.key keyA, .key keyB] : List (SequenceEvent Unit)).isEmpty =
        false := rfl
      simp only [MacroItem.Released, ReleasedAll, hevents, Bool.false_eq_true, if_false, and_self,
        true_and]
      decide
    · rcases (hgroup items behind hitems).2 with rfl | rfl
      · intro h
        cases h
      · exact id
  · intro items hitems i hi
    rw [(hgroup items [] hitems).1 i hi]
    have hpresses :
        (MacroItem.group [lShift] [.key keyA, .key keyB] : MacroItem Unit).presses [] [] =
        [⟨lShift, [lShift], [lShift]⟩, ⟨keyA, [lShift, keyA], [lShift]⟩,
          ⟨keyB, [lShift, keyB], [lShift]⟩] := rfl
    intro p hp
    rw [hpresses] at hp
    simp only [List.mem_cons, List.not_mem_nil, or_false] at hp
    rcases hp with rfl | rfl | rfl
    · exact ⟨rfl, by decide, rfl⟩
    · exact ⟨rfl, by decide, rfl⟩
    · exact ⟨rfl, by decide, rfl⟩

/-- The modifier of a right-hand prefix has another encoding when it is typed, and in a group
without keys the parser releases what it has not counted. -/
theorem sequence_encodings_fail :
    (parseSequenceKeys twoKeys
        [.atomNode "RS-" default, .listNode [.atomNode "a" default] default] =
        .ok [0x8036, 0x801e] ∧
      typedEncodings (T := Unit) [.group [rShift] [.key keyA]] = [0x802a, 0x801e] ∧
      ¬EncodesAsTyped twoKeys
        [.atomNode "RS-" default, .listNode [.atomNode "a" default] default]) ∧
    (parseSequenceKeys twoKeys [.atomNode "C-S-" default, .listNode [] default] =
        .error (.panic ⟨"had to be pressed to be released"⟩) ∧
      ¬EncodesAsTyped twoKeys [.atomNode "C-S-" default, .listNode [] default]) := by
  have hright : ReadsKey twoKeys
      [.atomNode "RS-" default, .listNode [.atomNode "a" default] default]
      (.group [rShift] [.key keyA]) [] :=
    ReadsItem.group rfl rfl rfl rfl rfl (.cons (.key rfl rfl) .nil)
  have hkeys : parseSequenceKeys twoKeys
      [.atomNode "RS-" default, .listNode [.atomNode "a" default] default] =
        .ok [0x8036, 0x801e] := rfl
  have hpanic : parseSequenceKeys twoKeys [.atomNode "C-S-" default, .listNode [] default] =
      .error (.panic ⟨"had to be pressed to be released"⟩) := rfl
  refine ⟨⟨hkeys, rfl, ?_⟩, hpanic, fun h => h.no_panic _ hpanic⟩
  intro h
  rcases h.encodings _ hkeys with ⟨items, hitems, hsame⟩
  have hitems' : items = [.group [rShift] [.key keyA]] :=
    ReadsAll.unique (Reads.unique _ _) _ _ _ hitems (.cons hright .nil)
  rw [hitems'] at hsame
  exact absurd hsame (by decide)

end Kanata
