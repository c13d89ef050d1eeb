import Mathlib.Data.List.Count
import Kanata.Engine.SequenceMatching
import Kanata.Parser.MacroTree

/-!
# Kanata.Engine.SequenceItems — the items of a sequence, parsed and typed

The parser of `defseq` finds the modifiers of a key in a flat list of events: a press before
a press is of a modifier, and so is a release after a release. The engine looks at the keys
that are held.

* `typed`: the keys of an item as they are typed, each with what is held;
* `presses`: the same keys, and the modifiers that the parser counts for each;
* `SeqPress.seqNum_eq_iff`: when the two encodings of a key are the same;
* `MacroItem.encoded`: what the loop of the parser does with an item.
-/

namespace Kanata

open Fallible Macro Sequence Sequences

variable {T : Type}

/-! ## The keys as they are typed -/

/-- Keys that are pressed one after the other and held, each with what is held then. -/
def typedKeys (held : List KeyCode) : List KeyCode → List (KeyCode × List KeyCode)
  | [] => []
  | kc :: kcs => (kc, held ++ [kc]) :: typedKeys (held ++ [kc]) kcs

mutual

/-- The keys of an item in the order in which they are pressed. The modifiers of a group are
pressed first and held for the group. -/
def MacroItem.typed (held : List KeyCode) : MacroItem T → List (KeyCode × List KeyCode)
  | .delay _ => []
  | .key kc => typedKeys held [kc]
  | .chord kcs => typedKeys held kcs
  | .custom _ => []
  | .list items => typedAll held items
  | .group mods items => typedKeys held mods ++ typedAll (held ++ mods) items

def typedAll (held : List KeyCode) : List (MacroItem T) → List (KeyCode × List KeyCode)
  | [] => []
  | item :: items => item.typed held ++ typedAll held items

end

/-- What `do_sequence_press_logic` pushes for the keys of some items. -/
def typedEncodings (items : List (MacroItem T)) : List UInt16 :=
  Sequences.typed ((typedAll [] items).map fun (k, held) => Step.press (T := T) k held [])

/-! ## The keys as the parser takes them -/

/-- A key that is pressed, what is held then, and the modifiers that the parser counts for
it. -/
structure SeqPress where
  key : KeyCode
  held : List KeyCode
  counted : List KeyCode
deriving DecidableEq, Repr

/-- The encoding of the parser. The overlap item has only its marker. -/
def SeqPress.seqNum (p : SeqPress) : UInt16 :=
  if p.key = keyOverlap then keyOverlapMarker else ofOsCode p.key ||| getModMaskForCurKeys p.counted

/-- The key has no left variant, and the modifiers that count for it are those that are
held. -/
structure SeqPress.Fits (p : SeqPress) : Prop where
  left : leftVariant p.key = p.key
  plain : p.key ≠ keyOverlap
  mask : getModMaskForCurKeys p.counted = getModMaskForCurKeys p.held

/-- Keys that are pressed one after the other. The last one counts as a modifier if another
press follows. -/
def pressRun (follows : Bool) (counted held : List KeyCode) : List KeyCode → List SeqPress
  | [] => []
  | kc :: kcs =>
    let counted := if follows || !kcs.isEmpty then counted ++ [kc] else counted
    ⟨kc, held ++ [kc], counted⟩ :: pressRun follows counted (held ++ [kc]) kcs

/-- The keys are pressed in any case. -/
theorem typedKeys_eq (follows : Bool) : ∀ counted held kcs : List KeyCode,
    typedKeys held kcs = (pressRun follows counted held kcs).map fun p => (p.key, p.held)
  | _, _, [] => rfl
  | _, held, kc :: kcs => by
    simp only [typedKeys, pressRun, List.map_cons]
    rw [← typedKeys_eq follows]

/-- A group without keys, of two or more modifiers: the parser counts the first of them on,
and takes the last one off. -/
abbrev Swap := KeyCode × KeyCode

def swapOf : List KeyCode → List Swap
  | first :: second :: mods => [(first, (second :: mods).getLast (List.cons_ne_nil _ _))]
  | _ => []

@[simp] theorem swapOf_nil : swapOf [] = [] := rfl

@[simp] theorem swapOf_singleton (kc : KeyCode) : swapOf [kc] = [] := rfl

@[simp] theorem swapOf_concat (first last : KeyCode) (mid : List KeyCode) :
    swapOf (first :: (mid ++ [last])) = [(first, last)] := by
  cases mid with
  | nil => rfl
  | cons second mid =>
    show [(first, ((second :: mid) ++ [last]).getLast _)] = _
    rw [List.getLast_concat]

mutual

/-- The groups of an item that have no keys. -/
def MacroItem.swaps : MacroItem T → List Swap
  | .delay _ => []
  | .key _ => []
  | .chord _ => []
  | .custom _ => []
  | .list items => swapsAll items
  | .group mods items => if (eventsOf items).isEmpty then swapOf mods else swapsAll items

def swapsAll : List (MacroItem T) → List Swap
  | [] => []
  | item :: items => item.swaps ++ swapsAll items

end

/-- The modifiers around a place, after groups without keys. -/
def exchanged (mods : List KeyCode) (before : List Swap) : List KeyCode :=
  (mods ++ before.map Prod.fst).diff (before.map Prod.snd)

mutual

/-- The keys of an item inside modifiers, after groups without keys. -/
def MacroItem.presses (before : List Swap) (held : List KeyCode) : MacroItem T → List SeqPress
  | .delay _ => []
  | .key kc => pressRun false (exchanged held before) held [kc]
  | .chord kcs => pressRun false (exchanged held before) held kcs
  | .custom _ => []
  | .list items => pressesAll before held items
  | .group mods items =>
    pressRun (!(eventsOf items).isEmpty) (exchanged held before) held mods ++
      pressesAll before (held ++ mods) items

def pressesAll (before : List Swap) (held : List KeyCode) : List (MacroItem T) → List SeqPress
  | [] => []
  | item :: items =>
    item.presses before held ++ pressesAll (before ++ item.swaps) held items

end

mutual

/-- The modifiers of each group are there when the group ends. -/
def MacroItem.Released (before : List Swap) (held : List KeyCode) : MacroItem T → Prop
  | .delay _ => True
  | .key _ => True
  | .chord _ => True
  | .custom _ => True
  | .list items => ReleasedAll before held items
  | .group mods items =>
    if (eventsOf items).isEmpty then
      ∀ swap ∈ swapOf mods, swap.2 ∈ exchanged held before ++ [swap.1]
    else
      ReleasedAll before (held ++ mods) items ∧
        List.Subperm mods (exchanged (held ++ mods) (before ++ swapsAll items))

def ReleasedAll (before : List Swap) (held : List KeyCode) : List (MacroItem T) → Prop
  | [] => True
  | item :: items =>
    item.Released before held ∧ ReleasedAll (before ++ item.swaps) held items

end

mutual

/-- No group or output chord is of keys that overlap. -/
def MacroItem.NoOverlap : MacroItem T → Prop
  | .delay _ => True
  | .key _ => True
  | .chord kcs => keyOverlap ∉ kcs
  | .custom _ => True
  | .list items => NoOverlapAll items
  | .group mods items => keyOverlap ∉ mods ∧ NoOverlapAll items

def NoOverlapAll : List (MacroItem T) → Prop
  | [] => True
  | item :: items => item.NoOverlap ∧ NoOverlapAll items

end

/-- The events of an item. -/
def MacroItem.events (item : MacroItem T) : List (SequenceEvent T) := (item.marked []).map Prod.fst

/-- The item has keys only, no delays. -/
def MacroItem.ofKeys (item : MacroItem T) : Bool := item.events.all isPressOrRelease

@[simp] theorem eventsOf_nil : eventsOf ([] : List (MacroItem T)) = [] := by
  simp only [eventsOf, markedAll, List.map_nil]

@[simp] theorem eventsOf_cons (item : MacroItem T) (items : List (MacroItem T)) :
    eventsOf (item :: items) = item.events ++ eventsOf items := by
  simp only [eventsOf, markedAll, MacroItem.events, List.map_append]

@[simp] theorem events_key (kc : KeyCode) :
    (MacroItem.key kc : MacroItem T).events = [.press kc, .release kc] := by
  simp only [MacroItem.events, MacroItem.marked, List.map_cons, List.map_nil]

@[simp] theorem events_chord (kcs : List KeyCode) :
    (MacroItem.chord kcs : MacroItem T).events = kcs.map .press ++ kcs.reverse.map .release := by
  simp only [MacroItem.events, MacroItem.marked, List.map_append, map_pressAll, map_releaseAll]

@[simp] theorem events_delay (duration : Nat) :
    (MacroItem.delay duration : MacroItem T).events = [.delay duration] := by
  simp only [MacroItem.events, MacroItem.marked, List.map_cons, List.map_nil]

@[simp] theorem events_custom (value : T) :
    (MacroItem.custom value).events = [.custom value] := by
  simp only [MacroItem.events, MacroItem.marked, List.map_cons, List.map_nil]

@[simp] theorem events_list (items : List (MacroItem T)) :
    (MacroItem.list items).events = eventsOf items := by
  simp only [MacroItem.events, MacroItem.marked, eventsOf]

@[simp] theorem events_group (mods : List KeyCode) (items : List (MacroItem T)) :
    (MacroItem.group mods items).events =
      mods.map .press ++ (eventsOf items ++ mods.map .release) := by
  simp only [MacroItem.events, MacroItem.marked, List.map_append, map_pressAll, map_releaseAll,
    List.append_assoc, eventsOf]
  rw [markedAll_events _ []]

/-! ## Encodings -/

section Bits

theorem foldl_modMask (kcs : List KeyCode) : ∀ n : UInt16,
    kcs.foldl (fun n modk => n ||| modMaskForKeycode modk) n = n ||| getModMaskForCurKeys kcs := by
  induction kcs with
  | nil =>
    intro n
    exact UInt16.or_zero.symm
  | cons kc kcs ih =>
    intro n
    have hzero := ih (0 ||| modMaskForKeycode kc)
    rw [UInt16.zero_or] at hzero
    rw [List.foldl_cons, ih, UInt16.or_assoc]
    unfold getModMaskForCurKeys
    rw [List.foldl_cons, UInt16.zero_or, hzero]
    rfl

/-- The order of the keys does not matter. -/
theorem getModMask_perm {kcs kcs' : List KeyCode} (h : kcs.Perm kcs') :
    getModMaskForCurKeys kcs = getModMaskForCurKeys kcs' := by
  refine h.foldl_eq' ?_ 0
  intro kc _ kc' _ n
  rw [UInt16.or_assoc, UInt16.or_assoc, UInt16.or_comm (modMaskForKeycode kc)]

theorem ofOsCode_toNat (osc : OsCode) : (ofOsCode osc).toNat = osc.code := by
  have hle : osc.code ≤ 767 := osc.le_max
  unfold ofOsCode
  rw [UInt16.toNat_ofNat']
  omega

theorem ofOsCode_and_keycodes (osc : OsCode) : ofOsCode osc &&& maskKeycodes = ofOsCode osc := by
  refine UInt16.toNat_inj.mp ?_
  rw [ofOsCode_keycodes, ofOsCode_toNat]

/-- Keys are in the low bits. -/
theorem ofOsCode_and_high (osc : OsCode) {high : UInt16} (h : maskKeycodes &&& high = 0) :
    ofOsCode osc &&& high = 0 := by
  rw [← ofOsCode_and_keycodes, UInt16.and_assoc, h, UInt16.and_zero]

theorem getModMask_and_modded (kcs : List KeyCode) :
    getModMaskForCurKeys kcs &&& maskModded = getModMaskForCurKeys kcs := by
  have hall : maskKeycodes ||| maskModded = -1 := by decide
  have hsplit := u16_and_or maskKeycodes maskModded (getModMaskForCurKeys kcs)
  rw [hall, UInt16.neg_one_and, UInt16.and_comm maskKeycodes, getModMask_keycodes,
    UInt16.zero_or, UInt16.and_comm maskModded] at hsplit
  exact hsplit.symm

theorem getModMask_and_marker {kcs : List KeyCode} (h : keyOverlap ∉ kcs) :
    getModMaskForCurKeys kcs &&& keyOverlapMarker = 0 := by
  induction kcs with
  | nil => decide
  | cons kc kcs ih =>
    have hkc : modMaskForKeycode kc &&& keyOverlapMarker = 0 := by
      have hne : kc ≠ keyOverlap := fun heq => h (heq ▸ List.mem_cons_self)
      unfold modMaskForKeycode
      rw [if_neg hne]
      repeat' split
      all_goals decide
    unfold getModMaskForCurKeys
    rw [List.foldl_cons, UInt16.zero_or, foldl_modMask, u16_and_or, hkc, UInt16.zero_or]
    exact ih fun hmem => h (List.mem_cons_of_mem kc hmem)

/-- The two encodings of a key are the same if and only if it fits. -/
theorem SeqPress.seqNum_eq_iff (p : SeqPress) :
    p.seqNum = pushedIntoSeq p.key (getModMaskForCurKeys p.held) ↔ p.Fits := by
  have hkeys : ∀ (osc : OsCode) (kcs : List KeyCode),
      (ofOsCode osc ||| getModMaskForCurKeys kcs) &&& maskKeycodes = ofOsCode osc := by
    intro osc kcs
    rw [u16_and_or, getModMask_keycodes, UInt16.or_zero, ofOsCode_and_keycodes]
  have hmasks : ∀ (osc : OsCode) (kcs : List KeyCode),
      (ofOsCode osc ||| getModMaskForCurKeys kcs) &&& maskModded = getModMaskForCurKeys kcs := by
    intro osc kcs
    rw [u16_and_or, getModMask_and_modded, ofOsCode_and_high osc (by decide), UInt16.zero_or]
  unfold SeqPress.seqNum pushedIntoSeq
  constructor
  · intro h
    split at h
    · -- the marker has no key
      rename_i hkey
      have hcode := congrArg (· &&& maskKeycodes) h
      simp only [hkeys, hkey] at hcode
      exact absurd hcode (by decide)
    · rename_i hkey
      have hcode := congrArg (· &&& maskKeycodes) h
      have hmask := congrArg (· &&& maskModded) h
      simp only [hkeys] at hcode
      simp only [hmasks] at hmask
      refine ⟨KeyCode.ext_code ?_, hkey, hmask⟩
      rw [← ofOsCode_toNat, ← ofOsCode_toNat, hcode]
  · intro h
    rw [if_neg h.plain, h.left, h.mask]

end Bits

/-! ## What the parser counts -/

section Counted

theorem subperm_iff_count {kcs kcs' : List KeyCode} :
    List.Subperm kcs kcs' ↔ ∀ kc, kcs.count kc ≤ kcs'.count kc := by
  constructor
  · intro h kc
    exact h.count_le kc
  · intro h
    exact List.subperm_ext_iff.mpr fun kc _ => h kc

theorem count_exchanged (held : List KeyCode) (before : List Swap) (kc : KeyCode) :
    (exchanged held before).count kc =
      held.count kc + (before.map Prod.fst).count kc - (before.map Prod.snd).count kc := by
  unfold exchanged
  rw [List.count_diff, List.count_append]

/-- What is taken off was there, and nothing of it overlaps. -/
structure Counted (held : List KeyCode) (before : List Swap) : Prop where
  fits : List.Subperm (before.map Prod.snd) (held ++ before.map Prod.fst)
  plain : keyOverlap ∉ held ++ before.map Prod.fst

variable {held mods : List KeyCode} {before : List Swap} {first last : KeyCode}

theorem Counted.count_le (h : Counted held before) (kc : KeyCode) :
    (before.map Prod.snd).count kc ≤ held.count kc + (before.map Prod.fst).count kc := by
  rw [← List.count_append]
  exact h.fits.count_le kc

theorem counted_nil : Counted [] [] where
  fits := List.Subperm.refl _
  plain := List.not_mem_nil

theorem Counted.not_mem (h : Counted held before) : keyOverlap ∉ exchanged held before := by
  intro hmem
  refine h.plain (List.count_pos_iff.mp ?_)
  have hcount := List.count_pos_iff.mpr hmem
  rw [count_exchanged] at hcount
  rw [List.count_append]
  omega

/-- Into a group. -/
theorem Counted.enter (h : Counted held before) (hmods : keyOverlap ∉ mods) :
    Counted (held ++ mods) before := by
  constructor
  · rw [subperm_iff_count]
    intro kc
    have := h.count_le kc
    rw [List.count_append, List.count_append]
    omega
  · have hplain := h.plain
    simp only [List.mem_append, not_or] at hplain ⊢
    exact ⟨⟨hplain.1, hmods⟩, hplain.2⟩

theorem Counted.exchanged_enter (h : Counted held before) (mods : List KeyCode) :
    (exchanged held before ++ mods).Perm (exchanged (held ++ mods) before) := by
  rw [List.perm_iff_count]
  intro kc
  have := h.count_le kc
  rw [List.count_append, count_exchanged, count_exchanged, List.count_append]
  omega

/-- Out of a group whose modifiers are there. -/
theorem Counted.leave (h : Counted (held ++ mods) before)
    (hmods : List.Subperm mods (exchanged (held ++ mods) before)) :
    Counted held before ∧
      ((exchanged (held ++ mods) before).diff mods).Perm (exchanged held before) := by
  have hcounts : ∀ kc, mods.count kc + (before.map Prod.snd).count kc ≤
      held.count kc + mods.count kc + (before.map Prod.fst).count kc := by
    intro kc
    have hin := hmods.count_le kc
    have := h.count_le kc
    rw [count_exchanged, List.count_append] at hin
    rw [List.count_append] at this
    omega
  refine ⟨⟨?_, ?_⟩, ?_⟩
  · rw [subperm_iff_count]
    intro kc
    have := hcounts kc
    rw [List.count_append]
    omega
  · have hplain := h.plain
    simp only [List.mem_append, not_or] at hplain ⊢
    exact ⟨hplain.1.1, hplain.2⟩
  · rw [List.perm_iff_count]
    intro kc
    have := hcounts kc
    rw [List.count_diff, count_exchanged, count_exchanged, List.count_append]
    omega

theorem count_cons_split (first : KeyCode) (mid : List KeyCode) (kc : KeyCode) :
    (first :: mid).count kc = [first].count kc + mid.count kc := by
  rw [← List.count_append]
  rfl

/-- A group without keys has its exchange if its last modifier is there. -/
theorem subperm_swap_iff {counted mid : List KeyCode} :
    List.Subperm (mid ++ [last]) (counted ++ first :: mid) ↔ last ∈ counted ++ [first] := by
  rw [subperm_iff_count, ← List.count_pos_iff]
  constructor
  · intro h
    have hlast := h last
    rw [List.count_append, List.count_append, count_cons_split first mid, List.count_singleton_self]
      at hlast
    rw [List.count_append]
    omega
  · intro h kc
    rw [List.count_append] at h
    rw [List.count_append, List.count_append, count_cons_split first mid]
    by_cases heq : last = kc
    · subst heq
      rw [List.count_singleton_self]
      omega
    · rw [@List.count_singleton _ _ kc, beq_false_of_ne heq, if_neg Bool.false_ne_true]
      omega

theorem Counted.swap (h : Counted held before) {mid : List KeyCode}
    (hfirst : first ≠ keyOverlap) (hlast : last ∈ exchanged held before ++ [first]) :
    Counted held (before ++ [(first, last)]) ∧
      ((exchanged held before ++ first :: mid).diff (mid ++ [last])).Perm
        (exchanged held (before ++ [(first, last)])) := by
  have hcounts : ∀ kc, (before.map Prod.snd).count kc + [last].count kc ≤
      held.count kc + (before.map Prod.fst).count kc + [first].count kc := by
    intro kc
    have hle := h.count_le kc
    by_cases heq : last = kc
    · subst heq
      have hpos := List.count_pos_iff.mpr hlast
      rw [List.count_append, count_exchanged] at hpos
      rw [List.count_singleton_self]
      omega
    · rw [@List.count_singleton _ _ kc, beq_false_of_ne heq, if_neg Bool.false_ne_true]
      omega
  refine ⟨⟨?_, ?_⟩, ?_⟩
  · rw [subperm_iff_count]
    intro kc
    have := hcounts kc
    simp only [List.map_append, List.map_cons, List.map_nil, List.count_append]
    omega
  · have hplain := h.plain
    simp only [List.map_append, List.map_cons, List.map_nil, List.mem_append, List.mem_singleton,
      not_or] at hplain ⊢
    exact ⟨hplain.1, hplain.2, hfirst.symm⟩
  · rw [List.perm_iff_count]
    intro kc
    have := hcounts kc
    have hle := h.count_le kc
    rw [List.count_diff, List.count_append, count_cons_split first mid]
    simp only [count_exchanged, List.map_append, List.map_cons, List.map_nil, List.count_append]
    omega

end Counted

/-! ## The loop of the parser -/

section Loop

/-- Encodings in front of those that come of the rest. -/
def encodedBefore (codes : List UInt16) (x : Parse (List UInt16)) : Parse (List UInt16) := do
  let seq ← x
  pure (codes ++ seq)

/-- A release of what is not counted. -/
def notPressed : Parse (List UInt16) := liftRust (panicWith "had to be pressed to be released")

@[simp] theorem encodedBefore_nil (x : Parse (List UInt16)) : encodedBefore [] x = x := by
  rcases x with e | seq
  · rfl
  · rfl

theorem encodedBefore_append (codes codes' : List UInt16) (x : Parse (List UInt16)) :
    encodedBefore (codes ++ codes') x = encodedBefore codes (encodedBefore codes' x) := by
  rcases x with e | seq
  · rfl
  · exact congrArg Except.ok (List.append_assoc _ _ _)

/-- The loop comes to `next` if the condition holds, and panics if not. -/
structure ComesTo (P : Prop) (x next : Parse (List UInt16)) : Prop where
  of_holds : P → x = next
  of_not : ¬P → x = notPressed

variable {P Q : Prop} {x y z : Parse (List UInt16)} {codes codes' : List UInt16}

theorem ComesTo.of_eq (h : x = y) : ComesTo True x y where
  of_holds _ := h
  of_not hnot := absurd trivial hnot

theorem ComesTo.congr (h : ComesTo P x y) (hiff : Q ↔ P) (hnext : P → y = z) : ComesTo Q x z where
  of_holds hQ := (h.of_holds (hiff.mp hQ)).trans (hnext (hiff.mp hQ))
  of_not hnot := h.of_not fun hP => hnot (hiff.mpr hP)

/-- Encodings, and what comes then. -/
theorem ComesTo.before (h : ComesTo P y z) (hx : x = encodedBefore codes y) :
    ComesTo P x (encodedBefore codes z) where
  of_holds hP := by rw [hx, h.of_holds hP]
  of_not hnot := by
    rw [hx, h.of_not hnot]
    rfl

theorem ComesTo.trans (h : ComesTo P x (encodedBefore codes y))
    (h' : P → ComesTo Q y (encodedBefore codes' z)) :
    ComesTo (P ∧ Q) x (encodedBefore (codes ++ codes') z) where
  of_holds hboth := by
    rw [h.of_holds hboth.1, (h' hboth.1).of_holds hboth.2, encodedBefore_append]
  of_not hnot := by
    by_cases hP : P
    · rw [h.of_holds hP, (h' hP).of_not fun hQ => hnot ⟨hP, hQ⟩]
      rfl
    · exact h.of_not hP

variable {expr : SExpr} {counted held : List KeyCode}

/-- The order of the modifiers that are counted does not matter. -/
theorem encodeEvents_perm : ∀ {es : List (SequenceEvent T)} {counted counted' : List KeyCode}
    {doReleaseMod : Bool}, counted.Perm counted' →
      encodeEvents expr es counted doReleaseMod = encodeEvents expr es counted' doReleaseMod
  | [], _, _, _, _ => rfl
  | .press pressed :: rest, counted, counted', _, h => by
    have hnext : (if isPress rest.head? then counted ++ [pressed] else counted).Perm
        (if isPress rest.head? then counted' ++ [pressed] else counted') := by
      split
      · exact h.append_right _
      · exact h
    simp only [encodeEvents, foldl_modMask, getModMask_perm hnext, encodeEvents_perm hnext]
  | .release released :: rest, counted, counted', doReleaseMod, h => by
    have hnext : (if doReleaseMod then counted.erase released else counted).Perm
        (if doReleaseMod then counted'.erase released else counted') := by
      split
      · exact h.erase released
      · exact h
    have hcontains : counted.contains released = counted'.contains released := by
      rw [Bool.eq_iff_iff, List.contains_iff_mem, List.contains_iff_mem]
      exact h.mem_iff
    simp only [encodeEvents, hcontains, encodeEvents_perm hnext]
  | .tap _ :: _, _, _, _, _ => rfl
  | .delay _ :: _, _, _, _, _ => rfl
  | .custom _ :: _, _, _, _, _ => rfl
  | .complete :: _, _, _, _, _ => rfl
  | .noOp :: _, _, _, _, _ => rfl

/-- A press with the modifiers that count for it. -/
theorem encodeEvents_press {pressed : KeyCode} {rest : List (SequenceEvent T)}
    {doReleaseMod : Bool} {next : List KeyCode}
    (hnext : next = if isPress rest.head? then counted ++ [pressed] else counted)
    (hplain : keyOverlap ∉ next) :
    encodeEvents expr (.press pressed :: rest) counted doReleaseMod = encodedBefore
      (if pressed ≠ keyOverlap then [ofOsCode pressed ||| getModMaskForCurKeys next] else [])
      (encodeEvents expr rest next doReleaseMod) := by
  have hmarker : (ofOsCode pressed ||| getModMaskForCurKeys next) &&& keyOverlapMarker = 0 := by
    rw [u16_and_or, getModMask_and_marker hplain, ofOsCode_and_high _ (by decide)]
    rfl
  have hcheck : ¬((ofOsCode pressed ||| getModMaskForCurKeys next) &&& keyOverlapMarker =
      keyOverlapMarker ∧ (ofOsCode pressed ||| getModMaskForCurKeys next) &&& maskModded ≠
        keyOverlapMarker) := by
    rw [hmarker]
    intro h
    exact marker_ne_zero h.1.symm
  simp only [encodeEvents, foldl_modMask, ← hnext]
  rw [if_neg hcheck]
  unfold encodedBefore
  split
  · rfl
  · rfl

theorem isPress_map_append (kcs : List KeyCode) (es : List (SequenceEvent T)) :
    isPress (kcs.map SequenceEvent.press ++ es).head? = (isPress es.head? || !kcs.isEmpty) := by
  cases kcs with
  | nil => simp
  | cons kc kcs => simp [isPress]

theorem isRelease_presses {kcs : List KeyCode} (h : kcs ≠ []) {es : List (SequenceEvent T)} :
    isRelease (kcs.map SequenceEvent.press ++ es).head? = false := by
  cases kcs with
  | nil => exact absurd rfl h
  | cons kc kcs => rfl

/-- Presses one after the other. -/
theorem encodeEvents_run {es : List (SequenceEvent T)} {doReleaseMod : Bool} :
    ∀ {kcs counted : List KeyCode} (held : List KeyCode), keyOverlap ∉ kcs → keyOverlap ∉ counted →
      encodeEvents expr (kcs.map .press ++ es) counted doReleaseMod = encodedBefore
        ((pressRun (isPress es.head?) counted held kcs).map SeqPress.seqNum)
        (encodeEvents expr es (counted ++ if isPress es.head? then kcs else kcs.dropLast)
          doReleaseMod)
  | [], counted, held, _, _ => by
    simp [pressRun]
  | kc :: kcs, counted, held, hkcs, hcounted => by
    have hne : kc ≠ keyOverlap := fun heq => hkcs (heq ▸ List.mem_cons_self)
    have hcounted' : keyOverlap ∉ counted ++ [kc] := by
      simp only [List.mem_append, List.mem_singleton, not_or]
      exact ⟨hcounted, hne.symm⟩
    have hplain : keyOverlap ∉ if isPress es.head? || !kcs.isEmpty then counted ++ [kc]
        else counted := by
      split
      · exact hcounted'
      · exact hcounted
    rw [List.map_cons, List.cons_append,
      encodeEvents_press (by rw [isPress_map_append]) hplain, if_pos hne,
      encodeEvents_run (held ++ [kc]) (fun h => hkcs (List.mem_cons_of_mem kc h)) hplain,
      ← encodedBefore_append]
    simp only [pressRun, List.map_cons, SeqPress.seqNum, if_neg hne, List.cons_append,
      List.nil_append]
    -- the modifiers that count for the rest
    cases kcs with
    | nil => cases isPress es.head? <;> simp
    | cons kc' kcs => cases isPress es.head? <;> simp

/-- Releases behind a release. -/
theorem encodeEvents_releases {rest : List (SequenceEvent T)} :
    ∀ {kcs counted : List KeyCode}, keyOverlap ∉ kcs →
      ComesTo (List.Subperm kcs counted)
        (encodeEvents expr (kcs.map .release ++ rest) counted
          (isRelease (kcs.map SequenceEvent.release ++ rest).head?))
        (encodeEvents expr rest (counted.diff kcs) (isRelease rest.head?))
  | [], counted, _ => (ComesTo.of_eq rfl).congr (iff_true_intro List.nil_subperm) fun _ => rfl
  | kc :: kcs, counted, hkcs => by
    have hne : ¬kc = keyOverlap := fun heq => hkcs (heq ▸ List.mem_cons_self)
    have hrest := @encodeEvents_releases rest kcs (counted.erase kc)
      fun h => hkcs (List.mem_cons_of_mem kc h)
    by_cases hmem : kc ∈ counted
    · have hsubperm : List.Subperm (kc :: kcs) counted ↔ List.Subperm kcs (counted.erase kc) :=
        (List.perm_cons_erase hmem).subperm_left.trans (List.subperm_cons kc)
      have hstep : encodeEvents expr (.release kc :: (kcs.map .release ++ rest)) counted true =
          encodeEvents expr (kcs.map .release ++ rest) (counted.erase kc)
            (isRelease (kcs.map SequenceEvent.release ++ rest).head?) := by
        simp [encodeEvents, hmem, hne]
      refine ⟨fun h => ?_, fun h => ?_⟩
      · refine hstep.trans ?_
        rw [List.diff_cons]
        exact hrest.of_holds (hsubperm.mp h)
      · exact hstep.trans (hrest.of_not fun hsub => h (hsubperm.mpr hsub))
    · refine ⟨fun h => absurd (h.subset List.mem_cons_self) hmem, fun _ => ?_⟩
      simp [encodeEvents, hmem, isRelease]
      rfl

/-- A release behind a press takes nothing off. -/
theorem encodeEvents_release_kept {released : KeyCode} {rest : List (SequenceEvent T)}
    (hne : released ≠ keyOverlap) :
    encodeEvents expr (.release released :: rest) counted false =
      encodeEvents expr rest counted (isRelease rest.head?) := by
  simp only [encodeEvents, Bool.false_and, Bool.false_eq_true, if_false, if_neg hne]
  rcases encodeEvents expr rest counted (isRelease rest.head?) with e | seq
  · rfl
  · rfl

end Loop

/-! ## Items -/

section Items

mutual

/-- Events begin with a press. -/
theorem MacroItem.events_head : ∀ item : MacroItem T, item.ofKeys = true →
    item.events = [] ∨ ∃ kc es, item.events = .press kc :: es
  | .delay _, h => by simp [MacroItem.ofKeys, isPressOrRelease] at h
  | .key kc, _ => .inr ⟨kc, _, events_key kc⟩
  | .chord [], _ => .inl (by simp)
  | .chord (kc :: kcs), _ => .inr ⟨kc, _, events_chord (kc :: kcs)⟩
  | .custom _, h => by simp [MacroItem.ofKeys, isPressOrRelease] at h
  | .list items, h => by
    rw [events_list]
    exact eventsOf_head items (by simpa [MacroItem.ofKeys] using h)
  | .group [] items, h => by
    rw [events_group, List.map_nil, List.nil_append, List.map_nil, List.append_nil]
    exact eventsOf_head items (by simpa [MacroItem.ofKeys] using h)
  | .group (kc :: mods) items, _ => .inr ⟨kc, _, events_group (kc :: mods) items⟩

theorem eventsOf_head : ∀ items : List (MacroItem T), (eventsOf items).all isPressOrRelease = true →
    eventsOf items = [] ∨ ∃ kc es, eventsOf items = .press kc :: es
  | [], _ => .inl eventsOf_nil
  | item :: items, h => by
    rw [eventsOf_cons, List.all_append, Bool.and_eq_true] at h
    rw [eventsOf_cons]
    rcases item.events_head h.1 with hnil | ⟨kc, es, hcons⟩
    · rw [hnil, List.nil_append]
      exact eventsOf_head items h.2
    · exact .inr ⟨kc, es ++ eventsOf items, by rw [hcons, List.cons_append]⟩

end

mutual

theorem MacroItem.presses_of_no_events (before : List Swap) (held : List KeyCode) :
    ∀ item : MacroItem T, item.events = [] → item.presses before held = []
  | .delay _, _ => by simp only [MacroItem.presses]
  | .key _, h => by simp at h
  | .chord kcs, h => by
    have hnil : kcs = [] := by simpa using h
    simp only [MacroItem.presses, hnil, pressRun]
  | .custom _, _ => by simp only [MacroItem.presses]
  | .list items, h => by
    rw [events_list] at h
    simp only [MacroItem.presses]
    exact pressesAll_of_no_events before held items h
  | .group mods items, h => by
    rw [events_group] at h
    simp only [List.append_eq_nil_iff, List.map_eq_nil_iff] at h
    simp only [MacroItem.presses, h.1, pressRun, List.nil_append, List.append_nil]
    exact pressesAll_of_no_events before held items h.2.1

theorem pressesAll_of_no_events (before : List Swap) (held : List KeyCode) :
    ∀ items : List (MacroItem T), eventsOf items = [] → pressesAll before held items = []
  | [], _ => by simp only [pressesAll]
  | item :: items, h => by
    rw [eventsOf_cons, List.append_eq_nil_iff] at h
    simp only [pressesAll, item.presses_of_no_events before held h.1, List.nil_append]
    exact pressesAll_of_no_events _ held items h.2

end

variable {expr : SExpr} {before : List Swap} {held : List KeyCode}

/-- What the loop does with the events of something: it adds the encodings and counts the
exchanges if the modifiers are there. -/
structure Encoded (expr : SExpr) (before : List Swap) (held : List KeyCode)
    (events rest : List (SequenceEvent T)) (released : Prop) (presses : List SeqPress)
    (swaps : List Swap) : Prop where
  comes : ComesTo released
    (encodeEvents expr (events ++ rest) (exchanged held before) (isRelease (events ++ rest).head?))
    (encodedBefore (presses.map SeqPress.seqNum)
      (encodeEvents expr rest (exchanged held (before ++ swaps)) (isRelease rest.head?)))
  counted : released → Counted held (before ++ swaps)

theorem Encoded.of_no_events {rest : List (SequenceEvent T)} (hc : Counted held before) :
    Encoded expr before held [] rest True [] [] where
  comes := .of_eq (by rw [List.append_nil, List.map_nil, encodedBefore_nil, List.nil_append])
  counted _ := by rwa [List.append_nil]

/-- One thing after the other. -/
theorem Encoded.append {es es' rest : List (SequenceEvent T)} {P Q : Prop}
    {ps ps' : List SeqPress} {swaps swaps' : List Swap}
    (h : Encoded expr before held es (es' ++ rest) P ps swaps)
    (h' : P → Encoded expr (before ++ swaps) held es' rest Q ps' swaps') :
    Encoded expr before held (es ++ es') rest (P ∧ Q) (ps ++ ps') (swaps ++ swaps') where
  comes := by
    have hboth := h.comes.trans fun hP => (h' hP).comes
    rw [List.append_assoc, List.map_append, ← List.append_assoc before]
    exact hboth
  counted hboth := by
    rw [← List.append_assoc]
    exact (h' hboth.1).counted hboth.2

/-- A plain key. -/
theorem encoded_key (kc : KeyCode) {rest : List (SequenceEvent T)} (hc : Counted held before) :
    Encoded expr before held [.press kc, .release kc] rest True
      (pressRun false (exchanged held before) held [kc]) [] where
  comes := by
    refine .of_eq ?_
    rw [List.append_nil]
    by_cases hkc : kc = keyOverlap
    · -- the overlap item has its marker at the release
      subst hkc
      show encodeEvents expr (.press keyOverlap :: .release keyOverlap :: rest) _ false = _
      rw [encodeEvents_press (by rfl) hc.not_mem]
      simp only [ne_eq, not_true_eq_false, if_false, encodedBefore_nil, encodeEvents,
        Bool.false_and, Bool.false_eq_true, pressRun, SeqPress.seqNum, if_true, List.map_cons,
        List.map_nil]
      rfl
    · show encodeEvents expr ([kc].map SequenceEvent.press ++ .release kc :: rest) _ false = _
      rw [encodeEvents_run held (by simpa using Ne.symm hkc) hc.not_mem]
      simp only [List.head?_cons, isPress, Bool.false_eq_true, if_false, List.dropLast_singleton,
        List.append_nil, encodeEvents_release_kept hkc]
  counted _ := by rwa [List.append_nil]

/-- An output chord releases its keys in the reverse order. -/
theorem encoded_chord {kcs : List KeyCode} (hkcs : keyOverlap ∉ kcs)
    {rest : List (SequenceEvent T)} (hc : Counted held before) :
    Encoded expr before held (kcs.map .press ++ kcs.reverse.map .release) rest True
      (pressRun false (exchanged held before) held kcs) [] := by
  rcases List.eq_nil_or_concat kcs with rfl | ⟨front, last, rfl⟩
  · exact .of_no_events hc
  · rw [List.concat_eq_append] at hkcs ⊢
    simp only [List.mem_append, List.mem_singleton, not_or] at hkcs
    have hfront : keyOverlap ∉ front.reverse := by simpa using hkcs.1
    have hfits : List.Subperm front.reverse (exchanged held before ++ front) :=
      (List.reverse_perm front).subperm_right.mpr (List.sublist_append_right _ _).subperm
    have hback : ((exchanged held before ++ front).diff front.reverse).Perm
        (exchanged held before) := by
      rw [List.perm_iff_count]
      intro kc
      rw [List.count_diff, List.count_append, List.count_reverse]
      omega
    refine ⟨.of_eq ?_, fun _ => by rwa [List.append_nil]⟩
    rw [List.append_assoc, isRelease_presses (by simp), encodeEvents_run held _ hc.not_mem]
    · rw [List.reverse_append, List.reverse_singleton, List.singleton_append, List.map_cons,
        List.cons_append]
      simp only [List.head?_cons, isPress, Bool.false_eq_true, if_false, List.dropLast_concat,
        List.append_nil]
      rw [encodeEvents_release_kept (Ne.symm hkcs.2),
        (encodeEvents_releases hfront).of_holds hfits, encodeEvents_perm hback]
    · simpa using hkcs

/-- A group without keys: its last modifier counts for nothing, and its first one stays. -/
theorem encoded_no_keys {mods : List KeyCode} (hmods : keyOverlap ∉ mods)
    {rest : List (SequenceEvent T)} (hc : Counted held before) :
    Encoded expr before held (mods.map .press ++ mods.map .release) rest
      (∀ swap ∈ swapOf mods, swap.2 ∈ exchanged held before ++ [swap.1])
      (pressRun false (exchanged held before) held mods) (swapOf mods) := by
  rcases mods with _ | ⟨first, mods⟩
  · refine ⟨(Encoded.of_no_events hc).comes.congr (by simp) fun _ => rfl, fun _ => ?_⟩
    rwa [swapOf_nil, List.append_nil]
  · simp only [List.mem_cons, not_or] at hmods
    have hrun : encodeEvents expr
        ((first :: mods).map .press ++ ((first :: mods).map .release ++ rest))
        (exchanged held before) false = encodedBefore
          ((pressRun false (exchanged held before) held (first :: mods)).map SeqPress.seqNum)
          (encodeEvents expr (mods.map .release ++ rest)
            (exchanged held before ++ (first :: mods).dropLast)
            (isRelease (mods.map SequenceEvent.release ++ rest).head?)) := by
      rw [← encodeEvents_release_kept (Ne.symm hmods.1)]
      exact encodeEvents_run held (by simpa using hmods) hc.not_mem
    rcases List.eq_nil_or_concat mods with rfl | ⟨mid, last, rfl⟩
    · -- one modifier
      refine ⟨?_, fun _ => by rwa [swapOf_singleton, List.append_nil]⟩
      rw [List.append_assoc, isRelease_presses (List.cons_ne_nil _ _), swapOf_singleton,
        List.append_nil]
      refine ((ComesTo.of_eq rfl).before hrun).congr (by simp) fun _ => ?_
      rw [List.dropLast_singleton, List.append_nil]
      rfl
    · rw [List.concat_eq_append] at hmods hrun ⊢
      rw [swapOf_concat]
      have hswap : (∀ swap ∈ [(first, last)],
          swap.2 ∈ exchanged held before ++ [swap.1]) ↔
            last ∈ exchanged held before ++ [first] := by
        simp
      have hdrop : (first :: (mid ++ [last])).dropLast = first :: mid := by
        rw [← List.cons_append, List.dropLast_concat]
      rw [hdrop] at hrun
      have hexchanged := @Counted.swap _ _ _ last hc mid (Ne.symm hmods.1)
      constructor
      · rw [List.append_assoc, isRelease_presses (List.cons_ne_nil _ _)]
        refine ((encodeEvents_releases hmods.2).before hrun).congr
          (hswap.trans subperm_swap_iff.symm) fun hsub => ?_
        rw [encodeEvents_perm (hexchanged (subperm_swap_iff.mp hsub)).2]
      · intro hlast
        exact (hexchanged (hswap.mp hlast)).1

/-- A group with keys: its modifiers count for them. -/
theorem encoded_keys {mods : List KeyCode} (hmods : keyOverlap ∉ mods)
    {es rest : List (SequenceEvent T)} (hc : Counted held before) {P : Prop} {ps : List SeqPress}
    {swaps : List Swap} (hpress : ∃ kc es', es = .press kc :: es')
    (h : ∀ rest, Encoded expr before (held ++ mods) es rest P ps swaps) :
    Encoded expr before held (mods.map .press ++ (es ++ mods.map .release)) rest
      (P ∧ List.Subperm mods (exchanged (held ++ mods) (before ++ swaps)))
      (pressRun true (exchanged held before) held mods ++ ps) swaps := by
  rcases hpress with ⟨kc, es', rfl⟩
  have hinner := h (mods.map .release ++ rest)
  have hleave := fun hboth : P ∧ List.Subperm mods (exchanged (held ++ mods) (before ++ swaps)) =>
    (hinner.counted hboth.1).leave hboth.2
  constructor
  · have hrun : encodeEvents expr
        (mods.map .press ++ (SequenceEvent.press kc :: es' ++ (mods.map .release ++ rest)))
        (exchanged held before) false = encodedBefore
          ((pressRun true (exchanged held before) held mods).map SeqPress.seqNum)
          (encodeEvents expr (SequenceEvent.press kc :: es' ++ (mods.map .release ++ rest))
            (exchanged (held ++ mods) before) false) := by
      rw [encodeEvents_perm (hc.exchanged_enter mods).symm]
      exact encodeEvents_run held hmods hc.not_mem
    have hflag : isRelease (mods.map SequenceEvent.press ++
        (SequenceEvent.press kc :: es' ++ (mods.map SequenceEvent.release ++ rest))).head? =
          false := by
      cases mods with
      | nil => rfl
      | cons m mods => rfl
    have hend := hinner.comes.trans fun _ =>
      (encodeEvents_releases hmods).congr Iff.rfl fun _ => (encodedBefore_nil _).symm
    rw [List.append_assoc, List.append_assoc, hflag, List.map_append, encodedBefore_append]
    refine (hend.congr Iff.rfl fun hboth => ?_).before hrun
    rw [List.append_nil, encodeEvents_perm (hleave hboth).2]
  · intro hboth
    exact (hleave hboth).1

mutual

/-- By recursion on the item: a group counts its modifiers around what is in it. -/
theorem MacroItem.encoded {before : List Swap} {held : List KeyCode} (hc : Counted held before) :
    ∀ item : MacroItem T, item.NoOverlap → item.ofKeys = true → ∀ rest,
      Encoded expr before held item.events rest (item.Released before held)
        (item.presses before held) item.swaps
  | .delay _, _, hkeys, _ => by simp [MacroItem.ofKeys, isPressOrRelease] at hkeys
  | .key kc, _, _, rest => by
    rw [events_key]
    simp only [MacroItem.Released, MacroItem.presses, MacroItem.swaps]
    exact encoded_key kc hc
  | .chord kcs, hno, _, rest => by
    simp only [MacroItem.NoOverlap] at hno
    rw [events_chord]
    simp only [MacroItem.Released, MacroItem.presses, MacroItem.swaps]
    exact encoded_chord hno hc
  | .custom _, _, hkeys, _ => by simp [MacroItem.ofKeys, isPressOrRelease] at hkeys
  | .list items, hno, hkeys, rest => by
    simp only [MacroItem.NoOverlap] at hno
    rw [events_list]
    simp only [MacroItem.Released, MacroItem.presses, MacroItem.swaps]
    exact encodedAll hc items hno (by simpa [MacroItem.ofKeys] using hkeys) rest
  | .group mods items, hno, hkeys, rest => by
    simp only [MacroItem.NoOverlap] at hno
    have hitems : (eventsOf items).all isPressOrRelease = true := by
      rw [MacroItem.ofKeys, events_group, List.all_append, List.all_append] at hkeys
      simp only [Bool.and_eq_true] at hkeys
      exact hkeys.2.1
    rw [events_group]
    simp only [MacroItem.Released, MacroItem.presses, MacroItem.swaps]
    rcases eventsOf_head items hitems with hnil | hpress
    · simp only [hnil, List.isEmpty_nil, if_true, Bool.not_true, List.nil_append,
        pressesAll_of_no_events before _ items hnil, List.append_nil]
      exact encoded_no_keys hno.1 hc
    · have hne : (eventsOf items).isEmpty = false := by
        rcases hpress with ⟨kc, es, hcons⟩
        rw [hcons]
        rfl
      simp only [hne, Bool.false_eq_true, if_false, Bool.not_false]
      exact encoded_keys hno.1 hc hpress (encodedAll (hc.enter hno.1) items hno.2 hitems)

theorem encodedAll {before : List Swap} {held : List KeyCode} (hc : Counted held before) :
    ∀ items : List (MacroItem T), NoOverlapAll items →
      (eventsOf items).all isPressOrRelease = true →
      ∀ rest, Encoded expr before held (eventsOf items) rest (ReleasedAll before held items)
        (pressesAll before held items) (swapsAll items)
  | [], _, _, rest => by
    rw [eventsOf_nil]
    simp only [ReleasedAll, pressesAll, swapsAll]
    exact .of_no_events hc
  | item :: items, hno, hkeys, rest => by
    simp only [NoOverlapAll] at hno
    rw [eventsOf_cons, List.all_append, Bool.and_eq_true] at hkeys
    rw [eventsOf_cons]
    simp only [ReleasedAll, pressesAll, swapsAll]
    have hitem := item.encoded hc hno.1 hkeys.1 (eventsOf items ++ rest)
    exact hitem.append fun hreleased =>
      encodedAll (hitem.counted hreleased) items hno.2 hkeys.2 rest

end

mutual

/-- The keys of an item are the same, whatever counts for them. -/
theorem MacroItem.typed_eq (before : List Swap) (held : List KeyCode) : ∀ item : MacroItem T,
    item.typed held = (item.presses before held).map fun p => (p.key, p.held)
  | .delay _ => by simp only [MacroItem.typed, MacroItem.presses, List.map_nil]
  | .key kc => by
    simp only [MacroItem.typed, MacroItem.presses]
    exact typedKeys_eq _ _ _ _
  | .chord kcs => by
    simp only [MacroItem.typed, MacroItem.presses]
    exact typedKeys_eq _ _ _ _
  | .custom _ => by simp only [MacroItem.typed, MacroItem.presses, List.map_nil]
  | .list items => by
    simp only [MacroItem.typed, MacroItem.presses]
    exact typedAll_eq before held items
  | .group mods items => by
    simp only [MacroItem.typed, MacroItem.presses, List.map_append, ← typedKeys_eq]
    rw [typedAll_eq before]

theorem typedAll_eq (before : List Swap) (held : List KeyCode) : ∀ items : List (MacroItem T),
    typedAll held items = (pressesAll before held items).map fun p => (p.key, p.held)
  | [] => by simp only [typedAll, pressesAll, List.map_nil]
  | item :: items => by
    simp only [typedAll, pressesAll, List.map_append]
    rw [← item.typed_eq before, ← typedAll_eq]

end

end Items

end Kanata
