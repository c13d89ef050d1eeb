import Kanata.Keyberon.Action
import Kanata.Lib.Fallible
import Kanata.Parser.SExpr

/-!
# Kanata.Parser.Macro — from macro items to events

The code of `parse_macro` in `parser/src/cfg/macro.rs`. An item is a delay, an
action, a list of items or a list of items under held modifiers, and takes one or
two of the parameters. What `parse_action` does with an item is a parameter.

`parseMacro_balanced`: in what comes out, whatever is left of a macro at any
moment releases each key at least as often as it presses it.
`returning_parseMacroItemImpl`: an item makes the parser panic only when the call
stack overflows.
-/

namespace Kanata

variable {T : Type}

/-! ## Balanced events -/

namespace SequenceEvent

def presses (kc : KeyCode) : SequenceEvent T → Bool
  | .press keycode => keycode == kc
  | _ => false

def releases (kc : KeyCode) : SequenceEvent T → Bool
  | .release keycode => keycode == kc
  | _ => false

/-- The event presses a key by itself, or ends the macro. -/
def isTapOrEnd : SequenceEvent T → Bool
  | .tap _ => true
  | .complete => true
  | _ => false

end SequenceEvent

/-- At every moment, what is left of the events releases each key at least as
often as it presses it. -/
structure Balanced (events : List (SequenceEvent T)) : Prop where
  left : ∀ kc rest, rest <:+ events →
    rest.countP (SequenceEvent.presses kc) ≤ rest.countP (SequenceEvent.releases kc)
  plain : ∀ e ∈ events, e.isTapOrEnd = false

section Balanced

variable {es es' : List (SequenceEvent T)}

theorem Balanced.nil : Balanced ([] : List (SequenceEvent T)) where
  left kc rest h := by
    rw [List.suffix_nil.mp h]
    exact Nat.le_refl _
  plain e h := by cases h

theorem Balanced.of_suffix (h : Balanced es) (hsuffix : es' <:+ es) : Balanced es' where
  left kc rest hrest := h.left kc rest (hrest.trans hsuffix)
  plain e he := h.plain e (hsuffix.subset he)

/-- A suffix of two lists one after the other. -/
theorem suffix_append_cases {α : Type} {xs ys zs : List α} (h : zs <:+ xs ++ ys) :
    zs <:+ ys ∨ ∃ xs', xs' <:+ xs ∧ zs = xs' ++ ys := by
  rcases List.suffix_or_suffix_of_suffix h (List.suffix_append xs ys) with hys | ⟨xs', rfl⟩
  · exact .inl hys
  · rcases h with ⟨front, hfront⟩
    rw [← List.append_assoc] at hfront
    exact .inr ⟨xs', ⟨front, List.append_cancel_right hfront⟩, rfl⟩

theorem Balanced.append (h : Balanced es) (h' : Balanced es') : Balanced (es ++ es') where
  left kc rest hrest := by
    rcases suffix_append_cases hrest with hrest | ⟨es₁, hes₁, rfl⟩
    · exact h'.left kc rest hrest
    · have := h.left kc es₁ hes₁
      have := h'.left kc es' (List.suffix_refl _)
      simp only [List.countP_append]
      omega
  plain e he := by
    rcases List.mem_append.mp he with he | he
    · exact h.plain e he
    · exact h'.plain e he

/-- An event that presses no key. -/
theorem Balanced.single {e : SequenceEvent T} (hplain : e.isTapOrEnd = false)
    (hpresses : ∀ kc, e.presses kc = false) : Balanced [e] where
  left kc rest h := by
    have hzero : rest.countP (SequenceEvent.presses kc) = 0 := by
      rw [List.countP_eq_zero]
      intro e' he'
      rw [List.mem_singleton.mp (h.subset he'), hpresses kc]
      simp
    omega
  plain e' he' := by
    rw [List.mem_singleton.mp he']
    exact hplain

theorem countP_presses_map (kc : KeyCode) (kcs : List KeyCode) :
    (kcs.map (SequenceEvent.press (T := T))).countP (SequenceEvent.presses kc) = kcs.count kc := by
  rw [List.countP_map]
  rfl

theorem countP_releases_map (kc : KeyCode) (kcs : List KeyCode) :
    (kcs.map (SequenceEvent.release (T := T))).countP (SequenceEvent.releases kc) =
      kcs.count kc := by
  rw [List.countP_map]
  rfl

/-- Keys that are held around balanced events. -/
theorem Balanced.wrap (h : Balanced es) (kcs kcs' : List KeyCode)
    (hcount : ∀ kc, kcs.count kc ≤ kcs'.count kc) :
    Balanced (kcs.map .press ++ es ++ kcs'.map .release) where
  left kc rest hrest := by
    have hkept := hcount kc
    have hreleased : (kcs'.map (SequenceEvent.release (T := T))).countP
        (SequenceEvent.presses kc) = 0 := by
      simp [List.countP_map, Function.comp_def, SequenceEvent.presses]
    rcases suffix_append_cases hrest with hrest | ⟨front, hfront, rfl⟩
    · -- only releases are left
      have := hrest.sublist.countP_le (p := SequenceEvent.presses kc)
      omega
    · simp only [List.countP_append, countP_releases_map, hreleased]
      rcases suffix_append_cases hfront with hfront | ⟨held, hheld, rfl⟩
      · have := h.left kc front hfront
        omega
      · -- some of the keys are still to be pressed
        have hes := h.left kc es (List.suffix_refl _)
        have hsome := hheld.sublist.countP_le (p := SequenceEvent.presses kc)
        rw [countP_presses_map] at hsome
        simp only [List.countP_append]
        omega
  plain e he := by
    simp only [List.mem_append, List.mem_map] at he
    rcases he with (⟨kc, _, rfl⟩ | he) | ⟨kc, _, rfl⟩
    · rfl
    · exact h.plain e he
    · rfl

end Balanced

end Kanata

namespace Kanata.Macro

open Fallible

variable {T : Type}

/-- What the macro parser uses of `ParserState`. `quote` is how a string is shown
with `{:?}`. -/
structure ParserState (T : Type) where
  vars : Option Vars
  parseAction : SExpr → Parse (Action T)
  quote : String → String
  stackDepth : Nat

def macroErr : String :=
  "Action macro only accepts delays, keys, chords, chorded sub-macros, and a subset of " ++
    "special actions.\nThe macro section of the documentation describes this in more detail:\n" ++
    "https://github.com/jtroo/kanata/blob/main/docs/config.adoc#macro"

/-- `map_err`. -/
def mapErr {α : Type} (f : ParseError → ParseError) : Parse α → Parse α
  | .error (.error e) => .error (.error (f e))
  | r => r

theorem mapErr_eq_ok {α : Type} {f : ParseError → ParseError} {r : Parse α} {a : α} :
    mapErr f r = .ok a ↔ r = .ok a := by
  rcases r with (e | p) | b
  · simp [mapErr]
  · simp [mapErr]
  · simp [mapErr]

/-! ## Modifier prefixes -/

def lShift : KeyCode := ⟨42, by decide⟩
def rShift : KeyCode := ⟨54, by decide⟩
def lCtrl : KeyCode := keyLeftCtrl
def rCtrl : KeyCode := ⟨97, by decide⟩
def lAlt : KeyCode := ⟨56, by decide⟩
def rAlt : KeyCode := ⟨100, by decide⟩
def lGui : KeyCode := ⟨125, by decide⟩
def rGui : KeyCode := ⟨126, by decide⟩

/-- `KEY_OVERLAP`, that is `ErrorRollOver`. -/
def keyOverlap : KeyCode := ⟨251, by decide⟩

/-- `KEYMODI`, with the names of the key codes. -/
def keymodi : List (String × KeyCode × String) :=
  [("S-", lShift, "LShift"), ("‹⇧", lShift, "LShift"), ("⇧›", rShift, "RShift"),
    ("RS-", rShift, "RShift"), ("C-", lCtrl, "LCtrl"), ("‹⎈", lCtrl, "LCtrl"),
    ("‹⌃", lCtrl, "LCtrl"), ("⎈›", rCtrl, "RCtrl"), ("⌃›", rCtrl, "RCtrl"),
    ("RC-", rCtrl, "RCtrl"), ("M-", lGui, "LGui"), ("‹◆", lGui, "LGui"), ("‹⌘", lGui, "LGui"),
    ("‹❖", lGui, "LGui"), ("◆›", rGui, "RGui"), ("⌘›", rGui, "RGui"), ("❖›", rGui, "RGui"),
    ("RM-", rGui, "RGui"), ("‹⎇", lAlt, "LAlt"), ("A-", lAlt, "LAlt"), ("‹⌥", lAlt, "LAlt"),
    ("AG-", rAlt, "RAlt"), ("RA-", rAlt, "RAlt"), ("⎇›", rAlt, "RAlt"), ("⌥›", rAlt, "RAlt"),
    -- shorter indicators are matched after those with sides
    ("⎈", lCtrl, "LCtrl"), ("⌥", lAlt, "LAlt"), ("⎇", lAlt, "LAlt"), ("◆", lGui, "LGui"),
    ("⌘", lGui, "LGui"), ("❖", lGui, "LGui"), ("O-", keyOverlap, "ErrorRollOver")]

/-- One pass over the prefixes: the keys so far, what is left of the string and
`found_none`. -/
def stripMods (quote : String → String) (mods : String) :
    List (String × KeyCode × String) → List KeyCode → List Char → Bool →
      Parse (List KeyCode × List Char × Bool)
  | [], keyStack, rem, foundNone => pure (keyStack, rem, foundNone)
  | (keyS, keyCode, name) :: rest, keyStack, rem, foundNone =>
    match keyS.toList.isPrefixOf? rem with
    | some rem' =>
      if keyStack.contains keyCode then bail ("Redundant \"" ++ name ++ "\" in " ++ quote mods)
      else stripMods quote mods rest (keyStack ++ [keyCode]) rem' false
    | none => stripMods quote mods rest keyStack rem foundNone

/-- The passes of `parse_mod_prefix`. Each but the last one takes a character, so
there are no more of them than characters. -/
def modPasses (quote : String → String) (mods : String) :
    Nat → List KeyCode → List Char → Parse (List KeyCode × List Char)
  | 0, keyStack, rem => pure (keyStack, rem)
  | n + 1, keyStack, rem => do
    let (keyStack, rem, foundNone) ← stripMods quote mods keymodi keyStack rem true
    if foundNone then pure (keyStack, rem) else modPasses quote mods n keyStack rem

/-- `parse_mod_prefix`. -/
def parseModPrefix (quote : String → String) (mods : String) : Parse (List KeyCode × String) := do
  let (keyStack, rem) ← modPasses quote mods (mods.length + 1) [] mods.toList
  pure (keyStack, String.ofList rem)

section ModPrefix

variable {P : KeyCode → Prop} {quote : String → String} {mods : String}

theorem stripMods_ensures :
    ∀ (prefixes : List (String × KeyCode × String)) (keyStack : List KeyCode) (rem : List Char)
      (foundNone : Bool), (∀ m ∈ prefixes, P m.2.1) → (∀ kc ∈ keyStack, P kc) →
      Ensures (stripMods quote mods prefixes keyStack rem foundNone) (fun r => ∀ kc ∈ r.1, P kc)
        Refused
  | [], _, _, _, _, hstack => hstack
  | (keyS, keyCode, name) :: prefixes, keyStack, rem, foundNone, hprefixes, hstack => by
    rcases List.forall_mem_cons.mp hprefixes with ⟨hfirst, hrest⟩
    unfold stripMods
    split
    · split
      · exact ⟨_, rfl⟩
      · refine stripMods_ensures prefixes _ _ _ hrest ?_
        exact List.forall_mem_append.mpr ⟨hstack, List.forall_mem_singleton.mpr hfirst⟩
    · exact stripMods_ensures prefixes _ _ _ hrest hstack

theorem modPasses_ensures (hkeymodi : ∀ m ∈ keymodi, P m.2.1) :
    ∀ (n : Nat) (keyStack : List KeyCode) (rem : List Char), (∀ kc ∈ keyStack, P kc) →
      Ensures (modPasses quote mods n keyStack rem) (fun r => ∀ kc ∈ r.1, P kc) Refused
  | 0, _, _, hstack => hstack
  | n + 1, keyStack, rem, hstack => by
    refine (stripMods_ensures keymodi keyStack rem true hkeymodi hstack).andThen ?_
    rintro ⟨keyStack', rem', foundNone⟩ hstack'
    dsimp only at hstack' ⊢
    split
    · exact hstack'
    · exact modPasses_ensures hkeymodi n _ _ hstack'

/-- A prefix is read or refused, and its keys are those that prefixes name. -/
theorem parseModPrefix_ensures (hkeymodi : ∀ m ∈ keymodi, P m.2.1) :
    Ensures (parseModPrefix quote mods) (fun r => ∀ kc ∈ r.1, P kc) Refused :=
  (modPasses_ensures hkeymodi _ [] _ (List.forall_mem_nil P)).andThen fun _ hr => hr

theorem answers_parseModPrefix : Answers (parseModPrefix quote mods) :=
  (parseModPrefix_ensures (P := fun _ => True) fun _ _ => trivial).mono (fun _ _ => trivial)
    fun _ he => he

end ModPrefix

/-- `parse_mods_held_for_submacro`. -/
def parseModsHeldForSubMacro (s : ParserState T) (heldMods : SExpr) :
    Parse (List KeyCode × String) := do
  let mods ← okOrExpr heldMods macroErr (← heldMods.atom s.vars)
  let (modKeys, unparsed) ← parseModPrefix s.quote mods
  if modKeys.isEmpty then bailExpr heldMods macroErr else pure (modKeys, unparsed)

/-! ## Items -/

inductive MacroNumberParseMode where
  | delay
  | action
deriving DecidableEq, Repr

inductive RepeatMacro where
  | yes
  | no
deriving DecidableEq, Repr

/-- `parse_non_zero_u16`. -/
def parseNonZeroU16 (expr : SExpr) (s : ParserState T) (label : String) : Parse Nat := do
  let a ← expr.atom s.vars
  okOrExpr expr (label ++ " must be 1-65535") ((a.bind (parseUInt u16Max)).filter (1 ≤ ·))

/-- The block for delays. An atom that is no delay may still be something else
unless it has only digits. -/
def parseDelay (s : ParserState T) (mode : MacroNumberParseMode) (head : SExpr) :
    Parse (Option Nat) :=
  match mode with
  | .action => pure none
  | .delay => do
    match ← head.atom s.vars with
    | none => pure none
    | some a =>
      match parseNonZeroU16 head s "delay" with
      | .ok duration => pure (some duration)
      | .error e => if a.toList.all Char.isDigit then .error e else pure none

/-- The list of items under held modifiers, and the parameters after it: it is in
a variable named after the modifiers, or it is the next parameter. -/
def submacroItems (s : ParserState T) (e : ParseError) (unparsed : String) (head : SExpr)
    (tail : List SExpr) : Parse (List SExpr × List SExpr) := do
  match ← (SExpr.atomNode unparsed head.span).list s.vars with
  | some l => pure (l, tail)
  | none =>
    if unparsed ≠ "" then bailExpr head (e.msg ++ "\n" ++ macroErr)
    else
      match tail with
      | [] => bailExpr head (e.msg ++ "\n" ++ macroErr)
      | next :: rest => do
        let l ← okOrExpr next macroErr (← next.list s.vars)
        pure (l, rest)

/-- The loop over the parameters. An item takes at least one of them, so there are
no more turns than parameters. -/
def parseItems (item : List SExpr → Parse (List (SequenceEvent T) × List SExpr)) :
    Nat → List SExpr → Parse (List (SequenceEvent T))
  | _, [] => pure []
  | 0, _ :: _ => liftRust (panicWith "stack overflow")
  | n + 1, head :: tail => do
    let (events, remainder) ← item (head :: tail)
    let rest ← parseItems item n remainder
    pure (events ++ rest)

/-- `parse_macro_item_impl`, with the depth of the call stack. -/
def parseMacroItemImpl (s : ParserState T) :
    Nat → MacroNumberParseMode → List SExpr → Parse (List (SequenceEvent T) × List SExpr)
  | 0, _, _ => liftRust (panicWith "stack overflow")
  | _ + 1, _, [] => liftRust (panicWith "index out of bounds: acs")
  | depth + 1, mode, head :: tail => do
    match ← parseDelay s mode head with
    | some duration => pure ([.delay duration], tail)
    | none =>
      match s.parseAction head with
      | .ok (.keyCode kc) => pure ([.press kc, .release kc], tail)
      | .ok (.multipleKeyCodes kcs) =>
        -- press in order, then release in the reverse order
        pure (kcs.map .press ++ kcs.reverse.map .release, tail)
      | .ok (.custom value) => pure ([.custom value], tail)
      | .ok _ => bailExpr head macroErr
      | .error (.panic p) => .error (.panic p)
      | .error (.error e) =>
        match ← head.list s.vars with
        | some items => do
          let events ← mapErr (fun _ => e)
            (parseItems (parseMacroItemImpl s depth .delay) items.length items)
          pure (events, tail)
        | none => do
          let (heldMods, unparsed) ← mapErr
            (fun err => if err.msg = macroErr then { err with msg := e.msg ++ "\n" ++ macroErr }
              else err) <| parseModsHeldForSubMacro s head
          let (items, rest) ← submacroItems s e unparsed head tail
          let events ← parseItems (parseMacroItemImpl s depth .delay) items.length items
          pure (heldMods.map .press ++ events ++ heldMods.map .release, rest)

/-- The event presses or releases `KEY_OVERLAP`. -/
def isOverlap : SequenceEvent T → Bool
  | .tap kc => kc == keyOverlap
  | .press kc => kc == keyOverlap
  | .release kc => kc == keyOverlap
  | _ => false

/-- `parse_macro`. -/
def parseMacro (acParams : List SExpr) (s : ParserState T) (rep : RepeatMacro) :
    Parse (Action T) := do
  if acParams.isEmpty then bail "macro expects at least one item after it"
  else
    let allEvents ← parseItems (parseMacroItemImpl s s.stackDepth .delay) acParams.length acParams
    if allEvents.any isOverlap then bail "macro contains O- which is only valid within defseq"
    else
      match rep with
      | .no => pure (.sequence (allEvents ++ [.complete]))
      | .yes => pure (.repeatableSequence (allEvents ++ [.complete]))

/-! ## What is parsed is balanced -/

section Parsed

variable {s : ParserState T}

theorem parseItems_balanced {item : List SExpr → Parse (List (SequenceEvent T) × List SExpr)}
    (hitem : ∀ acs r, item acs = .ok r → Balanced r.1) :
    ∀ {n : Nat} {acs : List SExpr} {es : List (SequenceEvent T)},
      parseItems item n acs = .ok es → Balanced es
  | _, [], es, h => by
    simp only [parseItems, pure_eq_ok] at h
    rw [← h]
    exact .nil
  | 0, _ :: _, es, h => by simp [parseItems, liftRust, panicWith] at h
  | n + 1, head :: tail, es, h => by
    rw [parseItems] at h
    rcases bind_eq_ok.mp h with ⟨⟨events, remainder⟩, hevents, h⟩
    rcases bind_eq_ok.mp h with ⟨rest, hrest, h⟩
    rw [pure_eq_ok] at h
    rw [← h]
    exact (hitem _ _ hevents).append (parseItems_balanced hitem hrest)

/-- By induction on the depth: each kind of item is balanced. -/
theorem parseMacroItemImpl_balanced : ∀ {depth : Nat} {mode : MacroNumberParseMode}
    {acs : List SExpr} {r : List (SequenceEvent T) × List SExpr},
      parseMacroItemImpl s depth mode acs = .ok r → Balanced r.1 := by
  intro depth
  induction depth with
  | zero =>
    intro mode acs r h
    simp [parseMacroItemImpl, liftRust, panicWith] at h
  | succ depth ih =>
    intro mode acs r h
    cases acs with
    | nil => simp [parseMacroItemImpl, liftRust, panicWith] at h
    | cons head tail =>
      have hitems : ∀ {n acs es},
          parseItems (parseMacroItemImpl s depth .delay) n acs = .ok es → Balanced es :=
        parseItems_balanced fun _ _ => ih
      rw [parseMacroItemImpl] at h
      rcases bind_eq_ok.mp h with ⟨duration, _, h⟩
      split at h
      · rw [pure_eq_ok] at h
        rw [← h]
        exact .single rfl fun _ => rfl
      · split at h
        · -- a key
          rename_i kc _
          rw [pure_eq_ok] at h
          rw [← h]
          exact Balanced.nil.wrap [kc] [kc] fun _ => Nat.le_refl _
        · -- an output chord
          rename_i kcs _
          rw [pure_eq_ok] at h
          rw [← h]
          have hchord := Balanced.nil.wrap (T := T) kcs kcs.reverse fun kc =>
            Nat.le_of_eq List.count_reverse.symm
          rwa [List.append_nil] at hchord
        · rw [pure_eq_ok] at h
          rw [← h]
          exact .single rfl fun _ => rfl
        · simp [bailExpr] at h
        · simp at h
        · rcases bind_eq_ok.mp h with ⟨items, _, h⟩
          split at h
          · -- a list of items
            rcases bind_eq_ok.mp h with ⟨events, hevents, h⟩
            rw [pure_eq_ok] at h
            rw [← h]
            exact hitems (mapErr_eq_ok.mp hevents)
          · -- a list of items under modifiers
            rcases bind_eq_ok.mp h with ⟨⟨heldMods, unparsed⟩, _, h⟩
            rcases bind_eq_ok.mp h with ⟨⟨items, rest⟩, _, h⟩
            rcases bind_eq_ok.mp h with ⟨events, hevents, h⟩
            rw [pure_eq_ok] at h
            rw [← h]
            exact (hitems hevents).wrap _ _ fun _ => Nat.le_refl _

/-- What a macro action of the parser holds. -/
theorem parseMacro_balanced {acParams : List SExpr} {rep : RepeatMacro} {action : Action T}
    (h : parseMacro acParams s rep = .ok action) :
    ∃ es, Balanced es ∧ (action = .sequence (es ++ [.complete]) ∨
      action = .repeatableSequence (es ++ [.complete])) := by
  unfold parseMacro at h
  split at h
  · simp [bail] at h
  · rcases bind_eq_ok.mp h with ⟨es, hes, h⟩
    have hbalanced : Balanced es :=
      parseItems_balanced (fun _ _ => parseMacroItemImpl_balanced) hes
    refine ⟨es, hbalanced, ?_⟩
    split at h
    · simp [bail] at h
    · cases rep with
      | no => exact .inl (pure_eq_ok.mp h).symm
      | yes => exact .inr (pure_eq_ok.mp h).symm

end Parsed

/-! ## What makes the parser panic -/

section Stack

/-- A panic is an overflow of the call stack. -/
def StackOnly (e : ParseFault) : Prop := ∀ p, e = .panic p → p = ⟨"stack overflow"⟩

/-- The computation does not panic unless the call stack overflows. -/
def Returning {α : Type} (x : Parse α) : Prop := Ensures x (fun _ => True) StackOnly

variable {s : ParserState T}

theorem Returning.bind {α β : Type} {x : Parse α} {f : α → Parse β} (hx : Returning x)
    (hf : ∀ a, Returning (f a)) : Returning (x >>= f) :=
  Ensures.bind (Ensures.mono hx (fun a _ => hf a) fun _ he => he)

theorem stackOnly_error (e : ParseError) : StackOnly (.error e) := by
  intro p hp
  cases hp

theorem returning_ok {α : Type} (a : α) : Returning (.ok a : Parse α) := trivial

theorem Returning.of_answers {α : Type} {x : Parse α} (h : Answers x) : Returning x := by
  refine h.mono (fun _ _ => trivial) ?_
  rintro _ ⟨e, rfl⟩
  exact stackOnly_error e

theorem returning_bailExpr {α : Type} (e : SExpr) (msg : String) :
    Returning (bailExpr e msg : Parse α) := .of_answers (answers_bailExpr e msg)

theorem returning_okOrExpr {α : Type} (e : SExpr) (msg : String) (o : Option α) :
    Returning (okOrExpr e msg o) := .of_answers (answers_okOrExpr e msg o)

theorem returning_overflow {α : Type} :
    Returning (liftRust (panicWith "stack overflow") : Parse α) := by
  rintro p ⟨⟩
  rfl

theorem returning_mapErr {α : Type} {f : ParseError → ParseError} {x : Parse α}
    (h : Returning x) : Returning (mapErr f x) := by
  rcases x with (e | p) | a
  · exact stackOnly_error _
  · exact h
  · trivial

theorem returning_atomAux (vars : Option Vars) : ∀ (fuel : Nat) (e : SExpr),
    Returning (liftRust (SExpr.atomAux vars fuel e))
  | 0, .listNode _ _ => returning_ok _
  | _ + 1, .listNode _ _ => returning_ok _
  | 0, .atomNode t _ => by
    unfold SExpr.atomAux
    split
    · exact returning_ok _
    · exact returning_overflow
  | fuel + 1, .atomNode t _ => by
    unfold SExpr.atomAux
    split
    · exact returning_ok _
    · exact returning_atomAux vars fuel _

theorem returning_listAux (vars : Option Vars) : ∀ (fuel : Nat) (e : SExpr),
    Returning (liftRust (SExpr.listAux vars fuel e))
  | 0, .listNode _ _ => returning_ok _
  | _ + 1, .listNode _ _ => returning_ok _
  | 0, .atomNode t _ => by
    unfold SExpr.listAux
    split
    · exact returning_ok _
    · exact returning_overflow
  | fuel + 1, .atomNode t _ => by
    unfold SExpr.listAux
    split
    · exact returning_ok _
    · exact returning_listAux vars fuel _

theorem returning_atom (e : SExpr) (vars : Option Vars) :
    Returning (liftRust (e.atom vars)) := returning_atomAux vars _ e

theorem returning_list (e : SExpr) (vars : Option Vars) :
    Returning (liftRust (e.list vars)) := returning_listAux vars _ e

theorem returning_parseNonZeroU16 (e : SExpr) (label : String) :
    Returning (parseNonZeroU16 e s label) :=
  (returning_atom e s.vars).bind fun _ => returning_okOrExpr _ _ _

theorem returning_parseDelay (mode : MacroNumberParseMode) (head : SExpr) :
    Returning (parseDelay s mode head) := by
  cases mode with
  | action => exact returning_ok _
  | delay =>
    refine (returning_atom head s.vars).bind fun a => ?_
    cases a with
    | none => exact returning_ok _
    | some a =>
      have hnumber := @returning_parseNonZeroU16 _ s head "delay"
      dsimp only
      cases hx : parseNonZeroU16 head s "delay" with
      | ok duration => exact returning_ok _
      | error e =>
        dsimp only
        split
        · exact hnumber.of_error hx
        · exact returning_ok _

theorem returning_modsHeld (heldMods : SExpr) :
    Returning (parseModsHeldForSubMacro s heldMods) := by
  refine (returning_atom heldMods s.vars).bind fun mods => ?_
  refine (returning_okOrExpr _ _ _).bind fun mods => ?_
  refine (Returning.of_answers answers_parseModPrefix).bind fun keys => ?_
  dsimp only
  split
  · exact returning_bailExpr _ _
  · exact returning_ok _

theorem returning_submacroItems (e : ParseError) (unparsed : String) (head : SExpr)
    (tail : List SExpr) : Returning (submacroItems s e unparsed head tail) := by
  refine (returning_list _ s.vars).bind fun l => ?_
  cases l with
  | some l => exact returning_ok _
  | none =>
    dsimp only
    split
    · exact returning_bailExpr _ _
    · cases tail with
      | nil => exact returning_bailExpr _ _
      | cons next rest =>
        exact (returning_list _ s.vars).bind fun _ =>
          (returning_okOrExpr _ _ _).bind fun _ => returning_ok _

theorem returning_parseItems {item : List SExpr → Parse (List (SequenceEvent T) × List SExpr)}
    (hitem : ∀ head tail, Returning (item (head :: tail))) :
    ∀ (n : Nat) (acs : List SExpr), Returning (parseItems item n acs)
  | _, [] => by
    unfold parseItems
    exact returning_ok _
  | 0, _ :: _ => returning_overflow
  | n + 1, head :: tail =>
    (hitem head tail).bind fun _ => (returning_parseItems hitem n _).bind fun _ => returning_ok _

/-- By induction on the depth: with a parser of actions that returns, only the call stack is
in the way of an item. -/
theorem returning_parseMacroItemImpl (haction : ∀ e p, s.parseAction e ≠ .error (.panic p)) :
    ∀ (depth : Nat) (mode : MacroNumberParseMode) (head : SExpr) (tail : List SExpr),
      Returning (parseMacroItemImpl s depth mode (head :: tail))
  | 0, _, _, _ => returning_overflow
  | depth + 1, mode, head, tail => by
    have hitems := returning_parseItems (returning_parseMacroItemImpl haction depth .delay)
    refine (returning_parseDelay mode head).bind fun duration => ?_
    cases duration with
    | some duration => exact returning_ok _
    | none =>
      dsimp only
      cases hx : s.parseAction head with
      | ok action =>
        cases action with
        | keyCode kc => exact returning_ok _
        | multipleKeyCodes kcs => exact returning_ok _
        | custom value => exact returning_ok _
        | _ => exact returning_bailExpr _ _
      | error fault =>
        cases fault with
        | panic p => exact absurd hx (haction head p)
        | error e =>
          refine (returning_list head s.vars).bind fun items => ?_
          cases items with
          | some items =>
            exact (returning_mapErr (hitems _ _)).bind fun _ => returning_ok _
          | none =>
            refine (returning_mapErr (returning_modsHeld head)).bind fun _ => ?_
            exact (returning_submacroItems _ _ _ _).bind fun _ =>
              (hitems _ _).bind fun _ => returning_ok _

end Stack

end Kanata.Macro
