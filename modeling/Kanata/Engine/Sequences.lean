import Kanata.Engine.Output
import Kanata.Keyberon.Event
import Kanata.Keyberon.State
import Kanata.Keyberon.Waiting
import Kanata.Parser.Sequence

/-!
# Kanata.Engine.Sequences — keys while a sequence is typed

`src/kanata/sequences.rs`. Two trackers run beside each other, one for plain
keys and one for overlapping keys. Each tries to stay a prefix of something in the
table by rewriting itself, and one that fails is filled with the other one.

What a step does to the rest of the program is a list of effects.
-/

namespace Kanata.Sequences

open Kanata.Sequence

variable {M : Type → Type} [PatriciaMap M] {T : Type}

inductive SequenceInputMode where
  | hiddenSuppressed
  | visibleBackspaced
  | hiddenDelayType
deriving DecidableEq, Repr

inductive SequenceActivity where
  | inactive
  | active
deriving DecidableEq, Repr

structure SequenceState where
  rawOscs : List OsCode
  sequence : List UInt16
  overlappedSequence : List UInt16
  sequenceInputMode : SequenceInputMode
  ticksUntilTimeout : Nat
  sequenceTimeout : Nat
  activity : SequenceActivity
  noeraseCount : Nat
deriving DecidableEq, Repr

/-- What a step does outside of its state. -/
inductive Effect where
  | kbd (call : KbdCall)
  /-- A press and a release of `KEY_BACKSPACE`. -/
  | backspace
  /-- `layout.event_to_front`. -/
  | eventToFront (event : Event)
deriving DecidableEq, Repr

/-- The sequence state, `layout.states` and the effects of a step. -/
structure Outcome (T : Type) where
  state : SequenceState
  states : List (State T)
  effects : List Effect

namespace SequenceState

def new : SequenceState := ⟨[], [], [], .hiddenSuppressed, 0, 0, .inactive, 0⟩

def activate (st : SequenceState) (inputMode : SequenceInputMode) (timeout : Nat) :
    SequenceState :=
  { st with
    sequenceInputMode := inputMode
    sequenceTimeout := timeout
    ticksUntilTimeout := timeout
    rawOscs := []
    sequence := []
    overlappedSequence := []
    activity := .active
    noeraseCount := 0 }

def isActive (st : SequenceState) : Bool := st.activity = .active

end SequenceState

def getModMaskForCurKeys (curKeys : List KeyCode) : UInt16 :=
  curKeys.foldl (fun a v => a ||| modMaskForKeycode v) 0

inductive EndSequenceType where
  | standard
  | overlap
deriving DecidableEq, Repr

/-! ## Ends of a sequence -/

/-- `OsCode::from` for a `u16`. -/
def oscodeFrom (item : UInt16) : Rust OsCode :=
  if h : item.toNat ≤ keyCodeMax then pure ⟨item.toNat, h⟩ else panicWith "Invalid KeyCode"

/-- The modifiers that the end of a visible sequence releases. -/
def isReleasedMod (kc : KeyCode) : Bool :=
  [Macro.lCtrl, Macro.rCtrl, Macro.lAlt, Macro.rAlt, Macro.lGui, Macro.rGui].contains kc

/-- The modifiers of `layout.states` that are dropped, and their releases. -/
def releaseMods (states : List (State T)) : List (State T) × List Effect :=
  (states.filter fun s => match s with
      | .normalKey keycode _ _ => !isReleasedMod keycode
      | _ => true,
    states.flatMap fun s => match s with
      | .normalKey keycode _ _ =>
        if isReleasedMod keycode then (OutputLogic.releaseKey keycode).map Effect.kbd else []
      | _ => [])

/-- The loop that inputs backspaces, with what is left of `noerase_count`. -/
def backspaces : List UInt16 → Nat → Rust (List Effect × Nat)
  | [], noeraseCount => pure ([], noeraseCount)
  | k :: ks, noeraseCount =>
    if k = keyOverlapMarker then backspaces ks noeraseCount
    else do
      let osc ← oscodeFrom (k &&& maskKeycodes)
      if OsCode.isModifier osc || OsCode.isIgnored osc then backspaces ks noeraseCount
      else if noeraseCount > 0 then backspaces ks (noeraseCount - 1)
      else do
        let (effects, noeraseCount) ← backspaces ks noeraseCount
        pure (.backspace :: effects, noeraseCount)

/-- The loop that drops the keys of the sequence from `layout.states`. -/
def dropTyped : List UInt16 → List (State T) → Rust (List (State T))
  | [], states => pure states
  | k :: ks, states =>
    if k = keyOverlapMarker then dropTyped ks states
    else do
      let kc ← oscodeFrom (k &&& maskKeycodes)
      dropTyped ks (states.filter fun s => match s with
        | .normalKey keycode _ _ => kc ≠ keycode
        | _ => true)

def doSuccessfulSequenceTermination (state : SequenceState) (states : List (State T))
    (coord : KCoord) (seqType : EndSequenceType) : Rust (Outcome T) := do
  let sequence := match seqType with
    | .standard => state.sequence
    | .overlap => state.overlappedSequence
  let (states, erased, noeraseCount) ←
    match state.sequenceInputMode with
    | .hiddenSuppressed | .hiddenDelayType => pure (states, [], state.noeraseCount)
    | .visibleBackspaced => do
      let (states, released) := releaseMods states
      let (erased, noeraseCount) ← backspaces sequence state.noeraseCount
      pure (states, released ++ erased, noeraseCount)
  let states ← dropTyped sequence states
  pure
    { state := { state with activity := .inactive, noeraseCount }
      states
      effects := erased ++ [.eventToFront (.release coord.1 coord.2),
        .eventToFront (.press coord.1 coord.2)] }

def cancelSequence (state : SequenceState) : SequenceState × List Effect :=
  ({ state with activity := .inactive },
    match state.sequenceInputMode with
    | .hiddenDelayType => state.rawOscs.flatMap fun osc =>
        (OutputLogic.pressKey osc ++ OutputLogic.releaseKey osc).map Effect.kbd
    | .hiddenSuppressed | .visibleBackspaced => [])

/-- `add_noerase`. -/
def addNoerase (overflowChecks : Bool) (state : SequenceState) (noeraseCount : Nat) :
    Rust SequenceState := do
  let count ← addU16 overflowChecks state.noeraseCount noeraseCount
  pure { state with noeraseCount := count }

/-! ## A key of a sequence -/

abbrev Res := GetOrDescendentExistsResult KCoord

/-- The left variant of a modifier that has two, except for alt. -/
def leftVariant (osc : OsCode) : OsCode :=
  if osc = Macro.rShift then Macro.lShift
  else if osc = Macro.rGui then Macro.lGui
  else if osc = Macro.rCtrl then Macro.lCtrl
  else osc

def pushedIntoSeq (osc : OsCode) (modMask : UInt16) : UInt16 :=
  ofOsCode (leftVariant osc) ||| modMask

/-- The loop over the indices below `i`, from the last one, that unsets bits until
the table knows the sequence. -/
def backtrack (sequences : Trie M KCoord) (modcancel : Bool) :
    Nat → List UInt16 → Res → List UInt16 × Res × Bool
  | 0, sequence, res => (sequence, res, true)
  | i + 1, sequence, _ =>
    let sequence :=
      if sequence[i]? = some keyOverlapMarker then sequence.eraseIdx i
      else if modcancel then sequence.modify i (· &&& maskKeycodes)
      else sequence.modify i (· &&& ~~~keyOverlapMarker)
    let res := sequences.getOrDescendantExists sequence
    if res ≠ .notInTrie then (sequence, res, false)
    else backtrack sequences modcancel i sequence res

/-- The standard tracker, the result for it and whether it is invalid. -/
def trackStandard (sequences : Trie M KCoord) (modcancel : Bool) (sequence : List UInt16) :
    List UInt16 × Res × Bool :=
  let res := sequences.getOrDescendantExists sequence
  if res = .notInTrie then backtrack sequences modcancel sequence.length sequence res
  else (sequence, res, false)

/-- The overlap tracker after its old elements and a pushed one. It may end the
overlap before the pushed element, and then unset bits of it. -/
def trackOverlapped (sequences : Trie M KCoord) (front : List UInt16) (pushed : UInt16) :
    List UInt16 × Res × Bool :=
  let pushedOverlap := (pushed &&& maskKeycodes) ||| keyOverlapMarker
  let overlapped := front ++ [pushedOverlap]
  let res := sequences.getOrDescendantExists overlapped
  if res ≠ .notInTrie then (overlapped, res, false)
  else
    let overlapped := front ++ [keyOverlapMarker, pushedOverlap]
    let res := sequences.getOrDescendantExists overlapped
    if res ≠ .notInTrie then (overlapped, res, false)
    else
      let overlapped := front ++ [keyOverlapMarker, pushed]
      let res := sequences.getOrDescendantExists overlapped
      if res ≠ .notInTrie then (overlapped, res, false)
      else if pushed &&& maskKeycodes = pushed then (overlapped, res, true)
      else
        let overlapped := front ++ [keyOverlapMarker, pushed &&& maskKeycodes]
        let res := sequences.getOrDescendantExists overlapped
        (overlapped, res, res = .notInTrie)

/-- The loop that removes elements from the front. -/
def trimFront (sequences : Trie M KCoord) : List UInt16 → Res → List UInt16 × Res
  | [], res => ([], res)
  | e :: es, res =>
    if res = .notInTrie then trimFront sequences es (sequences.getOrDescendantExists es)
    else (e :: es, res)

/-- The trackers and the results for them after each was made valid if possible. -/
structure Tracked where
  state : SequenceState
  res : Res
  resOverlapped : Res
  effects : List Effect

/-- Filling an invalid tracker with the other one. -/
def reconcile (sequences : Trie M KCoord) (state : SequenceState) (res resOverlapped : Res) :
    Bool → Bool → Tracked
  | false, false => ⟨state, res, resOverlapped, []⟩
  | false, true =>
    ⟨{ state with overlappedSequence := state.sequence }, res,
      sequences.getOrDescendantExists state.sequence, []⟩
  | true, false =>
    let sequence :=
      if (state.overlappedSequence.getLast?.getD 0) ≠ keyOverlapMarker ∧
          state.overlappedSequence.getLast?.getD 0 ≥ keyOverlapMarker then
        -- a sequence without overlap goes on as if the overlap had ended
        state.overlappedSequence ++ [keyOverlapMarker]
      else state.overlappedSequence
    ⟨{ state with sequence }, sequences.getOrDescendantExists sequence, resOverlapped, []⟩
  | true, true =>
    let (sequence, res) := trimFront sequences state.sequence res
    let state := { state with sequence }
    if res = .notInTrie ∨ sequence.isEmpty then
      let (state, effects) := cancelSequence state
      ⟨state, res, resOverlapped, effects⟩
    else ⟨state, res, resOverlapped, []⟩

/-- The checks for a complete sequence. One with overlap takes priority. -/
def complete (sequences : Trie M KCoord) (t : Tracked) (states : List (State T)) :
    Rust (Outcome T) :=
  match t.resOverlapped with
  | .hasValue coord => doSuccessfulSequenceTermination t.state states coord .overlap
  | .notInTrie | .inTrie =>
    match t.res with
    | .hasValue coord =>
      let state :=
        { t.state with overlappedSequence := t.state.overlappedSequence ++ [keyOverlapMarker] }
      match sequences.getOrDescendantExists state.overlappedSequence with
      | .hasValue coord => doSuccessfulSequenceTermination state states coord .overlap
      | .notInTrie | .inTrie => doSuccessfulSequenceTermination state states coord .standard
    | .notInTrie | .inTrie => pure ⟨t.state, states, []⟩

def doSequencePressLogic (sequences : Trie M KCoord) (sequenceBacktrackModcancel : Bool)
    (state : SequenceState) (states : List (State T)) (k : KeyCode) (modMask : UInt16) :
    Rust (Outcome T) := do
  let pushed := pushedIntoSeq k modMask
  let pressed := match state.sequenceInputMode with
    | .visibleBackspaced => (OutputLogic.pressKey k).map Effect.kbd
    | .hiddenSuppressed | .hiddenDelayType => []
  let (sequence, res, invalidStandard) :=
    trackStandard sequences sequenceBacktrackModcancel (state.sequence ++ [pushed])
  let (overlappedSequence, resOverlapped, invalidOverlapped) :=
    trackOverlapped sequences state.overlappedSequence pushed
  let tracked := reconcile sequences
    { state with
      ticksUntilTimeout := state.sequenceTimeout
      rawOscs := state.rawOscs ++ [k]
      sequence
      overlappedSequence }
    res resOverlapped invalidStandard invalidOverlapped
  let outcome ← complete sequences tracked states
  pure { outcome with effects := pressed ++ tracked.effects ++ outcome.effects }

/-! ## Between keys -/

/-- The part of `handle_keystate_changes` for when the last of the keys is up. -/
def endOverlap (sequences : Trie M KCoord) (state : SequenceState) (states : List (State T)) :
    Rust (Outcome T) :=
  let overlappedSequence := state.overlappedSequence ++ [keyOverlapMarker]
  match sequences.getOrDescendantExists overlappedSequence with
  | .hasValue coord =>
    doSuccessfulSequenceTermination { state with overlappedSequence } states coord .overlap
  | .notInTrie => pure ⟨{ state with overlappedSequence := state.sequence }, states, []⟩
  | .inTrie => pure ⟨{ state with overlappedSequence }, states, []⟩

/-- `tick_sequence_state`. -/
def tickSequenceState (overflowChecks : Bool) (state : SequenceState) :
    Rust (SequenceState × List Effect) := do
  if state.isActive then
    let ticks ←
      if state.ticksUntilTimeout = 0 then
        if overflowChecks then panicWith "attempt to subtract with overflow" else pure u16Max
      else pure (state.ticksUntilTimeout - 1)
    let state := { state with ticksUntilTimeout := ticks }
    if ticks = 0 then pure (cancelSequence state) else pure (state, [])
  else pure (state, [])

end Kanata.Sequences
