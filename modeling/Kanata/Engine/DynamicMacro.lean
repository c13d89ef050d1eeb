import Kanata.Basic
import Kanata.Keyberon.Event

/-!
# Kanata.Engine.DynamicMacro — recording and replaying dynamic macros

`kanata/dynamic_macro.rs`. A recording holds the last event back until the next one
comes, since only then its delay is known. A replay pops the items of a macro when
their delay has passed; a macro played during a replay goes in front of the rest.

The releases that close a saved macro come in the order of a hash set, which is
arbitrary: it is a parameter (`HashSetOrder`).
-/

namespace Kanata

inductive DynamicMacroItem where
  | press (osc : OsCode) (delay : Nat)
  | release (osc : OsCode) (delay : Nat)
  | endMacro (macroId : Nat)
deriving DecidableEq, Repr

inductive WaitingEventType where
  | press
  | release
deriving DecidableEq, Repr

structure DynamicMacroRecordState where
  startingMacroId : Nat
  waitingEvent : Option (OsCode × WaitingEventType)
  macroItems : List DynamicMacroItem
  currentDelay : Nat
deriving DecidableEq, Repr

/-- A hash set gives its elements in some order. -/
structure HashSetOrder where
  order : List OsCode → List OsCode
  perm : ∀ oscs, (order oscs).Perm oscs

/-- An id and the items saved for it. -/
abbrev SavedMacro := Nat × List DynamicMacroItem

/-! ## Recording -/

/-- The keys whose last item is a press. -/
def pressedOscs (items : List DynamicMacroItem) : List OsCode :=
  items.foldl (fun oscs item =>
    match item with
    | .press osc _ => if osc ∈ oscs then oscs else oscs ++ [osc]
    | .release osc _ => oscs.filter (· ≠ osc)
    | .endMacro _ => oscs) []

namespace DynamicMacroRecordState

def new (macroId : Nat) : DynamicMacroRecordState :=
  { startingMacroId := macroId, waitingEvent := none, macroItems := [], currentDelay := 0 }

def addReleaseForAllUnreleasedPresses (iter : HashSetOrder) (state : DynamicMacroRecordState) :
    DynamicMacroRecordState :=
  { state with
    macroItems := state.macroItems ++
      (iter.order (pressedOscs state.macroItems)).map fun osc => .release osc 0 }

/-- The pending event is taken and pushed with the delay since it came. -/
def pushPendingEvent (state : DynamicMacroRecordState) : DynamicMacroRecordState :=
  match state.waitingEvent with
  | some (osc, .press) =>
    { state with
      waitingEvent := none
      macroItems := state.macroItems ++ [.press osc state.currentDelay] }
  | some (osc, .release) =>
    { state with
      waitingEvent := none
      macroItems := state.macroItems ++ [.release osc state.currentDelay] }
  | none => state

def addEvent (state : DynamicMacroRecordState) (osc : OsCode) (evtype : WaitingEventType) :
    DynamicMacroRecordState :=
  { state.pushPendingEvent with currentDelay := 0, waitingEvent := some (osc, evtype) }

/-- `macro_items.remove(macro_items.len() - 1)`. -/
def removeLast (state : DynamicMacroRecordState) : Rust DynamicMacroRecordState :=
  match state.macroItems with
  | [] => panicWith "attempt to subtract with overflow"
  | items@(_ :: _) => .ok { state with macroItems := items.dropLast }

def truncate (state : DynamicMacroRecordState) (len : Nat) : DynamicMacroRecordState :=
  { state with macroItems := state.macroItems.take len }

end DynamicMacroRecordState

def tickRecordState (recordState : Option DynamicMacroRecordState) :
    Option DynamicMacroRecordState :=
  recordState.map fun state => { state with currentDelay := satAdd state.currentDelay 1 }

section Recording

variable (iter : HashSetOrder)

def beginRecordMacro (macroId : Nat) (recordState : Option DynamicMacroRecordState) :
    Rust (Option DynamicMacroRecordState × Option SavedMacro) :=
  match recordState with
  | none => pure (some (.new macroId), none)
  | some state => do
    let state ← state.pushPendingEvent.removeLast
    let state := state.addReleaseForAllUnreleasedPresses iter
    pure (if state.startingMacroId = macroId then none else some (.new macroId),
      some (state.startingMacroId, state.macroItems))

def recordPress (recordState : Option DynamicMacroRecordState) (osc : OsCode)
    (maxPresses : Nat) : Option DynamicMacroRecordState × Option SavedMacro :=
  match recordState with
  | none => (none, none)
  | some state =>
    if state.macroItems.length > maxPresses * 2 then
      let state := state.addReleaseForAllUnreleasedPresses iter
      (none, some (state.startingMacroId, state.macroItems))
    else (some (state.addEvent osc .press), none)

def recordRelease (recordState : Option DynamicMacroRecordState) (osc : OsCode) :
    Option DynamicMacroRecordState :=
  recordState.map fun state => state.addEvent osc .release

def stopMacro (recordState : Option DynamicMacroRecordState) (numActionsToRemove : Nat) :
    Rust (Option DynamicMacroRecordState × Option SavedMacro) :=
  match recordState with
  | none => pure (none, none)
  | some state => do
    let state ← state.pushPendingEvent.removeLast
    let state := state.truncate (state.macroItems.length - numActionsToRemove)
    let state := state.addReleaseForAllUnreleasedPresses iter
    pure (none, some (state.startingMacroId, state.macroItems))

/-- The calls that change the recording. -/
inductive RecordOp where
  | beginRecordMacro (macroId : Nat)
  | recordPress (osc : OsCode) (maxPresses : Nat)
  | recordRelease (osc : OsCode)
  | tickRecordState
  | stopMacro (numActionsToRemove : Nat)
deriving DecidableEq, Repr

def recordStep (recordState : Option DynamicMacroRecordState) :
    RecordOp → Rust (Option DynamicMacroRecordState × Option SavedMacro)
  | .beginRecordMacro macroId => beginRecordMacro iter macroId recordState
  | .recordPress osc maxPresses => pure (recordPress iter recordState osc maxPresses)
  | .recordRelease osc => pure (recordRelease recordState osc, none)
  | .tickRecordState => pure (tickRecordState recordState, none)
  | .stopMacro numActionsToRemove => stopMacro iter recordState numActionsToRemove

end Recording

/-! ## Replaying -/

inductive ReplayDelayBehaviour where
  | constant
  | recorded
deriving DecidableEq, Repr

structure DynamicMacroReplayState where
  activeMacros : List Nat
  delayRemaining : Nat
  macroItems : List DynamicMacroItem
deriving DecidableEq, Repr

/-- A key event and the delay after it. -/
structure ReplayEvent where
  keyEvent : Event
  delay : Nat
deriving DecidableEq, Repr

/-- The delay that is waited for, and the one given out with the event. -/
def replayDelay (behaviour : ReplayDelayBehaviour) (delay : Nat) : Nat × Nat :=
  match behaviour with
  | .constant => (5, 0)
  | .recorded => (delay, delay)

def tickReplayState (behaviour : ReplayDelayBehaviour)
    (replayState : Option DynamicMacroReplayState) :
    Option DynamicMacroReplayState × Option ReplayEvent :=
  match replayState with
  | none => (none, none)
  | some state =>
    let delayRemaining := state.delayRemaining - 1
    if delayRemaining = 0 then
      match state.macroItems with
      | [] => (none, none)
      | .press key delay :: rest =>
        let delays := replayDelay behaviour delay
        (some { state with delayRemaining := delays.1, macroItems := rest },
          some ⟨.press 0 key.code, delays.2⟩)
      | .release key delay :: rest =>
        let delays := replayDelay behaviour delay
        (some { state with delayRemaining := delays.1, macroItems := rest },
          some ⟨.release 0 key.code, delays.2⟩)
      | .endMacro macroId :: rest =>
        (some
          { activeMacros := state.activeMacros.filter (· ≠ macroId)
            delayRemaining := 5
            macroItems := rest }, none)
    else (some { state with delayRemaining }, none)

def playMacro (macroId : Nat) (recordedMacros : Nat → Option (List DynamicMacroItem))
    (replayState : Option DynamicMacroReplayState) : Option DynamicMacroReplayState :=
  match replayState with
  | none =>
    (recordedMacros macroId).map fun macroItems =>
      { activeMacros := [macroId], delayRemaining := 0, macroItems }
  | some state =>
    if macroId ∈ state.activeMacros then some state
    else
      match recordedMacros macroId with
      | none => some state
      | some items =>
        some
          { state with
            activeMacros := macroId :: state.activeMacros
            macroItems := items ++ .endMacro macroId :: state.macroItems }

end Kanata
