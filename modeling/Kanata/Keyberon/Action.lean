import Kanata.Keyberon.Event
import Kanata.Keyberon.Switch

/-!
# Kanata.Keyberon.Action — what a key can do

The type `Action` of `keyberon/src/action.rs`. `T` is the type of the values of
custom actions. The records that hold actions inside an action take the type of
actions as a parameter `A`, so that `Action` is one inductive type.

A decision function of a hold-tap key is a function of the queued events and of
the key's coordinate. The callbacks of a switch are commands, so all that is
kept of them is how many there are.
-/

namespace Kanata

/-- `KeyCode::is_mod`. -/
def KeyCode.isMod (kc : KeyCode) : Bool :=
  -- LShift, RShift, LCtrl, RCtrl, LAlt, RAlt, LGui, RGui
  [42, 54, 29, 97, 56, 100, 125, 126].contains kc.code

/-- An event of a macro. -/
inductive SequenceEvent (T : Type) where
  | noOp
  | press (kc : KeyCode)
  | release (kc : KeyCode)
  | tap (kc : KeyCode)
  | delay (duration : Nat)
  | custom (value : T)
  | complete
deriving DecidableEq, Repr

/-- How a waiting key was decided. -/
inductive WaitingAction where
  | hold
  | tap
  | timeout
  | noOp
deriving DecidableEq, Repr

/-- A decision function: the queued events from the oldest on and the coordinate
of the waiting key, to a decision and whether the timeout is to be skipped. -/
abbrev CustomTapHoldFn := List Queued → KCoord → Option WaitingAction × Bool

inductive HoldTapConfig where
  | default
  | holdOnOtherKeyPress
  | order (buffer : Nat)
  | permissiveHold
  | custom (func : CustomTapHoldFn)

inductive ReleasableState where
  | keyCode (kc : KeyCode)
  | layer (value : Nat)
deriving DecidableEq, Repr

structure HoldTapAction (A : Type) where
  timeout : Nat
  hold : A
  tap : A
  timeoutAction : A
  config : HoldTapConfig
  tapHoldInterval : Nat
  onPressResetTimeoutTo : Option Nat
  requirePriorIdle : Option Nat
  timeout_le : timeout ≤ u16Max

/-- The timeout of most examples. -/
theorem twoHundred_le_u16Max : 200 ≤ u16Max := by decide

inductive OneShotEndConfig where
  | endOnFirstPress
  | endOnFirstPressOrRepress
  | endOnFirstRelease
  | endOnFirstReleaseOrRepress
deriving DecidableEq, Repr

structure OneShot (A : Type) where
  action : A
  timeout : Nat
  endConfig : OneShotEndConfig

/-- `ONE_SHOT_MAX_ACTIVE`. -/
def oneShotMaxActive : Nat := 16

inductive TapDanceConfig where
  | lazy
  | eager
deriving DecidableEq, Repr

structure TapDance (A : Type) where
  actions : List A
  timeout : Nat
  config : TapDanceConfig

/-- A set of keys of a chord group, as a bit mask of 128 bits. -/
abbrev ChordKeys := Nat

structure ChordsGroup (A : Type) where
  coords : List (KCoord × ChordKeys)
  chords : List (ChordKeys × A)
  timeout : Nat

structure ForkConfig (A : Type) where
  left : A
  right : A
  rightTriggers : List KeyCode

inductive BreakOrFallthrough where
  | break
  | fallthrough
deriving DecidableEq, Repr

/-- A case of a switch. -/
structure SwitchCase (A : Type) where
  boolExpr : List Switch.OpCode
  action : A
  breakOrFallthrough : BreakOrFallthrough

/-- `Switch`. The number of callbacks stands for the callbacks. -/
structure SwitchConfig (A : Type) where
  cases : List (SwitchCase A)
  callbacks : Nat

inductive Action (T : Type) where
  | noOp
  | trans
  | keyCode (keycode : KeyCode)
  | multipleKeyCodes (keycodes : List KeyCode)
  /-- `MultipleKeyCodes` of the keys in the layout's own buffer, the action that
  `MultiKeyBuffer::get_ref` returns. No configuration has it. -/
  | multiKeyBuffer
  | multipleActions (actions : List (Action T))
  | layer (value : Nat)
  | defaultLayer (value : Nat)
  | sequence (events : List (SequenceEvent T))
  | repeatableSequence (events : List (SequenceEvent T))
  | cancelSequences
  | releaseState (rs : ReleasableState)
  | holdTap (ht : HoldTapAction (Action T))
  | custom (value : T)
  | oneShot (os : OneShot (Action T))
  | oneShotIgnoreEventsTicks (ticks : Nat)
  | tapDance (td : TapDance (Action T))
  | chords (group : ChordsGroup (Action T))
  | repeat
  | fork (fcfg : ForkConfig (Action T))
  | switch (sw : SwitchConfig (Action T))
  | src

namespace ChordsGroup

variable {A : Type}

/-- `get_keys`. -/
def getKeys (group : ChordsGroup A) (coord : KCoord) : Option ChordKeys :=
  (group.coords.find? fun c => c.1 == coord).map (·.2)

/-- `get_chord`. -/
def getChord (group : ChordsGroup A) (keys : ChordKeys) : Option A :=
  (group.chords.find? fun c => c.1 == keys).map (·.2)

/-- The loop of `get_chord_if_unambiguous`: `none` once a longer chord is
possible. -/
def unambiguous (keys : ChordKeys) : List (ChordKeys × A) → Option A → Option (Option A)
  | [], res => some res
  | (chordKeys, action) :: rest, res =>
    if chordKeys = keys then unambiguous keys rest (some action)
    else if chordKeys ||| keys = chordKeys then none
    else unambiguous keys rest res

/-- `get_chord_if_unambiguous`. -/
def getChordIfUnambiguous (group : ChordsGroup A) (keys : ChordKeys) : Option A :=
  (unambiguous keys group.chords none).getD none

end ChordsGroup

/-- `Action::key_codes`: what an action on its own makes the layout hold. -/
def Action.keyCodes {T : Type} : Action T → List KeyCode
  | .keyCode kc => [kc]
  | .multipleKeyCodes kcs => kcs
  | _ => []

end Kanata
