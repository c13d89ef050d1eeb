import Kanata.Keyberon.Waiting

/-!
# Kanata.Parser.CustomTapHold — the decision functions of the hold-tap variants

The closures of `parser/src/cfg/custom_tap_hold.rs`. The configuration gives the
lists of keys, the hands and the behaviours; what comes out is a function of the
queued events and of the coordinate of the waiting key.

Every closure is a loop over the presses of the queue, so each is written as its
`PressRule` for a press of row `i` and column `j`, and as what it makes of the
end of the loop. `CustomTapHold` is the choice of a closure with its parameters.
-/

namespace Kanata

inductive Hand where
  | left
  | right
  | neutral
deriving DecidableEq, Repr

/-- The keys that `defhands` gives to a hand. -/
structure HandMap where
  keys : List Nat
  hands : List Hand
  length_eq : keys.length = hands.length

/-- The index that the position of a key gives is in range. -/
theorem HandMap.get_in_range {m : HandMap} {keyCode i : Nat}
    (h : m.keys.findIdx? (· == keyCode) = some i) : i < m.hands.length := by
  have hlt : i < m.keys.length := by
    rcases List.findIdx?_eq_some_iff_getElem.mp h with ⟨hlt, _⟩
    exact hlt
  rw [← m.length_eq]
  exact hlt

/-- `HandMap::get`. -/
def HandMap.get (m : HandMap) (keyCode : Nat) : Hand :=
  match h : m.keys.findIdx? (· == keyCode) with
  | some i => m.hands.get ⟨i, get_in_range h⟩
  | none => .neutral

inductive DecisionBehavior where
  | tap
  | hold
  | ignore
deriving DecidableEq, Repr

/-- The key is in a list of the configuration. -/
def listed (keys : List OsCode) (j : Nat) : Bool := keys.any fun k => k.code == j

namespace PressRule

/-- What a behaviour does at a press, where nothing more is asked for. -/
def ofBehavior : DecisionBehavior → PressRule
  | .tap => .now .tap
  | .hold => .now .hold
  | .ignore => .pass

/-- What a behaviour does at a press that has to be released first. -/
def ofBehaviorRelease : DecisionBehavior → PressRule
  | .tap => .onRelease .tap
  | .hold => .onRelease .hold
  | .ignore => .pass

/-- `custom_tap_hold_release`, at a press. -/
def release (keys : List OsCode) (i j : Nat) : PressRule :=
  if i = realKeyRow ∧ listed keys j = true then .now .tap
  -- Otherwise do the PermissiveHold algorithm.
  else .onRelease .hold

/-- `custom_tap_hold_release_trigger_tap_release`, at a press. -/
def releaseTriggerTapRelease (keysPressTriggerTap keysPressThenReleaseTriggerTap : List OsCode)
    (i j : Nat) : PressRule :=
  if i ≠ realKeyRow then .pass
  else if listed keysPressTriggerTap j then .now .tap
  else if listed keysPressThenReleaseTriggerTap j then .onRelease .tap
  else .onRelease .hold

/-- `custom_tap_hold_keys`, at a press. -/
def keys (keysTapOnPress keysTapOnPressRelease keysHoldOnPress : List OsCode) (i j : Nat) :
    PressRule :=
  if i ≠ realKeyRow then .pass
  else if listed keysTapOnPress j then .now .tap
  else if listed keysHoldOnPress j then .now .hold
  else if listed keysTapOnPressRelease j then .onRelease .tap
  else .onRelease .hold

/-- `custom_tap_hold_except`, at a press: only the first press of the queue
counts. -/
def except (keys : List OsCode) (j : Nat) : PressRule :=
  if listed keys j then .now .tap else .giveUp

/-- `custom_tap_hold_tap_keys`, at a press. -/
def tapKeys (keys : List OsCode) (j : Nat) : PressRule :=
  if listed keys j then .now .tap else .pass

end PressRule

/-- The options that the two variants for opposite hands share. -/
structure OppositeHand where
  handMap : HandMap
  sameHand : DecisionBehavior
  neutralBehavior : DecisionBehavior
  unknownHand : DecisionBehavior
  neutralKeys : List OsCode

namespace PressRule

/-- `custom_tap_hold_opposite_hand`, at a press. -/
def oppositeHand (o : OppositeHand) (waitingHand : Hand) (i j : Nat) : PressRule :=
  if i ≠ realKeyRow then .pass
  -- neutral keys take precedence over defhands
  else if listed o.neutralKeys j then ofBehavior o.neutralBehavior
  else
    match waitingHand, o.handMap.get j with
    | .left, .right | .right, .left => .now .hold
    | .left, .left | .right, .right => ofBehavior o.sameHand
    | _, _ => ofBehavior o.unknownHand

/-- `custom_tap_hold_opposite_hand_release`, at a press. A key of the same hand
is not asked to be released. -/
def oppositeHandRelease (o : OppositeHand) (waitingHand : Hand) (i j : Nat) : PressRule :=
  if i ≠ realKeyRow then .pass
  else if listed o.neutralKeys j then ofBehaviorRelease o.neutralBehavior
  else
    match waitingHand, o.handMap.get j with
    | .left, .left | .right, .right => ofBehavior o.sameHand
    | .left, .right | .right, .left => .onRelease .hold
    | _, _ => ofBehaviorRelease o.unknownHand

end PressRule

/-- A closure of `custom_tap_hold.rs` with what it captures. -/
inductive CustomTapHold where
  | release (keys : List OsCode)
  | releaseTriggerTapRelease (keysPressTriggerTap keysPressThenReleaseTriggerTap : List OsCode)
  | keys (keysTapOnPress keysTapOnPressRelease keysHoldOnPress : List OsCode)
  | except (keys : List OsCode)
  | tapKeys (keys : List OsCode)
  | oppositeHand (o : OppositeHand)
  | oppositeHandRelease (o : OppositeHand)

namespace CustomTapHold

/-- What the closure does at a press at row `i` and column `j`, for a waiting key
at column `col`. -/
def rule (c : CustomTapHold) (col i j : Nat) : PressRule :=
  match c with
  | .release taps => .release taps i j
  | .releaseTriggerTapRelease taps tapsRelease => .releaseTriggerTapRelease taps tapsRelease i j
  | .keys taps tapsRelease holds => .keys taps tapsRelease holds i j
  | .except taps => .except taps j
  | .tapKeys taps => .tapKeys taps j
  | .oppositeHand o => .oppositeHand o (o.handMap.get col) i j
  | .oppositeHandRelease o => .oppositeHandRelease o (o.handMap.get col) i j

/-- The second component of the result, for a loop that made no decision. Only
`custom_tap_hold_except` skips the timeout, as long as nothing was pressed. -/
def skipsTimeout : CustomTapHold → Scan → Bool
  | .except _, .finished => true
  | _, _ => false

/-- The closure itself. -/
def func (c : CustomTapHold) : CustomTapHoldFn := fun queued coord =>
  let scan := scanPresses (fun q => c.rule coord.2 q.event.coord.1 q.event.coord.2) queued
  (scan.action, c.skipsTimeout scan)

/-- `HoldTapConfig::Custom`. -/
def config (c : CustomTapHold) : HoldTapConfig := .custom c.func

end CustomTapHold

end Kanata
