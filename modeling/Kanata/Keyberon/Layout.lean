import Kanata.Keyberon.Chord
import Kanata.Keyberon.State

/-!
# Kanata.Keyberon.Layout — the layout manager

The code of `Layout` in `keyberon/src/layout.rs`: key events come in through
`event` and `eventToFront`, `tick` advances everything by one tick and returns
at most one custom event, and `doAction` performs an action.

What never changes is `LayoutConfig`. `doAction` calls itself through the other
functions, so each function takes the `doAction` it calls as a parameter `act`,
and the recursion is closed at the end with the depth of the call stack: a
configuration can make the source recurse without bound.

The layout carries a `trace`, a history variable that no function reads. An
`Occurrence` stands where the source adds, hands over or loses something.
-/

namespace Kanata

open Kanata.Switch (SwitchEnv evaluateBoolean)

/-! ## Configuration and state -/

/-- `EXTRA_WAITING_LEN`. -/
def extraWaitingLen : Nat := 8

/-- `ACTION_QUEUE_LEN`. -/
def actionQueueLen : Nat := 8

/-- `MAX_ACTIVE_LAYERS`. -/
def maxActiveLayers : Nat := 12

abbrev LayerStack := Bounded maxActiveLayers Nat

/-- An action of `src_keys`: the parser puts nothing else there. -/
inductive SrcKey where
  | noOp
  | keyCode (kc : KeyCode)
deriving DecidableEq, Repr

def SrcKey.toAction {T : Type} : SrcKey → Action T
  | .noOp => .noOp
  | .keyCode kc => .keyCode kc

/-- `C` columns and `R` rows. `callbacks` gives what the callbacks of switches
return: the number of switch activations so far and the index of the callback. -/
structure LayoutConfig (C R : Nat) (T : Type) where
  srcKeys : Fin C → SrcKey
  layers : List (Fin R → Fin C → Action T)
  transResolutionBehaviorV2 : Bool
  delegateToFirstLayer : Bool
  quickTapHoldTimeout : Bool
  tapHoldRequirePriorIdle : Nat
  chordsV2 : Option (Chord.ChordsConfig (Action T))
  callbacks : Nat → Nat → Bool
  overflowChecks : Bool
  stackDepth : Nat

/-- What an action finds when it is performed, as far as it decides whether something is
lost: a key that waits, the room for further ones, what `rpt` repeats, the room for events
and what is held, with the one-shot keys. -/
structure Found (T : Type) where
  states : List (State T)
  waiting : Bool
  extraWaiting : Nat
  activeSequences : List (SequenceState T)
  rptAction : Option (Action T)
  rptMultikeyKeyBuffer : MultiKeyBuffer
  oneshot : OneShotState
  queued : Nat
  queuedChv2 : Nat

/-- A call of `do_action`. The layer stack is what is left of the iterator. -/
structure Call (T : Type) where
  action : Action T
  coord : KCoord
  delay : Nat
  isOneshot : Bool
  layerStack : List Nat

/-- What happens to the things a layout keeps account of. -/
inductive Occurrence (T : Type) where
  | customAdded (value : T) (coord : KCoord)
  /-- There was no room for the state of a custom action. -/
  | customRefused (value : T)
  | customReleased (value : T)
  /-- A custom event that nobody will see. -/
  | customDiscarded (e : CustomEvent T)
  | sequencePressed (value : T)
  | sequenceReleased (value : T)
  | waitingCreated (id : Nat)
  | waitingResolved (id : Nat) (outcome : WaitingAction)
  | waitingLost (id : Nat)
  | performed (action : Action T) (coord : KCoord) (found : Found T)
  /-- The action of a call was performed whole. -/
  | finished (call : Call T) (left : Found T)
  | actionQueued (qa : QueuedAction T)
  | actionTaken (qa : QueuedAction T)
  | actionLost (qa : QueuedAction T)
  | sequenceStarted (events : List (SequenceEvent T))
  | sequenceLost (seq : SequenceState T)
  | eventTaken (q : Queued)
  | eventProcessed (q : Queued)
  | eventLost (q : Queued)
  | keyRecorded (kc : KeyCode)
  | inputRecorded (coord : KCoord)
  | inputExcluded (coord : KCoord)
  /-- The three histories got a tick older. -/
  | historiesAged
  | danceStarted (coord : KCoord) (td : TapDance (Action T))
  /-- The call that a press makes. The last press of the real row was at the coordinate. -/
  | pressed (call : Call T) (last : KCoord)
  /-- The eager tap-dance got a tick older. -/
  | danceAged
  /-- What `rpt` repeats from now on. -/
  | remembered (action : Action T)
  | chordRemembered (buffer : MultiKeyBuffer)

/-- What happens to a waiting state: a decision starts, is ticked (with what the tick makes
of it) and is taken out. -/
inductive WaitingNote (T : Type) where
  | began (w : WaitingState T)
  | ticked (w : WaitingState T) (outcome : Option WaitingAction)
  | decided (w : WaitingState T) (outcome : WaitingAction)

structure Layout (T : Type) where
  defaultLayer : Nat
  states : Bounded statesLen (State T)
  waiting : Option (WaitingState T)
  extraWaiting : Bounded extraWaitingLen (WaitingState T)
  tapDanceEager : Option (TapDanceEagerState T)
  queue : Queue
  oneshot : OneShotState
  keysToSuppressForOneCycle : Bounded 8 KeyCode
  lastPressTracker : LastPressTracker
  activeSequences : Bounded activeSequencesLen (SequenceState T)
  actionQueue : Bounded actionQueueLen (QueuedAction T)
  customEventReleaseQueue : CustomEventReleaseQueue T
  rptAction : Option (Action T)
  historicalKeys : History KeyCode
  historicalInputs : History KCoord
  historicalInputsSansHoldsOrTimeouts : History KCoord
  chordsV2 : Chord.ChordsV2 (Action T)
  deviceHistory : Bounded 8 (Option Nat)
  rptMultikeyKeyBuffer : MultiKeyBuffer
  pauseHistoricalKeysUpdates : Bool
  /-- The number of switch activations so far. -/
  activations : Nat
  /-- History variable: the number of events so far. -/
  arrivals : Nat
  /-- History variable: the number of waiting states so far. -/
  created : Nat
  /-- History variable: what happened to the waiting states. -/
  waits : List (WaitingNote T)
  /-- History variable. -/
  trace : List (Occurrence T)

/-- `do_action`: the call and `custom_activation_count` to the layout, the custom
event that is returned and the new count. -/
abbrev DoAction (T : Type) :=
  Call T → Nat → Layout T → Rust (Layout T × CustomEvent T × Nat)

/-- `x as u16`. -/
def asU16 (x : Nat) : Nat := x % (u16Max + 1)

/-- The event that `a.update(b)` loses. -/
def CustomEvent.lost {T : Type} : CustomEvent T → CustomEvent T → CustomEvent T
  | .noEvent, _ => .noEvent
  | .press v, .release _ => .press v
  | _, b => b

variable {C R : Nat} {T : Type}

namespace Layout

/-- A new layout. `pauseInputProcessingDelay` is set from the configuration. -/
def new (pauseInputProcessingDelay : Nat) : Layout T where
  defaultLayer := 0
  states := .empty
  waiting := none
  extraWaiting := .empty
  tapDanceEager := none
  queue := .empty
  oneshot := .new pauseInputProcessingDelay
  keysToSuppressForOneCycle := .empty
  lastPressTracker := ⟨(0, 0), 0⟩
  activeSequences := .empty
  actionQueue := .empty
  customEventReleaseQueue := .empty
  rptAction := none
  historicalKeys := .new
  historicalInputs := .new
  historicalInputsSansHoldsOrTimeouts := .new
  chordsV2 := .new
  deviceHistory := .empty
  rptMultikeyKeyBuffer := .new
  pauseHistoricalKeysUpdates := false
  activations := 0
  arrivals := 0
  created := 0
  waits := []
  trace := []

def note (s : Layout T) (o : Occurrence T) : Layout T := { s with trace := s.trace ++ [o] }

def noteWait (s : Layout T) (o : WaitingNote T) : Layout T := { s with waits := s.waits ++ [o] }

def found (s : Layout T) : Found T where
  states := s.states.items
  waiting := s.waiting.isSome
  extraWaiting := s.extraWaiting.items.length
  activeSequences := s.activeSequences.items
  rptAction := s.rptAction
  rptMultikeyKeyBuffer := s.rptMultikeyKeyBuffer
  oneshot := s.oneshot
  queued := s.queue.items.length
  queuedChv2 := s.chordsV2.queue.items.length

/-- A custom event that the source drops. -/
def discard (s : Layout T) : CustomEvent T → Layout T
  | .noEvent => s
  | e => s.note (.customDiscarded e)

/-- `custom.update(e)`. -/
def updateCustom (s : Layout T) (custom e : CustomEvent T) : Layout T × CustomEvent T :=
  (s.discard (custom.lost e), custom.update e)

/-! ## Single updates -/

def pushState (s : Layout T) (st : State T) : Layout T :=
  { s with states := s.states.pushIgnore st }

def setRptAction (s : Layout T) (action : Action T) : Layout T :=
  { s with rptAction := some action }.note (.remembered action)

/-- The buffer is what `rpt` repeats. -/
def setRptBuffer (s : Layout T) (buffer : MultiKeyBuffer) : Layout T :=
  { s with rptMultikeyKeyBuffer := buffer, rptAction := some .multiKeyBuffer }.note
    (.chordRemembered buffer)

def updateCoord (s : Layout T) (coord : KCoord) : Layout T :=
  { s with lastPressTracker := s.lastPressTracker.updateCoord coord }

def setTapHoldTimeout (s : Layout T) (timeout : Nat) : Layout T :=
  { s with lastPressTracker := { s.lastPressTracker with tapHoldTimeout := timeout } }

/-- `contextual_execution.push_historical_key`. -/
def pushHistoricalKey (s : Layout T) (kc : KeyCode) : Layout T :=
  if s.pauseHistoricalKeysUpdates then s
  else { s with historicalKeys := s.historicalKeys.pushFront kc }.note (.keyRecorded kc)

/-- `oneshot.handle_press`, and the coordinates it returns. -/
def oneshotHandlePress (s : Layout T) (key : OneShotHandlePressKey) : Layout T × List KCoord :=
  ({ s with oneshot := (s.oneshot.handlePress key).1 }, (s.oneshot.handlePress key).2)

/-- `if !is_oneshot { self.oneshot.handle_press(Other(coord)); }` -/
def pressOther (s : Layout T) (isOneshot : Bool) (coord : KCoord) : Layout T :=
  if isOneshot then s else (s.oneshotHandlePress (.other coord)).1

def addStateToRetain (s : Layout T) (state : OneShotRetainableState) : Layout T :=
  { s with oneshot := s.oneshot.addStateToRetain state }

def pauseInputProcessing (s : Layout T) : Layout T := { s with oneshot := s.oneshot.pause }

def suppressKey (s : Layout T) (kc : KeyCode) : Layout T :=
  { s with keysToSuppressForOneCycle := s.keysToSuppressForOneCycle.pushIgnore kc }

/-- What a push onto a full queue drops. -/
def noteLost {α : Type} (s : Layout T) (lost : Option α) (o : α → Occurrence T) : Layout T :=
  match lost with
  | some x => s.note (o x)
  | none => s

/-- `action_queue.push_back`. -/
def pushAction (s : Layout T) (qa : QueuedAction T) : Layout T :=
  ({ s with actionQueue := (s.actionQueue.pushBack qa).1 }.note (.actionQueued qa)).noteLost
    (s.actionQueue.pushBack qa).2 .actionLost

/-- `active_sequences.push_back` of a new sequence. -/
def startSequence (s : Layout T) (events : List (SequenceEvent T)) : Layout T :=
  let pushed := s.activeSequences.pushBack ⟨none, 0, none, events⟩
  ({ s with activeSequences := pushed.1 }.note (.sequenceStarted events)).noteLost pushed.2
    .sequenceLost

/-- `queue.push_back` when events leave chords v2, its result ignored. -/
def pushQueue (s : Layout T) (q : Queued) : Layout T :=
  { s with queue := (s.queue.pushBack q).1 }.noteLost (s.queue.pushBack q).2 .eventLost

/-- `self.waiting = Some(..)`. -/
def setWaiting (s : Layout T) (w : Nat → WaitingState T) : Layout T :=
  (({ s with waiting := some (w s.created), created := s.created + 1 }.noteWait
    (.began (w s.created))).note (.waitingCreated s.created)).noteLost s.waiting fun lost =>
      .waitingLost lost.id

/-- `self.extra_waiting.push_back(..)`. -/
def pushExtraWaiting (s : Layout T) (w : Nat → WaitingState T) : Layout T :=
  let pushed := s.extraWaiting.pushBack (w s.created)
  (({ s with extraWaiting := pushed.1, created := s.created + 1 }.noteWait
    (.began (w s.created))).note (.waitingCreated s.created)).noteLost pushed.2 fun lost =>
      .waitingLost lost.id

/-- `keycodes`. -/
def keycodes (s : Layout T) : List KeyCode :=
  (s.states.items.filterMap State.keycode).filter
    fun kc => !s.keysToSuppressForOneCycle.items.contains kc

/-! ## Layers -/

/-- `current_layer`. -/
def currentLayer (s : Layout T) : Nat :=
  (s.states.items.reverse.findSome? State.getLayer).getD s.defaultLayer

/-- `active_held_layers`. -/
def activeHeldLayers (s : Layout T) : List Nat :=
  (s.states.items.filterMap fun st => st.getLayer.map asU16).reverse

/-- `trans_resolution_layer_order`. Collecting more layers than a stack holds
panics, pushing on a full stack does nothing. -/
def transResolutionLayerOrder (cfg : LayoutConfig C R T) (s : Layout T) : Rust (List Nat) :=
  let currentLayer := s.currentLayer
  if cfg.transResolutionBehaviorV2 then do
    assertThat (s.activeHeldLayers.length ≤ maxActiveLayers) "Vec::from_iter overflow"
    let v : LayerStack := .ofTake _ s.activeHeldLayers
    let v := v.pushIgnore (asU16 s.defaultLayer)
    pure (if cfg.delegateToFirstLayer ∧ currentLayer ≠ 0 ∧ s.defaultLayer ≠ 0 then v.pushIgnore 0
      else v).items
  else
    let v : LayerStack := Bounded.empty.pushIgnore (asU16 currentLayer)
    pure (if cfg.delegateToFirstLayer ∧ currentLayer ≠ 0 then v.pushIgnore 0 else v).items

/-- `set_default_layer`. -/
def setDefaultLayer (cfg : LayoutConfig C R T) (s : Layout T) (value : Nat) : Layout T :=
  if value < cfg.layers.length then { s with defaultLayer := value } else s

end Layout

namespace LayoutConfig

/-- `self.layers[layer][x][y]`. -/
def cell (cfg : LayoutConfig C R T) (layer x y : Nat) : Rust (Action T) :=
  match cfg.layers[layer]? with
  | none => panicWith "index out of bounds: layers"
  | some rows =>
    if hx : x < R then
      if hy : y < C then pure (rows ⟨x, hx⟩ ⟨y, hy⟩)
      else panicWith "index out of bounds: columns of a layer"
    else panicWith "index out of bounds: rows of a layer"

/-- `self.src_keys[y]`. -/
def srcKey (cfg : LayoutConfig C R T) (y : Nat) : Rust (Action T) :=
  if hy : y < C then pure (cfg.srcKeys ⟨y, hy⟩).toAction
  else panicWith "index out of bounds: src_keys"

/-- The loop of `resolve_coord` over the layers. It leaves the iterator after the
layer it found. -/
def resolveLayers (cfg : LayoutConfig C R T) (coord : KCoord) :
    List Nat → Rust (Action T × List Nat)
  | [] => do
    if coord.1 = 0 then pure (← cfg.srcKey coord.2, []) else pure (.noOp, [])
  | layer :: layerStack => do
    assertThat (layer ≤ cfg.layers.length)
      "assertion failed: usize::from(layer) <= self.layers.len()"
    match ← cfg.cell layer coord.1 coord.2 with
    | .trans => cfg.resolveLayers coord layerStack
    | action => pure (action, layerStack)

/-- `resolve_coord`. -/
def resolveCoord (cfg : LayoutConfig C R T) (coord : KCoord) (layerStack : List Nat) :
    Rust (Action T × List Nat) := do
  assertThat (!cfg.layers.isEmpty) "index out of bounds: layers"
  assertThat (coord.1 ≤ R) "assertion failed: x <= self.layers[0].len()"
  assertThat (0 < R) "index out of bounds: rows of a layer"
  assertThat (coord.2 ≤ C) "assertion failed: y <= self.layers[0][0].len()"
  cfg.resolveLayers coord layerStack

/-- Enough of `do_action`'s first lines: a transparent action becomes the action
it stands for. -/
def resolveTrans (cfg : LayoutConfig C R T) (call : Call T) : Rust (Call T) :=
  match call.action with
  | .trans => do
    let (action, layerStack) ← cfg.resolveCoord call.coord call.layerStack
    pure { call with action, layerStack }
  | _ => pure call

end LayoutConfig

namespace Layout

/-! ## The branches of `do_action` -/

/-- `states.retain` at the top of `do_action`: output chords end. -/
def clearOnNextAction (cfg : LayoutConfig C R T) :
    List (State T) → Layout T → Rust (List (State T) × Layout T)
  | [], s => pure ([], s)
  | .normalKey keycode coord flags :: states, s =>
    if flags.clearOnNextAction then do
      let ticks ← addU16 cfg.overflowChecks s.oneshot.pauseInputProcessingTicks 2
      let s := { s with oneshot := s.oneshot.extendPause ticks }
      clearOnNextAction cfg states (if keycode.isMod then s else s.suppressKey keycode)
    else do
      let (states, s) ← clearOnNextAction cfg states s
      pure (.normalKey keycode coord flags :: states, s)
  | st :: states, s => do
    let (states, s) ← clearOnNextAction cfg states s
    pure (st :: states, s)

/-- The lines of `do_action` before its `match`. -/
def beforeAction (cfg : LayoutConfig C R T) (coord : KCoord) (s : Layout T) : Rust (Layout T) := do
  let s :=
    if s.lastPressTracker.coord ≠ coord ∧ coord.1 = realKeyRow then s.setTapHoldTimeout 0 else s
  let (states, s) ← clearOnNextAction cfg s.states.items s
  pure { s with states := .ofTake _ states }

/-- The end of the two key code branches: one-shot keys and what `rpt` repeats. -/
def finishKeyCodes (s : Layout T) (call : Call T) (keycodes : List KeyCode)
    (pushKeys : MultiKeyBuffer → MultiKeyBuffer) : Layout T :=
  if call.isOneshot then
    (keycodes.foldl (fun s kc => s.addStateToRetain (.keyCode call.coord kc)) s).setRptAction
      call.action
  else
    let (s, oneshotCoords) := s.oneshotHandlePress (.other call.coord)
    if oneshotCoords.isEmpty then s.setRptAction call.action
    else
      let held := s.states.items.filterMap (State.keycodeInCoords oneshotCoords)
      s.setRptBuffer (pushKeys (held.foldl .push s.rptMultikeyKeyBuffer.clear))

def doKeyCode (s : Layout T) (call : Call T) (keycode : KeyCode) : Layout T :=
  let s := (s.updateCoord call.coord).pushHistoricalKey keycode
  (s.pushState (.normalKey keycode call.coord ⟨false, false⟩)).finishKeyCodes call [keycode]
    (·.push keycode)

/-- One key code of `MultipleKeyCodes`. -/
def pressKeyCode (call : Call T) (s : Layout T) (keycode : KeyCode) : Layout T :=
  let s := if !keycode.isMod && s.keycodes.contains keycode then s.suppressKey keycode else s
  (s.pushHistoricalKey keycode).pushState
    (.normalKey keycode call.coord ⟨!call.isOneshot, false⟩)

def doMultipleKeyCodes (s : Layout T) (call : Call T) (keycodes : List KeyCode)
    (pushKeys : MultiKeyBuffer → MultiKeyBuffer) : Layout T :=
  (keycodes.foldl (pressKeyCode call) (s.updateCoord call.coord)).finishKeyCodes call keycodes
    pushKeys

/-- The key codes of the buffer's action, which are read again while the buffer
is written. -/
def doMultiKeyBuffer (s : Layout T) (call : Call T) : Layout T :=
  let size := s.rptMultikeyKeyBuffer.size
  s.doMultipleKeyCodes call (s.rptMultikeyKeyBuffer.keys size) (·.pushOwn size 0)

def doNoOp (s : Layout T) (call : Call T) : Layout T :=
  let s :=
    if call.coord ≠ Chord.triggerTapholdCoord then s.pressOther call.isOneshot call.coord else s
  (s.setRptAction call.action).pushState (.noOpInput call.coord)

/-- The typing streak: a different real key that is not in the queue any more was
pressed recently. -/
def priorIdleTap (s : Layout T) (coord : KCoord) (idleThreshold : Nat) : Bool :=
  let prior := s.historicalInputsSansHoldsOrTimeouts.iterHevents.find? fun prior =>
    prior.event.1 == realKeyRow && prior.event != coord &&
      !s.queue.items.any fun q =>
        decide (q.since - prior.ticksSinceOccurrence +
          (prior.ticksSinceOccurrence - q.since) ≤ 2) &&
          q.event == .press 0 prior.event.2
  match prior with
  | some prior => prior.ticksSinceOccurrence ≤ idleThreshold
  | none => false

/-- The waiting state of a hold-tap key. -/
def holdTapWaiting (quickTapHoldTimeout : Bool) (ht : HoldTapAction (Action T)) (coord : KCoord)
    (delay : Nat) (layerStack : List Nat) (id : Nat) : WaitingState T :=
  -- leave 1 tick to the timeout as it will be consumed in the next processing cycle
  let ticks := if quickTapHoldTimeout then min delay (ht.timeout - 1) else 0
  { coord, ticks, layerStack, id
    timeout := ht.timeout - ticks
    onPressResetTimeoutTo := ht.onPressResetTimeoutTo
    delay := delay - ticks
    hold := ht.hold
    tap := ht.tap
    timeoutAction := ht.timeoutAction
    config := .holdTap ht.config
    prevQueueLen := queueLenMax }

/-- A waiting state whose action is decided by `tick_wt`. -/
def undecidedWaiting (config : WaitingConfig T) (timeout : Nat) (call : Call T) (id : Nat) :
    WaitingState T where
  coord := call.coord
  timeout
  onPressResetTimeoutTo := none
  delay := call.delay
  ticks := 0
  hold := .noOp
  tap := .noOp
  timeoutAction := .noOp
  config
  layerStack := call.layerStack
  prevQueueLen := queueLenMax
  id

def doLazyTapDance (s : Layout T) (call : Call T) (td : TapDance (Action T)) : Layout T :=
  (s.updateCoord call.coord).setWaiting
    (undecidedWaiting (.tapDance ⟨td.actions, td.timeout, 1⟩) td.timeout call)

def doChords (s : Layout T) (call : Call T) (group : ChordsGroup (Action T)) : Layout T :=
  (s.updateCoord call.coord).setWaiting (undecidedWaiting (.chord group) group.timeout call)

/-- An eager tap-dance starts unless it goes on at the same coordinate. -/
def startTapDanceEager (s : Layout T) (coord : KCoord) (td : TapDance (Action T)) : Layout T :=
  let started := { s with
    tapDanceEager := some ⟨coord, td.actions, td.timeout, td.timeout, 1⟩ }.note
    (.danceStarted coord td)
  match s.tapDanceEager with
  | none => started
  | some tde => if tde.coord ≠ coord then started else s

def doSequence (s : Layout T) (call : Call T) (events : List (SequenceEvent T)) : Layout T :=
  ((s.startSequence events).pressOther call.isOneshot call.coord).setRptAction call.action

def doRepeatableSequence (s : Layout T) (call : Call T) (events : List (SequenceEvent T)) :
    Layout T :=
  let s := (s.startSequence events).pushState (.repeatingSequence events call.coord)
  (s.pressOther call.isOneshot call.coord).setRptAction call.action

/-- The states without the fake keys that have the key code of a fake key. -/
def releaseFakeKey (states : Bounded statesLen (State T)) (st : State T) :
    Bounded statesLen (State T) :=
  match st with
  | .fakeKey keycode => states.retain (State.survivesSeqRelease keycode)
  | _ => states

/-- Each fake key that was there at the start is released. -/
def doCancelSequences (s : Layout T) (call : Call T) : Layout T :=
  let s := { s with
    activeSequences := .empty, states := s.states.items.foldl releaseFakeKey s.states }
  (s.pressOther call.isOneshot call.coord).setRptAction call.action

def doLayer (s : Layout T) (call : Call T) (value : Nat) : Layout T :=
  let s := (s.updateCoord call.coord).pushState (.layerModifier value call.coord)
  if call.isOneshot then s.addStateToRetain (.layer call.coord (asU16 value))
  else s.pressOther false call.coord

def doDefaultLayer (cfg : LayoutConfig C R T) (s : Layout T) (call : Call T) (value : Nat) :
    Layout T :=
  ((s.updateCoord call.coord).setDefaultLayer cfg value).pressOther call.isOneshot call.coord

/-- `self.states.push(State::Custom { .. })`. -/
def pushCustom (s : Layout T) (value : T) (coord : KCoord) : Layout T :=
  if s.states.isFull then s.note (.customRefused value)
  else (s.pushState (.custom value coord)).note (.customAdded value coord)

def doCustom (s : Layout T) (call : Call T) (value : T) (count : Nat) :
    Layout T × CustomEvent T × Nat :=
  let s := ((s.updateCoord call.coord).pressOther call.isOneshot call.coord).setRptAction
    call.action
  -- `saturating_add` of a `u8`
  let count := min (count + 1) 255
  if count ≤ 1 then (s.pushCustom value call.coord, .press value, count)
  else
    (s.pushAction ⟨call.coord, call.delay, call.action, call.layerStack⟩, .noEvent, count)

def doReleaseState (s : Layout T) (call : Call T) (rs : ReleasableState) : Layout T :=
  let s := { s with states := s.states.retain (State.survivesReleaseState rs) }
  (s.pressOther call.isOneshot call.coord).setRptAction call.action

/-! ## Switch -/

def switchEnv (cfg : LayoutConfig C R T) (s : Layout T) (callbacks : Nat) : Rust SwitchEnv := do
  let layers ← s.transResolutionLayerOrder cfg
  pure {
    keyCodes := s.states.items.filterMap State.keycode
    inputs := s.states.items.filterMap State.coord
    historicalKeys := s.historicalKeys.iterHevents
    historicalInputs := s.historicalInputs.iterHevents
    layers
    defaultLayer := asU16 s.defaultLayer
    deviceHistory := s.deviceHistory.items
    callbacks := (List.range callbacks).map (cfg.callbacks s.activations) }

/-- The actions that `Switch::actions` iterates over. -/
def switchActions (env : SwitchEnv) : List (SwitchCase (Action T)) → Rust (List (Action T))
  | [] => pure []
  | case :: cases => do
    if ← evaluateBoolean case.boolExpr env then
      match case.breakOrFallthrough with
      | .break => pure [case.action]
      | .fallthrough => do
        let rest ← switchActions env cases
        pure (case.action :: rest)
    else switchActions env cases

/-- The local action queue of the switch branch, filled. -/
def fillSwitchQueue (call : Call T) : List (Action T) → Bounded actionQueueLen (Action T) →
    Layout T → Bounded actionQueueLen (Action T) × Layout T
  | [], queue, s => (queue, s)
  | action :: actions, queue, s =>
    match queue.pushBack action with
    | (queue, none) => fillSwitchQueue call actions queue s
    | (queue, some lost) =>
      fillSwitchQueue call actions queue
        (s.note (.actionLost ⟨call.coord, call.delay, lost, call.layerStack⟩))

/-! ## The branches that perform other actions -/

section Act

variable (act : DoAction T)

/-- A call whose custom event is dropped. -/
def actDiscarding (call : Call T) (count : Nat) (s : Layout T) :
    Rust (Layout T × CustomEvent T × Nat) := do
  let (s, custom, count) ← act call count s
  pure (s.discard custom, .noEvent, count)

/-- Actions one after the other, their custom events merged. -/
def actAll (call : Call T) : List (Action T) → CustomEvent T → Nat → Layout T →
    Rust (Layout T × CustomEvent T × Nat)
  | [], custom, count, s => pure (s, custom, count)
  | action :: actions, custom, count, s => do
    let (s, e, count) ← act { call with action } count s
    let (s, custom) := s.updateCustom custom e
    actAll call actions custom count s

/-! ## Resolving a waiting state -/

/-- The waiting state at an index: `none` stands for -1. -/
def waitingAt (s : Layout T) : Option Nat → Option (WaitingState T)
  | none => s.waiting
  | some i => s.extraWaiting.items[i]?

/-- It is taken out and decided. -/
def takeWaiting (s : Layout T) (w : WaitingState T) (outcome : WaitingAction) :
    Option Nat → Layout T
  | none =>
    ({ s with waiting := none }.noteWait (.decided w outcome)).note (.waitingResolved w.id outcome)
  | some i =>
    ({ s with extraWaiting := s.extraWaiting.removeAt i }.noteWait (.decided w outcome)).note
      (.waitingResolved w.id outcome)

/-- The delay that the resolved action gets. -/
def waitedDelay (cfg : LayoutConfig C R T) (w : WaitingState T) : Rust Nat :=
  match w.config with
  | .holdTap _ => addU16 cfg.overflowChecks w.delay w.ticks
  | .chord _ => addU16 cfg.overflowChecks w.delay w.ticks
  | .tapDance _ => pure 0

/-- `exclude_hold_or_timeout_from_history`. -/
def excludeFromHistory (s : Layout T) (coord : KCoord) : Layout T :=
  { s with
    historicalInputsSansHoldsOrTimeouts :=
      s.historicalInputsSansHoldsOrTimeouts.exclude coord }.note (.inputExcluded coord)

/-- The lines that `waiting_into_hold` and `waiting_into_timeout` share: the press
leaves the history, and a quick repress waits again. -/
def resolveSlowly (cfg : LayoutConfig C R T) (s : Layout T) (w : WaitingState T)
    (outcome : WaitingAction) (idx : Option Nat) : Rust (Layout T × Nat) := do
  let s := s.excludeFromHistory w.coord
  let delay ← waitedDelay cfg w
  let s := s.takeWaiting w outcome idx
  pure (if w.coord = s.lastPressTracker.coord then s.setTapHoldTimeout 0 else s, delay)

def waitingIntoHold (cfg : LayoutConfig C R T) (idx : Option Nat) (s : Layout T) :
    Rust (Layout T × CustomEvent T) :=
  match s.waitingAt idx with
  | none => pure (s, .noEvent)
  | some w => do
    let (s, delay) ← s.resolveSlowly cfg w .hold idx
    let (s, custom, _) ← act ⟨w.hold, w.coord, delay, false, w.layerStack⟩ 0 s.pauseInputProcessing
    pure (s, custom)

def waitingIntoTimeout (cfg : LayoutConfig C R T) (idx : Option Nat) (s : Layout T) :
    Rust (Layout T × CustomEvent T) :=
  match s.waitingAt idx with
  | none => pure (s, .noEvent)
  | some w => do
    let (s, delay) ← s.resolveSlowly cfg w .timeout idx
    let (s, custom, _) ← act ⟨w.timeoutAction, w.coord, delay, false, w.layerStack⟩ 0 s
    pure (s, custom)

/-- The actions that are replicated for the other keys of a chord. -/
def isReplicated : Action T → Bool
  | .keyCode _ => true
  | .multipleKeyCodes _ => true
  | .multiKeyBuffer => true
  | .oneShot _ => true
  | .layer _ => true
  | _ => false

/-- The replicated actions of a chord's action. -/
def replicatedActions : Action T → List (Action T)
  | .multipleActions acs => acs.filter isReplicated
  | action => if isReplicated action then [action] else []

/-- The loops of `waiting_into_tap` over the pressed queue. -/
def replicate (call : Call T) : List (Action T × KCoord) → Nat → Layout T → Rust (Layout T × Nat)
  | [], count, s => pure (s, count)
  | (action, coord) :: rest, count, s => do
    let (s, _, count) ← actDiscarding act { call with action, coord } count s
    replicate call rest count s

/-- The block of `waiting_into_tap` for the other keys of a chord. -/
def replicateForPressed (w : WaitingState T) (delay : Nat) (pq : Option PressedQueue)
    (s : Layout T) : Rust (Layout T) :=
  match pq with
  | none => pure s
  | some pq => do
    let others := (replicatedActions w.tap).flatMap fun ac => pq.items.map fun c => (ac, c)
    let (s, _) ← replicate act ⟨w.tap, w.coord, delay, false, w.layerStack⟩ others 0
      { s with pauseHistoricalKeysUpdates := true }
    pure { s with pauseHistoricalKeysUpdates := false }

def waitingIntoTap (cfg : LayoutConfig C R T) (pq : Option PressedQueue) (idx : Option Nat)
    (s : Layout T) : Rust (Layout T × CustomEvent T) :=
  match s.waitingAt idx with
  | none => pure (s, .noEvent)
  | some w => do
    let delay ← waitedDelay cfg w
    let (s, ret, _) ← act ⟨w.tap, w.coord, delay, false, w.layerStack⟩ 0 (s.takeWaiting w .tap idx)
    let s ← replicateForPressed act w delay pq s
    pure (s.pauseInputProcessing, ret)

/-- `drop_waiting`: it drops `self.waiting`, whichever state was decided. -/
def dropWaiting (s : Layout T) : Layout T :=
  match s.waiting with
  | some w => s.takeWaiting w .noOp none
  | none => s

/-! ## Events -/

/-- What a release does with each state. States of a one-shot key that is active
are kept. -/
def releaseRule (oneshot : OneShotState) (doRelease : Bool) (c : KCoord) (st : State T) :
    ReleaseRule :=
  if doRelease then if st.clearOnNextRelease then .drop else .release
  else
    match st with
    | .normalKey keycode coord _ =>
      if coord ≠ c ∨ oneshot.stateToRetainOnRelease.items.contains (.keyCode coord keycode) then
        .keep
      else .drop
    | .layerModifier value coord =>
      if coord ≠ c ∨ oneshot.stateToRetainOnRelease.items.contains (.layer coord (asU16 value)) then
        .keep
      else .drop
    | _ => .release

/-- The release of a one-shot key that overflowed. -/
def releaseOverflow (overflowKey : Option KCoord) (states : List (State T)) (rel : Released T) :
    Rust (List (State T) × Released T) :=
  match overflowKey with
  | some c => retainStates (fun _ => .release) c states rel
  | none => pure (states, rel)

/-- The release branch of `dequeue`. -/
def dequeueRelease (s : Layout T) (c : KCoord) : Rust (Layout T × CustomEvent T) := do
  let (oneshot, doRelease, overflowKey) := s.oneshot.handleRelease c
  let (states, rel) ← retainStates (releaseRule oneshot doRelease c) c s.states.items
    ⟨.noEvent, s.customEventReleaseQueue, []⟩
  let (states, rel) ← releaseOverflow overflowKey states rel
  pure ({ s with
      oneshot
      states := .ofTake _ states
      customEventReleaseQueue := rel.queue
      trace := s.trace ++ rel.removed.map .customReleased }, rel.custom)

def notePressed (s : Layout T) (call : Call T) : Layout T :=
  s.note (.pressed call s.lastPressTracker.coord)

/-- The press branch of `dequeue`. -/
def dequeuePress (cfg : LayoutConfig C R T) (c : KCoord) (since : Nat) (s : Layout T) :
    Rust (Layout T × CustomEvent T) := do
  let layerStack ← s.transResolutionLayerOrder cfg
  let top : Call T := ⟨.trans, c, since, false, layerStack⟩
  match s.tapDanceEager with
  | none => do
    let (s, custom, _) ← act top 0 (s.notePressed top)
    pure (s, custom)
  | some tde =>
    if c = s.lastPressTracker.coord ∧ tde.isExpired = false then do
      let tdeAction ← WaitingState.indexInto tde.actions tde.numTaps
        "index out of bounds: tap-dance actions"
      let s := { s with tapDanceEager := some tde.incrTaps }
      let call := { top with action := tdeAction, layerStack := layerStack.drop 1 }
      let (s, custom, _) ← act call 0 (s.notePressed call)
      pure (s, custom)
    else do
      -- let fake keys do whatever, but interrupt the tap-dance if it is a real key
      let s := if c.1 = realKeyRow then { s with tapDanceEager := some tde.setExpired } else s
      let (s, custom, _) ← act top 0 (s.notePressed top)
      pure (s, custom)

def dequeue (cfg : LayoutConfig C R T) (q : Queued) (s : Layout T) :
    Rust (Layout T × CustomEvent T) :=
  let s := s.note (.eventProcessed q)
  match q.event with
  | .release i j => s.dequeueRelease (i, j)
  | .press i j => dequeuePress act cfg (i, j) q.since s

/-- The indices of the loop that an overflow runs: -1, then those of the extra
waiting states. -/
def flushIndices : List (Option Nat) := none :: (List.range extraWaitingLen).map some

/-- `waiting_into_hold` at each of some indices. -/
def flush (cfg : LayoutConfig C R T) : List (Option Nat) → Layout T → Rust (Layout T)
  | [], s => pure s
  | idx :: idxs, s => do
    let (s, custom) ← waitingIntoHold act cfg idx s
    flush cfg idxs (s.discard custom)

/-- What `event` and `event_to_front` do with an event that overflowed. -/
def overflowed (cfg : LayoutConfig C R T) (overflow : Queued) (s : Layout T) : Rust (Layout T) := do
  let s ← flush act cfg flushIndices s
  let (s, custom) ← dequeue act cfg overflow s
  pure (s.discard custom)

/-- The lines that `event` and `event_to_front` share: a press goes into the
histories. -/
def arrive (s : Layout T) (event : Event) : Layout T :=
  let s := { s with arrivals := s.arrivals + 1 }
  match event with
  | .press i j =>
    { s with
      historicalInputs := s.historicalInputs.pushFront (i, j)
      historicalInputsSansHoldsOrTimeouts :=
        s.historicalInputsSansHoldsOrTimeouts.pushFront (i, j) }.note (.inputRecorded (i, j))
  | .release _ _ => s

/-- The event goes into the queue of chords v2, or into the queue without it. -/
def enqueue (cfg : LayoutConfig C R T) (s : Layout T) (q : Queued) : Layout T × Option Queued :=
  if cfg.chordsV2.isSome then
    ({ s with chordsV2 := (s.chordsV2.pushBackChv2 q).1 }, (s.chordsV2.pushBackChv2 q).2)
  else ({ s with queue := (s.queue.pushBack q).1 }, (s.queue.pushBack q).2)

def eventWith (cfg : LayoutConfig C R T) (event : Event) (s : Layout T) : Rust (Layout T) :=
  let q : Queued := ⟨event, 0, some s.arrivals⟩
  let s := s.arrive event
  match (s.enqueue cfg q).2 with
  | none => pure (s.enqueue cfg q).1
  | some overflow => overflowed act cfg overflow (s.enqueue cfg q).1

def eventToFrontWith (cfg : LayoutConfig C R T) (event : Event) (s : Layout T) :
    Rust (Layout T) :=
  let q : Queued := ⟨event, 0, some s.arrivals⟩
  let s := s.arrive event
  match (s.queue.pushFront q).2 with
  | none => pure { s with queue := (s.queue.pushFront q).1 }
  | some overflow => overflowed act cfg overflow { s with queue := (s.queue.pushFront q).1 }

/-! ## `do_action` -/

def doSrc (cfg : LayoutConfig C R T) (call : Call T) (count : Nat) (s : Layout T) :
    Rust (Layout T × CustomEvent T × Nat) := do
  let action ← cfg.srcKey call.coord.2
  actDiscarding act { call with action, layerStack := [] } count s

def doRepeat (call : Call T) (count : Nat) (s : Layout T) :
    Rust (Layout T × CustomEvent T × Nat) :=
  match s.rptAction with
  | some action => actDiscarding act { call with action, layerStack := [] } count s
  | none => pure (s, .noEvent, count)

def doHoldTap (cfg : LayoutConfig C R T) (ht : HoldTapAction (Action T)) (call : Call T)
    (count : Nat) (s : Layout T) : Rust (Layout T × CustomEvent T × Nat) :=
  let idleThreshold := ht.requirePriorIdle.getD cfg.tapHoldRequirePriorIdle
  if idleThreshold > 0 ∧ s.priorIdleTap call.coord idleThreshold = true then do
    let (s, custom, count) ← act { call with action := ht.tap } count s
    pure (s.updateCoord call.coord, custom, count)
  else if ht.tapHoldInterval = 0 ∨ call.coord ≠ s.lastPressTracker.coord ∨
      s.lastPressTracker.tapHoldTimeout = 0 then
    let waiting := holdTapWaiting cfg.quickTapHoldTimeout ht call.coord call.delay call.layerStack
    let s := if s.waiting.isSome then s.pushExtraWaiting waiting else s.setWaiting waiting
    let s := s.setTapHoldTimeout ht.tapHoldInterval
    pure (s.updateCoord call.coord, .noEvent, count)
  else do
    let (s, custom, count) ← act { call with action := ht.tap } count (s.setTapHoldTimeout 0)
    pure (s.updateCoord call.coord, custom, count)

def doOneShot (cfg : LayoutConfig C R T) (os : OneShot (Action T)) (call : Call T) (count : Nat)
    (s : Layout T) : Rust (Layout T × CustomEvent T × Nat) := do
  let (s, custom, count) ← act
    { call with action := os.action, isOneshot := true, layerStack := [] }
    count (s.updateCoord call.coord)
  let s := ((s.setRptAction call.action).oneshotHandlePress (.oneShotKey call.coord)).1
  let s' := { s with oneshot := { s.oneshot with
    timeout := os.timeout, endConfig := os.endConfig,
    keys := (s.oneshot.keys.pushBack call.coord).1 } }
  match (s.oneshot.keys.pushBack call.coord).2 with
  | none => pure (s', custom, count)
  | some c => do
    let s ← eventWith act cfg (.release c.1 c.2) s'
    pure (s, custom, count)

def doEagerTapDance (td : TapDance (Action T)) (call : Call T) (count : Nat) (s : Layout T) :
    Rust (Layout T × CustomEvent T × Nat) := do
  let s := (s.updateCoord call.coord).startTapDanceEager call.coord td
  let action ← WaitingState.indexInto td.actions 0 "index out of bounds: tap-dance actions"
  act { call with action, isOneshot := false } count s

def doMultipleActions (actions : List (Action T)) (call : Call T) (count : Nat) (s : Layout T) :
    Rust (Layout T × CustomEvent T × Nat) := do
  let (s, custom, count) ← actAll act call actions .noEvent count (s.updateCoord call.coord)
  pure (s.setRptAction call.action, custom, count)

/-- The action that a fork chooses. -/
def forkChoice (s : Layout T) (fcfg : ForkConfig (Action T)) : Action T :=
  let triggered := s.states.items.any fun st =>
    match st.keycode with
    | some kc => fcfg.rightTriggers.contains kc
    | none => false
  if triggered then fcfg.right else fcfg.left

def doFork (fcfg : ForkConfig (Action T)) (call : Call T) (count : Nat) (s : Layout T) :
    Rust (Layout T × CustomEvent T × Nat) := do
  let (s, custom, count) ←
    act { call with action := s.forkChoice fcfg, isOneshot := false } count s
  pure (s.setRptAction call.action, custom, count)

def doSwitch (cfg : LayoutConfig C R T) (sw : SwitchConfig (Action T)) (call : Call T)
    (count : Nat) (s : Layout T) : Rust (Layout T × CustomEvent T × Nat) := do
  let env ← s.switchEnv cfg sw.callbacks
  let s := { s with activations := s.activations + 1 }
  let actions ← switchActions env sw.cases
  let (queue, s) := fillSwitchQueue call actions .empty s
  let (s, custom, count) ← actAll act call queue.items .noEvent count s
  pure (s.setRptAction call.action, custom, count)

/-- The `match` of `do_action`. -/
def perform (cfg : LayoutConfig C R T) (call : Call T) (count : Nat) (s : Layout T) :
    Rust (Layout T × CustomEvent T × Nat) :=
  match call.action with
  | .noOp => pure (s.doNoOp call, .noEvent, count)
  | .trans => panicWith "Trans action should have been resolved earlier"
  | .keyCode keycode => pure (s.doKeyCode call keycode, .noEvent, count)
  | .multipleKeyCodes keycodes =>
    pure (s.doMultipleKeyCodes call keycodes (keycodes.foldl .push), .noEvent, count)
  | .multiKeyBuffer => pure (s.doMultiKeyBuffer call, .noEvent, count)
  | .multipleActions actions => doMultipleActions act actions call count s
  | .layer value => pure (s.doLayer call value, .noEvent, count)
  | .defaultLayer value => pure (s.doDefaultLayer cfg call value, .noEvent, count)
  | .sequence events => pure (s.doSequence call events, .noEvent, count)
  | .repeatableSequence events => pure (s.doRepeatableSequence call events, .noEvent, count)
  | .cancelSequences => pure (s.doCancelSequences call, .noEvent, count)
  | .releaseState rs => pure (s.doReleaseState call rs, .noEvent, count)
  | .holdTap ht => doHoldTap act cfg ht call count s
  | .custom value => pure (s.doCustom call value count)
  | .oneShot os => doOneShot act cfg os call count s
  | .oneShotIgnoreEventsTicks ticks =>
    let s := (s.updateCoord call.coord).setRptAction call.action
    pure ({ s with oneshot := { s.oneshot with ticksToIgnoreEvents := ticks } }, .noEvent, count)
  | .tapDance td =>
    match td.config with
    | .lazy => pure (s.doLazyTapDance call td, .noEvent, count)
    | .eager => doEagerTapDance act td call count s
  | .chords group => pure (s.doChords call group, .noEvent, count)
  | .repeat => doRepeat act call count s
  | .fork fcfg => doFork act fcfg call count s
  | .switch sw => doSwitch act cfg sw call count s
  | .src => doSrc act cfg call count s

end Act

/-- `do_action`, with the depth of the call stack. -/
def doAction (cfg : LayoutConfig C R T) : Nat → DoAction T
  | 0, _, _, _ => panicWith "stack overflow"
  | depth + 1, call, count, s => do
    let call ← cfg.resolveTrans call
    let s ← s.beforeAction cfg call.coord
    let (s, custom, count) ← perform (doAction cfg depth) cfg call count
      (s.note (.performed call.action call.coord s.found))
    pure (s.note (.finished call s.found), custom, count)

/-! ## Macros -/

/-- One active sequence advances by a tick. -/
def processSequence (s : Layout T) (seq : SequenceState T) : Layout T × SequenceState T :=
  if seq.delay > 0 then (s, { seq with delay := seq.delay - 1 })
  else
    match seq.tapped with
    | some keycode =>
      ({ s with states := s.states.retain (State.survivesSeqRelease keycode) },
        { seq with tapped := none })
    | none =>
      let seq :=
        match seq.remainingEvents with
        | e :: tail => { seq with curEvent := some e, remainingEvents := tail }
        | [] => seq
      -- nothing valid is at (0, 0), so it is fine to fake it
      match seq.curEvent with
      | some .complete => (s, { seq with remainingEvents := [] })
      | some (.press keycode) =>
        let s := (s.pushState (.fakeKey keycode)).pushHistoricalKey keycode
        ((s.oneshotHandlePress (.other (0, 0))).1, seq)
      | some (.tap keycode) =>
        let s := (s.pushState (.fakeKey keycode)).pushHistoricalKey keycode
        ((s.oneshotHandlePress (.other (0, 0))).1, { seq with tapped := some keycode })
      | some (.release keycode) =>
        ({ s with
            oneshot := (s.oneshot.handleRelease (0, 0)).1
            states := s.states.retain (State.survivesSeqRelease keycode) }, seq)
      | some (.delay duration) =>
        (s, if duration > 0 then { seq with delay := duration - 1 } else seq)
      | some (.custom custom) => (s.pushState (.seqCustomPending custom), seq)
      | some .noOp => (s, seq)
      | none => (s, seq)

/-- The loop over the active sequences: each is taken from the front, and put back
unless it is done. -/
def processActive : Nat → Layout T → Layout T
  | 0, s => s
  | n + 1, s =>
    match s.activeSequences.popFront with
    | (some seq, activeSequences) =>
      let (s, seq) := processSequence { s with activeSequences } seq
      processActive n
        (if seq.remainingEvents.isEmpty then s
        else { s with activeSequences := (s.activeSequences.pushBack seq).1 })
    | (none, _) => processActive n s

/-- The latest pressed repeating macro. -/
def latestRepeating (states : List (State T)) : Option (List (SequenceEvent T)) :=
  states.reverse.findSome? fun st =>
    match st with
    | .repeatingSequence events _ => some events
    | _ => none

/-- `process_sequences`. -/
def processSequences (s : Layout T) : Layout T :=
  let s := processActive s.activeSequences.items.length s
  if s.activeSequences.items.isEmpty then
    match latestRepeating s.states.items with
    | some events => s.startSequence events
    | none => s
  else s

/-- The first custom action of a macro that is to be pressed or released. -/
def advanceSeqCustom : List (State T) → List (State T) × CustomEvent T
  | [] => ([], .noEvent)
  | .seqCustomPending custom :: states => (.seqCustomActive custom :: states, .press custom)
  | .seqCustomActive custom :: states => (.tombstone :: states, .release custom)
  | st :: states =>
    let (states, custom) := advanceSeqCustom states
    (st :: states, custom)

/-- `process_sequence_custom`. -/
def processSequenceCustom (s : Layout T) (currentCustom : CustomEvent T) :
    Layout T × CustomEvent T :=
  match s.states.items, currentCustom with
  | [], _ => (s, currentCustom)
  | _, .noEvent =>
    let states := s.states.items.filter fun st =>
      match st with
      | .tombstone => false
      | _ => true
    let (states, custom) := advanceSeqCustom states
    let s := { s with states := .ofTake _ states }
    match custom with
    | .press v => (s.note (.sequencePressed v), custom)
    | .release v => (s.note (.sequenceReleased v), custom)
    | .noEvent => (s, custom)
  | _, _ => (s, currentCustom)

/-! ## Ticks -/

/-- `do_action` with the stack of the configuration. -/
def act (cfg : LayoutConfig C R T) : DoAction T := doAction cfg cfg.stackDepth

/-- `event`. -/
def event (cfg : LayoutConfig C R T) (event : Event) (s : Layout T) : Rust (Layout T) :=
  eventWith (act cfg) cfg event s

/-- `event_to_front`. -/
def eventToFront (cfg : LayoutConfig C R T) (event : Event) (s : Layout T) : Rust (Layout T) :=
  eventToFrontWith (act cfg) cfg event s

/-- What `tick` does with a decision about the waiting state at an index. -/
def decide (cfg : LayoutConfig C R T) (idx : Option Nat)
    (decision : Option (WaitingAction × Option PressedQueue)) (s : Layout T) :
    Rust (Layout T × CustomEvent T) :=
  match decision with
  | some (.hold, _) => waitingIntoHold (act cfg) cfg idx s
  | some (.tap, pq) => waitingIntoTap (act cfg) cfg pq idx s
  | some (.timeout, _) => waitingIntoTimeout (act cfg) cfg idx s
  | some (.noOp, _) =>
    match idx with
    | none => pure (s.dropWaiting, .noEvent)
    -- the waiting state that is dropped is not the one that was decided
    | some _ =>
      pure (match s.waiting with
        | some w => { s with waiting := none }.note (.waitingLost w.id)
        | none => s, .noEvent)
  | none => pure (s, .noEvent)

/-- The queue and the action queue after a waiting state was ticked. -/
def afterTickWt (s : Layout T) (t : Ticked T) : Layout T :=
  t.actions.foldl pushAction
    ({ s with queue := t.queued }.noteWait (.ticked t.waiting (t.decision.map Prod.fst)))

/-- The part of a tick that looks at `waiting`, or takes an event from the queue
when nothing waits. -/
def tickWaiting (cfg : LayoutConfig C R T) (s : Layout T) : Rust (Layout T × CustomEvent T) :=
  match s.waiting with
  | some w => do
    let t ← w.tickWt cfg.overflowChecks s.queue
    decide cfg none t.decision ({ s with waiting := some t.waiting }.afterTickWt t)
  | none =>
    if s.extraWaiting.items.isEmpty then
      if s.oneshot.pauseInputProcessingTicks > 0 then
        pure ({ s with oneshot := s.oneshot.passPause }, .noEvent)
      else
        match s.queue.popFront with
        | (some q, queue) => dequeue (act cfg) cfg q ({ s with queue }.note (.eventTaken q))
        | (none, _) => pure (s, .noEvent)
    else pure (s, .noEvent)

/-- The loop of `process_extra_waitings`: the states from index `i` on are ticked
until one decides. -/
def tickExtraWaitings (cfg : LayoutConfig C R T) : Nat → Nat → Layout T →
    Rust (Layout T × Option (Nat × WaitingAction × Option PressedQueue))
  | 0, _, s => pure (s, none)
  | n + 1, i, s =>
    match s.extraWaiting.items[i]? with
    | none => pure (s, none)
    | some w => do
      let t ← w.tickWt cfg.overflowChecks s.queue
      let s := { s with
        extraWaiting := ⟨s.extraWaiting.items.set i t.waiting, by
          simpa using s.extraWaiting.length_le⟩ }.afterTickWt t
      match t.decision with
      | some (wa, pq) => pure (s, some (i, wa, pq))
      | none => tickExtraWaitings cfg n (i + 1) s

/-- `process_extra_waitings`. -/
def processExtraWaitings (cfg : LayoutConfig C R T) (currentCustom : CustomEvent T)
    (s : Layout T) : Rust (Layout T × CustomEvent T) :=
  match currentCustom with
  | .noEvent => do
    let (s, decided) ← tickExtraWaitings cfg s.extraWaiting.items.length 0 s
    match decided with
    | some (i, wa, pq) => decide cfg (some i) (some (wa, pq)) s
    | none => pure (s, .noEvent)
  | _ => pure (s, currentCustom)

/-- The releases of the one-shot keys that ended. -/
def releaseOneshots (cfg : LayoutConfig C R T) : List KCoord → CustomEvent T → Layout T →
    Rust (Layout T × CustomEvent T)
  | [], custom, s => pure (s, custom)
  | key :: keys, custom, s => do
    let (s, e) ← dequeue (act cfg) cfg (.newRelease key.1 key.2) s
    let (s, custom) := s.updateCustom custom e
    releaseOneshots cfg keys custom s

/-- The part of a tick for chords v2. -/
def tickChordsV2 (cfg : LayoutConfig C R T) (s : Layout T) : Rust (Layout T) :=
  match cfg.chordsV2 with
  | none => pure s
  | some chords => do
    let (chordsV2, drained) ← s.chordsV2.tickChv2 chords (asU16 s.currentLayer)
    let (chordsV2, chordAction) := chordsV2.getActionChv2
    let s := drained.items.foldl pushQueue { s with chordsV2 }
    pure (match chordAction with
      | some (coord, delay, action) =>
        (s.pushAction ⟨coord, delay, action, []⟩).pauseInputProcessing
      | none => s)

/-- The part of a tick in which everything gets a tick older. -/
def tickTimers (s : Layout T) : Layout T :=
  let s := { s with
    queue := s.queue.map Queued.tickQd
    lastPressTracker := s.lastPressTracker.tickLpt
    tapDanceEager :=
      match s.tapDanceEager with
      | some tde => if tde.tickTde.isExpired then none else some tde.tickTde
      | none => none }.note .danceAged
  let s := s.processSequences
  { s with
    historicalKeys := s.historicalKeys.tickHist
    historicalInputs := s.historicalInputs.tickHist
    historicalInputsSansHoldsOrTimeouts :=
      s.historicalInputsSansHoldsOrTimeouts.tickHist }.note .historiesAged

/-- The part of a tick past the action queue. -/
def tickMain (cfg : LayoutConfig C R T) (s : Layout T) : Rust (Layout T × CustomEvent T) := do
  let s := s.tickTimers
  let (oneshot, released) := s.oneshot.tickOsh
  let (s, custom) ← releaseOneshots cfg (released.getD []) .noEvent { s with oneshot }
  let (s, e) ← s.tickWaiting cfg
  let (s, custom) := s.updateCustom custom e
  let (s, custom) ← s.processExtraWaitings cfg custom
  pure (s.processSequenceCustom custom)

/-- `tick`. -/
def tick (cfg : LayoutConfig C R T) (s : Layout T) : Rust (Layout T × CustomEvent T) :=
  match s.customEventReleaseQueue.popFront with
  | (some released, customEventReleaseQueue) =>
    pure ({ s with customEventReleaseQueue }, .release released)
  | (none, _) => do
    let s ← s.tickChordsV2 cfg
    let s := { s with keysToSuppressForOneCycle := .empty }
    match s.actionQueue.popFront with
    | (some qa, actionQueue) => do
      let (s, custom, _) ← act cfg ⟨qa.action, qa.coord, qa.delay, false, qa.layerStack⟩ 0
        ({ s with actionQueue }.note (.actionTaken qa))
      pure (s, custom)
    | (none, _) => s.tickMain cfg

end Layout

end Kanata
