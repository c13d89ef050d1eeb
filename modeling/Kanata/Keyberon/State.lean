import Kanata.Keyberon.Waiting
import Kanata.Lib.Fallible

/-!
# Kanata.Keyberon.State — what the layout remembers

The records of `keyberon/src/layout.rs` that the layout is made of: the active
states and how a release ends them, custom events, the histories, one-shot
keys, macros in progress and the eager tap-dance.
-/

namespace Kanata

variable {T : Type}

/-! ## Custom events -/

inductive CustomEvent (T : Type) where
  | noEvent
  | press (value : T)
  | release (value : T)
deriving DecidableEq, Repr

/-- `CustomEvent::update`. -/
def CustomEvent.update : CustomEvent T → CustomEvent T → CustomEvent T
  | .noEvent, .release v => .release v
  | .press _, .release v => .release v
  | .noEvent, .press v => .press v
  | self, _ => self

@[simp] theorem CustomEvent.update_noEvent (e : CustomEvent T) : e.update .noEvent = e := by
  cases e <;> rfl

@[simp] theorem CustomEvent.noEvent_update (e : CustomEvent T) :
    CustomEvent.noEvent.update e = e := by
  cases e <;> rfl

/-! ## States -/

/-- `NormalKeyFlags`: the two bits that are in use. -/
structure NormalKeyFlags where
  clearOnNextAction : Bool
  clearOnNextRelease : Bool
deriving DecidableEq, Repr

inductive State (T : Type) where
  | normalKey (keycode : KeyCode) (coord : KCoord) (flags : NormalKeyFlags)
  | layerModifier (value : Nat) (coord : KCoord)
  | custom (value : T) (coord : KCoord)
  | fakeKey (keycode : KeyCode)
  | repeatingSequence (sequence : List (SequenceEvent T)) (coord : KCoord)
  | seqCustomPending (value : T)
  | seqCustomActive (value : T)
  | tombstone
  | noOpInput (coord : KCoord)
deriving DecidableEq, Repr

namespace State

def keycode : State T → Option KeyCode
  | .normalKey keycode _ _ => some keycode
  | .fakeKey keycode => some keycode
  | _ => none

def coord : State T → Option KCoord
  | .normalKey _ coord _ => some coord
  | .layerModifier _ coord => some coord
  | .custom _ coord => some coord
  | .noOpInput coord => some coord
  | .repeatingSequence _ coord => some coord
  | _ => none

def keycodeInCoords (coords : List KCoord) : State T → Option KeyCode
  | .normalKey keycode coord _ => if coords.contains coord then some keycode else none
  | _ => none

/-- `release_state(..).is_some()`. -/
def survivesReleaseState (rs : ReleasableState) : State T → Bool
  | .normalKey k1 _ _ =>
    match rs with
    | .keyCode k2 => k1 != k2
    | .layer _ => true
  | .fakeKey k1 =>
    match rs with
    | .keyCode k2 => k1 != k2
    | .layer _ => true
  | .layerModifier l1 _ =>
    match rs with
    | .keyCode _ => true
    | .layer l2 => l1 != l2
  | _ => true

/-- `seq_release(kc).is_some()`. -/
def survivesSeqRelease (kc : KeyCode) : State T → Bool
  | .fakeKey keycode => keycode != kc
  | _ => true

def getLayer : State T → Option Nat
  | .layerModifier value _ => some value
  | _ => none

def isCustom : State T → Bool
  | .custom _ _ => true
  | _ => false

def isFakeKey : State T → Bool
  | .fakeKey _ => true
  | _ => false

def clearOnNextRelease : State T → Bool
  | .normalKey _ _ flags => flags.clearOnNextRelease
  | _ => false

end State

/-- The capacity of `states`. -/
def statesLen : Nat := 64

/-- `CUSTOM_EVENT_RELEASE_QUEUE_LEN`. -/
def customEventReleaseQueueLen : Nat := 16

abbrev CustomEventReleaseQueue (T : Type) := Bounded customEventReleaseQueueLen T

/-- What the releases of one pass over the states have given so far. -/
structure Released (T : Type) where
  custom : CustomEvent T
  queue : CustomEventReleaseQueue T
  /-- History variable: the custom states that were removed, from the first on. -/
  removed : List T

/-- What a pass over the states does with one of them. -/
inductive ReleaseRule where
  | keep
  | drop
  /-- Remove it if `State::release` at the coordinate does. -/
  | release

/-- `State::release`: whether the state stays, and its custom event. -/
def State.release (c : KCoord) (rel : Released T) (s : State T) : Rust (Bool × Released T) :=
  match s with
  | .custom value coord =>
    if coord = c then
      let removed := rel.removed ++ [value]
      match rel.custom with
      | .noEvent => pure (false, { rel with custom := rel.custom.update (.release value), removed })
      | _ =>
        match rel.queue.pushBack value with
        | (queue, none) => pure (false, { rel with queue, removed })
        | (_, some _) => panicWith "overflowed custom action release queue"
    else pure (true, rel)
  | s => pure (s.coord ≠ some c, rel)

/-- `states.retain` with a release. -/
def retainStates (rule : State T → ReleaseRule) (c : KCoord) :
    List (State T) → Released T → Rust (List (State T) × Released T)
  | [], rel => pure ([], rel)
  | s :: states, rel =>
    match rule s with
    | .keep => do
      let (states, rel) ← retainStates rule c states rel
      pure (s :: states, rel)
    | .drop => retainStates rule c states rel
    | .release => do
      let (stays, rel) ← s.release c rel
      let (states, rel) ← retainStates rule c states rel
      pure (if stays then s :: states else states, rel)

/-- A pass over the states keeps a sublist of them. -/
theorem retainStates_sublist {rule : State T → ReleaseRule} {c : KCoord} :
    ∀ {states states' : List (State T)} {rel rel' : Released T},
      retainStates rule c states rel = .ok (states', rel') → states'.Sublist states
  | [], _, _, _, h => by
    simp only [retainStates, Fallible.pure_eq_ok, Prod.mk.injEq] at h
    rw [← h.1]
  | s :: states, states', rel, rel', h => by
    unfold retainStates at h
    split at h
    · rcases Fallible.bind_eq_ok.mp h with ⟨⟨rest, rel₁⟩, hrest, h⟩
      simp only [Fallible.pure_eq_ok, Prod.mk.injEq] at h
      rw [← h.1]
      exact (retainStates_sublist hrest).cons_cons s
    · exact (retainStates_sublist h).cons s
    · rcases Fallible.bind_eq_ok.mp h with ⟨⟨stays, rel₁⟩, _, h⟩
      rcases Fallible.bind_eq_ok.mp h with ⟨⟨rest, rel₂⟩, hrest, h⟩
      simp only [Fallible.pure_eq_ok, Prod.mk.injEq] at h
      rw [← h.1]
      cases stays
      · exact (retainStates_sublist hrest).cons s
      · exact (retainStates_sublist hrest).cons_cons s

/-! ## Histories -/

/-- `HISTORICAL_EVENT_LEN`. -/
def historicalEventLen : Nat := 8

structure History (α : Type) where
  events : Bounded historicalEventLen α
  ticksSinceOccurrences : Bounded historicalEventLen Nat

namespace History

variable {α : Type}

def new : History α := ⟨.empty, .empty⟩

def tickHist (h : History α) : History α :=
  { h with ticksSinceOccurrences := h.ticksSinceOccurrences.map (satAdd · 1) }

def pushFront (h : History α) (event : α) : History α :=
  { events := (h.events.pushFront event).1
    ticksSinceOccurrences := (h.ticksSinceOccurrences.pushFront 0).1 }

def iterHevents (h : History α) : List (HistoricalEvent α) :=
  (h.events.items.zip h.ticksSinceOccurrences.items).map fun e => ⟨e.1, e.2⟩

/-- `exclude_hold_or_timeout_from_history`: the first event that equals it. -/
def exclude [BEq α] (h : History α) (event : α) : History α :=
  match h.events.items.findIdx? (· == event) with
  | some i =>
    { events := h.events.removeAt i, ticksSinceOccurrences := h.ticksSinceOccurrences.removeAt i }
  | none => h

end History

/-! ## Macros -/

structure SequenceState (T : Type) where
  curEvent : Option (SequenceEvent T)
  delay : Nat
  tapped : Option KeyCode
  remainingEvents : List (SequenceEvent T)
deriving DecidableEq, Repr

/-- The capacity of `active_sequences`. -/
def activeSequencesLen : Nat := 4

/-! ## Trackers -/

structure LastPressTracker where
  coord : KCoord
  tapHoldTimeout : Nat
deriving DecidableEq, Repr

def LastPressTracker.tickLpt (lpt : LastPressTracker) : LastPressTracker :=
  { lpt with tapHoldTimeout := lpt.tapHoldTimeout - 1 }

def LastPressTracker.updateCoord (lpt : LastPressTracker) (coord : KCoord) : LastPressTracker :=
  -- only if it is a real key press
  if coord.1 = realKeyRow then { lpt with coord } else lpt

structure TapDanceEagerState (T : Type) where
  coord : KCoord
  actions : List (Action T)
  timeout : Nat
  origTimeout : Nat
  numTaps : Nat

namespace TapDanceEagerState

def tickTde (tde : TapDanceEagerState T) : TapDanceEagerState T :=
  { tde with timeout := tde.timeout - 1 }

def isExpired (tde : TapDanceEagerState T) : Bool :=
  tde.timeout == 0 || decide (tde.numTaps ≥ tde.actions.length)

def setExpired (tde : TapDanceEagerState T) : TapDanceEagerState T := { tde with timeout := 0 }

def incrTaps (tde : TapDanceEagerState T) : TapDanceEagerState T :=
  { tde with numTaps := tde.numTaps + 1, timeout := tde.origTimeout }

end TapDanceEagerState

/-! ## One-shot keys -/

inductive OneShotRetainableState where
  | keyCode (coord : KCoord) (kc : KeyCode)
  | layer (coord : KCoord) (layer : Nat)
deriving DecidableEq, Repr

inductive OneShotHandlePressKey where
  | oneShotKey (coord : KCoord)
  | other (coord : KCoord)
deriving DecidableEq, Repr

/-- What happens to the pause of the input processing. -/
inductive PauseNote where
  | set (ticks : Nat)
  /-- An output-chord key ends, and two ticks are added to these. -/
  | extended (ticks : Nat)
  | passed
deriving DecidableEq, Repr

structure OneShotState where
  keys : Bounded oneShotMaxActive KCoord
  releasedKeys : Bounded oneShotMaxActive KCoord
  stateToRetainOnRelease : Bounded oneShotMaxActive OneShotRetainableState
  otherPressedKeys : Bounded oneShotMaxActive KCoord
  timeout : Nat
  endConfig : OneShotEndConfig
  releaseOnNextTick : Bool
  pauseInputProcessingDelay : Nat
  pauseInputProcessingTicks : Nat
  ticksToIgnoreEvents : Nat
  /-- History variable. -/
  pauses : List PauseNote
deriving DecidableEq, Repr

namespace OneShotEndConfig

/-- The two configurations that end on a press. -/
def onPress : OneShotEndConfig → Bool
  | .endOnFirstPress => true
  | .endOnFirstPressOrRepress => true
  | _ => false

/-- The two configurations that end on a repress. -/
def onRepress : OneShotEndConfig → Bool
  | .endOnFirstReleaseOrRepress => true
  | .endOnFirstPressOrRepress => true
  | _ => false

/-- The two configurations that end on a release. -/
def onRelease : OneShotEndConfig → Bool
  | .endOnFirstRelease => true
  | .endOnFirstReleaseOrRepress => true
  | _ => false

end OneShotEndConfig

namespace OneShotState

/-- The one-shot state of a new layout. The delay comes from the configuration. -/
def new (pauseInputProcessingDelay : Nat) : OneShotState where
  keys := .empty
  releasedKeys := .empty
  stateToRetainOnRelease := .empty
  otherPressedKeys := .empty
  timeout := 0
  endConfig := .endOnFirstPress
  releaseOnNextTick := false
  pauseInputProcessingDelay
  pauseInputProcessingTicks := 0
  ticksToIgnoreEvents := 0
  pauses := []

/-- Pauses input processing as long as the configuration says. -/
def pause (o : OneShotState) : OneShotState :=
  { o with
    pauseInputProcessingTicks := o.pauseInputProcessingDelay
    pauses := o.pauses ++ [.set o.pauseInputProcessingDelay] }

/-- The pause that an output-chord key makes when it ends. -/
def extendPause (o : OneShotState) (ticks : Nat) : OneShotState :=
  { o with
    pauseInputProcessingTicks := ticks
    pauses := o.pauses ++ [.extended o.pauseInputProcessingTicks] }

def passPause (o : OneShotState) : OneShotState :=
  { o with
    pauseInputProcessingTicks := o.pauseInputProcessingTicks - 1
    pauses := o.pauses ++ [.passed] }

def tickOsh (o : OneShotState) : OneShotState × Option (List KCoord) :=
  if o.keys.items.isEmpty then (o, none)
  else
    let o := { o with
      ticksToIgnoreEvents := o.ticksToIgnoreEvents - 1
      timeout := o.timeout - 1 }
    if o.releaseOnNextTick = true ∨ o.timeout = 0 then
      ({ o with
          releaseOnNextTick := false
          timeout := 0
          pauseInputProcessingTicks := 0
          pauses := o.pauses ++ [.set 0]
          ticksToIgnoreEvents := 0
          keys := .empty
          otherPressedKeys := .empty
          stateToRetainOnRelease := .empty
          releasedKeys := .empty },
        some o.releasedKeys.items)
    else (o, none)

def handlePress (o : OneShotState) (key : OneShotHandlePressKey) :
    OneShotState × List KCoord :=
  if o.keys.items.isEmpty ∨ o.ticksToIgnoreEvents > 0 then (o, [])
  else
    match key with
    | .oneShotKey pressedCoord =>
      let repress := o.endConfig.onRepress && o.keys.items.contains pressedCoord
      ({ o with
          releaseOnNextTick := o.releaseOnNextTick || repress
          releasedKeys := o.releasedKeys.retain fun coord => coord != pressedCoord },
        if repress then o.keys.items else [])
    | .other pressedCoord =>
      if o.endConfig.onPress then
        ({ o.pause with timeout := min o.pauseInputProcessingDelay o.timeout }, o.keys.items)
      else
        ({ o with otherPressedKeys := (o.otherPressedKeys.pushBack pressedCoord).1 },
          o.keys.items)

/-- Whether the caller handles the release, and a one-shot key whose release
overflowed. -/
def handleRelease (o : OneShotState) (c : KCoord) : OneShotState × Bool × Option KCoord :=
  if o.keys.items.isEmpty then (o, true, none)
  else if !o.keys.items.contains c then
    ({ o with
        releaseOnNextTick :=
          o.releaseOnNextTick || (o.endConfig.onRelease && o.otherPressedKeys.items.contains c) },
      true, none)
  else
    let (releasedKeys, overflow) := o.releasedKeys.pushBack c
    ({ o with releasedKeys }, false, overflow)

def addStateToRetain (o : OneShotState) (state : OneShotRetainableState) : OneShotState :=
  if o.stateToRetainOnRelease.items.contains state then o
  else { o with stateToRetainOnRelease := (o.stateToRetainOnRelease.pushBack state).1 }

end OneShotState

/-- `BUFCAP`. -/
def bufCap : Nat := oneShotMaxActive + 4

/-- The buffer behind `Action.multiKeyBuffer`. -/
structure MultiKeyBuffer where
  buf : List KeyCode
  size : Nat
  length_eq : buf.length = bufCap

namespace MultiKeyBuffer

/-- A buffer of `Escape` keys. -/
def new : MultiKeyBuffer := ⟨List.replicate bufCap ⟨1, by decide⟩, 0, List.length_replicate⟩

def clear (b : MultiKeyBuffer) : MultiKeyBuffer := { b with size := 0 }

def push (b : MultiKeyBuffer) (kc : KeyCode) : MultiKeyBuffer :=
  if b.size < bufCap then
    ⟨b.buf.set b.size kc, b.size + 1, by rw [List.length_set, b.length_eq]⟩
  else b

/-- The keys behind the reference that `get_ref` returned when the size was `size`. -/
def keys (b : MultiKeyBuffer) (size : Nat) : List KeyCode := b.buf.take size

/-- The loop `for &keycode in *v { push(keycode) }` over the buffer's own keys:
each is read when its turn comes, so a push may already have replaced it. -/
def pushOwn (b : MultiKeyBuffer) : Nat → Nat → MultiKeyBuffer
  | 0, _ => b
  | n + 1, i =>
    match b.buf[i]? with
    | some kc => (b.push kc).pushOwn n (i + 1)
    | none => b

end MultiKeyBuffer

end Kanata
