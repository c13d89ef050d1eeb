import Kanata.Layout.Virtual
import Kanata.Lib.Machine

/-!
# Kanata.Layout.Run — runs of the layout

The layout as a machine. Its inputs are the calls of `event`, `event_to_front`
and `tick` and what `src/kanata` does to a layout between them: it cancels
macros, releases overridden keys, takes the keys of a finished sequence out of
the states and sets the default layer over TCP.

`Advances` says what a step can do, as `Performs` does for an action.
-/

namespace Kanata

open Fallible Machine

variable {C R : Nat} {T : Type}

inductive LayoutOp where
  | event (event : Event)
  | eventToFront (event : Event)
  | tick
  /-- `macro-cancel-on-press` and `macro-release-cancel`. -/
  | cancelMacros
  /-- `override_release_on_activation`. -/
  | releaseState (rs : ReleasableState)
  /-- `mark_overridden_nonmodkeys_for_eager_erasure`. -/
  | markOverridden (kc : KeyCode)
  /-- `do_successful_sequence_termination`. -/
  | removeNormalKey (kc : KeyCode)
  | setDefaultLayer (value : Nat)
  /-- `device_history.push_front`. -/
  | pushDevice (id : Option Nat)
deriving DecidableEq, Repr

namespace State

/-- What stays when macros are cancelled from outside. -/
def survivesCancel : State T → Bool
  | .fakeKey _ => false
  | .repeatingSequence _ _ => false
  | _ => true

/-- The flags that an overridden key gets. -/
def markOverridden (kc : KeyCode) : State T → State T
  | .normalKey keycode coord flags =>
    if kc = keycode then .normalKey keycode coord ⟨true, true⟩ else .normalKey keycode coord flags
  | st => st

def survivesRemoval (kc : KeyCode) : State T → Bool
  | .normalKey keycode _ _ => kc != keycode
  | _ => true

end State

namespace Layout

def cancelMacros (s : Layout T) : Layout T :=
  { s with activeSequences := .empty, states := s.states.retain State.survivesCancel }

def step (cfg : LayoutConfig C R T) (s : Layout T) : LayoutOp → Rust (Layout T × CustomEvent T)
  | .event ev => do
    let s ← s.event cfg ev
    pure (s, .noEvent)
  | .eventToFront ev => do
    let s ← s.eventToFront cfg ev
    pure (s, .noEvent)
  | .tick => s.tick cfg
  | .cancelMacros => pure (s.cancelMacros, .noEvent)
  | .releaseState rs =>
    pure ({ s with states := s.states.retain (State.survivesReleaseState rs) }, .noEvent)
  | .markOverridden kc =>
    pure ({ s with states := s.states.map (State.markOverridden kc) }, .noEvent)
  | .removeNormalKey kc =>
    pure ({ s with states := s.states.retain (State.survivesRemoval kc) }, .noEvent)
  | .setDefaultLayer value => pure (s.setDefaultLayer cfg value, .noEvent)
  | .pushDevice id => pure ({ s with deviceHistory := (s.deviceHistory.pushFront id).1 }, .noEvent)

end Layout

/-! ## What a step can do -/

/-- What happens in a step besides actions. -/
inductive Passing (T : Type) where
  | takeRelease
  | tickChords (chordsV2 : Chord.ChordsV2 (Action T))
  | receive (q : Queued)
  | queueChord (qa : QueuedAction T)
  | clearSuppressed
  | ageInputs
  | advanceSequence
  | restartSequence (events : List (SequenceEvent T))
  | ageHistories
  | tickOneshot
  | takeEvent
  | tickWaiting (t : Ticked T)
  | tickExtraWaiting (i : Nat) (t : Ticked T)
  | loseWaiting
  | advanceCustom
  | enqueueFront (q : Queued)
  | cancelMacros
  | markOverridden (kc : KeyCode)
  | removeNormalKey (kc : KeyCode)
  | pushDevice (id : Option Nat)

namespace Layout

/-- One turn of the loop over the active sequences. -/
def advanceSequence (s : Layout T) : Layout T :=
  match s.activeSequences.popFront with
  | (some seq, activeSequences) =>
    let r := processSequence { s with activeSequences } seq
    if r.2.remainingEvents.isEmpty then r.1
    else { r.1 with activeSequences := (r.1.activeSequences.pushBack r.2).1 }
  | (none, _) => s

/-- The oldest event is taken from the queue. -/
def takeEvent (s : Layout T) : Layout T :=
  match s.queue.popFront with
  | (some q, queue) => { s with queue }.note (.eventTaken q)
  | (none, _) => s

/-- The oldest action is taken from the action queue. -/
def takeAction (s : Layout T) : Layout T :=
  match s.actionQueue.popFront with
  | (some qa, actionQueue) => { s with actionQueue }.note (.actionTaken qa)
  | (none, _) => s

/-- The queue, the last press and the eager tap-dance get a tick older. -/
def ageInputs (s : Layout T) : Layout T :=
  { s with
    queue := s.queue.map Queued.tickQd
    lastPressTracker := s.lastPressTracker.tickLpt
    tapDanceEager :=
      match s.tapDanceEager with
      | some tde => if tde.tickTde.isExpired then none else some tde.tickTde
      | none => none }.note .danceAged

def ageHistories (s : Layout T) : Layout T :=
  { s with
    historicalKeys := s.historicalKeys.tickHist
    historicalInputs := s.historicalInputs.tickHist
    historicalInputsSansHoldsOrTimeouts :=
      s.historicalInputsSansHoldsOrTimeouts.tickHist }.note .historiesAged

/-- The waiting state at an index of the extra ones is replaced. -/
def setExtraWaiting (s : Layout T) (i : Nat) (w : WaitingState T) : Layout T :=
  { s with extraWaiting := ⟨s.extraWaiting.items.set i w, by
      simpa using s.extraWaiting.length_le⟩ }

def loseWaiting (s : Layout T) : Layout T :=
  match s.waiting with
  | some w => { s with waiting := none }.note (.waitingLost w.id)
  | none => s

end Layout

namespace Passing

def apply (s : Layout T) : Passing T → Layout T
  | .takeRelease => { s with customEventReleaseQueue := s.customEventReleaseQueue.popFront.2 }
  | .tickChords chordsV2 => { s with chordsV2 }
  | .receive q => s.pushQueue q
  | .queueChord qa => s.pushAction qa
  | .clearSuppressed => { s with keysToSuppressForOneCycle := .empty }
  | .ageInputs => s.ageInputs
  | .advanceSequence => s.advanceSequence
  | .restartSequence events => s.startSequence events
  | .ageHistories => s.ageHistories
  | .tickOneshot => { s with oneshot := s.oneshot.tickOsh.1 }
  | .takeEvent => s.takeEvent
  | .tickWaiting t => { s with waiting := some t.waiting }.afterTickWt t
  | .tickExtraWaiting i t => (s.setExtraWaiting i t.waiting).afterTickWt t
  | .loseWaiting => s.loseWaiting
  | .advanceCustom => (s.processSequenceCustom .noEvent).1
  | .enqueueFront q => { s with queue := (s.queue.pushFront q).1 }
  | .cancelMacros => s.cancelMacros
  | .markOverridden kc => { s with states := s.states.map (State.markOverridden kc) }
  | .removeNormalKey kc => { s with states := s.states.retain (State.survivesRemoval kc) }
  | .pushDevice id => { s with deviceHistory := (s.deviceHistory.pushFront id).1 }

/-- The custom event that comes out. -/
def output (s : Layout T) : Passing T → CustomEvent T
  | .takeRelease =>
    match s.customEventReleaseQueue.popFront.1 with
    | some v => .release v
    | none => .noEvent
  | .advanceCustom => (s.processSequenceCustom .noEvent).2
  | _ => .noEvent

def Allowed {cfg : LayoutConfig C R T} {E : Panic → Prop} (D : Discipline cfg E) (s : Layout T) :
    Passing T → Prop
  | .takeRelease => s.customEventReleaseQueue.items ≠ []
  | .tickChords chordsV2 => Virtual D chordsV2
  | .receive q => q.Obeys D ∧ cfg.chordsV2.isSome = true
  | .queueChord qa => qa.Obeys D
  | .restartSequence events =>
    s.activeSequences.items = [] ∧ ∃ c, .repeatingSequence events c ∈ s.states.items
  | .tickWaiting t =>
    ∃ w, s.waiting = some w ∧ w.tickWt cfg.overflowChecks s.queue = .ok t ∧ t.Obeys D w s.queue
  | .tickExtraWaiting i t =>
    ∃ w, s.extraWaiting.items[i]? = some w ∧ w.tickWt cfg.overflowChecks s.queue = .ok t ∧
      t.Obeys D w s.queue
  | .takeEvent => s.actionQueue.items = []
  | .loseWaiting => ∃ w ∈ s.extraWaiting.items, ¬ w.KeepsPress
  | .enqueueFront q => q.Obeys D ∧ D.fronts
  | _ => True

end Passing

/-- The layout goes from the first state to the second in a step or a part of one,
and the custom event comes out. -/
inductive Advances {cfg : LayoutConfig C R T} {E : Panic → Prop} (D : Discipline cfg E) :
    Layout T → Layout T → CustomEvent T → Prop where
  | performs {s s' : Layout T} {e : CustomEvent T} (h : Performs D s s' e) : Advances D s s' e
  | pass {s : Layout T} (u : Passing T) (h : u.Allowed D s) :
    Advances D s (u.apply s) (u.output s)
  /-- An action of the action queue is performed. -/
  | takes {s s' : Layout T} {e : CustomEvent T} {qa : QueuedAction T} {count : Nat}
    (hqa : s.actionQueue.items.head? = some qa)
    (hact : Layout.act cfg ⟨qa.action, qa.coord, qa.delay, false, qa.layerStack⟩ 0 s.takeAction =
      .ok (s', e, count))
    (h : Performs D s.takeAction s' e) : Advances D s s' e
  | merge {s s₁ s₂ : Layout T} {e₁ e₂ : CustomEvent T} (h₁ : Advances D s s₁ e₁)
    (h₂ : Advances D s₁ s₂ e₂) : Advances D s (s₂.discard (e₁.lost e₂)) (e₁.update e₂)

section Advances

variable {cfg : LayoutConfig C R T} {E : Panic → Prop} {D : Discipline cfg E}
  {s s₁ s₂ : Layout T} {e : CustomEvent T}

namespace Advances

theorem trans (h₁ : Advances D s s₁ .noEvent) (h₂ : Advances D s₁ s₂ e) : Advances D s s₂ e := by
  have h := h₁.merge h₂
  rwa [CustomEvent.noEvent_update] at h

theorem andThen (h : Advances D s s₁ .noEvent) (u : Passing T) (hu : u.Allowed D s₁) :
    Advances D s (u.apply s₁) (u.output s₁) :=
  h.trans (.pass u hu)

end Advances

end Advances

/-! ## Parts that do not age the histories -/

/-- The histories get a tick older. -/
def Passing.ages : Passing T → Bool
  | .ageHistories => true
  | _ => false

/-- As `Advances`, without `ageHistories`. -/
inductive Proceeds {cfg : LayoutConfig C R T} {E : Panic → Prop} (D : Discipline cfg E) :
    Layout T → Layout T → CustomEvent T → Prop where
  | performs {s s' : Layout T} {e : CustomEvent T} (h : Performs D s s' e) : Proceeds D s s' e
  | pass {s : Layout T} (u : Passing T) (h : u.Allowed D s) (hyoung : u.ages = false) :
    Proceeds D s (u.apply s) (u.output s)
  | takes {s s' : Layout T} {e : CustomEvent T} {qa : QueuedAction T} {count : Nat}
    (hqa : s.actionQueue.items.head? = some qa)
    (hact : Layout.act cfg ⟨qa.action, qa.coord, qa.delay, false, qa.layerStack⟩ 0 s.takeAction =
      .ok (s', e, count))
    (h : Performs D s.takeAction s' e) : Proceeds D s s' e
  | merge {s s₁ s₂ : Layout T} {e₁ e₂ : CustomEvent T} (h₁ : Proceeds D s s₁ e₁)
    (h₂ : Proceeds D s₁ s₂ e₂) : Proceeds D s (s₂.discard (e₁.lost e₂)) (e₁.update e₂)

section Proceeds

variable {cfg : LayoutConfig C R T} {E : Panic → Prop} {D : Discipline cfg E}
  {s s₁ s₂ : Layout T} {e : CustomEvent T}

namespace Proceeds

theorem advances (h : Proceeds D s s₁ e) : Advances D s s₁ e := by
  induction h with
  | performs h => exact .performs h
  | pass u hu _ => exact .pass u hu
  | takes hqa hact h => exact .takes hqa hact h
  | merge _ _ ih₁ ih₂ => exact .merge ih₁ ih₂

theorem refl (s : Layout T) : Proceeds D s s .noEvent := .performs (.refl s)

theorem trans (h₁ : Proceeds D s s₁ .noEvent) (h₂ : Proceeds D s₁ s₂ e) : Proceeds D s s₂ e := by
  have h := h₁.merge h₂
  rwa [CustomEvent.noEvent_update] at h

/-- A part in which nothing comes out, and what follows. -/
theorem after (u : Passing T) (hu : u.Allowed D s) (hyoung : u.ages = false)
    (hout : u.output s = .noEvent) (h : Proceeds D (u.apply s) s₂ e) : Proceeds D s s₂ e := by
  have hpass : Proceeds D s (u.apply s) (u.output s) := .pass u hu hyoung
  rw [hout] at hpass
  exact hpass.trans h

theorem andThen (h : Proceeds D s s₁ .noEvent) (u : Passing T) (hu : u.Allowed D s₁)
    (hyoung : u.ages = false) : Proceeds D s (u.apply s₁) (u.output s₁) :=
  h.trans (.pass u hu hyoung)

theorem performing (h : Proceeds D s s₁ .noEvent) (h' : Performs D s₁ s₂ e) :
    Proceeds D s s₂ e :=
  h.trans (.performs h')

end Proceeds

end Proceeds

/-! ## Small layouts -/

/-- One layer with actions on the keys from column 1 on; the other keys are
transparent. -/
def oneLayer (actions : List (Action Nat)) : LayoutConfig 16 2 Nat where
  srcKeys _ := .noOp
  layers := [fun _ c => if c = 0 then .trans else (actions[c.val - 1]?).getD .trans]
  transResolutionBehaviorV2 := true
  delegateToFirstLayer := false
  quickTapHoldTimeout := false
  tapHoldRequirePriorIdle := 0
  chordsV2 := none
  callbacks _ _ := false
  overflowChecks := true
  stackDepth := 10

def press (c : Nat) : LayoutOp := .event (.press 0 c)

def release (c : Nat) : LayoutOp := .event (.release 0 c)

end Kanata
