import Kanata.Layout.Advances

/-!
# Kanata.Layout.Trace — what the parts of a step record

For each part of a step the occurrences that it adds to the trace. Accounts of a
run are kept by these lists.
-/

namespace Kanata

variable {C R : Nat} {T : Type} {cfg : LayoutConfig C R T} {s : Layout T}

/-- What an occurrence is about. -/
inductive Topic where
  | custom
  | waiting
  | performing
  | action
  | sequence
  | event
  | history
  | dance
  | memory
deriving DecidableEq, Repr

/-- Each kind of occurrence is about one thing. -/
def Occurrence.topic : Occurrence T → Topic
  | .customAdded _ _ => .custom
  | .customRefused _ => .custom
  | .customReleased _ => .custom
  | .customDiscarded _ => .custom
  | .sequencePressed _ => .custom
  | .sequenceReleased _ => .custom
  | .waitingCreated _ => .waiting
  | .waitingResolved _ _ => .waiting
  | .waitingLost _ => .waiting
  | .performed _ _ _ => .performing
  | .finished _ _ => .performing
  | .actionQueued _ => .action
  | .actionTaken _ => .action
  | .actionLost _ => .action
  | .sequenceStarted _ => .sequence
  | .sequenceLost _ => .sequence
  | .eventTaken _ => .event
  | .eventProcessed _ => .event
  | .eventLost _ => .event
  | .keyRecorded _ => .history
  | .inputRecorded _ => .history
  | .inputExcluded _ => .history
  | .historiesAged => .history
  | .danceStarted _ _ => .dance
  | .pressed _ _ => .dance
  | .danceAged => .dance
  | .remembered _ => .memory
  | .chordRemembered _ => .memory

/-- All the occurrences are about one thing. -/
def About (topic : Topic) (os : List (Occurrence T)) : Prop := ∀ o ∈ os, o.topic = topic

/-- The occurrence of something that a push dropped. -/
def lostNotes {α : Type} (lost : Option α) (o : α → Occurrence T) : List (Occurrence T) :=
  lost.toList.map o

/-- Nothing is about anything. -/
theorem About.nil (topic : Topic) : About topic ([] : List (Occurrence T)) := fun _ h => by cases h

theorem About.cons {topic : Topic} {o : Occurrence T} {os : List (Occurrence T)}
    (ho : o.topic = topic) (hos : About topic os) : About topic (o :: os) := by
  intro o' ho'
  rcases List.mem_cons.mp ho' with rfl | ho'
  · exact ho
  · exact hos o' ho'

theorem About.append {topic : Topic} {os os' : List (Occurrence T)} (hos : About topic os)
    (hos' : About topic os') : About topic (os ++ os') := by
  intro o ho
  rcases List.mem_append.mp ho with ho | ho
  · exact hos o ho
  · exact hos' o ho

theorem About.map {α : Type} {topic : Topic} {f : α → Occurrence T}
    (hf : ∀ x, (f x).topic = topic) (xs : List α) : About topic (xs.map f) := by
  intro o ho
  rcases List.mem_map.mp ho with ⟨x, _, rfl⟩
  exact hf x

theorem About.lost {α : Type} {topic : Topic} {f : α → Occurrence T}
    (hf : ∀ x, (f x).topic = topic) (lost : Option α) : About topic (lostNotes lost f) :=
  About.map hf lost.toList

/-- Occurrences about something else are not counted. -/
theorem About.countP {topic topic' : Topic} {os : List (Occurrence T)} (hos : About topic os)
    (hne : topic ≠ topic') {p : Occurrence T → Bool} (hp : ∀ o, p o = true → o.topic = topic') :
    os.countP p = 0 := by
  rw [List.countP_eq_zero]
  intro o ho htrue
  exact hne ((hos o ho).symm.trans (hp o htrue))

/-- Nor are they picked out. -/
theorem About.filterMap {α : Type} {topic topic' : Topic} {os : List (Occurrence T)}
    (hos : About topic os) (hne : topic ≠ topic') {f : Occurrence T → Option α}
    (hf : ∀ o, (f o).isSome = true → o.topic = topic') : os.filterMap f = [] := by
  rw [List.filterMap_eq_nil_iff]
  intro o ho
  cases hfo : f o with
  | none => rfl
  | some x => exact absurd ((hos o ho).symm.trans (hf o (by rw [hfo]; rfl))) hne

namespace Layout

@[simp] theorem note_trace (s : Layout T) (o : Occurrence T) : (s.note o).trace = s.trace ++ [o] :=
  rfl

@[simp] theorem noteWait_trace (s : Layout T) (o : WaitingNote T) :
    (s.noteWait o).trace = s.trace := rfl

@[simp] theorem noteLost_trace {α : Type} (s : Layout T) (lost : Option α)
    (o : α → Occurrence T) : (s.noteLost lost o).trace = s.trace ++ lostNotes lost o := by
  rw [noteLost_eq]
  rfl

/-- The notes of a custom event that is dropped. -/
def discardNotes : CustomEvent T → List (Occurrence T)
  | .noEvent => []
  | e => [.customDiscarded e]

@[simp] theorem discard_trace (s : Layout T) (e : CustomEvent T) :
    (s.discard e).trace = s.trace ++ discardNotes e := by
  cases e with
  | noEvent => simp [discard, discardNotes]
  | press v => rfl
  | release v => rfl

/-- The notes of an action that is queued. -/
def actionNotes (queue : Bounded actionQueueLen (QueuedAction T)) (qa : QueuedAction T) :
    List (Occurrence T) :=
  .actionQueued qa :: lostNotes (queue.pushBack qa).2 .actionLost

/-- An action that is queued is noted, and the one that falls out of the queue. -/
theorem pushAction_trace (s : Layout T) (qa : QueuedAction T) :
    (s.pushAction qa).trace = s.trace ++ actionNotes s.actionQueue qa := by
  unfold pushAction
  rw [noteLost_trace]
  simp [actionNotes]

theorem pushAction_actionQueue (s : Layout T) (qa : QueuedAction T) :
    (s.pushAction qa).actionQueue = (s.actionQueue.pushBack qa).1 := by
  rw [pushAction_eq]

/-- The notes of actions that are queued one after the other. -/
def actionsNotes : List (QueuedAction T) → Bounded actionQueueLen (QueuedAction T) →
    List (Occurrence T)
  | [], _ => []
  | qa :: qas, queue => actionNotes queue qa ++ actionsNotes qas (queue.pushBack qa).1

/-- The same for several actions. -/
theorem pushActions_trace :
    ∀ (qas : List (QueuedAction T)) (s : Layout T),
      (qas.foldl pushAction s).trace = s.trace ++ actionsNotes qas s.actionQueue := by
  intro qas
  induction qas with
  | nil => simp [actionsNotes]
  | cons qa qas ih =>
    intro s
    rw [List.foldl_cons, ih, pushAction_trace, pushAction_actionQueue]
    simp [actionsNotes]

theorem actionsNotes_about :
    ∀ (qas : List (QueuedAction T)) (queue : Bounded actionQueueLen (QueuedAction T)),
      About .action (actionsNotes qas queue) := by
  intro qas
  induction qas with
  | nil => exact fun _ => .nil _
  | cons qa qas ih =>
    intro queue
    exact .append (.cons rfl (.lost (by intro _; rfl) _)) (ih _)

theorem takeAction_trace (s : Layout T) :
    s.takeAction.trace = s.trace ++ s.actionQueue.items.head?.toList.map .actionTaken := by
  rw [takeAction_eq]

theorem afterTickWt_trace (s : Layout T) (t : Ticked T) :
    (s.afterTickWt t).trace = s.trace ++ actionsNotes t.actions s.actionQueue :=
  pushActions_trace t.actions _

/-- The notes of a sequence that starts. -/
def sequenceNotes (s : Layout T) (events : List (SequenceEvent T)) : List (Occurrence T) :=
  .sequenceStarted events ::
    lostNotes (s.activeSequences.pushBack ⟨none, 0, none, events⟩).2 .sequenceLost

/-- A macro that starts is noted, and the oldest one when there are four already. -/
theorem startSequence_trace (s : Layout T) (events : List (SequenceEvent T)) :
    (s.startSequence events).trace = s.trace ++ s.sequenceNotes events := by
  unfold startSequence
  rw [noteLost_trace]
  simp [sequenceNotes]

/-- The notes of a custom action of a macro. -/
def customNotes : CustomEvent T → List (Occurrence T)
  | .noEvent => []
  | .press v => [.sequencePressed v]
  | .release v => [.sequenceReleased v]

/-- A custom action of a macro that is pressed or released. -/
theorem advanceCustom_trace (s : Layout T) :
    (s.processSequenceCustom .noEvent).1.trace =
      s.trace ++ customNotes (s.processSequenceCustom .noEvent).2 := by
  unfold processSequenceCustom
  split
  · simp [customNotes]
  · dsimp only
    split
    · rename_i heq
      simp [heq, customNotes]
    · rename_i heq
      simp [heq, customNotes]
    · rename_i heq
      simp [heq, customNotes]
  · rename_i hne
    exact absurd rfl hne

/-- The note of a key that goes into the history. -/
def keyNotes (s : Layout T) (kc : KeyCode) : List (Occurrence T) :=
  if s.pauseHistoricalKeysUpdates then [] else [.keyRecorded kc]

/-- A key is noted where it goes into the history. -/
theorem pushHistoricalKey_trace (s : Layout T) (kc : KeyCode) :
    (s.pushHistoricalKey kc).trace = s.trace ++ s.keyNotes kc := by
  unfold pushHistoricalKey keyNotes
  split
  · rw [List.append_nil]
  · rfl

theorem keyNotes_about (s : Layout T) (kc : KeyCode) : About .history (s.keyNotes kc) := by
  unfold keyNotes
  split
  · exact .nil _
  · exact .cons rfl (.nil _)

/-- The note of an event that arrives. -/
def arriveNotes : Event → List (Occurrence T)
  | .press i j => [.inputRecorded (i, j)]
  | .release _ _ => []

/-- Only presses go into the histories of inputs. -/
theorem arrive_trace (s : Layout T) (event : Event) :
    (s.arrive event).trace = s.trace ++ arriveNotes event := by
  cases event with
  | press i j => rfl
  | release i j => exact (List.append_nil _).symm

/-- The note of an eager tap-dance that starts, unless it goes on. -/
def danceNotes (s : Layout T) (coord : KCoord) (td : TapDance (Action T)) :
    List (Occurrence T) :=
  match s.tapDanceEager with
  | none => [.danceStarted coord td]
  | some tde => if tde.coord ≠ coord then [.danceStarted coord td] else []

/-- An eager tap-dance that is started again at its own coordinate goes on, and nothing is
noted. -/
theorem startTapDanceEager_trace (s : Layout T) (coord : KCoord) (td : TapDance (Action T)) :
    (s.startTapDanceEager coord td).trace = s.trace ++ s.danceNotes coord td := by
  unfold startTapDanceEager danceNotes
  dsimp only
  -- the notes follow the cases of the update
  cases s.tapDanceEager with
  | none => rfl
  | some tde =>
    dsimp only
    split
    · rfl
    · exact (List.append_nil _).symm

theorem danceNotes_about (s : Layout T) (coord : KCoord) (td : TapDance (Action T)) :
    About .dance (s.danceNotes coord td) := by
  unfold danceNotes
  split
  · exact .cons rfl (.nil _)
  · split
    · exact .cons rfl (.nil _)
    · exact .nil _

/-- A press is noted with the call that it makes and the coordinate of the key that was pressed
last. -/
theorem takePress_trace (s : Layout T) (p : KCoord) (call : Call T) :
    ((s.takePress p).notePressed call).trace =
      s.trace ++ [.pressed call s.lastPressTracker.coord] := by
  rw [notePressed, takePress_eq]
  rfl

/-- The note of a macro that is about to press a key. -/
def sequenceKeyNotes (s : Layout T) (seq : SequenceState T) : List (Occurrence T) :=
  if seq.delay > 0 ∨ seq.tapped.isSome = true then []
  else
    match seq.remainingEvents.head?.or seq.curEvent with
    | some (.press keycode) => s.keyNotes keycode
    | some (.tap keycode) => s.keyNotes keycode
    | _ => []

/-- Of what a macro does, only the key that it presses is noted. -/
theorem processSequence_trace (s : Layout T) (seq : SequenceState T) :
    (processSequence s seq).1.trace = s.trace ++ s.sequenceKeyNotes seq := by
  have hkey : ∀ kc,
      (((s.pushState (.fakeKey kc)).pushHistoricalKey kc).oneshotHandlePress
        (.other (0, 0))).1.trace =
        s.trace ++ s.keyNotes kc := fun kc => pushHistoricalKey_trace (s.pushState _) kc
  have hstate : ∀ st, (s.pushState st).trace = s.trace := fun _ => rfl
  unfold processSequence sequenceKeyNotes
  split
  · rename_i hdelay
    -- the macro waits
    rw [if_pos (.inl hdelay), List.append_nil]
  · rename_i hdelay
    split
    · rename_i keycode htapped
      -- the second half of a tap releases its key
      rw [if_pos (.inr (by rw [htapped]; rfl)), List.append_nil]
    · rename_i htapped
      rw [if_neg (by simp [htapped]; omega)]
      cases hevents : seq.remainingEvents with
      | nil =>
        dsimp only
        cases hcur : seq.curEvent with
        | none => simp
        | some e => cases e <;> simp [hkey, hstate]
      | cons e tail => cases e <;> simp [hkey, hstate]

/-- The notes of the macro at the front of the queue. -/
def advanceNotes (s : Layout T) : List (Occurrence T) :=
  match s.activeSequences.popFront with
  | (some seq, activeSequences) => { s with activeSequences }.sequenceKeyNotes seq
  | (none, _) => []

theorem advanceSequence_trace (s : Layout T) :
    s.advanceSequence.trace = s.trace ++ s.advanceNotes := by
  unfold advanceSequence advanceNotes
  rcases s.activeSequences.popFront with ⟨_ | seq, activeSequences⟩
  · exact (List.append_nil _).symm
  · have hprocessed := processSequence_trace { s with activeSequences } seq
    dsimp only
    split
    · exact hprocessed
    · exact hprocessed

theorem advanceNotes_about (s : Layout T) : About .history s.advanceNotes := by
  unfold advanceNotes
  split
  · unfold sequenceKeyNotes
    split
    · exact .nil _
    · split
      · exact keyNotes_about _ _
      · exact keyNotes_about _ _
      · exact .nil _
  · exact .nil _

end Layout

namespace Update

def notes (s : Layout T) : Update T → List (Occurrence T)
  | .setRptAction action => [.remembered action]
  | .pushHistoricalKey kc => s.keyNotes kc
  | .setBuffer buffer => [.chordRemembered buffer]
  | .startTapDanceEager coord td => s.danceNotes coord td
  | .takePress call => [.pressed call s.lastPressTracker.coord]
  | .excludeFromHistory coord => [.inputExcluded coord]
  | .arrive event => Layout.arriveNotes event
  | .startSequence events => s.sequenceNotes events
  | .deferAction qa => Layout.actionNotes s.actionQueue qa
  | .loseAction qa => [.actionLost qa]
  | .setWaiting _ =>
    .waitingCreated s.created :: lostNotes s.waiting fun lost => .waitingLost lost.id
  | .pushExtraWaiting w =>
    .waitingCreated s.created ::
      lostNotes (s.extraWaiting.pushBack (w s.created)).2 fun lost => .waitingLost lost.id
  | .perform action coord => [.performed action coord s.found]
  | .finish call => [.finished call s.found]
  | .takeWaiting w outcome _ => [.waitingResolved w.id outcome]
  | .process q => [.eventProcessed q]
  | _ => []

theorem apply_trace (s : Layout T) (u : Update T) :
    (u.apply cfg s).trace = s.trace ++ u.notes s := by
  cases u with
  | pushHistoricalKey kc => exact Layout.pushHistoricalKey_trace s kc
  | startTapDanceEager coord td => exact Layout.startTapDanceEager_trace s coord td
  | takePress call => exact Layout.takePress_trace s call.coord call
  | startSequence events => exact Layout.startSequence_trace s events
  | setDefaultLayer value =>
    simp only [apply, notes, List.append_nil]
    rw [Layout.setDefaultLayer_eq]
  | deferAction qa => exact Layout.pushAction_trace s qa
  | setWaiting w =>
    simp only [apply, Layout.setWaiting, notes]
    rw [Layout.noteLost_trace]
    simp
  | pushExtraWaiting w =>
    simp only [apply, Layout.pushExtraWaiting, notes]
    rw [Layout.noteLost_trace]
    simp
  | takeWaiting w outcome idx =>
    simp only [apply]
    rw [Layout.takeWaiting_eq]
    rfl
  | arrive event => exact Layout.arrive_trace s event
  | enqueue q =>
    simp only [apply, notes, List.append_nil]
    rw [Layout.enqueue_eq]
  | setRptAction action => rfl
  | setBuffer buffer => rfl
  | excludeFromHistory coord => rfl
  | loseAction qa => rfl
  | perform action coord => rfl
  | finish call => rfl
  | process q => rfl
  | _ => exact (List.append_nil _).symm

/-- What the update is about, when it records anything. -/
def topic : Update T → Topic
  | .startSequence _ => .sequence
  | .deferAction _ => .action
  | .loseAction _ => .action
  | .perform _ _ => .performing
  | .finish _ => .performing
  | .process _ => .event
  | .setRptAction _ => .memory
  | .setBuffer _ => .memory
  | .pushHistoricalKey _ => .history
  | .excludeFromHistory _ => .history
  | .arrive _ => .history
  | .startTapDanceEager _ _ => .dance
  | .takePress _ => .dance
  | _ => .waiting

theorem notes_about (s : Layout T) (u : Update T) : About u.topic (u.notes s) := by
  cases u with
  | startSequence events => exact .cons rfl (.lost (by intro _; rfl) _)
  | deferAction qa => exact .cons rfl (.lost (by intro _; rfl) _)
  | setWaiting w => exact .cons rfl (.lost (by intro _; rfl) _)
  | pushExtraWaiting w => exact .cons rfl (.lost (by intro _; rfl) _)
  | loseAction qa => exact .cons rfl (.nil _)
  | perform action coord => exact .cons rfl (.nil _)
  | finish call => exact .cons rfl (.nil _)
  | takeWaiting w outcome idx => exact .cons rfl (.nil _)
  | process q => exact .cons rfl (.nil _)
  | setRptAction action => exact .cons rfl (.nil _)
  | setBuffer buffer => exact .cons rfl (.nil _)
  | pushHistoricalKey kc => exact Layout.keyNotes_about s kc
  | excludeFromHistory coord => exact .cons rfl (.nil _)
  | arrive event =>
    cases event with
    | press i j => exact .cons rfl (.nil _)
    | release i j => exact .nil _
  | startTapDanceEager coord td => exact Layout.danceNotes_about s coord td
  | takePress call => exact .cons rfl (.nil _)
  | _ => exact .nil _

end Update

namespace Passing

def notes (s : Layout T) : Passing T → List (Occurrence T)
  | .receive q => lostNotes (s.queue.pushBack q).2 .eventLost
  | .queueChord qa => Layout.actionNotes s.actionQueue qa
  | .ageInputs => [.danceAged]
  | .advanceSequence => s.advanceNotes
  | .ageHistories => [.historiesAged]
  | .restartSequence events => s.sequenceNotes events
  | .takeEvent => s.queue.items.head?.toList.map .eventTaken
  | .tickWaiting t => Layout.actionsNotes t.actions s.actionQueue
  | .tickExtraWaiting _ t => Layout.actionsNotes t.actions s.actionQueue
  | .loseWaiting => lostNotes s.waiting fun w => .waitingLost w.id
  | .advanceCustom => Layout.customNotes (s.processSequenceCustom .noEvent).2
  | _ => []

theorem apply_trace (s : Layout T) (u : Passing T) : (u.apply s).trace = s.trace ++ u.notes s := by
  cases u with
  | receive q => exact Layout.noteLost_trace _ _ _
  | queueChord qa => exact Layout.pushAction_trace s qa
  | ageInputs => rfl
  | advanceSequence => exact Layout.advanceSequence_trace s
  | ageHistories => rfl
  | restartSequence events => exact Layout.startSequence_trace s events
  | takeEvent =>
    simp only [apply, notes]
    rw [Layout.takeEvent_eq]
  | tickWaiting t => exact Layout.afterTickWt_trace _ t
  | tickExtraWaiting i t => exact Layout.afterTickWt_trace _ t
  | loseWaiting =>
    simp only [apply]
    rw [Layout.loseWaiting_eq]
    rfl
  | advanceCustom => exact Layout.advanceCustom_trace s
  | _ => exact (List.append_nil _).symm

/-- What the part is about, when it records anything. -/
def topic : Passing T → Topic
  | .receive _ => .event
  | .queueChord _ => .action
  | .takeEvent => .event
  | .restartSequence _ => .sequence
  | .loseWaiting => .waiting
  | .advanceCustom => .custom
  | .ageInputs => .dance
  | .advanceSequence => .history
  | .ageHistories => .history
  | _ => .action

theorem notes_about (s : Layout T) (u : Passing T) : About u.topic (u.notes s) := by
  cases u with
  | receive q => exact .lost (by intro _; rfl) _
  | queueChord qa => exact .cons rfl (.lost (by intro _; rfl) _)
  | takeEvent => exact .map (by intro _; rfl) _
  | restartSequence events => exact .cons rfl (.lost (by intro _; rfl) _)
  | tickWaiting t => exact Layout.actionsNotes_about _ _
  | tickExtraWaiting i t => exact Layout.actionsNotes_about _ _
  | loseWaiting => exact .lost (by intro _; rfl) _
  | ageInputs => exact .cons rfl (.nil _)
  | advanceSequence => exact s.advanceNotes_about
  | ageHistories => exact .cons rfl (.nil _)
  | advanceCustom =>
    show About .custom (Layout.customNotes _)
    unfold Layout.customNotes
    split
    · exact .nil _
    · exact .cons rfl (.nil _)
    · exact .cons rfl (.nil _)
  | _ => exact .nil _

end Passing

theorem pushCustom_trace (s : Layout T) (value : T) (coord : KCoord) :
    (s.pushCustom value coord).trace = s.trace ++
      [if s.states.isFull then .customRefused value else .customAdded value coord] := by
  rw [Layout.pushCustom_eq]

/-- The custom states that a release removes. -/
theorem dequeueRelease_trace {s' : Layout T} {c : KCoord} {e : CustomEvent T}
    (h : s.dequeueRelease c = .ok (s', e)) :
    ∃ removed : List T, s'.trace = s.trace ++ removed.map .customReleased := by
  rcases dequeueRelease_eq_ok h with ⟨states, rel, _, _, rfl⟩
  exact ⟨rel.removed, rfl⟩

/-! ## The trace grows -/

/-- What was noted stays. -/
theorem Performs.trace_grows {E : Panic → Prop} {D : Discipline cfg E} {s' : Layout T}
    {e : CustomEvent T} (h : Performs D s s' e) : s.trace <+: s'.trace := by
  induction h with
  | refl s => exact List.prefix_rfl
  | update u hu => exact ⟨_, (u.apply_trace _).symm⟩
  | custom s value coord => exact ⟨_, (pushCustom_trace s value coord).symm⟩
  | release h =>
    rcases dequeueRelease_trace h with ⟨removed, heq⟩
    exact ⟨_, heq.symm⟩
  | merge h₁ h₂ ih₁ ih₂ => exact (ih₁.trans ih₂).trans ⟨_, (Layout.discard_trace _ _).symm⟩
  | discard h ih => exact ih.trans ⟨_, (Layout.discard_trace _ _).symm⟩

/-- The same for what a step does. -/
theorem Advances.trace_grows {E : Panic → Prop} {D : Discipline cfg E} {s' : Layout T}
    {e : CustomEvent T} (h : Advances D s s' e) : s.trace <+: s'.trace := by
  induction h with
  | performs h => exact h.trace_grows
  | pass u hu => exact ⟨_, (u.apply_trace _).symm⟩
  -- the action is noted where it is taken, before it is performed
  | @takes s s' e qa count hqa hact h =>
    have hfirst : s.trace <+: s.takeAction.trace := ⟨_, s.takeAction_trace.symm⟩
    exact hfirst.trans h.trace_grows
  | merge h₁ h₂ ih₁ ih₂ => exact (ih₁.trans ih₂).trans ⟨_, (Layout.discard_trace _ _).symm⟩

/-! ## Performing an action -/

section Action

open Fallible

variable {s' : Layout T}

theorem clearOnNextAction_trace :
    ∀ {states : List (State T)} {s : Layout T} {r : List (State T) × Layout T},
      Layout.clearOnNextAction cfg states s = .ok r → r.2.trace = s.trace := by
  intro states
  induction states with
  | nil =>
    intro s r h
    simp only [Layout.clearOnNextAction, pure_eq_ok] at h
    rw [← h]
  | cons st states ih =>
    have hkept : ∀ {st' : State T} {s : Layout T} {r : List (State T) × Layout T},
        (Layout.clearOnNextAction cfg states s >>= fun r => pure (st' :: r.1, r.2)) = .ok r →
          r.2.trace = s.trace := by
      intro st' s r h
      rcases bind_eq_ok.mp h with ⟨r', hr', h⟩
      rw [pure_eq_ok] at h
      rw [← h]
      show r'.2.trace = s.trace
      exact ih hr'
    intro s r h
    cases st with
    -- a key of an output chord may end here; its note is one of the pause
    | normalKey keycode coord flags =>
      unfold Layout.clearOnNextAction at h
      split at h
      · rcases bind_eq_ok.mp h with ⟨ticks, _, h⟩
        have htrace := ih h
        rw [htrace]
        split <;> rfl
      · exact hkept h
    | _ => exact hkept h

/-- Before the `match`, `do_action` records nothing. -/
theorem beforeAction_trace {coord : KCoord} (h : s.beforeAction cfg coord = .ok s') :
    s'.trace = s.trace := by
  unfold Layout.beforeAction at h
  rcases bind_eq_ok.mp h with ⟨r, hclear, h⟩
  rw [pure_eq_ok] at h
  rw [← h]
  have htrace := clearOnNextAction_trace hclear
  show r.2.trace = s.trace
  rw [htrace]
  split <;> rfl

/-- Only a transparent action is resolved. -/
theorem resolveTrans_coord {call call' : Call T} (h : cfg.resolveTrans call = .ok call') :
    call'.coord = call.coord ∧ (call.action ≠ .trans → call'.action = call.action) := by
  unfold LayoutConfig.resolveTrans at h
  split at h
  · rename_i htrans
    rcases bind_eq_ok.mp h with ⟨r, _, h⟩
    rw [pure_eq_ok] at h
    rw [← h]
    exact ⟨rfl, fun hne => absurd htrans hne⟩
  · rw [pure_eq_ok] at h
    rw [← h]
    exact ⟨rfl, fun _ => rfl⟩

/-- The first thing that `do_action` records is the action that it performs, with what it
finds, and the last one that it is finished, with what it leaves. -/
theorem doAction_begins {depth : Nat} {call : Call T} {count : Nat}
    {r : Layout T × CustomEvent T × Nat} (hs : s.Obeys (Discipline.free cfg))
    (h : Layout.doAction cfg depth call count s = .ok r) :
    ∃ call' s₁ during, cfg.resolveTrans call = .ok call' ∧ s.beforeAction cfg call.coord = .ok s₁ ∧
      r.1.trace = s.trace ++ .performed call'.action call.coord s₁.found ::
        (during ++ [.finished call' r.1.found]) := by
  cases depth with
  | zero => cases h
  | succ depth =>
    unfold Layout.doAction at h
    rcases bind_eq_ok.mp h with ⟨call', hcall', h⟩
    rcases bind_eq_ok.mp h with ⟨s₁, hs₁, h⟩
    rcases bind_eq_ok.mp h with ⟨r₁, hperformed, h⟩
    rw [← pure_eq_ok.mp h]
    -- resolving a transparent action changes neither the layout nor the coordinate
    have hcoord := resolveTrans_coord hcall'
    have hfree : call.Obeys (Discipline.free cfg) := ⟨trivial, fun _ _ => trivial⟩
    have hresolved := (resolveTrans_ensures hfree).of_ok hcall'
    have hbefore := (beforeAction_ensures (Discipline.free cfg) call'.coord s).of_ok hs₁
    have hnoted : (s₁.note (.performed call'.action call'.coord s₁.found)).Obeys
      (Discipline.free cfg) :=
      (hbefore.performs.obeys hs).note _
    have hperform := (perform_ensures (doAction_actsWithin _ depth) hresolved.2.1 hresolved.2.2
      hnoted (isPerforming_note _ _ _) count).of_ok hperformed
    rcases hperform.trace_grows with ⟨rest, hrest⟩
    rw [hcoord.1] at hs₁
    refine ⟨call', s₁, rest, hcall', hs₁, ?_⟩
    show r₁.1.trace ++ [.finished call' r₁.1.found] =
      s.trace ++ .performed call'.action call.coord s₁.found ::
        (rest ++ [.finished call' r₁.1.found])
    rw [← hrest, Layout.note_trace, beforeAction_trace hs₁, hcoord.1]
    simp

/-- In short: the action of the resolved call comes first. -/
theorem doAction_trace {depth : Nat} {call : Call T} {count : Nat}
    {r : Layout T × CustomEvent T × Nat} (hs : s.Obeys (Discipline.free cfg))
    (h : Layout.doAction cfg depth call count s = .ok r) :
    ∃ call' found rest, cfg.resolveTrans call = .ok call' ∧
      r.1.trace = s.trace ++ .performed call'.action call.coord found :: rest := by
  rcases doAction_begins hs h with ⟨call', s₁, during, hcall', _, htrace⟩
  exact ⟨call', s₁.found, _, hcall', htrace⟩

/-- What a call of `do_action` adds to the trace is between the two notes of its action. -/
theorem CallOf.trace {call : Call T} (hs : s.Obeys (Discipline.free cfg))
    (h : CallOf cfg call s s') :
    ∃ s₁ during, s.beforeAction cfg call.coord = .ok s₁ ∧
      s'.trace = s.trace ++ .performed call.action call.coord s₁.found ::
        (during ++ [.finished call s'.found]) := by
  rcases h with ⟨given, depth, count, e, count', hresolves, hreturns⟩
  rcases doAction_begins hs hreturns with ⟨call', s₁, during, hcall', hs₁, htrace⟩
  rw [hresolves] at hcall'
  cases hcall'
  rw [(resolveTrans_coord hresolves).1]
  exact ⟨s₁, during, hs₁, htrace⟩

/-- A press notes its call, and the first thing that it performs is what the call stands for. -/
theorem performPressed_trace {depth since n : Nat} {c : KCoord} {action : Action T}
    {e : CustomEvent T} (hs : s.Obeys (Discipline.free cfg))
    (h : Layout.performPressed (Layout.doAction cfg depth) cfg s c since action n = .ok (s', e)) :
    ∃ layerStack call' found rest, s.transResolutionLayerOrder cfg = .ok layerStack ∧
      cfg.resolveTrans ⟨action, c, since, false, layerStack.drop n⟩ = .ok call' ∧
      s'.trace = s.trace ++ .pressed ⟨action, c, since, false, layerStack.drop n⟩
        s.lastPressTracker.coord :: .performed call'.action c found :: rest := by
  unfold Layout.performPressed at h
  rcases bind_eq_ok.mp h with ⟨layerStack, horder, h⟩
  rcases bind_eq_ok.mp h with ⟨r, hr, h⟩
  have hpressed : ((s.takePress c).notePressed ⟨action, c, since, false, layerStack.drop n⟩).Obeys
      (Discipline.free cfg) := by
    rw [Layout.takePress_eq]
    exact { hs with tapDanceEager := fun _ _ _ _ _ _ => trivial }
  rcases doAction_trace hpressed hr with ⟨call', found, rest, hcall', hrest⟩
  have hs' : r.1 = s' := congrArg Prod.fst (pure_eq_ok.mp h)
  refine ⟨layerStack, call', found, rest, horder, hcall', ?_⟩
  rw [← hs', hrest, Layout.takePress_trace]
  exact List.append_assoc _ _ _

end Action

/-! ## Runs -/

section Runs

open Machine

/-- The discipline without restrictions allows every step. -/
theorem free_obeys (op : LayoutOp) : op.Obeys (Discipline.free cfg) := by
  unfold LayoutOp.Obeys
  split <;> trivial

/-- Without any restriction, every step is made of the parts of `Advances`. -/
theorem step_free {s' : Layout T} {op : LayoutOp} {e : CustomEvent T}
    (hs : s.Obeys (Discipline.free cfg)) (h : s.step cfg op = .ok (s', e)) :
    Advances (Discipline.free cfg) s s' e :=
  (step_advances (fun _ => trivial) hs (free_obeys op)).of_ok h

/-- So every layout that is reached keeps to it. -/
theorem step_keeps_obeys {s' : Layout T} {op : LayoutOp} {e : CustomEvent T}
    (hs : s.Obeys (Discipline.free cfg)) (h : s.step cfg op = .ok (s', e)) :
    s'.Obeys (Discipline.free cfg) :=
  (step_free hs h).obeys hs

/-- What a run from a new layout keeps within a discipline that allows every key
press, given that the parts of a step do. -/
theorem run_within {E : Panic → Prop} (D : Discipline cfg E) (hpresses : ∀ c, D.presses c)
    (hfronts : D.fronts) (hdecides : ∀ outcome, D.resolves outcome)
    {delay : Nat} {ops : List LayoutOp} {s' : Layout T} {os : List (CustomEvent T)}
    {Inv : List (CustomEvent T) → Layout T → Prop} (hnew : Inv [] (.new delay))
    (hstep : ∀ os s s' e, s.Obeys D → Inv os s → Advances D s s' e → Inv (os ++ [e]) s')
    (h : run (Layout.step cfg) (.new delay) ops = .ok (s', os)) :
    s'.Obeys D ∧ Inv os s' := by
  refine @run_history _ _ _ _ (Layout.step cfg) (fun _ _ => True)
    (fun os s => s.Obeys D ∧ Inv os s) ?_ ops [] (.new delay) s' os ⟨new_obeys _ delay, hnew⟩
    (along_trivial ops _) h
  rintro done s op s₁ e ⟨hs, hinv⟩ _ h
  have hop : op.Obeys D := by
    unfold LayoutOp.Obeys
    split
    · exact hpresses _
    · exact ⟨hpresses _, hfronts⟩
    · exact hfronts
    · trivial
  have hadvances : Advances D s s₁ e := (step_advances hdecides hs hop).of_ok h
  exact ⟨hadvances.obeys hs, hstep done s s₁ e hs hinv hadvances⟩

/-- What a run from a new layout keeps, given that its steps do. -/
theorem run_advances {delay : Nat} {ops : List LayoutOp} {s' : Layout T}
    {os : List (CustomEvent T)} {Inv : List (CustomEvent T) → Layout T → Prop}
    (hnew : Inv [] (.new delay))
    (hstep : ∀ os s s' e, Inv os s → Advances (Discipline.free cfg) s s' e → Inv (os ++ [e]) s')
    (h : run (Layout.step cfg) (.new delay) ops = .ok (s', os)) :
    s'.Obeys (Discipline.free cfg) ∧ Inv os s' :=
  run_within _ (fun _ => trivial) trivial (fun _ => trivial) hnew
    (fun os s s' e _ => hstep os s s' e) h

/-- The trace of a step begins with the trace before it. -/
theorem step_trace {s' : Layout T} {op : LayoutOp} {e : CustomEvent T}
    (hs : s.Obeys (Discipline.free cfg)) (h : s.step cfg op = .ok (s', e)) :
    s'.trace = s.trace ++ s'.trace.drop s.trace.length := by
  rcases (step_free hs h).trace_grows with ⟨rest, hrest⟩
  rw [← hrest, List.drop_left]

/-- Everything that the step records satisfies the predicate. -/
def RecordsOnly (cfg : LayoutConfig C R T) (P : Occurrence T → Prop) (s : Layout T)
    (op : LayoutOp) :
    Prop :=
  match s.step cfg op with
  | .ok (s', _) => ∀ o ∈ s'.trace.drop s.trace.length, P o
  | .error _ => True

instance (cfg : LayoutConfig C R T) (P : Occurrence T → Prop) [DecidablePred P] (s : Layout T)
    (op : LayoutOp) : Decidable (RecordsOnly cfg P s op) := by
  unfold RecordsOnly
  split <;> infer_instance

/-- The steps of a run record it exactly when the trace of the run has nothing else. -/
theorem along_records_iff {P : Occurrence T → Prop} {delay : Nat} {ops : List LayoutOp}
    {s' : Layout T} {os : List (CustomEvent T)}
    (h : run (Layout.step cfg) (.new delay) ops = .ok (s', os)) :
    Along (Layout.step cfg) (RecordsOnly cfg P) (.new delay) ops ↔ ∀ o ∈ s'.trace, P o := by
  constructor
  · intro halong
    have hinv : s'.Obeys (Discipline.free cfg) ∧ ∀ o ∈ s'.trace, P o := by
      refine @run_invariant _ _ _ _ (Layout.step cfg) (RecordsOnly cfg P)
        (fun s => s.Obeys (Discipline.free cfg) ∧ ∀ o ∈ s.trace, P o) ?_ ops
        (.new delay) s' os ⟨new_obeys _ delay, by simp [Layout.new]⟩ halong h
      rintro s op s₁ e ⟨hs, hclean⟩ hrecords hstep
      refine ⟨step_keeps_obeys hs hstep, ?_⟩
      unfold RecordsOnly at hrecords
      rw [hstep] at hrecords
      rw [step_trace hs hstep]
      intro o ho
      rcases List.mem_append.mp ho with ho | ho
      · exact hclean o ho
      · exact hrecords o ho
    exact hinv.2
  · intro hclean
    -- the trace only grows, so that what holds of it at the end holds of every part
    refine (@along_of_end _ _ _ _ (Layout.step cfg) (RecordsOnly cfg P)
      (fun s => s.Obeys (Discipline.free cfg)) (fun s => ∀ o ∈ s.trace, P o)
      (fun _ _ _ _ hs hstep => step_keeps_obeys hs hstep) ?_ ops (.new delay) s' os
      (new_obeys _ delay) h hclean).1
    intro s op s₁ e hs hstep hclean
    rw [step_trace hs hstep] at hclean
    constructor
    · unfold RecordsOnly
      rw [hstep]
      exact fun o ho => hclean o (List.mem_append_right _ ho)
    · exact fun o ho => hclean o (List.mem_append_left _ ho)

/-- An action that is performed meets the condition, with what it finds. -/
def Occurrence.Meets (ok : Action T → Found T → Prop) : Occurrence T → Prop
  | .performed action _ found => ok action found
  | _ => True

instance (ok : Action T → Found T → Prop) [∀ a f, Decidable (ok a f)] :
    DecidablePred (Occurrence.Meets ok) := fun o => by
  unfold Occurrence.Meets
  split <;> infer_instance

/-- Each action that the step performs meets the condition, with what it finds when it is
performed. -/
def PerformsWhere (cfg : LayoutConfig C R T) (ok : Action T → Found T → Prop) :
    Layout T → LayoutOp → Prop :=
  RecordsOnly cfg (Occurrence.Meets ok)

/-- A condition that asks for less. -/
theorem PerformsWhere.mono {ok ok' : Action T → Found T → Prop} (h : ∀ a f, ok a f → ok' a f)
    {s : Layout T} {op : LayoutOp} (hs : PerformsWhere cfg ok s op) :
    PerformsWhere cfg ok' s op := by
  unfold PerformsWhere RecordsOnly at *
  split
  · rename_i s' _ hstep
    rw [hstep] at hs
    intro o ho
    have hmeets := hs o ho
    cases o with
    | performed action coord found => exact h action found hmeets
    | _ => trivial
  · trivial

instance (cfg : LayoutConfig C R T) (ok : Action T → Found T → Prop)
    [∀ a f, Decidable (ok a f)] (s : Layout T) (op : LayoutOp) :
    Decidable (PerformsWhere cfg ok s op) :=
  inferInstanceAs (Decidable (RecordsOnly cfg (Occurrence.Meets ok) s op))

end Runs

end Kanata
