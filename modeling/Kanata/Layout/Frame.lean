import Kanata.Layout.Run

/-!
# Kanata.Layout.Frame — what is left alone

For the operations of the layout whose definition branches, an equation that
names the fields they may change. The fields that are not named are left alone.
-/

namespace Kanata.Layout

open Fallible

variable {C R : Nat} {T : Type}

/-- What a full queue gives up is noted, and nothing else changes. -/
theorem noteLost_eq {α : Type} (s : Layout T) (lost : Option α) (o : α → Occurrence T) :
    s.noteLost lost o = { s with trace := s.trace ++ lost.toList.map o } := by
  cases lost with
  | none => simp [noteLost]
  | some x => rfl

/-- A custom event that is thrown away leaves a note. -/
theorem discard_eq (s : Layout T) (e : CustomEvent T) :
    s.discard e = { s with trace := (s.discard e).trace } := by
  cases e <;> rfl

/-- A key code enters the history, unless the history is paused. -/
theorem pushHistoricalKey_eq (s : Layout T) (kc : KeyCode) :
    s.pushHistoricalKey kc = { s with
      historicalKeys := (s.pushHistoricalKey kc).historicalKeys
      trace := (s.pushHistoricalKey kc).trace } := by
  unfold pushHistoricalKey
  split <;> rfl

/-- A layer that does not exist leaves the default layer as it is. -/
theorem setDefaultLayer_eq (cfg : LayoutConfig C R T) (s : Layout T) (value : Nat) :
    s.setDefaultLayer cfg value =
      { s with defaultLayer := (s.setDefaultLayer cfg value).defaultLayer } := by
  unfold setDefaultLayer
  split <;> rfl

/-- An action is put into the action queue. A full queue gives up its oldest action. -/
theorem pushAction_eq (s : Layout T) (qa : QueuedAction T) :
    s.pushAction qa = { s with
      actionQueue := (s.actionQueue.pushBack qa).1
      trace := s.trace ++ [.actionQueued qa] ++
        (s.actionQueue.pushBack qa).2.toList.map .actionLost } :=
  noteLost_eq _ _ _

/-- Several actions, one after the other: only the action queue and the notes change. -/
theorem pushActions_eq (qas : List (QueuedAction T)) :
    ∀ s : Layout T, qas.foldl pushAction s = { s with
      actionQueue := (qas.foldl pushAction s).actionQueue
      trace := (qas.foldl pushAction s).trace } := by
  induction qas with
  | nil => exact fun _ => rfl
  | cons qa qas ih =>
    intro s
    rw [List.foldl_cons, ih, pushAction_eq]

/-- What a decision leaves behind when it was ticked: the queue as it made it, and the actions
that it put off. -/
theorem afterTickWt_eq (s : Layout T) (t : Ticked T) :
    s.afterTickWt t = { s with
      queue := t.queued
      waits := s.waits ++ [.ticked t.waiting (t.decision.map Prod.fst)]
      actionQueue := (s.afterTickWt t).actionQueue
      trace := (s.afterTickWt t).trace } :=
  pushActions_eq t.actions _

/-- A macro starts with all of its events ahead. A fifth one pushes the oldest one out. -/
theorem startSequence_eq (s : Layout T) (events : List (SequenceEvent T)) :
    s.startSequence events = { s with
      activeSequences := (s.activeSequences.pushBack ⟨none, 0, none, events⟩).1
      trace := s.trace ++ [.sequenceStarted events] ++
        (s.activeSequences.pushBack ⟨none, 0, none, events⟩).2.toList.map .sequenceLost } :=
  noteLost_eq _ _ _

/-- An event enters the queue, and the oldest one falls out of a full queue. -/
theorem pushQueue_eq (s : Layout T) (q : Queued) :
    s.pushQueue q = { s with
      queue := (s.queue.pushBack q).1
      trace := s.trace ++ (s.queue.pushBack q).2.toList.map .eventLost } :=
  noteLost_eq _ _ _

/-- A new decision takes the place of the one that was waiting, which is lost. -/
theorem setWaiting_eq (s : Layout T) (w : Nat → WaitingState T) :
    s.setWaiting w = { s with
      waiting := some (w s.created)
      created := s.created + 1
      waits := s.waits ++ [.began (w s.created)]
      trace := s.trace ++ [.waitingCreated s.created] ++
        s.waiting.toList.map fun lost => .waitingLost lost.id } :=
  noteLost_eq _ _ _

/-- A decision that begins while another one waits is put behind those that do already. -/
theorem pushExtraWaiting_eq (s : Layout T) (w : Nat → WaitingState T) :
    s.pushExtraWaiting w = { s with
      extraWaiting := (s.extraWaiting.pushBack (w s.created)).1
      created := s.created + 1
      waits := s.waits ++ [.began (w s.created)]
      trace := s.trace ++ [.waitingCreated s.created] ++
        (s.extraWaiting.pushBack (w s.created)).2.toList.map fun lost => .waitingLost lost.id } :=
  noteLost_eq _ _ _

/-- A decision that was made is no longer among those that wait. -/
theorem takeWaiting_eq (s : Layout T) (w : WaitingState T) (outcome : WaitingAction)
    (idx : Option Nat) :
    s.takeWaiting w outcome idx = { s with
      waiting := (s.takeWaiting w outcome idx).waiting
      extraWaiting := (s.takeWaiting w outcome idx).extraWaiting
      waits := s.waits ++ [.decided w outcome]
      trace := s.trace ++ [.waitingResolved w.id outcome] } := by
  cases idx <;> rfl

/-- An event arrives: the histories of inputs get it. -/
theorem arrive_eq (s : Layout T) (event : Event) :
    s.arrive event = { s with
      arrivals := s.arrivals + 1
      historicalInputs := (s.arrive event).historicalInputs
      historicalInputsSansHoldsOrTimeouts :=
        (s.arrive event).historicalInputsSansHoldsOrTimeouts
      trace := (s.arrive event).trace } := by
  cases event <;> rfl

/-- An eager tap-dance takes the place of the one that was going on. -/
theorem startTapDanceEager_eq (s : Layout T) (coord : KCoord) (td : TapDance (Action T)) :
    s.startTapDanceEager coord td = { s with
      tapDanceEager := (s.startTapDanceEager coord td).tapDanceEager
      trace := (s.startTapDanceEager coord td).trace } := by
  unfold startTapDanceEager
  dsimp only
  split
  · rfl
  · split <;> rfl

/-- An input event goes to the chords or to the queue of the layout, and to nothing else. -/
theorem enqueue_eq (cfg : LayoutConfig C R T) (s : Layout T) (q : Queued) :
    (s.enqueue cfg q).1 = { s with
      queue := (s.enqueue cfg q).1.queue
      chordsV2 := (s.enqueue cfg q).1.chordsV2 } := by
  unfold enqueue
  split <;> rfl

/-- A custom action is held, if there is room for its state. -/
theorem pushCustom_eq (s : Layout T) (value : T) (coord : KCoord) :
    s.pushCustom value coord = { s with
      states := (s.pushCustom value coord).states
      trace := s.trace ++
        [if s.states.isFull then .customRefused value else .customAdded value coord] } := by
  unfold pushCustom
  split <;> rfl

/-- The decision that waits is forgotten, and the notes say which one it was. -/
theorem loseWaiting_eq (s : Layout T) :
    s.loseWaiting = { s with
      waiting := none
      trace := s.trace ++ s.waiting.toList.map fun w => .waitingLost w.id } := by
  unfold loseWaiting
  split
  · rename_i w hw
    simp [hw, note]
  · rename_i hw
    have htrace : (s.waiting.toList.map fun w => (.waitingLost w.id : Occurrence T)) = [] := by
      simp [hw]
    -- nothing was waiting, so nothing is noted
    rw [htrace, List.append_nil, ← hw]

/-- The oldest event leaves the queue, if there is one. -/
theorem takeEvent_eq (s : Layout T) :
    s.takeEvent = { s with
      queue := s.queue.popFront.2
      trace := s.trace ++ s.queue.items.head?.toList.map .eventTaken } := by
  unfold takeEvent
  split
  · rename_i q queue hpop
    have hhead : s.queue.items.head? = some q := congrArg Prod.fst hpop
    have hrest : s.queue.popFront.2 = queue := congrArg Prod.snd hpop
    rw [hrest, hhead]
    rfl
  · rename_i hpop
    have hhead : s.queue.items.head? = none := congrArg Prod.fst hpop
    -- the queue is empty and stays so
    have hsame : s.queue.popFront.2 = s.queue := Bounded.popFront_of_none hhead
    rw [hsame, hhead]
    simp

/-- The oldest action leaves the action queue, if there is one. -/
theorem takeAction_eq (s : Layout T) :
    s.takeAction = { s with
      actionQueue := s.actionQueue.popFront.2
      trace := s.trace ++ s.actionQueue.items.head?.toList.map .actionTaken } := by
  unfold takeAction
  split
  · rename_i qa actionQueue hpop
    have hhead : s.actionQueue.items.head? = some qa := congrArg Prod.fst hpop
    have hrest : s.actionQueue.popFront.2 = actionQueue := congrArg Prod.snd hpop
    rw [hrest, hhead]
    rfl
  · rename_i hpop
    have hhead : s.actionQueue.items.head? = none := congrArg Prod.fst hpop
    have hsame : s.actionQueue.popFront.2 = s.actionQueue := Bounded.popFront_of_none hhead
    rw [hsame, hhead]
    simp

/-- Clearing the flagged keys touches the states that it returns, the pause and the keys to
suppress. By induction on the states. -/
theorem clearOnNextAction_eq {cfg : LayoutConfig C R T} :
    ∀ {states states' : List (State T)} {s s' : Layout T},
      clearOnNextAction cfg states s = .ok (states', s') →
        s' = { s with
          oneshot := { s.oneshot with
            pauseInputProcessingTicks := s'.oneshot.pauseInputProcessingTicks
            pauses := s'.oneshot.pauses }
          keysToSuppressForOneCycle := s'.keysToSuppressForOneCycle }
  | [], states', s, s', h => by
    obtain ⟨rfl, rfl⟩ := Prod.mk.inj (pure_eq_ok.mp h)
    rfl
  | st :: states, states', s, s', h => by
    -- a state that stays
    have hstays : (clearOnNextAction cfg states s >>= fun r => pure (st :: r.1, r.2)) =
        .ok (states', s') → s' = { s with
          oneshot := { s.oneshot with
            pauseInputProcessingTicks := s'.oneshot.pauseInputProcessingTicks
            pauses := s'.oneshot.pauses }
          keysToSuppressForOneCycle := s'.keysToSuppressForOneCycle } := by
      intro hrest
      rcases bind_eq_ok.mp hrest with ⟨⟨rest, s₁⟩, hinner, heq⟩
      obtain ⟨rfl, rfl⟩ := Prod.mk.inj (pure_eq_ok.mp heq)
      exact clearOnNextAction_eq hinner
    cases st with
    | normalKey keycode coord flags =>
      by_cases hflag : flags.clearOnNextAction = true
      -- a flagged key is cleared, and it pauses the input; the rest is cleared behind it
      · simp only [clearOnNextAction, hflag, if_true] at h
        rcases bind_eq_ok.mp h with ⟨ticks, _, h⟩
        have hrest := clearOnNextAction_eq h
        rw [hrest]
        split <;> rfl
      · simp only [clearOnNextAction, hflag] at h
        exact hstays h
    | _ => exact hstays h

/-- What happens before an action is performed: the flagged keys are cleared and the last press
is tracked. -/
theorem beforeAction_eq {cfg : LayoutConfig C R T} {coord : KCoord} {s s' : Layout T}
    (h : s.beforeAction cfg coord = .ok s') :
    s' = { s with
      lastPressTracker := s'.lastPressTracker
      states := s'.states
      oneshot := { s.oneshot with
        pauseInputProcessingTicks := s'.oneshot.pauseInputProcessingTicks
        pauses := s'.oneshot.pauses }
      keysToSuppressForOneCycle := s'.keysToSuppressForOneCycle } := by
  unfold beforeAction at h
  rcases bind_eq_ok.mp h with ⟨⟨states, s₁⟩, hclear, heq⟩
  obtain rfl := pure_eq_ok.mp heq
  -- only the tracker of the last press was touched before
  have hcleared := clearOnNextAction_eq hclear
  dsimp only
  rw [hcleared]
  split <;> rfl

/-! ## Macros -/

/-- An event of a macro changes the states, the one-shot keys and the history of keys. -/
theorem processSequence_eq (s : Layout T) (seq : SequenceState T) :
    (processSequence s seq).1 = { s with
      states := (processSequence s seq).1.states
      oneshot := (processSequence s seq).1.oneshot
      historicalKeys := (processSequence s seq).1.historicalKeys
      trace := (processSequence s seq).1.trace } := by
  -- a tap or a press of a key does three things one after the other
  have hkey : ∀ kc,
      (((s.pushState (.fakeKey kc)).pushHistoricalKey kc).oneshotHandlePress (.other (0, 0))).1 =
        { s with
          states := s.states.pushIgnore (.fakeKey kc)
          oneshot := (s.oneshot.handlePress (.other (0, 0))).1
          historicalKeys := ((s.pushState (.fakeKey kc)).pushHistoricalKey kc).historicalKeys
          trace := ((s.pushState (.fakeKey kc)).pushHistoricalKey kc).trace } := by
    intro kc
    rw [pushHistoricalKey_eq]
    rfl
  unfold processSequence
  split
  · rfl
  · split
    · rfl
    · dsimp only
      split
      all_goals split
      all_goals first
        | rfl
        | rw [hkey]

/-- A turn of one macro changes the same fields, and the macros that are active. -/
theorem advanceSequence_eq (s : Layout T) :
    s.advanceSequence = { s with
      activeSequences := s.advanceSequence.activeSequences
      states := s.advanceSequence.states
      oneshot := s.advanceSequence.oneshot
      historicalKeys := s.advanceSequence.historicalKeys
      trace := s.advanceSequence.trace } := by
  unfold advanceSequence
  rcases s.activeSequences.popFront with ⟨_ | seq, activeSequences⟩
  · rfl
  · dsimp only
    rw [processSequence_eq]
    split <;> rfl

/-- The macros are advanced one after the other. -/
theorem processActive_succ (n : Nat) (s : Layout T) :
    processActive (n + 1) s = processActive n s.advanceSequence := by
  unfold advanceSequence
  conv_lhs => unfold processActive
  rcases s.activeSequences.popFront with ⟨_ | seq, activeSequences⟩ <;> rfl

/-- Macros put nothing into the action queue. -/
theorem processActive_actionQueue :
    ∀ (n : Nat) (s : Layout T), (processActive n s).actionQueue = s.actionQueue := by
  intro n
  induction n with
  | zero => exact fun _ => rfl
  | succ n ih =>
    intro s
    rw [processActive_succ, ih, advanceSequence_eq]

/-- Neither does a repeatable macro that starts over. -/
theorem processSequences_actionQueue (s : Layout T) :
    s.processSequences.actionQueue = s.actionQueue := by
  unfold processSequences
  dsimp only
  split
  · split
    · rw [startSequence_eq]
      exact processActive_actionQueue _ _
    · exact processActive_actionQueue _ _
  · exact processActive_actionQueue _ _

/-- The part of a tick before the chords leaves the action queue alone. -/
theorem tickTimers_actionQueue (s : Layout T) : s.tickTimers.actionQueue = s.actionQueue :=
  processSequences_actionQueue s.ageInputs

/-- A custom action of a macro changes its state and is noted. -/
theorem processSequenceCustom_eq (s : Layout T) (custom : CustomEvent T) :
    (s.processSequenceCustom custom).1 = { s with
      states := (s.processSequenceCustom custom).1.states
      trace := (s.processSequenceCustom custom).1.trace } := by
  unfold processSequenceCustom
  split
  · rfl
  · dsimp only
    split <;> rfl
  · rfl

/-- Once a custom event is on its way, the custom actions of macros have to wait. -/
theorem processSequenceCustom_busy (s : Layout T) {custom : CustomEvent T}
    (h : custom ≠ .noEvent) : s.processSequenceCustom custom = (s, custom) := by
  unfold processSequenceCustom
  split
  · rfl
  · exact absurd rfl h
  · rfl

end Kanata.Layout
