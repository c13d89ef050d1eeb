import Kanata.Layout.Trace
import Kanata.Lib.Replay

/-!
# Kanata.Layout.Told — what the trace tells of a layout

The eager tap-dance, the three histories and what `rpt` repeats change only where the trace
has a note. `teller` says what each note makes of them and when it is right: a press makes
the call that the tap-dance before it has for it, and a call of `do_action` that is finished
goes from a layout that the trace has passed to the one that it is at.

Main result:
* `run_tells` — the trace of a run tells what these parts of the layout are.
-/

namespace Kanata

open Fallible Machine

variable {C R : Nat} {T : Type}

/-- The parts of a layout that the trace tells. -/
structure Told (T : Type) where
  tapDanceEager : Option (TapDanceEagerState T)
  historicalKeys : History KeyCode
  historicalInputs : History KCoord
  historicalInputsSansHoldsOrTimeouts : History KCoord
  rptAction : Option (Action T)
  rptMultikeyKeyBuffer : MultiKeyBuffer

/-- The parts of a new layout. -/
def Told.initial : Told T := ⟨none, .new, .new, .new, none, .new⟩

def Layout.told (s : Layout T) : Told T where
  tapDanceEager := s.tapDanceEager
  historicalKeys := s.historicalKeys
  historicalInputs := s.historicalInputs
  historicalInputsSansHoldsOrTimeouts := s.historicalInputsSansHoldsOrTimeouts
  rptAction := s.rptAction
  rptMultikeyKeyBuffer := s.rptMultikeyKeyBuffer

/-! ## The notes about an eager tap-dance -/

/-- A tap-dance that starts, with its first action performed. -/
def TapDance.started (coord : KCoord) (td : TapDance (Action T)) : TapDanceEagerState T :=
  ⟨coord, td.actions, td.timeout, td.timeout, 1⟩

/-- The tap-dance that takes a press, when the last press of the real row was at `last`. -/
def danceTaking (dance : Option (TapDanceEagerState T)) (last p : KCoord) :
    Option (TapDanceEagerState T) :=
  if p = last then dance.filter fun tde => !tde.isExpired else none

/-- The call of a press has the next action of the tap-dance that takes it, or the transparent
action without one. -/
def CallsFor (dance : Option (TapDanceEagerState T)) (call : Call T) (last : KCoord) : Prop :=
  match danceTaking dance last call.coord with
  | some tde => tde.actions[tde.numTaps]? = some call.action
  | none => call.action = .trans

/-- A press is counted, or one of the real row ends the tap-dance. -/
def dancePressed (dance : Option (TapDanceEagerState T)) (last p : KCoord) :
    Option (TapDanceEagerState T) :=
  match danceTaking dance last p with
  | some tde => some tde.incrTaps
  | none => if p.1 = realKeyRow then dance.map .setExpired else dance

/-- A tick of the tap-dance. -/
def danceTicked (dance : Option (TapDanceEagerState T)) : Option (TapDanceEagerState T) :=
  match dance with
  | some tde => if tde.tickTde.isExpired then none else some tde.tickTde
  | none => none

theorem takePress_tapDanceEager (s : Layout T) (p : KCoord) :
    (s.takePress p).tapDanceEager = dancePressed s.tapDanceEager s.lastPressTracker.coord p := by
  unfold Layout.takePress dancePressed
  show (match s.danceAt p with | some tde => _ | none => _ : Layout T).tapDanceEager = _
  cases hdance : s.danceAt p with
  | some tde =>
    have htaking : danceTaking s.tapDanceEager s.lastPressTracker.coord p = some tde := hdance
    rw [htaking]
  | none =>
    have htaking : danceTaking s.tapDanceEager s.lastPressTracker.coord p = none := hdance
    rw [htaking]
    dsimp only
    split <;> rfl

/-! ## The teller -/

namespace Told

/-- What a note makes of the parts that it is about. -/
def next (v : Told T) : Occurrence T → Told T
  | .keyRecorded kc => { v with historicalKeys := v.historicalKeys.pushFront kc }
  | .inputRecorded c => { v with
      historicalInputs := v.historicalInputs.pushFront c
      historicalInputsSansHoldsOrTimeouts := v.historicalInputsSansHoldsOrTimeouts.pushFront c }
  | .inputExcluded c => { v with
      historicalInputsSansHoldsOrTimeouts := v.historicalInputsSansHoldsOrTimeouts.exclude c }
  | .historiesAged => { v with
      historicalKeys := v.historicalKeys.tickHist
      historicalInputs := v.historicalInputs.tickHist
      historicalInputsSansHoldsOrTimeouts := v.historicalInputsSansHoldsOrTimeouts.tickHist }
  | .danceStarted coord td => { v with tapDanceEager := some (td.started coord) }
  | .pressed call last => { v with tapDanceEager := dancePressed v.tapDanceEager last call.coord }
  | .danceAged => { v with tapDanceEager := danceTicked v.tapDanceEager }
  | .remembered action => { v with rptAction := some action }
  | .chordRemembered buffer => { v with
      rptMultikeyKeyBuffer := buffer
      rptAction := some .multiKeyBuffer }
  | _ => v

/-- What a trace tells. -/
def of (trace : List (Occurrence T)) : Told T := trace.foldl next .initial

theorem of_append (past os : List (Occurrence T)) : of (past ++ os) = os.foldl next (of past) :=
  List.foldl_append

/-- When a note is right, after `past`. -/
def right (cfg : LayoutConfig C R T) (past : List (Occurrence T)) (v : Told T) :
    Occurrence T → Prop
  | .pressed call last => CallsFor v.tapDanceEager call last
  | .performed _ _ found =>
    found.rptAction = v.rptAction ∧ found.rptMultikeyKeyBuffer = v.rptMultikeyKeyBuffer
  | .finished call left =>
    ∃ s s', s.Obeys (Discipline.free cfg) ∧ CallOf cfg call s s' ∧
      s'.trace = past ++ [.finished call left] ∧ s'.found = left ∧ s'.told = v
  | _ => True

end Told

/-- What the notes of a layout make of its parts. -/
def teller (cfg : LayoutConfig C R T) : Teller (Occurrence T) (Told T) :=
  ⟨Told.next, Told.right cfg⟩

/-- The notes about it have nothing to tell. -/
def Topic.isQuiet : Topic → Bool
  | .custom => true
  | .waiting => true
  | .action => true
  | .sequence => true
  | .event => true
  | _ => false

theorem neutral_of_topic (cfg : LayoutConfig C R T) {o : Occurrence T}
    (h : o.topic.isQuiet = true) : (teller cfg).Neutral o := by
  cases o <;> first | exact fun _ _ => ⟨rfl, trivial⟩ | cases h

/-! ## The parts of a step -/

/-- What the trace gains from the one layout to the other tells what the parts become. -/
def Telling (cfg : LayoutConfig C R T) (s s' : Layout T) : Prop :=
  ∃ os, s'.trace = s.trace ++ os ∧ (teller cfg).Tells s.trace s.told os s'.told

section Telling

variable {cfg : LayoutConfig C R T} {s s₁ s₂ s' : Layout T} {e : CustomEvent T}

namespace Telling

theorem same (htrace : s'.trace = s.trace) (htold : s'.told = s.told) : Telling cfg s s' :=
  ⟨[], by rw [htrace, List.append_nil], htold⟩

theorem trans (h : Telling cfg s s₁) (h' : Telling cfg s₁ s₂) : Telling cfg s s₂ := by
  rcases h with ⟨os, htrace, htells⟩
  rcases h' with ⟨os', htrace', htells'⟩
  rw [htrace] at htells'
  exact ⟨os ++ os', by rw [htrace', htrace, List.append_assoc], htells.append htells'⟩

/-- Notes about something else. -/
theorem quiet {topic : Topic} {os : List (Occurrence T)} (htrace : s'.trace = s.trace ++ os)
    (hos : About topic os) (hquiet : topic.isQuiet = true) (htold : s'.told = s.told) :
    Telling cfg s s' := by
  refine ⟨os, htrace, ?_⟩
  rw [htold]
  exact .of_neutral fun o ho => neutral_of_topic cfg (by rw [hos o ho]; exact hquiet)

/-- One note. -/
theorem one {o : Occurrence T} (htrace : s'.trace = s.trace ++ [o])
    (hright : (teller cfg).right s.trace s.told o) (hnext : s'.told = s.told.next o) :
    Telling cfg s s' :=
  ⟨[o], htrace, .one hright hnext⟩

end Telling

theorem pushHistoricalKey_telling (s : Layout T) (kc : KeyCode) :
    Telling cfg s (s.pushHistoricalKey kc) := by
  unfold Layout.pushHistoricalKey
  split
  · exact .same rfl rfl
  · exact .one (o := .keyRecorded kc) rfl trivial rfl

theorem startTapDanceEager_telling (s : Layout T) (coord : KCoord) (td : TapDance (Action T)) :
    Telling cfg s (s.startTapDanceEager coord td) := by
  have hstarted : Telling cfg s ({ s with
      tapDanceEager := some (td.started coord) }.note (.danceStarted coord td)) :=
    .one (o := .danceStarted coord td) rfl trivial rfl
  unfold Layout.startTapDanceEager
  dsimp only
  split
  · exact hstarted
  · split
    · exact hstarted
    · exact .same rfl rfl

/-- A press makes the call that the tap-dance has for it. -/
theorem takePress_telling {call : Call T} (h : s.MakesCall call) :
    Telling cfg s ((s.takePress call.coord).notePressed call) := by
  refine .one (s.takePress_trace call.coord call) h ?_
  rw [Layout.notePressed, Layout.takePress_eq, takePress_tapDanceEager]
  rfl

theorem arrive_telling (s : Layout T) (event : Event) : Telling cfg s (s.arrive event) := by
  cases event with
  | press i j => exact .one (o := .inputRecorded (i, j)) rfl trivial rfl
  | release i j => exact .same rfl rfl

/-- Each update notes what it does to the parts. -/
theorem Update.telling {u : Update T} (hu : u.Allowed (Discipline.free cfg) s) :
    Telling cfg s (u.apply cfg s) := by
  have hquiet : u.topic.isQuiet = true → (u.apply cfg s).told = s.told →
      Telling cfg s (u.apply cfg s) := .quiet (u.apply_trace s) (u.notes_about s)
  cases u with
  | setRptAction action => exact .one (o := .remembered action) rfl trivial rfl
  | setBuffer buffer => exact .one (o := .chordRemembered buffer) rfl trivial rfl
  | pushHistoricalKey kc => exact pushHistoricalKey_telling s kc
  | excludeFromHistory coord => exact .one (o := .inputExcluded coord) rfl trivial rfl
  | arrive event => exact arrive_telling s event
  | startTapDanceEager coord td => exact startTapDanceEager_telling s coord td
  | takePress call => exact takePress_telling hu
  | perform action coord => exact .one (o := .performed action coord s.found) rfl ⟨rfl, rfl⟩ rfl
  | finish call =>
    rcases hu with ⟨t, ht, hcall⟩
    exact .one (o := .finished call s.found) rfl ⟨t, _, ht, hcall, rfl, rfl, rfl⟩ rfl
  | startSequence events =>
    exact hquiet rfl (by rw [Update.apply, Layout.startSequence_eq]; rfl)
  | setDefaultLayer value =>
    exact hquiet rfl (by rw [Update.apply, Layout.setDefaultLayer_eq]; rfl)
  | deferAction qa => exact hquiet rfl (by rw [Update.apply, Layout.pushAction_eq]; rfl)
  | setWaiting w => exact hquiet rfl (by rw [Update.apply, Layout.setWaiting_eq]; rfl)
  | pushExtraWaiting w => exact hquiet rfl (by rw [Update.apply, Layout.pushExtraWaiting_eq]; rfl)
  | takeWaiting w outcome idx => exact hquiet rfl (by rw [Update.apply, Layout.takeWaiting_eq]; rfl)
  | enqueue q => exact hquiet rfl (by rw [Update.apply, Layout.enqueue_eq]; rfl)
  | _ => exact hquiet rfl rfl

theorem pushCustom_telling (s : Layout T) (value : T) (coord : KCoord) :
    Telling cfg s (s.pushCustom value coord) := by
  have habout : About .custom
      [if s.states.isFull then .customRefused value
        else (.customAdded value coord : Occurrence T)] := by
    split <;> exact .cons rfl (.nil _)
  refine .quiet (pushCustom_trace s value coord) habout rfl ?_
  rw [Layout.pushCustom_eq]
  rfl

theorem discard_telling (s : Layout T) (e : CustomEvent T) : Telling cfg s (s.discard e) := by
  have habout : About .custom (Layout.discardNotes e) := by
    cases e with
    | noEvent => exact .nil _
    | press v => exact .cons rfl (.nil _)
    | release v => exact .cons rfl (.nil _)
  refine .quiet (Layout.discard_trace s e) habout rfl ?_
  rw [Layout.discard_eq]
  rfl

theorem dequeueRelease_telling {c : KCoord} (h : s.dequeueRelease c = .ok (s', e)) :
    Telling cfg s s' := by
  rcases dequeueRelease_eq_ok h with ⟨states, rel, _, _, rfl⟩
  have habout : About .custom (rel.removed.map (Occurrence.customReleased (T := T))) :=
    .map (by intro _; rfl) _
  exact .quiet rfl habout rfl rfl

theorem Performs.telling (h : Performs (Discipline.free cfg) s s' e) : Telling cfg s s' := by
  induction h with
  | refl s => exact .same rfl rfl
  | update u hu => exact u.telling hu
  | custom s value coord => exact pushCustom_telling s value coord
  | release h => exact dequeueRelease_telling h
  | merge _ _ ih₁ ih₂ => exact (ih₁.trans ih₂).trans (discard_telling _ _)
  | discard _ ih => exact ih.trans (discard_telling _ _)

theorem processSequence_telling (s : Layout T) (seq : SequenceState T) :
    Telling cfg s (Layout.processSequence s seq).1 := by
  have hkey : ∀ kc, Telling cfg s
      (((s.pushState (.fakeKey kc)).pushHistoricalKey kc).oneshotHandlePress
        (.other (0, 0))).1 := by
    intro kc
    have hpushed : Telling cfg s (s.pushState (.fakeKey kc)) := .same rfl rfl
    exact (hpushed.trans (pushHistoricalKey_telling _ kc)).trans (.same rfl rfl)
  unfold Layout.processSequence
  split
  · exact .same rfl rfl
  · split
    · exact .same rfl rfl
    · dsimp only
      split
      all_goals split
      all_goals first
        | exact hkey _
        | exact .same rfl rfl

theorem advanceSequence_telling (s : Layout T) : Telling cfg s s.advanceSequence := by
  unfold Layout.advanceSequence
  rcases s.activeSequences.popFront with ⟨_ | seq, activeSequences⟩
  · exact .same rfl rfl
  · have htaken : Telling cfg s { s with activeSequences } := .same rfl rfl
    have hprocessed := htaken.trans (processSequence_telling _ seq)
    dsimp only
    split
    · exact hprocessed
    · exact hprocessed.trans (.same rfl rfl)

/-- What passes in a step notes what it does to the parts. -/
theorem Passing.telling (u : Passing T) (s : Layout T) : Telling cfg s (u.apply s) := by
  have hquiet : u.topic.isQuiet = true → (u.apply s).told = s.told →
      Telling cfg s (u.apply s) := .quiet (u.apply_trace s) (u.notes_about s)
  cases u with
  | ageInputs => exact .one (o := .danceAged) rfl trivial rfl
  | ageHistories => exact .one (o := .historiesAged) rfl trivial rfl
  | advanceSequence => exact advanceSequence_telling s
  | receive q => exact hquiet rfl (by rw [Passing.apply, Layout.pushQueue_eq]; rfl)
  | queueChord qa => exact hquiet rfl (by rw [Passing.apply, Layout.pushAction_eq]; rfl)
  | restartSequence events => exact hquiet rfl (by rw [Passing.apply, Layout.startSequence_eq]; rfl)
  | takeEvent => exact hquiet rfl (by rw [Passing.apply, Layout.takeEvent_eq]; rfl)
  | tickWaiting t => exact hquiet rfl (by rw [Passing.apply, Layout.afterTickWt_eq]; rfl)
  | tickExtraWaiting i t => exact hquiet rfl (by rw [Passing.apply, Layout.afterTickWt_eq]; rfl)
  | loseWaiting => exact hquiet rfl (by rw [Passing.apply, Layout.loseWaiting_eq]; rfl)
  | advanceCustom => exact hquiet rfl (by rw [Passing.apply, Layout.processSequenceCustom_eq]; rfl)
  | _ => exact hquiet rfl rfl

theorem Advances.telling (h : Advances (Discipline.free cfg) s s' e) : Telling cfg s s' := by
  induction h with
  | performs h => exact h.telling
  | pass u _ => exact u.telling _
  | @takes s s' e qa count _ _ h =>
    have htaken : Telling cfg s s.takeAction := by
      refine .quiet s.takeAction_trace (.map (by intro _; rfl) _) rfl ?_
      rw [Layout.takeAction_eq]
      rfl
    exact htaken.trans h.telling
  | merge _ _ ih₁ ih₂ => exact (ih₁.trans ih₂).trans (discard_telling _ _)

/-- The trace of a run tells what the parts of the layout are. -/
theorem run_tells {delay : Nat} {ops : List LayoutOp} {os : List (CustomEvent T)}
    (h : run (Layout.step cfg) (.new delay) ops = .ok (s', os)) :
    (teller cfg).Tells [] .initial s'.trace s'.told := by
  have htelling : Telling cfg (.new delay) s' :=
    (@run_advances _ _ _ cfg delay ops s' os (fun _ s => Telling cfg (.new delay) s)
      (.same rfl rfl) (fun _ _ _ _ hbefore hstep => hbefore.trans hstep.telling) h).2
  rcases htelling with ⟨notes, htrace, htells⟩
  have hsame : s'.trace = notes := htrace
  rw [hsame]
  exact htells

theorem run_told {delay : Nat} {ops : List LayoutOp} {os : List (CustomEvent T)}
    (h : run (Layout.step cfg) (.new delay) ops = .ok (s', os)) : s'.told = .of s'.trace :=
  (run_tells h).eq_replay

/-- Each note of a run is right where it stands. -/
theorem run_right {delay : Nat} {ops : List LayoutOp} {os : List (CustomEvent T)}
    {past after : List (Occurrence T)} {o : Occurrence T}
    (h : run (Layout.step cfg) (.new delay) ops = .ok (s', os))
    (htrace : s'.trace = past ++ o :: after) : Told.right cfg past (.of past) o := by
  have htells := run_tells h
  rw [htrace] at htells
  exact htells.right

end Telling

end Kanata
