import Kanata.Layout.Discipline
import Kanata.Layout.Presses

/-!
# Kanata.Layout.Performs — what performing an action can do

`Update` lists the single updates that the functions around `do_action` make, and
`Performs D s s' e` says that the layout goes from `s` to `s'` by such updates,
by releases and by custom actions, all within the discipline `D`, and that the
custom event `e` comes out. `doAction_actsWithin` is the one place where the
branches of `do_action` are gone through; what follows from them is proved by
induction on `Performs`.
-/

namespace Kanata

open Fallible

variable {C R : Nat} {T : Type}

/-- A single update of the layout. -/
inductive Update (T : Type) where
  | setRptAction (action : Action T)
  | updateCoord (coord : KCoord)
  | setTapHoldTimeout (timeout : Nat)
  | pushHistoricalKey (kc : KeyCode)
  | oneshotHandlePress (key : OneShotHandlePressKey)
  | addStateToRetain (state : OneShotRetainableState)
  | pauseInputProcessing
  | extendPause (ticks : Nat)
  | passPause
  | suppressKey (kc : KeyCode)
  | setBuffer (buffer : MultiKeyBuffer)
  | setPauseHistory (paused : Bool)
  | clearFlagged
  | pushNormalKey (kc : KeyCode) (coord : KCoord) (flags : NormalKeyFlags)
  | pushLayer (value : Nat) (coord : KCoord)
  | pushNoOpInput (coord : KCoord)
  | pushRepeating (events : List (SequenceEvent T)) (coord : KCoord)
  | releaseState (rs : ReleasableState)
  | cancelSequences
  | startSequence (events : List (SequenceEvent T))
  | setDefaultLayer (value : Nat)
  | ignoreEvents (ticks : Nat)
  | startOneShot (timeout : Nat) (endConfig : OneShotEndConfig) (coord : KCoord)
  | deferAction (qa : QueuedAction T)
  | loseAction (qa : QueuedAction T)
  | setWaiting (w : Nat → WaitingState T)
  | pushExtraWaiting (w : Nat → WaitingState T)
  | startTapDanceEager (coord : KCoord) (td : TapDance (Action T))
  | takePress (call : Call T)
  | countActivation
  | perform (action : Action T) (coord : KCoord)
  | finish (call : Call T)
  | excludeFromHistory (coord : KCoord)
  | takeWaiting (w : WaitingState T) (outcome : WaitingAction) (idx : Option Nat)
  | arrive (event : Event)
  | enqueue (q : Queued)
  | process (q : Queued)

/-- The action waits without a look at what waits already. -/
def Action.takesPlace : Action T → Bool
  | .tapDance td => td.config == .lazy
  | .chords _ => true
  | _ => false

/-- The last thing that happened is that the layout began to perform the action. -/
def Layout.IsPerforming (s : Layout T) (action : Action T) : Prop :=
  ∃ coord, s.trace.getLast? = some (.performed action coord s.found)

/-- `do_action` is called in the one layout and returns the other, and `call` is what it
performs: the call that it got, with a transparent action resolved. -/
def CallOf (cfg : LayoutConfig C R T) (call : Call T) (s s' : Layout T) : Prop :=
  ∃ given depth count e count', cfg.resolveTrans given = .ok call ∧
    Layout.doAction cfg depth given count s = .ok (s', e, count')

/-- The states without the output chords that the next action ends. -/
def unflagged (states : List (State T)) : List (State T) :=
  states.filter fun st =>
    match st with
    | .normalKey _ _ flags => !flags.clearOnNextAction
    | _ => true

namespace Update

/-- The layout after the update. -/
def apply (cfg : LayoutConfig C R T) (s : Layout T) : Update T → Layout T
  | .setRptAction action => s.setRptAction action
  | .updateCoord coord => s.updateCoord coord
  | .setTapHoldTimeout timeout => s.setTapHoldTimeout timeout
  | .pushHistoricalKey kc => s.pushHistoricalKey kc
  | .oneshotHandlePress key => (s.oneshotHandlePress key).1
  | .addStateToRetain state => s.addStateToRetain state
  | .pauseInputProcessing => s.pauseInputProcessing
  | .extendPause ticks => { s with oneshot := s.oneshot.extendPause ticks }
  | .passPause => { s with oneshot := s.oneshot.passPause }
  | .suppressKey kc => s.suppressKey kc
  | .setBuffer buffer => s.setRptBuffer buffer
  | .setPauseHistory paused => { s with pauseHistoricalKeysUpdates := paused }
  | .clearFlagged => { s with states := .ofTake _ (unflagged s.states.items) }
  | .pushNormalKey kc coord flags => s.pushState (.normalKey kc coord flags)
  | .pushLayer value coord => s.pushState (.layerModifier value coord)
  | .pushNoOpInput coord => s.pushState (.noOpInput coord)
  | .pushRepeating events coord => s.pushState (.repeatingSequence events coord)
  | .releaseState rs => { s with states := s.states.retain (State.survivesReleaseState rs) }
  | .cancelSequences =>
    { s with activeSequences := .empty, states := s.states.retain fun st => !st.isFakeKey }
  | .startSequence events => s.startSequence events
  | .setDefaultLayer value => s.setDefaultLayer cfg value
  | .ignoreEvents ticks => { s with oneshot := { s.oneshot with ticksToIgnoreEvents := ticks } }
  | .startOneShot timeout endConfig coord =>
    { s with oneshot :=
      { s.oneshot with timeout, endConfig, keys := (s.oneshot.keys.pushBack coord).1 } }
  | .deferAction qa => s.pushAction qa
  | .loseAction qa => s.note (.actionLost qa)
  | .setWaiting w => s.setWaiting w
  | .pushExtraWaiting w => s.pushExtraWaiting w
  | .startTapDanceEager coord td => s.startTapDanceEager coord td
  | .takePress call => (s.takePress call.coord).notePressed call
  | .countActivation => { s with activations := s.activations + 1 }
  | .perform action coord => s.note (.performed action coord s.found)
  | .finish call => s.note (.finished call s.found)
  | .excludeFromHistory coord => s.excludeFromHistory coord
  | .takeWaiting w outcome idx => s.takeWaiting w outcome idx
  | .arrive event => s.arrive event
  | .enqueue q => (s.enqueue cfg q).1
  | .process q => s.note (.eventProcessed q)

/-- The update keeps to the discipline, in the layout it is made in. A decision or a macro
starts right after its action began to be performed, and an event that is queued is the one
that arrived last. -/
def Allowed {cfg : LayoutConfig C R T} {E : Panic → Prop} (D : Discipline cfg E) (s : Layout T) :
    Update T → Prop
  | .setRptAction action => D.repeats action
  | .extendPause ticks =>
    addU16 cfg.overflowChecks s.oneshot.pauseInputProcessingTicks 2 = .ok ticks
  | .pushLayer value coord => D.performs (.layer value) coord
  | .pushRepeating events coord => D.performs (.repeatableSequence events) coord
  | .startSequence events =>
    ∃ a c, (a = .sequence events ∨ a = .repeatableSequence events) ∧ D.performs a c ∧
      s.IsPerforming a
  | .deferAction qa => qa.Obeys D ∧ ∃ v, qa.action = .custom v
  | .setWaiting w =>
    (∀ id, (w id).Obeys D ∧ (w id).id = id) ∧
      (s.waiting = none ∨ ∃ a, a.takesPlace = true ∧ s.IsPerforming a)
  | .pushExtraWaiting w =>
    s.waiting.isSome = true ∧ (∀ id, (w id).Obeys D ∧ (w id).id = id) ∧
      ∃ ht, s.IsPerforming (.holdTap ht) ∧ ∀ id, (w id).config = .holdTap ht.config
  | .startTapDanceEager _ td => ∀ a ∈ td.actions, ∀ c, D.presses c → D.performs a c
  | .takePress call => s.MakesCall call
  | .perform action coord => D.performs action coord ∧ action ≠ .trans
  | .finish call => ∃ t, t.Obeys D ∧ CallOf cfg call t (s.note (.finished call s.found))
  | .takeWaiting w outcome idx => s.waitingAt idx = some w ∧ D.resolves outcome
  | .enqueue q => q.Obeys D ∧ ∃ n, s.arrivals = n + 1 ∧ q.origin = some n
  | _ => True

end Update

/-- The layout goes from the first state to the second, and the custom event
comes out. -/
inductive Performs {cfg : LayoutConfig C R T} {E : Panic → Prop} (D : Discipline cfg E) :
    Layout T → Layout T → CustomEvent T → Prop where
  | refl (s : Layout T) : Performs D s s .noEvent
  | update {s : Layout T} (u : Update T) (h : u.Allowed D s) :
    Performs D s (u.apply cfg s) .noEvent
  | custom (s : Layout T) (value : T) (coord : KCoord) :
    Performs D s (s.pushCustom value coord) (.press value)
  | release {s s' : Layout T} {c : KCoord} {e : CustomEvent T}
    (h : s.dequeueRelease c = .ok (s', e)) : Performs D s s' e
  | merge {s s₁ s₂ : Layout T} {e₁ e₂ : CustomEvent T} (h₁ : Performs D s s₁ e₁)
    (h₂ : Performs D s₁ s₂ e₂) : Performs D s (s₂.discard (e₁.lost e₂)) (e₁.update e₂)
  | discard {s s' : Layout T} {e : CustomEvent T} (h : Performs D s s' e) :
    Performs D s (s'.discard e) .noEvent

namespace Performs

variable {cfg : LayoutConfig C R T} {E : Panic → Prop} {D : Discipline cfg E}
  {s s₁ s₂ : Layout T} {e : CustomEvent T}

theorem trans (h₁ : Performs D s s₁ .noEvent) (h₂ : Performs D s₁ s₂ e) : Performs D s s₂ e := by
  have h := h₁.merge h₂
  rwa [CustomEvent.noEvent_update] at h

theorem trans_noEvent (h₁ : Performs D s s₁ e) (h₂ : Performs D s₁ s₂ .noEvent) :
    Performs D s s₂ e := by
  have h := h₁.merge h₂
  rw [CustomEvent.update_noEvent] at h
  cases e <;> exact h

/-- One more update at the start. -/
theorem after (u : Update T) (hu : u.Allowed D s) (h : Performs D (u.apply cfg s) s₂ e) :
    Performs D s s₂ e :=
  (Performs.update u hu).trans h

/-- One more update at the end. -/
theorem andThen (h : Performs D s s₁ e) (u : Update T) (hu : u.Allowed D s₁) :
    Performs D s (u.apply cfg s₁) e :=
  h.trans_noEvent (.update u hu)

end Performs

/-- The layout goes from the first state to the second by updates alone, so that no custom
event is involved. -/
inductive Updates {cfg : LayoutConfig C R T} {E : Panic → Prop} (D : Discipline cfg E) :
    Layout T → Layout T → Prop where
  | refl (s : Layout T) : Updates D s s
  | andThen {s s₁ : Layout T} (h : Updates D s s₁) (u : Update T) (hu : u.Allowed D s₁) :
    Updates D s (u.apply cfg s₁)

namespace Updates

variable {cfg : LayoutConfig C R T} {E : Panic → Prop} {D : Discipline cfg E} {s s₁ s₂ : Layout T}

theorem update (u : Update T) (hu : u.Allowed D s) : Updates D s (u.apply cfg s) :=
  (refl s).andThen u hu

theorem trans (h₁ : Updates D s s₁) (h₂ : Updates D s₁ s₂) : Updates D s s₂ := by
  induction h₂ with
  | refl => exact h₁
  | andThen h₂ u hu ih => exact ih.andThen u hu

theorem performs (h : Updates D s s₁) : Performs D s s₁ .noEvent := by
  induction h with
  | refl => exact .refl s
  | andThen h u hu ih => exact ih.andThen u hu

end Updates

/-! ## The discipline is kept -/

section Obeys

variable {cfg : LayoutConfig C R T} {E : Panic → Prop} {D : Discipline cfg E}
  {s s' : Layout T} {e : CustomEvent T}

namespace Layout.Obeys

theorem note (h : s.Obeys D) (o : Occurrence T) : (s.note o).Obeys D := { h with }

theorem discard (h : s.Obeys D) (e : CustomEvent T) : (s.discard e).Obeys D := by
  cases e with
  | noEvent => exact h
  | press v => exact h.note _
  | release v => exact h.note _

theorem noteLost {α : Type} (h : s.Obeys D) (lost : Option α) (o : α → Occurrence T) :
    (s.noteLost lost o).Obeys D := by
  cases lost with
  | none => exact h
  | some x => exact h.note _

theorem pushState (h : s.Obeys D) {st : State T} (hst : st.Obeys D) : (s.pushState st).Obeys D :=
  { h with
    states := by
      intro st' hmem
      rcases Bounded.mem_pushIgnore hmem with hmem | rfl
      · exact h.states st' hmem
      · exact hst }

/-- The states that are left keep to the discipline. -/
theorem subStates (h : s.Obeys D) {states : Bounded statesLen (State T)}
    (hsub : ∀ st ∈ states.items, st ∈ s.states.items) : { s with states }.Obeys D :=
  { h with states := fun st hst => h.states st (hsub st hst) }

theorem pushAction (h : s.Obeys D) {qa : QueuedAction T} (hqa : qa.Obeys D) :
    (s.pushAction qa).Obeys D := by
  have hpushed : { s with actionQueue := (s.actionQueue.pushBack qa).1 }.Obeys D :=
    { h with
      actionQueue := by
        intro qa' hmem
        rcases Bounded.mem_pushBack hmem with hmem | rfl
        · exact h.actionQueue qa' hmem
        · exact hqa }
  exact (hpushed.note _).noteLost _ _

theorem startSequence (h : s.Obeys D) (events : List (SequenceEvent T)) :
    (s.startSequence events).Obeys D := by
  have hpushed : { s with
      activeSequences := (s.activeSequences.pushBack ⟨none, 0, none, events⟩).1 }.Obeys D :=
    { h with }
  exact (hpushed.note _).noteLost _ _

theorem setWaiting (h : s.Obeys D) {w : Nat → WaitingState T} (hw : ∀ id, (w id).Obeys D) :
    (s.setWaiting w).Obeys D := by
  have hset : (({ s with waiting := some (w s.created), created := s.created + 1 }.noteWait
      (.began (w s.created))).note (.waitingCreated s.created)).Obeys D :=
    { h with
      waiting := by
        intro w' hw'
        cases hw'
        exact hw s.created }
  exact hset.noteLost _ _

theorem pushExtraWaiting (h : s.Obeys D) {w : Nat → WaitingState T} (hw : ∀ id, (w id).Obeys D) :
    (s.pushExtraWaiting w).Obeys D := by
  have hpushed : ({ s with
      extraWaiting := (s.extraWaiting.pushBack (w s.created)).1
      created := s.created + 1 }.noteWait (.began (w s.created))).Obeys D :=
    { h with
      extraWaiting := by
        intro w' hmem
        rcases Bounded.mem_pushBack hmem with hmem | rfl
        · exact h.extraWaiting w' hmem
        · exact hw s.created }
  exact (hpushed.note _).noteLost _ _

theorem takeWaiting (h : s.Obeys D) (w : WaitingState T) (outcome : WaitingAction)
    (idx : Option Nat) : (s.takeWaiting w outcome idx).Obeys D := by
  cases idx with
  | none => exact { h with waiting := fun _ hw => by cases hw }
  | some i =>
    exact { h with
      extraWaiting := fun w' hw' => h.extraWaiting w' (List.mem_of_mem_eraseIdx hw') }

theorem waitingAt (h : s.Obeys D) {idx : Option Nat} {w : WaitingState T}
    (hw : s.waitingAt idx = some w) : w.Obeys D := by
  cases idx with
  | none => exact h.waiting w hw
  | some i => exact h.extraWaiting w (List.mem_of_getElem? hw)

theorem enqueue (h : s.Obeys D) {q : Queued} (hq : q.Obeys D) : (s.enqueue cfg q).1.Obeys D := by
  unfold Layout.enqueue
  split
  · refine { h with chordsQueue := ?_ }
    intro q' hmem
    rcases Bounded.mem_pushBack hmem with hmem | rfl
    · exact h.chordsQueue q' hmem
    · exact hq
  · refine { h with queue := ?_ }
    intro q' hmem
    rcases Bounded.mem_pushBack hmem with hmem | rfl
    · exact h.queue q' hmem
    · exact hq

theorem startTapDanceEager (h : s.Obeys D) (coord : KCoord) {td : TapDance (Action T)}
    (htd : ∀ a ∈ td.actions, ∀ c, D.presses c → D.performs a c) :
    (s.startTapDanceEager coord td).Obeys D := by
  have hstarted : { s with
      tapDanceEager := some ⟨coord, td.actions, td.timeout, td.timeout, 1⟩ }.Obeys D :=
    { h with tapDanceEager := fun tde htde => by cases htde; exact htd }
  unfold Layout.startTapDanceEager
  split
  · exact hstarted.note _
  · split
    · exact hstarted.note _
    · exact h

theorem takePress (h : s.Obeys D) (p : KCoord) : (s.takePress p).Obeys D := by
  unfold Layout.takePress
  split
  · rename_i tde hdance
    have htde := h.tapDanceEager tde (Layout.danceAt_eq_some.mp hdance).2.1
    exact { h with tapDanceEager := fun tde' htde' => by cases htde'; exact htde }
  · split
    · refine { h with tapDanceEager := ?_ }
      intro tde' htde'
      rcases Option.map_eq_some_iff.mp htde' with ⟨tde, htde, rfl⟩
      exact h.tapDanceEager tde htde
    · exact h

/-- Allowed updates keep to the discipline. -/
theorem update (h : s.Obeys D) {u : Update T} (hu : u.Allowed D s) : (u.apply cfg s).Obeys D := by
  cases u with
  | setRptAction action => exact { h with rptAction := fun a ha => by cases ha; exact hu }
  | updateCoord coord => exact { h with }
  | setTapHoldTimeout timeout => exact { h with }
  | pushHistoricalKey kc =>
    simp only [Update.apply, Layout.pushHistoricalKey]
    split
    · exact h
    · exact { h with }
  | oneshotHandlePress key => exact { h with }
  | addStateToRetain state => exact { h with }
  | pauseInputProcessing => exact { h with }
  | extendPause ticks => exact { h with }
  | passPause => exact { h with }
  | suppressKey kc => exact { h with }
  | setBuffer buffer =>
    exact { h with rptAction := fun a ha => by cases ha; exact D.repeatKeys }
  | setPauseHistory paused => exact { h with }
  | clearFlagged =>
    exact h.subStates fun st hst => (List.mem_filter.mp (Bounded.mem_ofTake hst)).1
  | pushNormalKey kc coord flags => exact h.pushState trivial
  | pushLayer value coord => exact h.pushState (D.layer hu)
  | pushNoOpInput coord => exact h.pushState trivial
  | pushRepeating events coord => exact h.pushState trivial
  | releaseState rs => exact h.subStates fun st hst => (List.mem_filter.mp hst).1
  | cancelSequences =>
    have hsub : { s with activeSequences := .empty }.Obeys D := { h with }
    exact hsub.subStates fun st hst => (List.mem_filter.mp hst).1
  | startSequence events => exact h.startSequence events
  | setDefaultLayer value =>
    simp only [Update.apply, Layout.setDefaultLayer]
    split
    · rename_i hlt
      exact { h with defaultLayer := D.defaultLayer hlt }
    · exact h
  | ignoreEvents ticks => exact { h with }
  | startOneShot timeout endConfig coord => exact { h with }
  | deferAction qa => exact h.pushAction hu.1
  | loseAction qa => exact h.note _
  | setWaiting w => exact h.setWaiting fun id => (hu.1 id).1
  | pushExtraWaiting w => exact h.pushExtraWaiting fun id => (hu.2.1 id).1
  | startTapDanceEager coord td => exact h.startTapDanceEager coord hu
  | takePress call => exact (h.takePress call.coord).note _
  | countActivation => exact { h with }
  | perform action coord => exact h.note _
  | finish call => exact h.note _
  | excludeFromHistory coord => exact { h with }
  | takeWaiting w outcome idx => exact h.takeWaiting w outcome idx
  | arrive event => cases event <;> exact { h with }
  | enqueue q => exact h.enqueue hu.1
  | process q => exact h.note _

end Layout.Obeys

/-- A release, taken apart: the one-shot state, the states that are left and the
custom states that are gone. -/
theorem dequeueRelease_eq_ok {c : KCoord} (h : s.dequeueRelease c = .ok (s', e)) :
    ∃ (states : List (State T)) (rel : Released T),
      states.Sublist s.states.items ∧ e = rel.custom ∧
      s' = { s with
        oneshot := (s.oneshot.handleRelease c).1
        states := .ofTake _ states
        customEventReleaseQueue := rel.queue
        trace := s.trace ++ rel.removed.map .customReleased } := by
  unfold Layout.dequeueRelease at h
  rcases hrel : s.oneshot.handleRelease c with ⟨oneshot, doRelease, overflowKey⟩
  rw [hrel] at h
  rcases bind_eq_ok.mp h with ⟨⟨states₁, rel₁⟩, h₁, h⟩
  rcases bind_eq_ok.mp h with ⟨⟨states₂, rel₂⟩, h₂, h⟩
  simp only [pure_eq_ok, Prod.mk.injEq] at h
  refine ⟨states₂, rel₂, ?_, h.2.symm, h.1.symm⟩
  have hsub := retainStates_sublist h₁
  cases overflowKey with
  | none =>
    simp only [Layout.releaseOverflow, pure_eq_ok, Prod.mk.injEq] at h₂
    rwa [← h₂.1]
  | some c₂ => exact (retainStates_sublist h₂).trans hsub

theorem Performs.obeys (h : Performs D s s' e) (hs : s.Obeys D) : s'.Obeys D := by
  induction h with
  | refl s => exact hs
  | update u hu => exact hs.update hu
  | custom s value coord =>
    unfold Layout.pushCustom
    split
    · exact hs.note _
    · have hst : State.Obeys D (.custom value coord) := trivial
      exact (hs.pushState hst).note _
  | @release s s' c e h =>
    rcases dequeueRelease_eq_ok h with ⟨states, rel, hsub, _, rfl⟩
    have hleft : { s with states := .ofTake _ states }.Obeys D :=
      hs.subStates fun st hst => hsub.subset (Bounded.mem_ofTake hst)
    exact { hleft with }
  | merge h₁ h₂ ih₁ ih₂ => exact (ih₂ (ih₁ hs)).discard _
  | discard h ih => exact (ih hs).discard _

end Obeys

end Kanata
