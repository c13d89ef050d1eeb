import Kanata.Layout.Panics

/-!
# Kanata.Layout.Branches — the branches of `do_action`

Each function around `do_action` performs what the discipline allows, provided
that the `do_action` it calls does. The recursion is closed by induction on the
depth of the call stack.
-/

namespace Kanata

open Fallible

variable {C R : Nat} {T : Type} {cfg : LayoutConfig C R T} {E : Panic → Prop}
  {D : Discipline cfg E} {s : Layout T}

/-! ## The branches without further actions -/

/-- The keys that are flagged are gone, and what was done on the way are allowed updates. By
induction on the states. -/
theorem clearOnNextAction_ensures (D : Discipline cfg E) :
    ∀ (states : List (State T)) (s : Layout T),
      Ensures (Layout.clearOnNextAction cfg states s)
        (fun r => r.1 = unflagged states ∧ Updates D s r.2 ∧ r.2.states = s.states) E := by
  intro states
  induction states with
  | nil => exact fun s => ⟨rfl, .refl s, rfl⟩
  | cons st states ih =>
    intro s
    -- a state that stays
    have hstays : ∀ st' : State T, unflagged (st' :: states) = st' :: unflagged states →
        Ensures (Layout.clearOnNextAction cfg states s >>= fun r => pure (st' :: r.1, r.2))
          (fun r => r.1 = unflagged (st' :: states) ∧ Updates D s r.2 ∧
            r.2.states = s.states) E := by
      intro st' hst'
      refine Ensures.bind ((ih s).mono ?_ fun _ hp => hp)
      rintro ⟨rest, s'⟩ ⟨hrest, h⟩
      exact ⟨by rw [hst', ← hrest], h⟩
    cases st with
    | normalKey keycode coord flags =>
      by_cases hflag : flags.clearOnNextAction = true
      -- a flagged key: the input is paused, and a key that is no modifier is suppressed
      · simp only [Layout.clearOnNextAction, hflag, if_true]
        refine Ensures.bind
          ((D.addU16 cfg.overflowChecks s.oneshot.pauseInputProcessingTicks 2).mono_ok ?_
            fun _ hp => hp)
        intro ticks hadd _
        have hticks : Updates D s _ := .update (.extendPause ticks) hadd
        have htail : unflagged (.normalKey keycode coord flags :: states) = unflagged states := by
          simp [unflagged, hflag]
        rw [htail]
        split
        · exact (ih _).mono (fun _ h => ⟨h.1, hticks.trans h.2.1, h.2.2⟩) fun _ hp => hp
        · have hboth := hticks.andThen (.suppressKey keycode) trivial
          exact (ih _).mono (fun _ h => ⟨h.1, hboth.trans h.2.1, h.2.2⟩) fun _ hp => hp
      · simp only [Layout.clearOnNextAction, hflag]
        exact hstays _ (by simp [unflagged, hflag])
    | _ => exact hstays _ (by simp [unflagged])

/-- What happens before each action is made of allowed updates. -/
theorem beforeAction_ensures (D : Discipline cfg E) (coord : KCoord) (s : Layout T) :
    Ensures (s.beforeAction cfg coord) (fun s' => Updates D s s') E := by
  unfold Layout.beforeAction
  -- after the press was compared with the last one, the flagged keys are cleared
  have hclear : ∀ s₁ : Layout T, Updates D s s₁ →
      Ensures (Layout.clearOnNextAction cfg s₁.states.items s₁ >>= fun r =>
        pure { r.2 with states := .ofTake _ r.1 }) (fun s' => Updates D s s') E := by
    intro s₁ h₁
    refine Ensures.bind ((clearOnNextAction_ensures D s₁.states.items s₁).mono ?_ fun _ hp => hp)
    rintro ⟨states, s₂⟩ ⟨hstates, h₂, hsame⟩
    have h := (h₁.trans h₂).andThen .clearFlagged trivial
    have heq : states = unflagged s₂.states.items := by
      have hsame : s₂.states = s₁.states := hsame
      rw [hsame]
      exact hstates
    simp only [Update.apply, ← heq] at h
    exact h
  dsimp only
  split
  · exact hclear _ (.update (.setTapHoldTimeout 0) trivial)
  · exact hclear s (.refl s)

/-- A press that ends one-shot keys, unless it is part of one. -/
theorem pressOther_updates (s : Layout T) (isOneshot : Bool) (coord : KCoord) :
    Updates D s (s.pressOther isOneshot coord) := by
  unfold Layout.pressOther
  split
  · exact .refl s
  · exact .update (.oneshotHandlePress (.other coord)) trivial

/-- A one-shot action keeps the key codes that it holds, one after the other. -/
theorem retain_updates (coord : KCoord) :
    ∀ (kcs : List KeyCode) (s : Layout T),
      Updates D s (kcs.foldl (fun s kc => s.addStateToRetain (.keyCode coord kc)) s)
  | [], _ => .refl _
  | kc :: kcs, _ =>
    (Updates.update (.addStateToRetain (.keyCode coord kc)) trivial).trans
      (retain_updates coord kcs _)

variable {call : Call T}

/-- The end of the key code branches: one-shot keys and what is remembered for a repeat. -/
theorem finishKeyCodes_updates (hcall : D.repeats call.action) (s : Layout T)
    (kcs : List KeyCode) (pushKeys : MultiKeyBuffer → MultiKeyBuffer) :
    Updates D s (s.finishKeyCodes call kcs pushKeys) := by
  unfold Layout.finishKeyCodes
  split
  · exact (retain_updates call.coord kcs s).andThen (.setRptAction call.action) hcall
  · have hpress : Updates D s (s.oneshotHandlePress (.other call.coord)).1 :=
      .update (.oneshotHandlePress _) trivial
    dsimp only
    split
    · exact hpress.andThen (.setRptAction call.action) hcall
    · exact hpress.andThen (.setBuffer _) trivial

/-- `KeyCode`: the key code is held at the coordinate of the call. -/
theorem doKeyCode_updates (hcall : D.repeats call.action) (s : Layout T) (kc : KeyCode) :
    Updates D s (s.doKeyCode call kc) := by
  have h : Updates D s _ := .update (.updateCoord call.coord) trivial
  have h := h.andThen (.pushHistoricalKey kc) trivial
  have h := h.andThen (.pushNormalKey kc call.coord ⟨false, false⟩) trivial
  exact h.trans (finishKeyCodes_updates hcall _ _ _)

/-- One key of an output chord. A key that is held already is let go for a cycle, so that it is
pressed again. -/
theorem pressKeyCode_updates (s : Layout T) (kc : KeyCode) :
    Updates D s (Layout.pressKeyCode call s kc) := by
  have hpush : ∀ s₁ : Layout T, Updates D s s₁ →
      Updates D s ((s₁.pushHistoricalKey kc).pushState
        (.normalKey kc call.coord ⟨!call.isOneshot, false⟩)) := fun s₁ h₁ =>
    (h₁.andThen (.pushHistoricalKey kc) trivial).andThen
      (.pushNormalKey kc call.coord ⟨!call.isOneshot, false⟩) trivial
  unfold Layout.pressKeyCode
  dsimp only
  split
  · exact hpush _ (.update (.suppressKey kc) trivial)
  · exact hpush s (.refl s)

/-- The keys of an output chord, in their order. -/
theorem pressKeyCodes_updates :
    ∀ (kcs : List KeyCode) (s : Layout T),
      Updates D s (kcs.foldl (Layout.pressKeyCode call) s)
  | [], _ => .refl _
  | kc :: kcs, s => (pressKeyCode_updates s kc).trans (pressKeyCodes_updates kcs _)

/-- `MultipleKeyCodes`, an output chord. -/
theorem doMultipleKeyCodes_updates (hcall : D.repeats call.action) (s : Layout T)
    (kcs : List KeyCode) (pushKeys : MultiKeyBuffer → MultiKeyBuffer) :
    Updates D s (s.doMultipleKeyCodes call kcs pushKeys) :=
  ((Updates.update (.updateCoord call.coord) trivial).trans (pressKeyCodes_updates kcs _)).trans
    (finishKeyCodes_updates hcall _ _ _)

/-- `NoOp`: the coordinate is held without an output. -/
theorem doNoOp_updates (hcall : D.repeats call.action) (s : Layout T) :
    Updates D s (s.doNoOp call) := by
  have hpush : ∀ s₁ : Layout T, Updates D s s₁ →
      Updates D s ((s₁.setRptAction call.action).pushState (.noOpInput call.coord)) :=
    fun s₁ h₁ =>
      (h₁.andThen (.setRptAction call.action) hcall).andThen (.pushNoOpInput call.coord) trivial
  unfold Layout.doNoOp
  dsimp only
  split
  · exact hpush _ (pressOther_updates s call.isOneshot call.coord)
  · exact hpush s (.refl s)

/-- `Sequence`: a macro starts, and the action that is performed has it. -/
theorem doSequence_updates {events : List (SequenceEvent T)}
    (haction : call.action = .sequence events)
    (hcall : D.performs call.action call.coord) (hperforming : s.IsPerforming call.action) :
    Updates D s (s.doSequence call events) := by
  have h : Updates D s _ :=
    .update (.startSequence events) ⟨call.action, call.coord, .inl haction, hcall, hperforming⟩
  exact (h.trans (pressOther_updates _ _ _)).andThen (.setRptAction call.action)
    (D.remember hcall (by rw [haction]; rfl))

/-- `RepeatableSequence`: besides the macro its coordinate is held, so that it starts over. -/
theorem doRepeatableSequence_updates {events : List (SequenceEvent T)}
    (haction : call.action = .repeatableSequence events)
    (hcall : D.performs call.action call.coord) (hperforming : s.IsPerforming call.action) :
    Updates D s (s.doRepeatableSequence call events) := by
  have hallowed : D.performs (.repeatableSequence events) call.coord := haction ▸ hcall
  have h : Updates D s _ :=
    .update (.startSequence events) ⟨call.action, call.coord, .inr haction, hcall, hperforming⟩
  have h := h.andThen (.pushRepeating events call.coord) hallowed
  exact (h.trans (pressOther_updates _ _ _)).andThen (.setRptAction call.action)
    (D.remember hcall (by rw [haction]; rfl))

/-- Releasing the fake keys of some states lets go of every state with their key codes. By
induction on the states to do. -/
theorem releaseFakeKeys_items (todo : List (State T)) (states : Bounded statesLen (State T)) :
    (todo.foldl Layout.releaseFakeKey states).items =
      states.items.filter fun st =>
        !(st.isFakeKey && todo.any fun st' => st'.isFakeKey && st'.keycode == st.keycode) := by
  induction todo generalizing states with
  | nil => simp
  | cons st todo ih =>
    rw [List.foldl_cons, ih]
    cases st with
    | fakeKey keycode =>
      simp only [Layout.releaseFakeKey, Bounded.retain_items, List.filter_filter]
      apply List.filter_congr
      intro st' _
      cases st' with
      | fakeKey keycode' =>
        by_cases heq : keycode' = keycode
        · simp [State.isFakeKey, State.survivesSeqRelease, State.keycode, heq]
        · have hne : (keycode == keycode') = false := beq_eq_false_iff_ne.mpr (Ne.symm heq)
          simp [State.isFakeKey, State.survivesSeqRelease, State.keycode, heq, hne]
      | _ => simp [State.isFakeKey, State.survivesSeqRelease]
    | _ => simp [Layout.releaseFakeKey, State.isFakeKey]

/-- Releasing every fake key that was there leaves none. -/
theorem releaseFakeKeys_all (states : Bounded statesLen (State T)) :
    states.items.foldl Layout.releaseFakeKey states = states.retain fun st => !st.isFakeKey := by
  apply Bounded.ext
  rw [releaseFakeKeys_items, Bounded.retain_items]
  apply List.filter_congr
  intro st hst
  by_cases hfake : st.isFakeKey = true
  · have hany : (states.items.any fun st' => st'.isFakeKey && st'.keycode == st.keycode) = true :=
      List.any_eq_true.mpr ⟨st, hst, by simp [hfake]⟩
    simp [hfake, hany]
  · simp [hfake]

/-- `CancelSequences`: the macros end, and their keys are let go. -/
theorem doCancelSequences_updates (hcall : D.repeats call.action) (s : Layout T) :
    Updates D s (s.doCancelSequences call) := by
  have h : Updates D s _ := .update .cancelSequences trivial
  have h := (h.trans (pressOther_updates _ call.isOneshot call.coord)).andThen
    (.setRptAction call.action) hcall
  simp only [Update.apply, ← releaseFakeKeys_all] at h
  exact h

/-- `Layer`: the layer is held at the coordinate of the call. -/
theorem doLayer_updates {value : Nat} (haction : call.action = .layer value)
    (hcall : D.performs call.action call.coord) (s : Layout T) :
    Updates D s (s.doLayer call value) := by
  have hallowed : D.performs (.layer value) call.coord := haction ▸ hcall
  have h : Updates D s _ := .update (.updateCoord call.coord) trivial
  have h := h.andThen (.pushLayer value call.coord) hallowed
  unfold Layout.doLayer
  dsimp only
  split
  · exact h.andThen (.addStateToRetain _) trivial
  · exact h.trans (pressOther_updates _ _ _)

/-- `DefaultLayer`: the layer below all held ones. -/
theorem doDefaultLayer_updates (s : Layout T) (value : Nat) :
    Updates D s (s.doDefaultLayer cfg call value) := by
  have h : Updates D s _ := .update (.updateCoord call.coord) trivial
  exact (h.andThen (.setDefaultLayer value) trivial).trans (pressOther_updates _ _ _)

/-- `ReleaseState`: the states of a key or of a layer are let go. -/
theorem doReleaseState_updates (hcall : D.repeats call.action) (s : Layout T)
    (rs : ReleasableState) : Updates D s (s.doReleaseState call rs) :=
  ((Updates.update (.releaseState rs) trivial).trans (pressOther_updates _ _ _)).andThen
    (.setRptAction call.action) hcall

/-- The updates of a custom action before it starts or is queued. -/
theorem doCustom_performs {value : T} (haction : call.action = .custom value)
    (hcall : call.Obeys D) (s : Layout T) (count : Nat) :
    Performs D s (s.doCustom call value count).1 (s.doCustom call value count).2.1 := by
  have h : Updates D s _ := .update (.updateCoord call.coord) trivial
  have h := h.trans (pressOther_updates _ call.isOneshot call.coord)
  have h := h.andThen (.setRptAction call.action)
    (D.remember hcall.action (by rw [haction]; rfl))
  unfold Layout.doCustom
  dsimp only
  split
  · exact h.performs.trans (.custom _ value call.coord)
  · have hdefer := h.andThen (.deferAction ⟨call.coord, call.delay, call.action, call.layerStack⟩)
      ⟨⟨hcall.action, hcall.layerStack⟩, value, haction⟩
    exact hdefer.performs

/-- A tap-dance or a chord that waits has nothing to perform yet. -/
theorem undecidedWaiting_obeys {config : WaitingConfig T} (hcall : call.Obeys D)
    (hconfig : config.Obeys D call.coord) (timeout id : Nat) :
    (Layout.undecidedWaiting config timeout call id).Obeys D where
  hold := D.noOp _
  tap := D.noOp _
  timeoutAction := D.noOp _
  config := hconfig
  undecided := fun _ => ⟨rfl, rfl⟩
  layerStack := hcall.layerStack
  ticks_le := Nat.zero_le _

/-- An action that waits in any case. -/
theorem takesPlace_allowed {w : Nat → WaitingState T} (hplace : call.action.takesPlace = true)
    (hperforming : s.IsPerforming call.action) (hw : ∀ id, (w id).Obeys D ∧ (w id).id = id) :
    (Update.setWaiting w).Allowed D (s.updateCoord call.coord) :=
  ⟨hw, .inr ⟨call.action, hplace, hperforming⟩⟩

/-- `TapDance`, lazy: it waits for the next taps, in the place of what waited before. -/
theorem doLazyTapDance_updates {td : TapDance (Action T)} (haction : call.action = .tapDance td)
    (hlazy : td.config = .lazy) (hcall : call.Obeys D) (hperforming : s.IsPerforming call.action) :
    Updates D s (s.doLazyTapDance call td) := by
  have hallowed : D.performs (.tapDance td) call.coord := haction ▸ hcall.action
  have hconfig : (WaitingConfig.tapDance ⟨td.actions, td.timeout, 1⟩).Obeys D call.coord :=
    D.tapDance hallowed
  have hplace : call.action.takesPlace = true := by simp [haction, Action.takesPlace, hlazy]
  exact (Updates.update (.updateCoord call.coord) trivial).andThen (.setWaiting _)
    (takesPlace_allowed hplace hperforming fun id =>
      ⟨undecidedWaiting_obeys hcall hconfig _ id, rfl⟩)

/-- `Chords`: the first key of a group waits for the others. -/
theorem doChords_updates {group : ChordsGroup (Action T)} (haction : call.action = .chords group)
    (hcall : call.Obeys D) (hperforming : s.IsPerforming call.action) :
    Updates D s (s.doChords call group) := by
  have hallowed : D.performs (.chords group) call.coord := haction ▸ hcall.action
  have hconfig : (WaitingConfig.chord group).Obeys D call.coord := fun _ hc => D.chords hallowed hc
  exact (Updates.update (.updateCoord call.coord) trivial).andThen (.setWaiting _)
    (takesPlace_allowed (by rw [haction]; rfl) hperforming fun id =>
      ⟨undecidedWaiting_obeys hcall hconfig _ id, rfl⟩)

/-- The action does all that it does in one call, and no custom event comes out. -/
def Action.isPlain : Action T → Bool
  | .noOp => true
  | .keyCode _ => true
  | .multipleKeyCodes _ => true
  | .multiKeyBuffer => true
  | .layer _ => true
  | .defaultLayer _ => true
  | .sequence _ => true
  | .repeatableSequence _ => true
  | .cancelSequences => true
  | .releaseState _ => true
  | .oneShotIgnoreEventsTicks _ => true
  | .tapDance td => td.config == .lazy
  | .chords _ => true
  | _ => false

/-- A plain action comes out without a custom event, and only makes allowed updates. One case
for each kind of action. -/
theorem perform_plain (act : DoAction T) (hcall : call.Obeys D)
    (hperforming : s.IsPerforming call.action) (hplain : call.action.isPlain = true)
    (count : Nat) :
    ∃ s', Layout.perform act cfg call count s = pure (s', .noEvent, count) ∧ Updates D s s' := by
  -- the kinds that a repeat remembers
  have hrpt : ∀ {action : Action T}, call.action = action → action.isRemembered = true →
      D.repeats call.action := by
    rintro action rfl h
    exact D.remember hcall.action h
  unfold Layout.perform
  cases haction : call.action with
  | noOp => exact ⟨_, rfl, doNoOp_updates (hrpt haction rfl) s⟩
  | keyCode keycode => exact ⟨_, rfl, doKeyCode_updates (hrpt haction rfl) s keycode⟩
  | multipleKeyCodes keycodes =>
    exact ⟨_, rfl, doMultipleKeyCodes_updates (hrpt haction rfl) s keycodes _⟩
  | multiKeyBuffer => exact ⟨_, rfl, doMultipleKeyCodes_updates (hrpt haction rfl) s _ _⟩
  | layer value => exact ⟨_, rfl, doLayer_updates haction hcall.action s⟩
  | defaultLayer value => exact ⟨_, rfl, doDefaultLayer_updates s value⟩
  | sequence events => exact ⟨_, rfl, doSequence_updates haction hcall.action hperforming⟩
  | repeatableSequence events =>
    exact ⟨_, rfl, doRepeatableSequence_updates haction hcall.action hperforming⟩
  | cancelSequences => exact ⟨_, rfl, doCancelSequences_updates (hrpt haction rfl) s⟩
  | releaseState rs => exact ⟨_, rfl, doReleaseState_updates (hrpt haction rfl) s rs⟩
  | oneShotIgnoreEventsTicks ticks =>
    have h : Updates D s _ := .update (.updateCoord call.coord) trivial
    have h := h.andThen (.setRptAction call.action) (hrpt haction rfl)
    rw [haction] at h
    exact ⟨_, rfl, h.andThen (.ignoreEvents ticks) trivial⟩
  | tapDance td =>
    have hlazy : td.config = .lazy := by
      rw [haction] at hplain
      exact eq_of_beq hplain
    dsimp only
    rw [hlazy]
    exact ⟨_, rfl, doLazyTapDance_updates haction hlazy hcall hperforming⟩
  | chords group => exact ⟨_, rfl, doChords_updates haction hcall hperforming⟩
  | _ =>
    rw [haction] at hplain
    cases hplain

/-! ## The branches that perform other actions -/

/-- A `do_action` that keeps to the discipline. -/
def ActsWithin (D : Discipline cfg E) (act : DoAction T) : Prop :=
  ∀ (call : Call T) (count : Nat) (s : Layout T), call.Obeys D → s.Obeys D →
    Ensures (act call count s) (fun r => Performs D s r.1 r.2.1) E

section Act

variable {act : DoAction T} (hact : ActsWithin D act)
include hact

/-- An action performed after `s₀` became `s`, and what is left to do after it. -/
theorem ActsWithin.bind (hcall : call.Obeys D) {s₀ : Layout T} (h₀ : Performs D s₀ s .noEvent)
    (hs : s₀.Obeys D) {β : Type} {count : Nat} {f : Layout T × CustomEvent T × Nat → Rust β}
    {Q : β → Prop}
    (hf : ∀ s' custom count', Performs D s₀ s' custom → Ensures (f (s', custom, count')) Q E) :
    Ensures (act call count s >>= f) Q E := by
  refine Ensures.bind ((hact call count s hcall (h₀.obeys hs)).mono ?_ fun _ hp => hp)
  rintro ⟨s', custom, count'⟩ h
  exact hf s' custom count' (h₀.trans h)

/-- An action whose custom event is thrown away. -/
theorem actDiscarding_ensures (hcall : call.Obeys D) (hs : s.Obeys D) (count : Nat) :
    Ensures (Layout.actDiscarding act call count s) (fun r => Performs D s r.1 r.2.1) E :=
  hact.bind hcall (.refl s) hs fun _ _ _ h => h.discard

/-- Several actions at one coordinate: their custom events are merged. By induction on the
actions. -/
theorem actAll_ensures {s₀ : Layout T} (hstack : ∀ l ∈ call.layerStack, D.layers l)
    (hs : s₀.Obeys D) :
    ∀ (actions : List (Action T)) (custom : CustomEvent T) (count : Nat) (s : Layout T),
      (∀ a ∈ actions, D.performs a call.coord) → Performs D s₀ s custom →
      Ensures (Layout.actAll act call actions custom count s) (fun r => Performs D s₀ r.1 r.2.1)
        E := by
  intro actions
  induction actions with
  | nil => exact fun _ _ _ _ h => h
  | cons action actions ih =>
    intro custom count s hactions h
    unfold Layout.actAll
    have hcall : Call.Obeys D { call with action } := ⟨hactions action List.mem_cons_self, hstack⟩
    refine hact.bind hcall (.refl s) (h.obeys hs) fun s' e count' h' => ?_
    exact ih _ _ _ (fun a ha => hactions a (List.mem_cons_of_mem _ ha)) (h.merge h')

/-- `Src`: the action of the source key of the coordinate. -/
theorem doSrc_ensures (hperforms : D.performs .src call.coord) (hs : s.Obeys D) (count : Nat) :
    Ensures (Layout.doSrc act cfg call count s) (fun r => Performs D s r.1 r.2.1) E := by
  refine Ensures.bind ((D.src hperforms).mono ?_ fun _ hp => hp)
  intro action haction
  have hnil : ∀ l ∈ ([] : List Nat), D.layers l := by simp
  have hcall : Call.Obeys D { call with action, layerStack := [] } := ⟨haction, hnil⟩
  exact actDiscarding_ensures hact hcall hs count

/-- `Repeat`: what was remembered is performed again, at the coordinate of the repeat. -/
theorem doRepeat_ensures (hperforms : D.performs .repeat call.coord) (hs : s.Obeys D)
    (count : Nat) :
    Ensures (Layout.doRepeat act call count s) (fun r => Performs D s r.1 r.2.1) E := by
  unfold Layout.doRepeat
  split
  · rename_i action haction
    have hnil : ∀ l ∈ ([] : List Nat), D.layers l := by simp
    have hcall : Call.Obeys D { call with action, layerStack := [] } :=
      ⟨D.rpt hperforms (hs.rptAction action haction), hnil⟩
    exact actDiscarding_ensures hact hcall hs count
  · exact .refl s

/-! ## Waiting states -/

omit hact in
/-- How long a decision has waited may overflow, and nothing else. -/
theorem waitedDelay_ensures (D : Discipline cfg E) (w : WaitingState T) :
    Ensures (Layout.waitedDelay cfg w) (fun _ => True) E := by
  unfold Layout.waitedDelay
  split
  · exact D.addU16 _ _ _
  · exact D.addU16 _ _ _
  · trivial

omit hact in
/-- A decision that is not for the tap: the key is left out of the history of quick presses, and
the wait is over. -/
theorem resolveSlowly_ensures (D : Discipline cfg E) {w : WaitingState T} {idx : Option Nat}
    (hw : s.waitingAt idx = some w) {outcome : WaitingAction} (houtcome : D.resolves outcome) :
    Ensures (s.resolveSlowly cfg w outcome idx) (fun r => Performs D s r.1 .noEvent) E := by
  refine Ensures.bind ((waitedDelay_ensures D w).mono ?_ fun _ hp => hp)
  intro delay _
  rw [ensures_pure]
  have hexclude : Performs D s _ .noEvent := .update (.excludeFromHistory w.coord) trivial
  have hsame : (Update.apply cfg s (.excludeFromHistory w.coord)).waitingAt idx = some w := by
    cases idx <;> exact hw
  have h := hexclude.andThen (.takeWaiting w outcome idx) ⟨hsame, houtcome⟩
  dsimp only
  split
  · exact h.andThen (.setTapHoldTimeout 0) trivial
  · exact h

/-- The decision for the hold action. -/
theorem waitingIntoHold_ensures (hs : s.Obeys D) (idx : Option Nat) :
    Ensures (Layout.waitingIntoHold act cfg idx s) (fun r => Performs D s r.1 r.2) E := by
  unfold Layout.waitingIntoHold
  split
  · exact .refl s
  · rename_i w hw
    have hobeys := hs.waitingAt hw
    refine Ensures.bind ((resolveSlowly_ensures D hw D.resolves_hold).mono ?_ fun _ hp => hp)
    rintro ⟨s₁, delay⟩ h₁
    have hcall : Call.Obeys D ⟨w.hold, w.coord, delay, false, w.layerStack⟩ :=
      ⟨hobeys.hold, hobeys.layerStack⟩
    exact hact.bind hcall (h₁.andThen .pauseInputProcessing trivial) hs fun _ _ _ h => h

/-- The decision for the timeout action. -/
theorem waitingIntoTimeout_ensures (hs : s.Obeys D) (houtcome : D.resolves .timeout)
    (idx : Option Nat) :
    Ensures (Layout.waitingIntoTimeout act cfg idx s) (fun r => Performs D s r.1 r.2) E := by
  unfold Layout.waitingIntoTimeout
  split
  · exact .refl s
  · rename_i w hw
    have hobeys := hs.waitingAt hw
    refine Ensures.bind ((resolveSlowly_ensures D hw houtcome).mono ?_ fun _ hp => hp)
    rintro ⟨s₁, delay⟩ h₁
    have hcall : Call.Obeys D ⟨w.timeoutAction, w.coord, delay, false, w.layerStack⟩ :=
      ⟨hobeys.timeoutAction, hobeys.layerStack⟩
    exact hact.bind hcall h₁ hs fun _ _ _ h => h

/-- The action of a chord at the other keys that were pressed for it. By induction on those
keys. -/
theorem replicate_ensures {s₀ : Layout T} (hstack : ∀ l ∈ call.layerStack, D.layers l)
    (hs : s₀.Obeys D) :
    ∀ (others : List (Action T × KCoord)) (count : Nat) (s : Layout T),
      (∀ o ∈ others, D.performs o.1 o.2) → Performs D s₀ s .noEvent →
      Ensures (Layout.replicate act call others count s)
        (fun r => Performs D s₀ r.1 .noEvent) E := by
  intro others
  induction others with
  | nil => exact fun _ _ _ h => h
  | cons o others ih =>
    intro count s hothers h
    unfold Layout.replicate
    have hcall : Call.Obeys D { call with action := o.1, coord := o.2 } :=
      ⟨hothers o List.mem_cons_self, hstack⟩
    -- the copy at the first of the other keys
    have hfirst :
      Ensures (Layout.actDiscarding act { call with action := o.1, coord := o.2 } count s)
        (fun r => Performs D s₀ r.1 .noEvent) E :=
      hact.bind hcall (.refl s) (h.obeys hs) fun _ _ _ h' => h.trans h'.discard
    refine Ensures.bind (hfirst.mono ?_ fun _ hp => hp)
    rintro ⟨s', _, count'⟩ h'
    exact ih count' s' (fun o' ho' => hothers o' (List.mem_cons_of_mem _ ho')) h'

omit hact in
/-- What is replicated is the action or parts of it. -/
theorem replicatedActions_performs {action : Action T} {c : KCoord} (h : D.performs action c) :
    ∀ a ∈ Layout.replicatedActions action, D.performs a c := by
  intro a ha
  unfold Layout.replicatedActions at ha
  split at ha
  · exact D.multipleActions h a (List.mem_filter.mp ha).1
  · split at ha
    · rw [List.mem_singleton.mp ha]
      exact h
    · simp at ha

/-- While the action is replicated the history of keys is paused. -/
theorem replicateForPressed_ensures {s₀ : Layout T} {w : WaitingState T}
    {pq : Option PressedQueue} {custom : CustomEvent T} (hs : s₀.Obeys D)
    (hstack : ∀ l ∈ w.layerStack, D.layers l)
    (hpq : ∀ q ∈ pq, ∀ c ∈ q.items, D.performs w.tap c) (delay : Nat)
    (h : Performs D s₀ s custom) :
    Ensures (Layout.replicateForPressed act w delay pq s) (fun s' => Performs D s₀ s' custom)
      E := by
  unfold Layout.replicateForPressed
  split
  · exact h
  · rename_i pq
    -- each part of the action, at each of the keys
    have hothers : ∀ o ∈ (Layout.replicatedActions w.tap).flatMap fun ac =>
        pq.items.map fun c => (ac, c), D.performs o.1 o.2 := by
      intro o ho
      simp only [List.mem_flatMap, List.mem_map] at ho
      rcases ho with ⟨ac, hac, c, hc, rfl⟩
      exact replicatedActions_performs (hpq pq rfl c hc) ac hac
    have hpaused : Performs D s _ .noEvent := .update (.setPauseHistory true) trivial
    have hloop : ∀ call : Call T, call.layerStack = w.layerStack →
        Ensures (Layout.replicate act call _ 0 _) (fun r => Performs D s r.1 .noEvent) E :=
      fun call hcall => replicate_ensures hact (hcall ▸ hstack) (h.obeys hs) _ 0 _ hothers hpaused
    refine Ensures.bind ((hloop _ rfl).mono ?_ fun _ hp => hp)
    rintro ⟨s', count⟩ h'
    exact h.trans_noEvent (h'.andThen (.setPauseHistory false) trivial)

/-- The decision for the tap action, and its copies at the keys of a chord. -/
theorem waitingIntoTap_ensures (hs : s.Obeys D) (houtcome : D.resolves .tap)
    {pq : Option PressedQueue} {idx : Option Nat}
    (hpq : ∀ w, s.waitingAt idx = some w → ∀ q ∈ pq, ∀ c ∈ q.items, D.performs w.tap c) :
    Ensures (Layout.waitingIntoTap act cfg pq idx s) (fun r => Performs D s r.1 r.2) E := by
  unfold Layout.waitingIntoTap
  split
  · exact .refl s
  · rename_i w hw
    have hobeys := hs.waitingAt hw
    refine Ensures.bind ((waitedDelay_ensures D w).mono ?_ fun _ hp => hp)
    intro delay _
    have htake : Performs D s _ .noEvent := .update (.takeWaiting w .tap idx) ⟨hw, houtcome⟩
    have hcall : Call.Obeys D ⟨w.tap, w.coord, delay, false, w.layerStack⟩ :=
      ⟨hobeys.tap, hobeys.layerStack⟩
    refine hact.bind hcall htake hs fun s₁ ret _ h₁ => ?_
    refine Ensures.bind ((replicateForPressed_ensures hact hs hobeys.layerStack (hpq w hw) delay
      h₁).mono ?_ fun _ hp => hp)
    intro s₂ h₂
    exact h₂.andThen .pauseInputProcessing trivial

/-! ## Events -/

omit hact in
/-- The call of a press performs what it may at its coordinate. -/
theorem calls_performs (hs : s.Obeys D) (hcalls : s.MakesCall call) (hc : D.presses call.coord) :
    D.performs call.action call.coord := by
  unfold Layout.MakesCall at hcalls
  split at hcalls
  · rename_i tde hdance
    have hobeys := hs.tapDanceEager tde (Layout.danceAt_eq_some.mp hdance).2.1
    exact hobeys call.action (List.mem_of_getElem? hcalls) call.coord hc
  · rw [hcalls]
    exact D.press hc

/-- A press that is taken from the queue performs the action of its coordinate, or goes on with
an eager tap-dance. -/
theorem dequeuePress_ensures (hs : s.Obeys D) {c : KCoord} (hc : D.presses c) (since : Nat) :
    Ensures (Layout.dequeuePress act cfg c since s) (fun r => Performs D s r.1 r.2) E := by
  rcases Layout.dequeuePress_calls act cfg since s with ⟨action, n, hcalls, heq⟩
  rw [heq]
  unfold Layout.performPressed
  refine Ensures.bind ((layerOrder_ensures hs).mono ?_ fun _ hp => hp)
  intro layerStack hstack
  have hcall : Call.Obeys D ⟨action, c, since, false, layerStack.drop n⟩ :=
    ⟨calls_performs hs (hcalls (layerStack.drop n)) hc,
      fun l hl => hstack l (List.mem_of_mem_drop hl)⟩
  have htake : Performs D s _ .noEvent := .update (.takePress _) (hcalls (layerStack.drop n))
  exact hact.bind hcall htake hs fun _ _ _ h => h

/-- An event that is taken from the queue. -/
theorem dequeue_ensures (hs : s.Obeys D) {q : Queued} (hq : q.Obeys D) :
    Ensures (Layout.dequeue act cfg q s) (fun r => Performs D s r.1 r.2) E := by
  have hprocess : Performs D s _ .noEvent := .update (.process q) trivial
  unfold Layout.dequeue
  dsimp only
  split
  · rename_i i j hev
    refine (dequeueRelease_panics D _ _).mono_ok ?_ fun _ hp => hp
    rintro ⟨s', custom⟩ hrel _
    exact hprocess.trans (.release hrel)
  · rename_i i j hev
    have hpress : D.presses (i, j) := by
      unfold Queued.Obeys at hq
      rwa [hev] at hq
    exact (dequeuePress_ensures hact (hprocess.obeys hs) hpress q.since).mono
      (fun _ h => hprocess.trans h) fun _ hp => hp

/-- Decisions are forced to hold, one after the other. Their custom events are thrown away. -/
theorem flush_ensures {s₀ : Layout T} (hs : s₀.Obeys D) :
    ∀ (idxs : List (Option Nat)) (s : Layout T), Performs D s₀ s .noEvent →
      Ensures (Layout.flush act cfg idxs s) (fun s' => Performs D s₀ s' .noEvent) E := by
  intro idxs
  induction idxs with
  | nil => exact fun _ h => h
  | cons idx idxs ih =>
    intro s h
    unfold Layout.flush
    refine Ensures.bind ((waitingIntoHold_ensures hact (h.obeys hs) idx).mono ?_ fun _ hp => hp)
    rintro ⟨s', custom⟩ h'
    exact ih _ (h.trans h'.discard)

/-- An event that falls out of the full queue is processed at once, after all decisions were
forced. -/
theorem overflowed_ensures {s₀ : Layout T} (hs : s₀.Obeys D) {q : Queued} (hq : q.Obeys D)
    (h : Performs D s₀ s .noEvent) :
    Ensures (Layout.overflowed act cfg q s) (fun s' => Performs D s₀ s' .noEvent) E := by
  unfold Layout.overflowed
  refine Ensures.bind ((flush_ensures hact hs _ _ h).mono ?_ fun _ hp => hp)
  intro s₁ h₁
  refine Ensures.bind ((dequeue_ensures hact (h₁.obeys hs) hq).mono ?_ fun _ hp => hp)
  rintro ⟨s₂, custom⟩ h₂
  exact h₁.trans h₂.discard

omit hact in
/-- What drops out of a queue was in it, or is the event itself. -/
theorem enqueue_obeys (hs : s.Obeys D) {q overflow : Queued} (hq : q.Obeys D)
    (h : (s.enqueue cfg q).2 = some overflow) : overflow.Obeys D := by
  unfold Layout.enqueue at h
  split at h
  · rcases Bounded.mem_of_pushBack_eq_some h with hmem | rfl
    · exact hs.chordsQueue _ hmem
    · exact hq
  · rcases Bounded.mem_of_pushBack_eq_some h with hmem | rfl
    · exact hs.queue _ hmem
    · exact hq

omit hact in
/-- Nothing is asked of a release. -/
theorem releases_obey (c : KCoord) (n : Nat) : Queued.Obeys D ⟨.release c.1 c.2, 0, some n⟩ :=
  trivial

/-- What `event` does once the event is in the histories. -/
theorem eventWith_arrived (hs : s.Obeys D) {event : Event}
    (hevent : Queued.Obeys D ⟨event, 0, some s.arrivals⟩) :
    Ensures (Layout.eventWith act cfg event s)
      (fun s' => Performs D (s.arrive event) s' .noEvent) E := by
  have harrive : Performs D s (s.arrive event) .noEvent := .update (.arrive event) trivial
  have hobeys : (s.arrive event).Obeys D := harrive.obeys hs
  have henqueue : Performs D (s.arrive event) _ .noEvent :=
    .update (.enqueue ⟨event, 0, some s.arrivals⟩)
      ⟨hevent, s.arrivals, by cases event <;> rfl, rfl⟩
  unfold Layout.eventWith
  dsimp only
  split
  · exact henqueue
  · rename_i overflow heq
    exact overflowed_ensures hact hobeys (enqueue_obeys hobeys hevent heq) henqueue

/-- `event`: the histories, the queue and what falls out of it. -/
theorem eventWith_ensures (hs : s.Obeys D) {event : Event}
    (hevent : Queued.Obeys D ⟨event, 0, some s.arrivals⟩) :
    Ensures (Layout.eventWith act cfg event s) (fun s' => Performs D s s' .noEvent) E := by
  have harrive : Performs D s (s.arrive event) .noEvent := .update (.arrive event) trivial
  exact (eventWith_arrived hact hs hevent).mono (fun _ h => harrive.trans h) fun _ hp => hp

/-! ## The other branches -/

omit hact in
/-- A hold-tap waits: at once, or behind the decision that waits already. -/
theorem holdTap_waits {ht : HoldTapAction (Action T)} {w : Nat → WaitingState T}
    (hw : ∀ id, (w id).Obeys D ∧ (w id).id = id)
    (hconfig : ∀ id, (w id).config = .holdTap ht.config)
    (hperforming : s.IsPerforming (.holdTap ht)) :
    Performs D s (if s.waiting.isSome = true then s.pushExtraWaiting w else s.setWaiting w)
      .noEvent := by
  split
  · rename_i hsome
    exact .update (.pushExtraWaiting w) ⟨hsome, hw, ht, hperforming, hconfig⟩
  · rename_i hnone
    exact .update (.setWaiting w) ⟨hw, .inl (by simpa using hnone)⟩

omit hact in
/-- A hold-tap that waits begins with a count of ticks that fits. -/
theorem holdTapWaiting_ticks_le (quick : Bool) (ht : HoldTapAction (Action T)) (coord : KCoord)
    (delay : Nat) (layerStack : List Nat) (id : Nat) :
    (Layout.holdTapWaiting quick ht coord delay layerStack id).ticks ≤ u16Max := by
  have hle := ht.timeout_le
  unfold Layout.holdTapWaiting
  dsimp only
  split <;> omega

/-- `HoldTap`: a quick second press taps at once, any other one waits. -/
theorem doHoldTap_ensures {ht : HoldTapAction (Action T)} (hcall : call.Obeys D)
    (haction : call.action = .holdTap ht) (hs : s.Obeys D)
    (hperforming : s.IsPerforming call.action) (count : Nat) :
    Ensures (Layout.doHoldTap act cfg ht call count s) (fun r => Performs D s r.1 r.2.1) E := by
  have hperforms : D.performs (.holdTap ht) call.coord := haction ▸ hcall.action
  have hparts := D.holdTap hperforms
  have htap : Call.Obeys D { call with action := ht.tap } := ⟨hparts.2.1, hcall.layerStack⟩
  unfold Layout.doHoldTap
  dsimp only
  split
  · exact hact.bind htap (.refl s) hs fun _ _ _ h => h.andThen (.updateCoord call.coord) trivial
  · split
    · have hobeys : ∀ id, (Layout.holdTapWaiting cfg.quickTapHoldTimeout ht call.coord call.delay
          call.layerStack id).Obeys D ∧ (Layout.holdTapWaiting cfg.quickTapHoldTimeout ht
            call.coord call.delay call.layerStack id).id = id := fun id =>
        ⟨⟨hparts.1, hparts.2.1, hparts.2.2, trivial, fun h => h.elim, hcall.layerStack,
          holdTapWaiting_ticks_le _ _ _ _ _ _⟩, rfl⟩
      have hwaits := holdTap_waits hobeys (fun _ => rfl) (haction ▸ hperforming)
      exact (hwaits.andThen (.setTapHoldTimeout ht.tapHoldInterval) trivial).andThen
        (.updateCoord call.coord) trivial
    · have hreset : Performs D s _ .noEvent := .update (.setTapHoldTimeout 0) trivial
      exact hact.bind htap hreset hs fun _ _ _ h => h.andThen (.updateCoord call.coord) trivial

/-- `OneShot`: its action is performed as a part of it, and the oldest one-shot key is released
when there are too many. -/
theorem doOneShot_ensures {os : OneShot (Action T)} (hcall : call.Obeys D)
    (haction : call.action = .oneShot os) (hs : s.Obeys D) (count : Nat) :
    Ensures (Layout.doOneShot act cfg os call count s) (fun r => Performs D s r.1 r.2.1) E := by
  have hperforms : D.performs (.oneShot os) call.coord := haction ▸ hcall.action
  have hnil : ∀ l ∈ ([] : List Nat), D.layers l := by simp
  have hinner : Call.Obeys D
      { call with action := os.action, isOneshot := true, layerStack := [] } :=
    ⟨D.oneShot hperforms, hnil⟩
  unfold Layout.doOneShot
  refine hact.bind hinner (.update (.updateCoord call.coord) trivial) hs fun s₁ custom _ h₁ => ?_
  have h₂ := ((h₁.andThen (.setRptAction call.action)
    (D.remember hcall.action (by rw [haction]; rfl))).andThen
    (.oneshotHandlePress (.oneShotKey call.coord)) trivial).andThen
    (.startOneShot os.timeout os.endConfig call.coord) trivial
  dsimp only
  split
  · exact h₂
  · rename_i c _
    refine Ensures.bind ((eventWith_ensures hact (h₂.obeys hs) (releases_obey c _)).mono ?_
      fun _ hp => hp)
    intro s₃ h₃
    exact h₂.trans_noEvent h₃

/-- `TapDance`, eager: the first action is performed at once. -/
theorem doEagerTapDance_ensures {td : TapDance (Action T)} (hcall : call.Obeys D)
    (haction : call.action = .tapDance td) (hs : s.Obeys D) (count : Nat) :
    Ensures (Layout.doEagerTapDance act td call count s) (fun r => Performs D s r.1 r.2.1) E := by
  have hperforms : D.performs (.tapDance td) call.coord := haction ▸ hcall.action
  unfold Layout.doEagerTapDance
  dsimp only
  have hcoord : Performs D s _ .noEvent := .update (.updateCoord call.coord) trivial
  have hstart : Performs D s ((s.updateCoord call.coord).startTapDanceEager call.coord td)
      .noEvent := by
    exact hcoord.andThen (.startTapDanceEager call.coord td)
      fun a ha c hc => D.tapDanceEager hperforms hc a ha
  refine Ensures.bind (D.indexInto.mono ?_ fun _ hp => hp)
  intro action hmem
  have hfirst : Call.Obeys D { call with action, isOneshot := false } :=
    ⟨D.tapDance hperforms action hmem, hcall.layerStack⟩
  exact (hact _ count _ hfirst (hstart.obeys hs)).mono (fun _ h => hstart.trans h) fun _ hp => hp

/-- `MultipleActions`, all at the coordinate of the call. -/
theorem doMultipleActions_ensures {actions : List (Action T)} (hcall : call.Obeys D)
    (haction : call.action = .multipleActions actions) (hs : s.Obeys D) (count : Nat) :
    Ensures (Layout.doMultipleActions act actions call count s)
      (fun r => Performs D s r.1 r.2.1) E := by
  have hperforms : D.performs (.multipleActions actions) call.coord := haction ▸ hcall.action
  unfold Layout.doMultipleActions
  refine Ensures.bind ((actAll_ensures hact hcall.layerStack hs actions .noEvent count _
    (D.multipleActions hperforms) (.update (.updateCoord call.coord) trivial)).mono ?_
    fun _ hp => hp)
  rintro ⟨s', custom, count'⟩ h
  exact h.andThen (.setRptAction call.action)
    (D.remember hcall.action (by rw [haction]; rfl))

/-- `Fork`: one of its two actions, by the keys that are held. -/
theorem doFork_ensures {fcfg : ForkConfig (Action T)} (hcall : call.Obeys D)
    (haction : call.action = .fork fcfg) (hs : s.Obeys D) (count : Nat) :
    Ensures (Layout.doFork act fcfg call count s) (fun r => Performs D s r.1 r.2.1) E := by
  have hperforms : D.performs (.fork fcfg) call.coord := haction ▸ hcall.action
  -- both actions of a fork may be performed
  have hchoice : D.performs (s.forkChoice fcfg) call.coord := by
    unfold Layout.forkChoice
    dsimp only
    split
    · exact (D.fork hperforms).2
    · exact (D.fork hperforms).1
  have hcall' : Call.Obeys D { call with action := s.forkChoice fcfg, isOneshot := false } :=
    ⟨hchoice, hcall.layerStack⟩
  exact hact.bind hcall' (.refl s) hs fun _ _ _ h =>
    h.andThen (.setRptAction call.action)
    (D.remember hcall.action (by rw [haction]; rfl))

omit hact in
/-- The actions of a switch go through a queue that holds eight of them. By induction on the
actions. -/
theorem fillSwitchQueue_performs {s₀ : Layout T} :
    ∀ (actions : List (Action T)) (queue : Bounded actionQueueLen (Action T)) (s : Layout T),
      (∀ a ∈ actions, D.performs a call.coord) → (∀ a ∈ queue.items, D.performs a call.coord) →
      Performs D s₀ s .noEvent →
      (∀ a ∈ (Layout.fillSwitchQueue call actions queue s).1.items, D.performs a call.coord) ∧
        Performs D s₀ (Layout.fillSwitchQueue call actions queue s).2 .noEvent := by
  intro actions
  induction actions with
  | nil => exact fun _ _ _ hqueue h => ⟨hqueue, h⟩
  | cons action actions ih =>
    intro queue s hactions hqueue h
    -- the oldest action is lost when the queue is full
    have hpushed : ∀ a ∈ (queue.pushBack action).1.items, D.performs a call.coord := by
      intro a ha
      rcases Bounded.mem_pushBack ha with ha | rfl
      · exact hqueue a ha
      · exact hactions a List.mem_cons_self
    have hrest : ∀ a ∈ actions, D.performs a call.coord := fun a ha =>
      hactions a (List.mem_cons_of_mem _ ha)
    unfold Layout.fillSwitchQueue
    split
    · rename_i queue' heq
      rw [heq] at hpushed
      exact ih queue' s hrest hpushed h
    · rename_i queue' lost heq
      rw [heq] at hpushed
      exact ih queue' _ hrest hpushed (h.andThen (.loseAction _) trivial)

/-- `Switch`: the actions of the cases that apply, in their order. -/
theorem doSwitch_ensures {sw : SwitchConfig (Action T)} (hcall : call.Obeys D)
    (haction : call.action = .switch sw) (hs : s.Obeys D) (count : Nat) :
    Ensures (Layout.doSwitch act cfg sw call count s) (fun r => Performs D s r.1 r.2.1) E := by
  have hperforms : D.performs (.switch sw) call.coord := haction ▸ hcall.action
  have henv : Ensures (s.switchEnv cfg sw.callbacks) (fun _ => True) E :=
    Ensures.bind ((layerOrder_ensures hs).mono (fun _ _ => trivial) fun _ hp => hp)
  unfold Layout.doSwitch
  refine Ensures.bind (henv.mono ?_ fun _ hp => hp)
  intro env _
  refine Ensures.bind ((switchActions_ensures D env sw.cases (D.switch hperforms)).mono ?_
    fun _ hp => hp)
  intro actions hactions
  -- the evaluation is counted
  have hcount : Performs D s { s with activations := s.activations + 1 } .noEvent :=
    .update .countActivation trivial
  have hfill := fillSwitchQueue_performs actions .empty _ hactions (by simp) hcount
  refine Ensures.bind ((actAll_ensures hact hcall.layerStack hs _ .noEvent count _ hfill.1
    hfill.2).mono ?_ fun _ hp => hp)
  rintro ⟨s', custom, count'⟩ h
  exact h.andThen (.setRptAction call.action)
    (D.remember hcall.action (by rw [haction]; rfl))

/-- The `match` of `do_action`, for an action that is not transparent. -/
theorem perform_ensures (hcall : call.Obeys D) (htrans : call.action ≠ .trans) (hs : s.Obeys D)
    (hperforming : s.IsPerforming call.action) (count : Nat) :
    Ensures (Layout.perform act cfg call count s) (fun r => Performs D s r.1 r.2.1) E := by
  by_cases hplain : call.action.isPlain = true
  · rcases perform_plain act hcall hperforming hplain count with ⟨s', heq, hupdates⟩
    rw [heq]
    exact hupdates.performs
  · unfold Layout.perform
    cases haction : call.action with
    | trans => exact absurd haction htrans
    | multipleActions actions => exact doMultipleActions_ensures hact hcall haction hs count
    | holdTap ht => exact doHoldTap_ensures hact hcall haction hs hperforming count
    | custom value => exact doCustom_performs haction hcall s count
    | oneShot os => exact doOneShot_ensures hact hcall haction hs count
    | tapDance td =>
      dsimp only
      split
      · rename_i hlazy
        rw [haction] at hplain
        exact absurd (beq_iff_eq.mpr hlazy) hplain
      · exact doEagerTapDance_ensures hact hcall haction hs count
    | «repeat» => exact doRepeat_ensures hact (haction ▸ hcall.action) hs count
    | fork fcfg => exact doFork_ensures hact hcall haction hs count
    | switch sw => exact doSwitch_ensures hact hcall haction hs count
    | src => exact doSrc_ensures hact (haction ▸ hcall.action) hs count
    | _ =>
      rw [haction] at hplain
      exact absurd rfl hplain

end Act

/-! ## The recursion -/

/-- What `resolve_coord` finds is not transparent. -/
theorem resolveLayers_ne_trans {coord : KCoord} :
    ∀ {layerStack : List Nat} {r : Action T × List Nat},
      cfg.resolveLayers coord layerStack = .ok r → r.1 ≠ .trans := by
  intro layerStack
  induction layerStack with
  | nil =>
    intro r h
    unfold LayoutConfig.resolveLayers at h
    split at h
    · rcases bind_eq_ok.mp h with ⟨action, hsrc, h⟩
      rw [pure_eq_ok] at h
      subst h
      unfold LayoutConfig.srcKey at hsrc
      split at hsrc
      · rw [pure_eq_ok] at hsrc
        subst hsrc
        unfold SrcKey.toAction
        split <;> simp
      · cases hsrc
    · rw [pure_eq_ok] at h
      subst h
      simp
  | cons layer layerStack ih =>
    intro r h
    unfold LayoutConfig.resolveLayers at h
    rcases bind_eq_ok.mp h with ⟨_, _, h⟩
    rcases bind_eq_ok.mp h with ⟨action, _, h⟩
    split at h
    · exact ih h
    · rename_i hne
      rw [pure_eq_ok] at h
      subst h
      exact hne

/-- So the call of a transparent action performs another one. -/
theorem resolveCoord_ne_trans {coord : KCoord} {layerStack : List Nat} {r : Action T × List Nat}
    (h : cfg.resolveCoord coord layerStack = .ok r) : r.1 ≠ .trans := by
  unfold LayoutConfig.resolveCoord at h
  rcases bind_eq_ok.mp h with ⟨_, _, h⟩
  rcases bind_eq_ok.mp h with ⟨_, _, h⟩
  rcases bind_eq_ok.mp h with ⟨_, _, h⟩
  rcases bind_eq_ok.mp h with ⟨_, _, h⟩
  exact resolveLayers_ne_trans h

/-- A transparent action becomes one that may be performed. -/
theorem resolveTrans_ensures (hcall : call.Obeys D) :
    Ensures (cfg.resolveTrans call)
      (fun call' => call'.coord = call.coord ∧ call'.Obeys D ∧ call'.action ≠ .trans) E := by
  unfold LayoutConfig.resolveTrans
  split
  · rename_i haction
    have hfound := (D.trans (haction ▸ hcall.action) hcall.layerStack).mono_ok
      (fun r hr h => And.intro h (resolveCoord_ne_trans hr)) fun _ hp => hp
    refine Ensures.bind (hfound.mono ?_ fun _ hp => hp)
    rintro ⟨action, layerStack⟩ ⟨⟨hperforms, hlayers⟩, hne⟩
    exact ⟨rfl, ⟨hperforms, hlayers⟩, hne⟩
  · rename_i hne
    exact ⟨rfl, hcall, hne⟩

/-- The note about an action is the last one when the action is performed. -/
theorem isPerforming_note (s : Layout T) (action : Action T) (coord : KCoord) :
    (s.note (.performed action coord s.found)).IsPerforming action :=
  ⟨coord, List.getLast?_concat⟩

/-- `do_action` keeps to every discipline, at every depth of the stack. -/
theorem doAction_actsWithin (D : Discipline cfg E) :
    ∀ depth, ActsWithin D (Layout.doAction cfg depth) := by
  intro depth
  induction depth with
  | zero => exact fun _ _ _ _ _ => D.otherPanic (by decide)
  | succ depth ih =>
    intro call count s hcall hs
    refine Ensures.of_ok_imp ?_
    conv => arg 1; unfold Layout.doAction
    refine Ensures.bind ((resolveTrans_ensures hcall).mono_ok ?_ fun _ hp => hp)
    rintro call' hresolve ⟨hcoord, hcall', htrans⟩
    refine Ensures.bind ((beforeAction_ensures D call'.coord s).mono ?_ fun _ hp => hp)
    intro s₁ h₁
    -- the note says which action is performed and what it finds
    have hnoted := (h₁.performs.obeys hs).note (.performed call'.action call'.coord s₁.found)
    refine Ensures.bind ((perform_ensures ih hcall' htrans hnoted
      (isPerforming_note s₁ call'.action call'.coord) count).mono ?_ fun _ hp => hp)
    rintro ⟨s', e, count'⟩ h hreturns
    -- the call that returns is the one that performs the action
    have hcalled : CallOf cfg call' s (s'.note (.finished call' s'.found)) :=
      ⟨call, depth + 1, count, e, count', hresolve, hreturns⟩
    exact ((h₁.andThen (.perform call'.action call'.coord)
      ⟨hcall'.action, htrans⟩).performs.trans h).andThen (.finish call') ⟨s, hs, hcalled⟩

/-- `do_action` with the stack that the configuration has. -/
theorem act_actsWithin (D : Discipline cfg E) : ActsWithin D (Layout.act cfg) :=
  doAction_actsWithin D cfg.stackDepth

end Kanata
