import Kanata.Layout.Heard
import Mathlib.Logic.Relation

/-!
# Kanata.Layout.Held — which key codes an action makes the layout hold

An action holds its own key codes at the coordinate of the call, and what the
actions that it calls hold. `doAction_holds` says so for every property of the keys
that are held, apart from what `rpt` repeats.
-/

namespace Kanata

open Fallible

variable {C R : Nat} {T : Type} {cfg : LayoutConfig C R T}

/-- Every key that is held, with its coordinate, satisfies `P`. -/
def Layout.HoldsOnly (P : KeyCode → KCoord → Prop) (s : Layout T) : Prop :=
  ∀ kc coord flags, .normalKey kc coord flags ∈ s.states.items → P kc coord

namespace Layout

variable {P : KeyCode → KCoord → Prop} {s s' : Layout T}

/-- Keys that are let go violate nothing. -/
theorem HoldsOnly.of_subset (h : s.HoldsOnly P)
    (hsub : ∀ st ∈ s'.states.items, st ∈ s.states.items) : s'.HoldsOnly P :=
  fun kc coord flags hmem => h kc coord flags (hsub _ hmem)

theorem HoldsOnly.of_states (h : s.HoldsOnly P) (hstates : s'.states = s.states) :
    s'.HoldsOnly P :=
  h.of_subset fun _ hst => hstates ▸ hst

/-- A state that does not fit is dropped. -/
theorem HoldsOnly.pushState (h : s.HoldsOnly P) {st : State T}
    (hst : ∀ kc coord flags, st = .normalKey kc coord flags → P kc coord) :
    (s.pushState st).HoldsOnly P := by
  intro kc coord flags hmem
  rcases Bounded.mem_pushIgnore hmem with hmem | heq
  · exact h kc coord flags hmem
  · exact hst kc coord flags heq.symm

/-! ## What leaves the states as they are -/

theorem discard_states (e : CustomEvent T) : (s.discard e).states = s.states := by
  cases e <;> rfl

theorem noteLost_states {α : Type} (lost : Option α) (o : α → Occurrence T) :
    (s.noteLost lost o).states = s.states := by
  cases lost <;> rfl

theorem pushHistoricalKey_states (kc : KeyCode) : (s.pushHistoricalKey kc).states = s.states := by
  unfold pushHistoricalKey
  split <;> rfl

theorem pressOther_states (isOneshot : Bool) (coord : KCoord) :
    (s.pressOther isOneshot coord).states = s.states := by
  unfold pressOther
  split <;> rfl

/-- The keys that a one-shot action retains. -/
theorem retainKeys_states (coord : KCoord) (kcs : List KeyCode) :
    (kcs.foldl (fun s kc => s.addStateToRetain (.keyCode coord kc)) s).states = s.states := by
  induction kcs generalizing s with
  | nil => rfl
  | cons kc kcs ih => rw [List.foldl_cons, ih]; rfl

/-- What an output chord does after its keys are pressed. -/
theorem finishKeyCodes_states (call : Call T) (kcs : List KeyCode)
    (pushKeys : MultiKeyBuffer → MultiKeyBuffer) :
    (s.finishKeyCodes call kcs pushKeys).states = s.states := by
  unfold finishKeyCodes
  split
  · exact retainKeys_states call.coord kcs
  · dsimp only
    split <;> rfl

theorem setDefaultLayer_states (value : Nat) : (s.setDefaultLayer cfg value).states = s.states := by
  unfold setDefaultLayer
  split <;> rfl

theorem startTapDanceEager_states (coord : KCoord) (td : TapDance (Action T)) :
    (s.startTapDanceEager coord td).states = s.states := by
  unfold startTapDanceEager
  dsimp only
  split
  · rfl
  · split <;> rfl

theorem fillSwitchQueue_states (call : Call T) :
    ∀ (actions : List (Action T)) (queue : Bounded actionQueueLen (Action T)) (s : Layout T),
      (fillSwitchQueue call actions queue s).2.states = s.states
  | [], _, _ => rfl
  | action :: actions, queue, s => by
    rw [fillSwitchQueue]
    split
    · exact fillSwitchQueue_states call actions _ s
    · exact fillSwitchQueue_states call actions _ _

/-! ## The branches -/

variable {call : Call T}

/-- One key is held at the coordinate of the call. -/
theorem HoldsOnly.doKeyCode (h : s.HoldsOnly P) {kc : KeyCode} (hkc : P kc call.coord) :
    (s.doKeyCode call kc).HoldsOnly P := by
  have hbefore : ((s.updateCoord call.coord).pushHistoricalKey kc).HoldsOnly P :=
    h.of_states (pushHistoricalKey_states kc)
  -- the history of keys is no state
  have hpushed : (((s.updateCoord call.coord).pushHistoricalKey kc).pushState
      (.normalKey kc call.coord ⟨false, false⟩)).HoldsOnly P := by
    refine hbefore.pushState ?_
    rintro _ _ _ ⟨⟩
    exact hkc
  exact hpushed.of_states (finishKeyCodes_states call _ _)

/-- A key of an output chord is marked for release at the next action, unless a one-shot key
presses it. -/
theorem HoldsOnly.pressKeyCode (h : s.HoldsOnly P) {kc : KeyCode} (hkc : P kc call.coord) :
    (Layout.pressKeyCode call s kc).HoldsOnly P := by
  have hpush : ∀ s₁ : Layout T, s₁.HoldsOnly P → ((s₁.pushHistoricalKey kc).pushState
      (.normalKey kc call.coord ⟨!call.isOneshot, false⟩)).HoldsOnly P := by
    intro s₁ h₁
    refine HoldsOnly.pushState (h₁.of_states (pushHistoricalKey_states kc)) ?_
    rintro _ _ _ ⟨⟩
    exact hkc
  unfold Layout.pressKeyCode
  dsimp only
  split
  · exact hpush (s.suppressKey kc) h
  · exact hpush s h

/-- All keys of an output chord. -/
theorem HoldsOnly.pressKeyCodes :
    ∀ {kcs : List KeyCode} {s : Layout T}, s.HoldsOnly P → (∀ kc ∈ kcs, P kc call.coord) →
      (kcs.foldl (Layout.pressKeyCode call) s).HoldsOnly P
  | [], _, h, _ => h
  | _ :: _, _, h, hkcs =>
    (h.pressKeyCode (hkcs _ List.mem_cons_self)).pressKeyCodes fun kc hkc =>
      hkcs kc (List.mem_cons_of_mem _ hkc)

/-- The coordinate is held, and no key. -/
theorem HoldsOnly.doNoOp (h : s.HoldsOnly P) : (s.doNoOp call).HoldsOnly P := by
  have hpush : ∀ s₁ : Layout T, s₁.HoldsOnly P →
      ((s₁.setRptAction call.action).pushState (.noOpInput call.coord)).HoldsOnly P := by
    intro s₁ h₁
    refine HoldsOnly.pushState (s := s₁.setRptAction call.action) h₁ ?_
    rintro _ _ _ ⟨⟩
  unfold Layout.doNoOp
  dsimp only
  split
  · exact hpush _ (h.of_states (pressOther_states _ _))
  · exact hpush s h

/-- A macro that starts holds nothing yet. -/
theorem HoldsOnly.startSequence (h : s.HoldsOnly P) (events : List (SequenceEvent T)) :
    (s.startSequence events).HoldsOnly P :=
  h.of_states (noteLost_states _ _)

/-- A macro that repeats is held itself. -/
theorem HoldsOnly.doRepeatableSequence (h : s.HoldsOnly P) (events : List (SequenceEvent T)) :
    (s.doRepeatableSequence call events).HoldsOnly P := by
  have hpushed : ((s.startSequence events).pushState
      (.repeatingSequence events call.coord)).HoldsOnly P := by
    refine (h.startSequence events).pushState ?_
    rintro _ _ _ ⟨⟩
  exact hpushed.of_states (pressOther_states _ _)

/-- Only keys that macros press are let go. -/
theorem mem_releaseFakeKeys {st : State T} :
    ∀ {todo : List (State T)} {states : Bounded statesLen (State T)},
      st ∈ (todo.foldl releaseFakeKey states).items → st ∈ states.items
  | [], _, h => h
  | st' :: todo, states, h => by
    have hrest : st ∈ (releaseFakeKey states st').items := mem_releaseFakeKeys h
    cases st' with
    | fakeKey keycode => exact (List.mem_filter.mp hrest).1
    | _ => exact hrest

/-- Macros that are cancelled let go of their keys. -/
theorem HoldsOnly.doCancelSequences (h : s.HoldsOnly P) :
    (s.doCancelSequences call).HoldsOnly P := by
  have hreleased : { s with
      activeSequences := .empty, states := s.states.items.foldl releaseFakeKey s.states }.HoldsOnly
        P :=
    h.of_subset fun st hst => mem_releaseFakeKeys hst
  exact hreleased.of_states (pressOther_states _ _)

/-- A layer is held at the coordinate, and no key. -/
theorem HoldsOnly.doLayer (h : s.HoldsOnly P) (value : Nat) :
    (s.doLayer call value).HoldsOnly P := by
  have hpushed : ((s.updateCoord call.coord).pushState
      (.layerModifier value call.coord)).HoldsOnly P := by
    refine HoldsOnly.pushState (s := s.updateCoord call.coord) h ?_
    rintro _ _ _ ⟨⟩
  unfold Layout.doLayer
  dsimp only
  split
  · exact hpushed
  · exact hpushed.of_states (pressOther_states _ _)

theorem HoldsOnly.doReleaseState (h : s.HoldsOnly P) (rs : ReleasableState) :
    (s.doReleaseState call rs).HoldsOnly P := by
  have hreleased :
    { s with states := s.states.retain (State.survivesReleaseState rs) }.HoldsOnly P :=
    h.of_subset fun st hst => (List.mem_filter.mp hst).1
  exact hreleased.of_states (pressOther_states _ _)

/-- A custom action is held at the coordinate, so that its release is seen. -/
theorem HoldsOnly.doCustom (h : s.HoldsOnly P) (value : T) (count : Nat) :
    (s.doCustom call value count).1.HoldsOnly P := by
  have hbefore : (((s.updateCoord call.coord).pressOther call.isOneshot call.coord).setRptAction
      call.action).HoldsOnly P := h.of_states (pressOther_states _ _)
  unfold Layout.doCustom
  dsimp only
  split
  · unfold Layout.pushCustom
    split
    · exact hbefore
    · refine hbefore.pushState ?_
      rintro _ _ _ ⟨⟩
  · exact hbefore.of_states (noteLost_states _ _)

theorem HoldsOnly.setWaiting (h : s.HoldsOnly P) (w : Nat → WaitingState T) :
    (s.setWaiting w).HoldsOnly P :=
  h.of_states (noteLost_states _ _)

theorem HoldsOnly.pushExtraWaiting (h : s.HoldsOnly P) (w : Nat → WaitingState T) :
    (s.pushExtraWaiting w).HoldsOnly P :=
  h.of_states (noteLost_states _ _)

/-! ## Parts of `do_action` -/

end Layout

/-- A one-shot key that is performed holds a key, an output chord or a layer, which is all that
the parser accepts, and finds room for the release of the one-shot key that it pushes out. -/
def OneShotFits (cfg : LayoutConfig C R T) (action : Action T) (found : Found T) : Prop :=
  match action with
  | .oneShot os =>
    os.action.isRetained = true ∧
      (found.oneshot.keys.items.length < oneShotMaxActive ∨ found.HasRoom cfg)
  | _ => True

/-- The part of `do_action` between the two layouts keeps `P` of the keys that are held, when
`H` holds and every one-shot key fits. -/
def Holding (cfg : LayoutConfig C R T) (P : KeyCode → KCoord → Prop) (H : Prop)
    (s s' : Layout T) : Prop :=
  ∃ os, s'.trace = s.trace ++ os ∧
    (H → (∀ o ∈ os, o.Meets (OneShotFits cfg)) → s.HoldsOnly P → s'.HoldsOnly P)

namespace Holding

variable {P : KeyCode → KCoord → Prop} {H H' : Prop} {s s₁ s₂ : Layout T}

/-- A condition that says more. -/
theorem mono (h : Holding cfg P H s s₁) (hH : H' → H) : Holding cfg P H' s s₁ := by
  rcases h with ⟨os, htrace, h⟩
  exact ⟨os, htrace, fun hpre => h (hH hpre)⟩

/-- One part after the other. -/
theorem trans (h₁ : Holding cfg P H s s₁) (h₂ : Holding cfg P H s₁ s₂) :
    Holding cfg P H s s₂ := by
  rcases h₁ with ⟨os₁, htrace₁, h₁⟩
  rcases h₂ with ⟨os₂, htrace₂, h₂⟩
  -- a one-shot key of either part is among the notes of both
  refine ⟨os₁ ++ os₂, by rw [htrace₂, htrace₁, List.append_assoc], ?_⟩
  intro hpre hmeets hholds
  exact h₂ hpre (fun o ho => hmeets o (List.mem_append_right _ ho))
    (h₁ hpre (fun o ho => hmeets o (List.mem_append_left _ ho)) hholds)

/-- A part that is heard, and what it does to the keys that are held. -/
theorem of_heard {K G : Prop} (h : Heard cfg K s s₁ G)
    (hholds : H → s.HoldsOnly P → s₁.HoldsOnly P) : Holding cfg P H s s₁ := by
  rcases h with ⟨os, htrace, -⟩
  exact ⟨os, htrace, fun hpre _ => hholds hpre⟩

/-- What is noted is not held. -/
theorem noted {os : List (Occurrence T)} (htrace : s₁.trace = s.trace ++ os)
    (hstates : s₁.states = s.states) : Holding cfg P H s s₁ :=
  ⟨os, htrace, fun _ _ h => h.of_states hstates⟩

/-- A part that notes nothing. -/
theorem same (htrace : s₁.trace = s.trace) (hstates : s₁.states = s.states) :
    Holding cfg P H s s₁ :=
  .noted (by rw [htrace, List.append_nil]) hstates

/-- The action that `rpt` repeats is not held. -/
theorem remembers (h : Holding cfg P H s s₁) (action : Action T) :
    Holding cfg P H s (s₁.setRptAction action) :=
  h.trans (.noted rfl rfl)

/-- A custom event that is dropped is noted. -/
theorem discard (e : CustomEvent T) : Holding cfg P H s (s.discard e) :=
  ⟨Layout.discardNotes e, Layout.discard_trace s e, fun _ _ h =>
    h.of_states (Layout.discard_states e)⟩

/-- An action that is performed is one of those that meet the condition. -/
theorem performed {action : Action T} {coord : KCoord} {found : Found T}
    (h : Holding cfg P (OneShotFits cfg action found) (s.note (.performed action coord found))
      s₁) : Holding cfg P True s s₁ := by
  rcases h with ⟨os, htrace, h⟩
  refine ⟨.performed action coord found :: os, by rw [htrace]; simp, ?_⟩
  intro _ hmeets hholds
  exact h (hmeets _ List.mem_cons_self) (fun o ho => hmeets o (List.mem_cons_of_mem _ ho)) hholds

end Holding

/-! ## The branches of `do_action` -/

namespace Layout

section Act

variable {P : KeyCode → KCoord → Prop} {H : Prop} {act : DoAction T} {call : Call T} {count : Nat}
  {s : Layout T} {r : Layout T × CustomEvent T × Nat}

/-- What `act` holds after the calls of an action satisfies `P`. -/
def CallsHold (cfg : LayoutConfig C R T) (P : KeyCode → KCoord → Prop) (act : DoAction T)
    (call : Call T) : Prop :=
  ∀ action layerStack,
    Calls cfg call.coord true (call.layerStack, call.action) (layerStack, action) →
    ∀ {isOneshot : Bool} {count : Nat} {s : Layout T} {r : Layout T × CustomEvent T × Nat},
      act { call with action, layerStack, isOneshot } count s = .ok r →
        Holding cfg P True s r.1

variable (hact : CallsHold cfg P act call)

include hact

/-- An action that the action of the call contains is performed at the same coordinate. -/
theorem CallsHold.inside {b : Action T} {isOneshot : Bool}
    (hne : ∀ os, call.action ≠ .oneShot os) (hb : b ∈ call.action.children)
    (h : act { call with action := b, isOneshot } count s = .ok r) : Holding cfg P True s r.1 :=
  hact b call.layerStack (.inside hne hb) h

/-- A call whose custom event is dropped. -/
theorem CallsHold.discarding {action : Action T} {layerStack : List Nat}
    (hcalls : Calls cfg call.coord true (call.layerStack, call.action) (layerStack, action))
    (h : actDiscarding act { call with action, layerStack } count s = .ok r) :
    Holding cfg P True s r.1 := by
  unfold actDiscarding at h
  rcases bind_eq_ok.mp h with ⟨⟨s₁, custom, count₁⟩, hcall, h⟩
  rw [← pure_eq_ok.mp h]
  exact (hact action layerStack hcalls hcall).trans (.discard custom)

omit hact in
/-- A list of actions, each of which holds keys with `P`. -/
theorem actAll_holds {actions : List (Action T)} {custom : CustomEvent T}
    (hact : ∀ b ∈ actions, ∀ {count : Nat} {s : Layout T} {r : Layout T × CustomEvent T × Nat},
      act { call with action := b } count s = .ok r → Holding cfg P True s r.1)
    (h : actAll act call actions custom count s = .ok r) : Holding cfg P True s r.1 := by
  induction actions generalizing custom count s with
  | nil =>
    rw [← pure_eq_ok.mp h]
    exact .same rfl rfl
  | cons b actions ih =>
    unfold actAll at h
    rcases bind_eq_ok.mp h with ⟨⟨s₁, e, count₁⟩, hfirst, h⟩
    have hrest := ih (fun b' hb' => hact b' (List.mem_cons_of_mem _ hb')) h
    exact ((hact b List.mem_cons_self hfirst).trans (.discard _)).trans hrest

/-- A hold-tap taps at once, or starts to wait and holds nothing yet. -/
theorem doHoldTap_holds {ht : HoldTapAction (Action T)} (haction : call.action = .holdTap ht)
    (h : doHoldTap act cfg ht call count s = .ok r) : Holding cfg P True s r.1 := by
  have htap : ∀ s₁ : Layout T, s₁.trace = s.trace → s₁.states = s.states →
      (act { call with action := ht.tap } count s₁ >>= fun r =>
        pure (r.1.updateCoord call.coord, r.2)) = .ok r → Holding cfg P True s r.1 := by
    intro s₁ htrace hstates h
    rcases bind_eq_ok.mp h with ⟨r', htap, h⟩
    rw [← pure_eq_ok.mp h]
    have hcall := hact.inside (b := ht.tap) (by simp [haction])
      (by simp [haction, Action.children]) htap
    exact ((Holding.same htrace hstates).trans hcall).trans (.same rfl rfl)
  unfold doHoldTap at h
  dsimp only at h
  split at h
  · exact htap s rfl rfl h
  · split at h
    · rw [← pure_eq_ok.mp h]
      refine Holding.trans (.of_heard (holdTap_heard _ s) fun _ hholds => ?_) (.same rfl rfl)
      split
      · exact hholds.pushExtraWaiting _
      · exact hholds.setWaiting _
    · exact htap (s.setTapHoldTimeout 0) rfl rfl h

/-- An eager tap-dance performs one of its actions at once. -/
theorem doEagerTapDance_holds {td : TapDance (Action T)} (haction : call.action = .tapDance td)
    (h : doEagerTapDance act td call count s = .ok r) : Holding cfg P True s r.1 := by
  unfold doEagerTapDance at h
  rcases bind_eq_ok.mp h with ⟨b, hb, h⟩
  have hmem : b ∈ call.action.children := by
    rw [haction]
    exact (Discipline.free cfg).indexInto.of_ok hb
  have htrace := startTapDanceEager_trace (s.updateCoord call.coord) call.coord td
  have hstates : ((s.updateCoord call.coord).startTapDanceEager call.coord td).states = s.states :=
    startTapDanceEager_states (s := s.updateCoord call.coord) call.coord td
  exact (Holding.noted htrace hstates).trans (hact.inside (by simp [haction]) hmem h)

/-- Every action of a `multi` is one of its children. -/
theorem doMultipleActions_holds {actions : List (Action T)}
    (haction : call.action = .multipleActions actions)
    (h : doMultipleActions act actions call count s = .ok r) : Holding cfg P True s r.1 := by
  unfold doMultipleActions at h
  rcases bind_eq_ok.mp h with ⟨⟨s₁, custom, count₁⟩, hall, h⟩
  rw [← pure_eq_ok.mp h]
  have hmem : ∀ b ∈ actions, b ∈ call.action.children := by simp [haction, Action.children]
  have hactions := actAll_holds (fun b hb => hact.inside (by simp [haction]) (hmem b hb)) hall
  exact ((Holding.same (s := s) rfl rfl).trans hactions).remembers call.action

/-- A `fork` performs one of its two actions. -/
theorem doFork_holds {fcfg : ForkConfig (Action T)} (haction : call.action = .fork fcfg)
    (h : doFork act fcfg call count s = .ok r) : Holding cfg P True s r.1 := by
  unfold doFork at h
  rcases bind_eq_ok.mp h with ⟨⟨s₁, custom, count₁⟩, hchoice, h⟩
  rw [← pure_eq_ok.mp h]
  have hmem : s.forkChoice fcfg ∈ call.action.children := by
    unfold forkChoice
    rw [haction]
    dsimp only
    split <;> simp [Action.children]
  exact (hact.inside (by simp [haction]) hmem hchoice).remembers call.action

/-- A `switch` performs actions of its cases. -/
theorem doSwitch_holds {sw : SwitchConfig (Action T)} (haction : call.action = .switch sw)
    (h : doSwitch act cfg sw call count s = .ok r) : Holding cfg P True s r.1 := by
  unfold doSwitch at h
  rcases bind_eq_ok.mp h with ⟨env, _, h⟩
  rcases bind_eq_ok.mp h with ⟨actions, hactions, h⟩
  rcases bind_eq_ok.mp h with ⟨⟨s₁, custom, count₁⟩, hall, h⟩
  rw [← pure_eq_ok.mp h]
  have hmem : ∀ b ∈ (fillSwitchQueue call actions .empty
      { s with activations := s.activations + 1 }).1.items, b ∈ call.action.children := by
    intro b hb
    rcases mem_fillSwitchQueue hb with hb | hb
    · cases hb
    · rw [haction]
      exact mem_switchActions hactions b hb
  have hfilled : Holding cfg P True s (fillSwitchQueue call actions .empty
      { s with activations := s.activations + 1 }).2 :=
    (show Holding cfg P True s { s with activations := s.activations + 1 } from .same rfl rfl).trans
      (.of_heard (fillSwitchQueue_heard cfg call actions .empty _) fun _ hholds =>
        hholds.of_states (fillSwitchQueue_states call actions _ _))
  have hactions := actAll_holds (fun b hb => hact.inside (by simp [haction]) (hmem b hb)) hall
  exact (hfilled.trans hactions).remembers call.action

/-- `use-defsrc` performs the action of the key in `defsrc`. -/
theorem doSrc_holds (haction : call.action = .src) (h : doSrc act cfg call count s = .ok r) :
    Holding cfg P True s r.1 := by
  unfold doSrc at h
  rcases bind_eq_ok.mp h with ⟨b, hb, h⟩
  exact hact.discarding (haction ▸ .src hb) h

omit hact in
/-- An event for which there is room only waits in its queue. -/
theorem eventWith_holds (hheard : ActHeard cfg act) {event : Event} {s' : Layout T}
    (h : eventWith act cfg event s = .ok s') : Holding cfg P (s.found.HasRoom cfg) s s' := by
  refine .of_heard (eventWith_heard hheard h) fun hroom hholds => ?_
  have hstates : ∀ q, ((s.arrive event).enqueue cfg q).1.states = s.states := fun q => by
    rw [enqueue_eq, arrive_eq]
  unfold eventWith at h
  dsimp only at h
  split at h
  · rw [← pure_eq_ok.mp h]
    exact hholds.of_states (hstates _)
  · rename_i overflow hoverflow
    exact absurd hoverflow (by rw [enqueue_of_hasRoom hroom]; simp)

/-- A one-shot key that pushes out another one only queues its release. -/
theorem doOneShot_holds (hheard : ActHeard cfg act) {os : OneShot (Action T)}
    (hroom : os.action.isRetained = true → ∀ {call' : Call T} {count : Nat} {s : Layout T}
      {r : Layout T × CustomEvent T × Nat}, call'.action = os.action → call'.isOneshot = true →
      act call' count s = .ok r → SameRoom s r.1)
    (haction : call.action = .oneShot os) (h : doOneShot act cfg os call count s = .ok r) :
    Holding cfg P (OneShotFits cfg call.action s.found) s r.1 := by
  unfold doOneShot at h
  rcases bind_eq_ok.mp h with ⟨⟨s₁, custom, count₁⟩, hinner, h⟩
  have hinside := hact os.action [] (haction ▸ .oneShot) hinner
  have hheld : Holding cfg P (OneShotFits cfg call.action s.found) s s₁ :=
    ((Holding.same (s := s) rfl rfl).trans hinside).mono fun _ => trivial
  dsimp only at h
  split at h
  · rw [← pure_eq_ok.mp h]
    exact (hheld.remembers call.action).trans (.same rfl rfl)
  · rename_i c hpushed
    rcases bind_eq_ok.mp h with ⟨s₂, hrelease, h⟩
    rw [← pure_eq_ok.mp h]
    refine (hheld.remembers call.action).trans (((Holding.same rfl rfl).trans
      ((eventWith_holds hheard hrelease).mono fun hfits => ?_)))
    rw [haction] at hfits
    have hsame : SameRoom (s.updateCoord call.coord) s₁ := hroom hfits.1 rfl rfl hinner
    -- the key is pushed out, so there is room for its release
    have hfull : ¬ s.oneshot.keys.items.length < oneShotMaxActive := by
      intro hlt
      have hkeys : ((s₁.setRptAction call.action).oneshotHandlePress
          (.oneShotKey call.coord)).1.oneshot.keys = s.oneshot.keys :=
        (handlePress_keys s₁.oneshot call.coord).trans hsame.keys
      rw [hkeys, Bounded.pushBack_eq_none.mpr hlt] at hpushed
      cases hpushed
    exact hsame.hasRoom (hfits.2.resolve_left hfull)

/-- Performing an action holds its own key codes and what its calls hold, apart from what `rpt`
repeats. -/
theorem perform_holds (hheard : ActHeard cfg act)
    (hroom : ∀ {call' : Call T} {count : Nat} {s : Layout T}
      {r : Layout T × CustomEvent T × Nat}, call'.action.isRetained = true →
      call'.isOneshot = true → act call' count s = .ok r → SameRoom s r.1)
    (hkeys : ∀ kc ∈ call.action.keyCodes, P kc call.coord) (hrpt : call.action ≠ .repeat)
    (hbuffer : call.action ≠ .multiKeyBuffer) (hperforming : s.IsPerforming call.action)
    (h : perform act cfg call count s = .ok r) :
    Holding cfg P (OneShotFits cfg call.action s.found) s r.1 := by
  -- an action with calls inside needs no condition of its own: its one-shot keys are noted
  have hwhole : Holding cfg P True s r.1 →
      Holding cfg P (OneShotFits cfg call.action s.found) s r.1 :=
    fun h => h.mono fun _ => trivial
  -- an action that is over at once
  have hplain : call.action.isPlain = true → (s.HoldsOnly P → r.1.HoldsOnly P) →
      Holding cfg P (OneShotFits cfg call.action s.found) s r.1 :=
    fun hp hholds => .of_heard (plain_heard hperforming hp h) fun _ => hholds
  unfold perform at h
  cases haction : call.action with
  | noOp =>
    rw [haction] at h
    refine haction ▸ hplain (by rw [haction]; rfl) fun hs => ?_
    rw [← pure_eq_ok.mp h]
    exact hs.doNoOp
  | trans =>
    rw [haction] at h
    cases h
  | keyCode kc =>
    rw [haction] at h
    refine haction ▸ hplain (by rw [haction]; rfl) fun hs => ?_
    rw [← pure_eq_ok.mp h]
    exact hs.doKeyCode (hkeys kc (by simp [haction, Action.keyCodes]))
  | multipleKeyCodes kcs =>
    rw [haction] at h
    refine haction ▸ hplain (by rw [haction]; rfl) fun hs => ?_
    rw [← pure_eq_ok.mp h]
    have hpressed : (kcs.foldl (Layout.pressKeyCode call) (s.updateCoord call.coord)).HoldsOnly P :=
      HoldsOnly.pressKeyCodes (s := s.updateCoord call.coord) hs
        fun kc hkc => hkeys kc (by simpa [haction, Action.keyCodes] using hkc)
    exact hpressed.of_states (finishKeyCodes_states _ _ _)
  | multiKeyBuffer => exact absurd haction hbuffer
  | multipleActions actions =>
    rw [haction] at h
    exact haction ▸ hwhole (doMultipleActions_holds hact haction h)
  | layer value =>
    rw [haction] at h
    refine haction ▸ hplain (by rw [haction]; rfl) fun hs => ?_
    rw [← pure_eq_ok.mp h]
    exact hs.doLayer value
  | defaultLayer value =>
    rw [haction] at h
    refine haction ▸ hplain (by rw [haction]; rfl) fun hs => ?_
    rw [← pure_eq_ok.mp h]
    have hset : ((s.updateCoord call.coord).setDefaultLayer cfg value).HoldsOnly P :=
      hs.of_states (setDefaultLayer_states value)
    exact hset.of_states (pressOther_states _ _)
  | sequence events =>
    rw [haction] at h
    refine haction ▸ hplain (by rw [haction]; rfl) fun hs => ?_
    rw [← pure_eq_ok.mp h]
    exact (hs.startSequence events).of_states (pressOther_states _ _)
  | repeatableSequence events =>
    rw [haction] at h
    refine haction ▸ hplain (by rw [haction]; rfl) fun hs => ?_
    rw [← pure_eq_ok.mp h]
    exact hs.doRepeatableSequence events
  | cancelSequences =>
    rw [haction] at h
    refine haction ▸ hplain (by rw [haction]; rfl) fun hs => ?_
    rw [← pure_eq_ok.mp h]
    exact hs.doCancelSequences
  | releaseState rs =>
    rw [haction] at h
    refine haction ▸ hplain (by rw [haction]; rfl) fun hs => ?_
    rw [← pure_eq_ok.mp h]
    exact hs.doReleaseState rs
  | holdTap ht =>
    rw [haction] at h
    exact haction ▸ hwhole (doHoldTap_holds hact haction h)
  | custom value =>
    rw [haction] at h
    refine haction ▸ Holding.of_heard (doCustom_heard haction (pure_eq_ok.mp h)) fun _ hs => ?_
    rw [← pure_eq_ok.mp h]
    exact hs.doCustom value count
  | oneShot os =>
    rw [haction] at h
    refine haction ▸ doOneShot_holds hact hheard ?_ haction h
    intro hretained call' count' s' r' haction' hone hact'
    exact hroom (haction' ▸ hretained) hone hact'
  | oneShotIgnoreEventsTicks ticks =>
    rw [haction] at h
    refine haction ▸ hplain (by rw [haction]; rfl) fun hs => ?_
    rw [← pure_eq_ok.mp h]
    exact hs
  | tapDance td =>
    rw [haction] at h
    cases hconfig : td.config with
    | lazy =>
      refine haction ▸ hplain (by rw [haction]; simp [Action.isPlain, hconfig]) fun hs => ?_
      dsimp only at h
      rw [hconfig] at h
      rw [← pure_eq_ok.mp h]
      exact HoldsOnly.setWaiting (s := s.updateCoord call.coord) hs _
    | eager =>
      dsimp only at h
      rw [hconfig] at h
      exact haction ▸ hwhole (doEagerTapDance_holds hact haction h)
  | chords group =>
    rw [haction] at h
    refine haction ▸ hplain (by rw [haction]; rfl) fun hs => ?_
    rw [← pure_eq_ok.mp h]
    exact HoldsOnly.setWaiting (s := s.updateCoord call.coord) hs _
  | «repeat» => exact absurd haction hrpt
  | fork fcfg =>
    rw [haction] at h
    exact haction ▸ hwhole (doFork_holds hact haction h)
  | switch sw =>
    rw [haction] at h
    exact haction ▸ hwhole (doSwitch_holds hact haction h)
  | src =>
    rw [haction] at h
    exact haction ▸ hwhole (doSrc_holds hact haction h)

end Act

/-! ## `do_action` -/

section DoAction

variable {P : KeyCode → KCoord → Prop}

/-- Output chords that end are not held any more. -/
theorem HoldsOnly.beforeAction {coord : KCoord} {s s' : Layout T} (h : s.HoldsOnly P)
    (hbefore : s.beforeAction cfg coord = .ok s') : s'.HoldsOnly P := by
  unfold Layout.beforeAction at hbefore
  rcases bind_eq_ok.mp hbefore with ⟨⟨states, s₁⟩, hclear, hbefore⟩
  rw [← pure_eq_ok.mp hbefore]
  have hstates : states = _ :=
    ((clearOnNextAction_ensures (Discipline.free cfg) _ _).of_ok hclear).1
  refine h.of_subset fun st hst => ?_
  have hmem : st ∈ unflagged s.states.items := by
    have hst := Bounded.mem_ofTake hst
    rw [hstates] at hst
    split at hst <;> exact hst
  exact (List.mem_filter.mp hmem).1

/-- A call that holds a key of the real row stays as it is, or goes on with what its transparent
action stands for. -/
theorem resolveTrans_calls {call call' : Call T} (hrow : call.coord.1 = 0)
    (h : cfg.resolveTrans call = .ok call') :
    call'.coord = call.coord ∧
      Relation.ReflTransGen (Calls cfg call.coord true) (call.layerStack, call.action)
        (call'.layerStack, call'.action) := by
  unfold LayoutConfig.resolveTrans at h
  split at h
  · rename_i haction
    rcases bind_eq_ok.mp h with ⟨⟨action, layerStack⟩, hresolve, h⟩
    rw [← pure_eq_ok.mp h]
    refine ⟨rfl, .single ?_⟩
    unfold LayoutConfig.resolveCoord at hresolve
    rcases bind_eq_ok.mp hresolve with ⟨_, _, hresolve⟩
    rcases bind_eq_ok.mp hresolve with ⟨_, _, hresolve⟩
    rcases bind_eq_ok.mp hresolve with ⟨_, _, hresolve⟩
    rcases bind_eq_ok.mp hresolve with ⟨_, _, hresolve⟩
    rw [haction]
    rcases resolveLayers_found hresolve with hfound | ⟨hexhausted, rfl, hsrc⟩
    · exact .found hfound
    · rw [if_pos hrow] at hsrc
      exact .defsrc rfl hexhausted hsrc
  · rw [← pure_eq_ok.mp h]
    exact ⟨rfl, .refl⟩

/-- What `do_action` holds for a key of the real row are the key codes of the actions that the
calls lead to, when none of them is `rpt` and the one-shot keys fit. -/
theorem doAction_holds (depth : Nat) : ∀ {call : Call T} {count : Nat} {s : Layout T}
    {r : Layout T × CustomEvent T × Nat}, call.coord.1 = 0 →
    (∀ stack a, Relation.ReflTransGen (Calls cfg call.coord true) (call.layerStack, call.action)
      (stack, a) → a ≠ .repeat ∧ a ≠ .multiKeyBuffer ∧ ∀ kc ∈ a.keyCodes, P kc call.coord) →
    doAction cfg depth call count s = .ok r → Holding cfg P True s r.1 := by
  induction depth with
  | zero =>
    intro call count s r _ _ h
    cases h
  | succ depth ih =>
    intro call count s r hrow hreach h
    unfold doAction at h
    rcases bind_eq_ok.mp h with ⟨call', hcall', h⟩
    rcases bind_eq_ok.mp h with ⟨s₁, hs₁, h⟩
    rcases bind_eq_ok.mp h with ⟨r₁, hperformed, h⟩
    rw [← pure_eq_ok.mp h]
    rcases resolveTrans_calls hrow hcall' with ⟨hcoord, hresolved⟩
    rw [← hcoord] at hreach hresolved hrow
    have hhere := hreach _ _ hresolved
    -- what a call of the action reaches, the action reaches
    have hcalls : CallsHold cfg P (doAction cfg depth) call' := by
      intro action layerStack hcall isOneshot count' s' r' h'
      refine @ih { call' with action, layerStack, isOneshot } _ _ _ hrow ?_ h'
      exact fun stack a hpath => hreach stack a ((hresolved.tail hcall).trans hpath)
    have hperform := perform_holds hcalls (doAction_heard depth) (doAction_sameRoom depth)
      hhere.2.2 hhere.1 hhere.2.1 (isPerforming_note _ _ _) hperformed
    have hbefore : Holding cfg P True s s₁ :=
      ⟨[], by simp [beforeAction_trace hs₁], fun _ _ hs => hs.beforeAction hs₁⟩
    exact (hbefore.trans hperform.performed).trans (.noted rfl rfl)

end DoAction

end Layout

end Kanata
