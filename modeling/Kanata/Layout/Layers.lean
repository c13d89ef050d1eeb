import Kanata.Layout.Trace
import Kanata.Layout.Uniform

/-!
# Kanata.Layout.Layers — the action under a press

A press runs the first action that is not transparent in the layers in force,
from the top down (`LayoutConfig.firstSolid`), and below all of them the key of
`defsrc`. The source collects the layers on a stack of twelve. More than twelve
held layers panic, and what does not fit on the stack is left out without a word:
`press_resolves_iff` says exactly when a press is resolved as it should be.
-/

namespace Kanata

open Fallible Machine

variable {C R : Nat} {T : Type}

/-! ## The layers in force -/

/-- The action, if it is not transparent. -/
def Action.solid : Action T → Option (Action T)
  | .trans => none
  | action => some action

namespace LayoutConfig

/-- The action of a layer at a coordinate, if it is not transparent. -/
def solidAt (cfg : LayoutConfig C R T) (c : KCoord) (layer : Nat) : Option (Action T) :=
  match cfg.cell layer c.1 c.2 with
  | .ok action => action.solid
  | .error _ => none

/-- What is below all layers. -/
def bottom (cfg : LayoutConfig C R T) (c : KCoord) : Action T :=
  if c.1 = 0 then
    match cfg.srcKey c.2 with
    | .ok action => action
    | .error _ => .noOp
  else .noOp

/-- The first action that is not transparent. -/
def firstSolid (cfg : LayoutConfig C R T) (c : KCoord) (layers : List Nat) : Action T :=
  (layers.findSome? (cfg.solidAt c)).getD (cfg.bottom c)

/-- The coordinate is in the table of a layer. -/
def InTable (_ : LayoutConfig C R T) (c : KCoord) : Prop := c.1 < R ∧ c.2 < C

end LayoutConfig

namespace Layout

/-- The layers that are held and the default layer; or, without the second
behaviour, the current layer. -/
def upperLayers (cfg : LayoutConfig C R T) (s : Layout T) : List Nat :=
  if cfg.transResolutionBehaviorV2 then s.activeHeldLayers ++ [asU16 s.defaultLayer]
  else [asU16 s.currentLayer]

/-- The layers in force, from the top down. -/
def layersInForce (cfg : LayoutConfig C R T) (s : Layout T) : List Nat :=
  s.upperLayers cfg ++ if cfg.delegateToFirstLayer then [0] else []

/-- The action that a press at a coordinate is resolved to. -/
def pressedAction (cfg : LayoutConfig C R T) (s : Layout T) (c : KCoord) : Rust (Action T) := do
  let layerStack ← s.transResolutionLayerOrder cfg
  let call ← cfg.resolveTrans ⟨.trans, c, 0, false, layerStack⟩
  pure call.action

/-- The stack has room for the layers that matter at the coordinate. -/
structure HasRoom (cfg : LayoutConfig C R T) (s : Layout T) (c : KCoord) : Prop where
  inTable : cfg.InTable c
  held : cfg.transResolutionBehaviorV2 = true → s.activeHeldLayers.length ≤ maxActiveLayers
  /-- One of the first twelve layers has an action there, or what the others have
  is no different from the key below. -/
  rest : (∃ layer ∈ (s.layersInForce cfg).take maxActiveLayers, cfg.solidAt c layer ≠ none) ∨
    cfg.firstSolid c ((s.layersInForce cfg).drop maxActiveLayers) = cfg.bottom c

end Layout

/-! ## Going through a stack -/

section Stack

variable {cfg : LayoutConfig C R T} {s : Layout T} {c : KCoord}

theorem cell_of_inTable (hc : cfg.InTable c) {layer : Nat} (hlayer : layer < cfg.layers.length) :
    ∃ action, cfg.cell layer c.1 c.2 = .ok action := by
  unfold LayoutConfig.cell
  rw [List.getElem?_eq_getElem hlayer]
  dsimp only
  rw [dif_pos hc.1, dif_pos hc.2]
  exact ⟨_, rfl⟩

theorem srcKey_of_inTable (hc : cfg.InTable c) : ∃ action, cfg.srcKey c.2 = .ok action := by
  unfold LayoutConfig.srcKey
  rw [dif_pos hc.2]
  exact ⟨_, rfl⟩

/-- The loop over the stack finds the first action that is not transparent. -/
theorem resolveLayers_eq (hc : cfg.InTable c) :
    ∀ {layerStack : List Nat}, (∀ l ∈ layerStack, l < cfg.layers.length) →
      ∃ rest, cfg.resolveLayers c layerStack = .ok (cfg.firstSolid c layerStack, rest)
  | [], _ => by
    unfold LayoutConfig.resolveLayers LayoutConfig.firstSolid LayoutConfig.bottom
    split
    · rcases srcKey_of_inTable hc with ⟨action, haction⟩
      rw [haction]
      exact ⟨[], rfl⟩
    · exact ⟨[], rfl⟩
  | layer :: layerStack, hstack => by
    have hlayer := hstack layer List.mem_cons_self
    rcases cell_of_inTable hc hlayer with ⟨action, haction⟩
    rcases resolveLayers_eq hc fun l hl => hstack l (List.mem_cons_of_mem _ hl) with ⟨rest, hrest⟩
    have hsolid : cfg.solidAt c layer = action.solid := by
      unfold LayoutConfig.solidAt
      rw [haction]
    unfold LayoutConfig.resolveLayers LayoutConfig.firstSolid
    rw [List.findSome?_cons, hsolid, haction]
    simp only [assertThat, decide_eq_true (Nat.le_of_lt hlayer), if_true, ok_bind]
    cases action with
    | trans => exact ⟨rest, hrest⟩
    | _ => exact ⟨layerStack, rfl⟩

/-- Outside the table the first layer panics. -/
theorem resolveLayers_outside (hc : ¬ cfg.InTable c) {layer : Nat} {layerStack : List Nat}
    (hlayer : layer < cfg.layers.length) (r : Action T × List Nat) :
    cfg.resolveLayers c (layer :: layerStack) ≠ .ok r := by
  intro h
  unfold LayoutConfig.resolveLayers at h
  rcases bind_eq_ok.mp h with ⟨_, _, h⟩
  rcases bind_eq_ok.mp h with ⟨action, haction, _⟩
  unfold LayoutConfig.cell at haction
  rw [List.getElem?_eq_getElem hlayer] at haction
  dsimp only at haction
  split at haction
  · split at haction
    · rename_i hx hy
      exact hc ⟨hx, hy⟩
    · cases haction
  · cases haction

/-- The assertions before the loop hold inside the table. -/
theorem resolveCoord_eq (hc : cfg.InTable c) (hlayers : 0 < cfg.layers.length)
    (layerStack : List Nat) : cfg.resolveCoord c layerStack = cfg.resolveLayers c layerStack := by
  have hne : cfg.layers.isEmpty = false := by
    cases hl : cfg.layers with
    | nil =>
      rw [hl] at hlayers
      cases hlayers
    | cons rows layers => rfl
  have hR : 0 < R := Nat.zero_lt_of_lt hc.1
  unfold LayoutConfig.resolveCoord
  simp only [assertThat, hne, Bool.not_false, if_true, ok_bind,
    decide_eq_true (Nat.le_of_lt hc.1), decide_eq_true hR, decide_eq_true (Nat.le_of_lt hc.2)]

/-- A layer that is on the stack already changes nothing below. -/
theorem firstSolid_append_mem {layers : List Nat} {layer : Nat} (hmem : layer ∈ layers) :
    cfg.firstSolid c (layers ++ [layer]) = cfg.firstSolid c layers := by
  unfold LayoutConfig.firstSolid
  rw [List.findSome?_append]
  cases hfind : layers.findSome? (cfg.solidAt c) with
  | some action => rfl
  | none =>
    have hnone := List.findSome?_eq_none_iff.mp hfind layer hmem
    simp [hnone]

theorem firstSolid_append (layers layers' : List Nat) :
    cfg.firstSolid c (layers ++ layers') =
      (layers.findSome? (cfg.solidAt c)).getD (cfg.firstSolid c layers') := by
  unfold LayoutConfig.firstSolid
  rw [List.findSome?_append]
  cases layers.findSome? (cfg.solidAt c) <;> rfl

/-- Leaving out the lower layers changes nothing exactly when an upper one has an
action or they have none of their own. -/
theorem firstSolid_append_iff (layers layers' : List Nat) :
    cfg.firstSolid c layers = cfg.firstSolid c (layers ++ layers') ↔
      (∃ layer ∈ layers, cfg.solidAt c layer ≠ none) ∨
        cfg.firstSolid c layers' = cfg.bottom c := by
  rw [firstSolid_append]
  cases hfind : layers.findSome? (cfg.solidAt c) with
  | some action =>
    rcases List.exists_of_findSome?_eq_some hfind with ⟨layer, hmem, hsolid⟩
    have hleft : ∃ layer ∈ layers, cfg.solidAt c layer ≠ none := ⟨layer, hmem, by simp [hsolid]⟩
    have heq : cfg.firstSolid c layers = action := by simp [LayoutConfig.firstSolid, hfind]
    constructor
    · exact fun _ => .inl hleft
    · exact fun _ => heq
  | none =>
    have heq : cfg.firstSolid c layers = cfg.bottom c := by simp [LayoutConfig.firstSolid, hfind]
    rw [heq]
    constructor
    · intro h
      exact .inr h.symm
    · rintro (⟨layer, hmem, hsolid⟩ | h)
      · exact absurd (List.findSome?_eq_none_iff.mp hfind layer hmem) hsolid
      · exact h.symm

/-! ## The stack of a press -/

/-- The current layer is held or is the default one. -/
theorem currentLayer_mem (s : Layout T) :
    asU16 s.currentLayer ∈ s.activeHeldLayers ++ [asU16 s.defaultLayer] := by
  unfold Layout.currentLayer
  cases hfind : s.states.items.reverse.findSome? State.getLayer with
  | none => simp
  | some layer =>
    rcases List.exists_of_findSome?_eq_some hfind with ⟨st, hst, hlayer⟩
    refine List.mem_append_left _ ?_
    unfold Layout.activeHeldLayers
    rw [List.mem_reverse, List.mem_filterMap]
    exact ⟨st, List.mem_reverse.mp hst, by rw [hlayer]; rfl⟩

/-- The first layer is pushed on top of the others. -/
def Layout.Delegates (cfg : LayoutConfig C R T) (s : Layout T) : Prop :=
  cfg.delegateToFirstLayer = true ∧ s.currentLayer ≠ 0 ∧
    (cfg.transResolutionBehaviorV2 = true → s.defaultLayer ≠ 0)

theorem take_push {α : Type} (n : Nat) (xs : List α) (x : α) :
    (xs.take n ++ [x]).take n = (xs ++ [x]).take n := by
  by_cases hle : xs.length ≤ n
  · rw [List.take_of_length_le hle]
  · have hlen : (xs.take n).length = n := by simp; omega
    rw [List.take_append_of_le_length (Nat.le_of_eq hlen.symm), List.take_take, Nat.min_self,
      List.take_append_of_le_length (by omega)]

/-- Up to twelve held layers the stack is made. -/
theorem layerOrder_eq (hheld : cfg.transResolutionBehaviorV2 = true →
      s.activeHeldLayers.length ≤ maxActiveLayers) [Decidable (s.Delegates cfg)] :
    s.transResolutionLayerOrder cfg = .ok
      ((s.upperLayers cfg ++ if s.Delegates cfg then [0] else []).take maxActiveLayers) := by
  unfold Layout.transResolutionLayerOrder Layout.upperLayers
  dsimp only
  by_cases hv2 : cfg.transResolutionBehaviorV2 = true
  · rw [if_pos hv2, if_pos hv2]
    simp only [assertThat, decide_eq_true (hheld hv2), if_true, ok_bind]
    have hdelegates : s.Delegates cfg ↔ cfg.delegateToFirstLayer = true ∧ s.currentLayer ≠ 0 ∧
        s.defaultLayer ≠ 0 := by
      simp [Layout.Delegates, hv2]
    by_cases hd : s.Delegates cfg
    · rw [if_pos (hdelegates.mp hd), if_pos hd]
      simp only [Bounded.pushIgnore_items, Bounded.ofTake_items, take_push]
      rfl
    · rw [if_neg (mt hdelegates.mpr hd), if_neg hd, List.append_nil]
      simp only [Bounded.pushIgnore_items, Bounded.ofTake_items, take_push]
      rfl
  · rw [if_neg hv2, if_neg hv2]
    have hdelegates : s.Delegates cfg ↔ cfg.delegateToFirstLayer = true ∧ s.currentLayer ≠ 0 := by
      simp [Layout.Delegates, hv2]
    by_cases hd : s.Delegates cfg
    · rw [if_pos (hdelegates.mp hd), if_pos hd]
      rfl
    · rw [if_neg (mt hdelegates.mpr hd), if_neg hd]
      rfl

/-- With more held layers, collecting them panics. -/
theorem layerOrder_panics (hv2 : cfg.transResolutionBehaviorV2 = true)
    (hheld : maxActiveLayers < s.activeHeldLayers.length) :
    s.transResolutionLayerOrder cfg = .error ⟨"Vec::from_iter overflow"⟩ := by
  unfold Layout.transResolutionLayerOrder
  dsimp only
  rw [if_pos hv2]
  simp only [assertThat, decide_eq_false (Nat.not_le_of_lt hheld)]
  rfl

/-- The first layer is only left out when it is among the others. -/
theorem firstSolid_stack [Decidable (s.Delegates cfg)] :
    cfg.firstSolid c
        ((s.upperLayers cfg ++ if s.Delegates cfg then [0] else []).take maxActiveLayers) =
      cfg.firstSolid c ((s.layersInForce cfg).take maxActiveLayers) := by
  unfold Layout.layersInForce
  by_cases hd : s.Delegates cfg
  · rw [if_pos hd, if_pos hd.1]
  · rw [if_neg hd, List.append_nil]
    by_cases hdelegate : cfg.delegateToFirstLayer = true
    · rw [if_pos hdelegate]
      by_cases hroom : (s.upperLayers cfg).length < maxActiveLayers
      · have hmem : 0 ∈ s.upperLayers cfg := by
          unfold Layout.upperLayers
          by_cases hcurrent : s.currentLayer = 0
          · have hzero := currentLayer_mem s
            rw [hcurrent] at hzero
            split
            · exact hzero
            · rw [hcurrent]
              exact List.mem_singleton.mpr rfl
          · by_cases hdefault : cfg.transResolutionBehaviorV2 = true ∧ s.defaultLayer = 0
            · rw [if_pos hdefault.1, hdefault.2]
              exact List.mem_append_right _ (List.mem_singleton.mpr rfl)
            · exact absurd ⟨hdelegate, hcurrent, fun hv2 hzero => hdefault ⟨hv2, hzero⟩⟩ hd
        rw [List.take_of_length_le (Nat.le_of_lt hroom), List.take_of_length_le (by simp; omega),
          firstSolid_append_mem hmem]
      · rw [List.take_append_of_le_length (by omega)]
    · rw [if_neg hdelegate, List.append_nil]

/-- The stack of a press that was made is one of layers. -/
theorem exists_cons_of_layerOrder {layerStack : List Nat}
    (h : s.transResolutionLayerOrder cfg = .ok layerStack) :
    ∃ layer rest, layerStack = layer :: rest := by
  by_cases hheld : cfg.transResolutionBehaviorV2 = true →
      s.activeHeldLayers.length ≤ maxActiveLayers
  · have hdec : Decidable (s.Delegates cfg) := Classical.dec _
    rw [layerOrder_eq hheld] at h
    cases h
    have hne : s.upperLayers cfg ≠ [] := by
      unfold Layout.upperLayers
      split <;> simp
    rcases List.exists_cons_of_ne_nil hne with ⟨layer, rest, hupper⟩
    rw [hupper]
    exact ⟨layer, _, rfl⟩
  · rw [Classical.not_imp] at hheld
    rw [layerOrder_panics hheld.1 (Nat.lt_of_not_le hheld.2)] at h
    cases h

variable {E : Panic → Prop} {D : Discipline cfg E}

/-- A press is resolved to the first action in the layers in force exactly when the
stack has room for them. -/
theorem pressedAction_eq_iff (hs : s.Obeys D) (hD : ∀ l, D.layers l → l < cfg.layers.length)
    (c : KCoord) :
    s.pressedAction cfg c = .ok (cfg.firstSolid c (s.layersInForce cfg)) ↔ s.HasRoom cfg c := by
  have hlayers : 0 < cfg.layers.length := hD 0 D.layers_zero
  have hdec : Decidable (s.Delegates cfg) := Classical.dec _
  have hstack : ∀ layerStack, s.transResolutionLayerOrder cfg = .ok layerStack →
      ∀ l ∈ layerStack, l < cfg.layers.length := fun layerStack h l hl =>
    hD l ((layerOrder_ensures hs).of_ok h l hl)
  have hroom := @firstSolid_append_iff _ _ _ cfg c ((s.layersInForce cfg).take maxActiveLayers)
    ((s.layersInForce cfg).drop maxActiveLayers)
  rw [List.take_append_drop] at hroom
  constructor
  · intro h
    unfold Layout.pressedAction at h
    rcases bind_eq_ok.mp h with ⟨layerStack, horder, h⟩
    rcases bind_eq_ok.mp h with ⟨call, hcall, h⟩
    rcases bind_eq_ok.mp hcall with ⟨r, hr, hcall⟩
    have hheld : cfg.transResolutionBehaviorV2 = true →
        s.activeHeldLayers.length ≤ maxActiveLayers := by
      intro hv2
      by_contra hmany
      rw [layerOrder_panics hv2 (Nat.lt_of_not_le hmany)] at horder
      cases horder
    have hc : cfg.InTable c := by
      by_contra houtside
      rcases exists_cons_of_layerOrder horder with ⟨layer, rest, rfl⟩
      unfold LayoutConfig.resolveCoord at hr
      rcases bind_eq_ok.mp hr with ⟨_, _, hr⟩
      rcases bind_eq_ok.mp hr with ⟨_, _, hr⟩
      rcases bind_eq_ok.mp hr with ⟨_, _, hr⟩
      rcases bind_eq_ok.mp hr with ⟨_, _, hr⟩
      exact resolveLayers_outside houtside (hstack _ horder layer List.mem_cons_self) r hr
    refine ⟨hc, hheld, ?_⟩
    rw [resolveCoord_eq hc hlayers] at hr
    rcases resolveLayers_eq hc (hstack _ horder) with ⟨rest, hfound⟩
    rw [hfound] at hr
    cases hr
    rw [pure_eq_ok] at hcall h
    rw [← hcall] at h
    -- the action of the call is the first one on the stack
    have hfirst : cfg.firstSolid c layerStack = cfg.firstSolid c (s.layersInForce cfg) := h
    rw [layerOrder_eq hheld] at horder
    cases horder
    exact hroom.mp (firstSolid_stack.symm.trans hfirst)
  · intro h
    have horder := layerOrder_eq h.held
    rcases resolveLayers_eq h.inTable (hstack _ horder) with ⟨rest, hfound⟩
    unfold Layout.pressedAction LayoutConfig.resolveTrans
    rw [horder]
    simp only [ok_bind, resolveCoord_eq h.inTable hlayers, hfound]
    rw [firstSolid_stack, hroom.mpr h.rest]
    rfl

/-- What a press does that no eager tap-dance takes: the first thing that it performs is the
action that it is resolved to. -/
def PerformsResolved (cfg : LayoutConfig C R T) (s : Layout T) (c : KCoord) : Prop :=
  ∀ depth since s' e, s.danceAt c = none →
    s.dequeuePress (Layout.doAction cfg depth) cfg c since = .ok (s', e) →
      ∃ action call found rest, s.pressedAction cfg c = .ok action ∧
        s'.trace = s.trace ++ .pressed call s.lastPressTracker.coord ::
          .performed action c found :: rest

theorem press_performs (hs : s.Obeys (Discipline.free cfg)) (c : KCoord) :
    PerformsResolved cfg s c := by
  intro depth since s' e hno h
  rw [Layout.dequeuePress_of_none _ cfg since hno] at h
  rcases performPressed_trace hs h with ⟨layerStack, call', found, rest, horder, hcall', htrace⟩
  refine ⟨call'.action, _, found, rest, ?_, htrace⟩
  unfold Layout.pressedAction
  rw [horder]
  rcases bind_eq_ok.mp hcall' with ⟨resolved, hresolved, hcall'⟩
  rw [List.drop_zero] at hresolved
  simp only [ok_bind, LayoutConfig.resolveTrans, hresolved]
  rw [← pure_eq_ok.mp hcall']
  rfl

end Stack

/-! ## Runs -/

/-- A layer action names a layer of the configuration. -/
def Action.NamesLayer (cfg : LayoutConfig C R T) (a : Action T) : Prop :=
  ∀ v, a = .layer v → v < cfg.layers.length

theorem uniform_of_namesLayer {cfg : LayoutConfig C R T} (hlayers : 0 < cfg.layers.length)
    (hcfg : cfg.Every (Action.NamesLayer cfg)) :
    Uniform cfg (Action.NamesLayer cfg) (· < cfg.layers.length) where
  config := hcfg
  noOp v h := by cases h
  trans v h := by cases h
  keyCode kc v h := by cases h
  multiKeyBuffer v h := by cases h
  layersZero := hlayers
  layer h := Nat.lt_of_le_of_lt (Nat.mod_le _ _) (h _ rfl)
  defaultLayer h := Nat.lt_of_le_of_lt (Nat.mod_le _ _) h

/-- In every reachable layout a press is resolved, without a panic, to the first
action that is not transparent in the layers in force exactly when the coordinate
is in the table and the stack has room for the layers that matter there; and what a
press is resolved to is what it performs. -/
theorem press_resolves (cfg : LayoutConfig C R T) (hlayers : 0 < cfg.layers.length)
    (hcfg : cfg.Every (Action.NamesLayer cfg)) (delay : Nat) (ops : List LayoutOp)
    (s' : Layout T) (os : List (CustomEvent T))
    (h : run (Layout.step cfg) (.new delay) ops = .ok (s', os)) (c : KCoord) :
    (s'.pressedAction cfg c = .ok (cfg.firstSolid c (s'.layersInForce cfg)) ↔
      s'.HasRoom cfg c) ∧ PerformsResolved cfg s' c := by
  have hobeys := (@run_within _ _ _ cfg _
    (Discipline.uniform (uniform_of_namesLayer hlayers hcfg)) (fun _ => trivial) trivial
    (fun _ => trivial) delay ops s' os (fun _ _ => True) trivial (fun _ _ _ _ _ _ _ => trivial) h).1
  have hfree := (@run_advances _ _ _ cfg delay ops s' os (fun _ _ => True) trivial
    (fun _ _ _ _ _ _ => trivial) h).1
  exact ⟨pressedAction_eq_iff hobeys (fun _ hl => hl) c, press_performs hfree c⟩

/-! ## Too many layers -/

/-- Thirteen keys that each hold the layer, and one that holds it above another key. -/
def thirteenLayers : LayoutConfig 16 2 Nat := oneLayer (List.replicate 13 (.layer 0))

/-- The first keys are pressed, one after the other. -/
def pressFirst (n : Nat) : List LayoutOp := (List.range n).flatMap fun i => [press (i + 1), .tick]

theorem thirteenLayers_named : thirteenLayers.Every (Action.NamesLayer thirteenLayers) := by
  refine oneLayer_every (by intro v h; cases h) ?_
  intro a ha
  rw [(List.mem_replicate.mp ha).2]
  refine .leaf ?_ rfl
  intro v h
  cases h
  decide

/-- With thirteen layers held, the next press panics. -/
theorem press_resolves_fails :
    ∃ s' os, run (Layout.step thirteenLayers) (.new 0) (pressFirst 13) = .ok (s', os) ∧
      s'.pressedAction thirteenLayers (0, 14) = .error ⟨"Vec::from_iter overflow"⟩ := by
  have hends : endsWith (Layout.step thirteenLayers)
      (fun s _ => decide (maxActiveLayers < s.activeHeldLayers.length)) (.new 0)
      (pressFirst 13) = true := by
    decide
  rcases of_endsWith hends with ⟨s', os, hrun, hcheck⟩
  refine ⟨s', os, hrun, ?_⟩
  unfold Layout.pressedAction
  rw [layerOrder_panics rfl (of_decide_eq_true hcheck)]
  rfl

/-- Up to three held layers the next press finds the key of `defsrc`. -/
theorem press_resolves_three :
    ∃ s' os, run (Layout.step thirteenLayers) (.new 0) (pressFirst 3) = .ok (s', os) ∧
      s'.pressedAction thirteenLayers (0, 14) =
        .ok (thirteenLayers.firstSolid (0, 14) (s'.layersInForce thirteenLayers)) := by
  have hends : endsWith (Layout.step thirteenLayers)
      (fun s _ => decide (s.activeHeldLayers = [0, 0, 0] ∧ s.defaultLayer = 0)) (.new 0)
      (pressFirst 3) = true := by
    decide
  rcases of_endsWith hends with ⟨s', os, hrun, hcheck⟩
  rcases of_decide_eq_true hcheck with ⟨hheld, hdefault⟩
  refine ⟨s', os, hrun, (press_resolves thirteenLayers (by decide) thirteenLayers_named 0 _ s' os
    hrun (0, 14)).1.mpr ⟨⟨by decide, by decide⟩, ?_, .inr ?_⟩⟩
  · intro _
    rw [hheld]
    decide
  · unfold Layout.layersInForce Layout.upperLayers
    rw [hheld, hdefault]
    rfl

end Kanata
