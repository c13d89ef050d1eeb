import Kanata.Keyberon.Layout
import Kanata.Lib.Fallible

/-!
# Kanata.Layout.Presses — the action of a press

The press branch of `dequeue` performs the next action of an active eager tap-dance, or
what the layers have at the coordinate. The two cases are told apart by `danceAt`, and
differ in the action and in what becomes of the tap-dance (`takePress`), and in nothing
else.
-/

namespace Kanata.Layout

open Fallible

variable {C R : Nat} {T : Type} {s : Layout T} {p : KCoord}

/-- The tap-dance that takes a press, as the source finds it. -/
def danceAt (s : Layout T) (p : KCoord) : Option (TapDanceEagerState T) :=
  if p = s.lastPressTracker.coord then s.tapDanceEager.filter fun tde => !tde.isExpired else none

/-- The layout in which a press performs its action: the tap-dance counts the press, or a
press of the real row ends it. -/
def takePress (s : Layout T) (p : KCoord) : Layout T :=
  match s.danceAt p with
  | some tde => { s with tapDanceEager := some tde.incrTaps }
  | none =>
    if p.1 = realKeyRow then
      { s with tapDanceEager := s.tapDanceEager.map TapDanceEagerState.setExpired }
    else s

/-- The call that a press makes has the next action of the tap-dance that takes the press, or
the transparent action without one. -/
def MakesCall (s : Layout T) (call : Call T) : Prop :=
  match s.danceAt call.coord with
  | some tde => tde.actions[tde.numTaps]? = some call.action
  | none => call.action = .trans

/-- The press performs an action in place of the layers: without the first `n` of them. -/
def performPressed (act : DoAction T) (cfg : LayoutConfig C R T) (s : Layout T) (p : KCoord)
    (since : Nat) (action : Action T) (n : Nat) : Rust (Layout T × CustomEvent T) := do
  let layerStack ← s.transResolutionLayerOrder cfg
  let call : Call T := ⟨action, p, since, false, layerStack.drop n⟩
  let (s, custom, _) ← act call 0 ((s.takePress p).notePressed call)
  pure (s, custom)

variable (act : DoAction T) (cfg : LayoutConfig C R T) (since : Nat)

theorem danceAt_eq_some {tde : TapDanceEagerState T} :
    s.danceAt p = some tde ↔
      p = s.lastPressTracker.coord ∧ s.tapDanceEager = some tde ∧ tde.isExpired = false := by
  unfold danceAt
  split
  · rename_i hp
    simp [Option.filter_eq_some_iff, hp]
  · rename_i hp
    simp [hp]

theorem takePress_of_danceAt {tde : TapDanceEagerState T} (h : s.danceAt p = some tde) :
    s.takePress p = { s with tapDanceEager := some tde.incrTaps } := by
  unfold takePress
  rw [h]

theorem takePress_of_none (h : s.danceAt p = none) :
    s.takePress p = if p.1 = realKeyRow then
      { s with tapDanceEager := s.tapDanceEager.map TapDanceEagerState.setExpired } else s := by
  unfold takePress
  rw [h]

/-- A press changes nothing but the tap-dance. -/
theorem takePress_eq (s : Layout T) (p : KCoord) :
    s.takePress p = { s with tapDanceEager := (s.takePress p).tapDanceEager } := by
  unfold takePress
  split
  · rfl
  · split <;> rfl

/-- An active tap-dance has an action left. -/
theorem lt_of_not_expired {tde : TapDanceEagerState T} (h : tde.isExpired = false) :
    tde.numTaps < tde.actions.length := by
  unfold TapDanceEagerState.isExpired at h
  simp at h
  exact h.2

/-- The press that an active tap-dance takes. -/
theorem dequeuePress_of_danceAt {tde : TapDanceEagerState T} (h : s.danceAt p = some tde) :
    ∃ action, tde.actions[tde.numTaps]? = some action ∧
      dequeuePress act cfg p since s = s.performPressed act cfg p since action 1 := by
  rcases danceAt_eq_some.mp h with ⟨hp, htde, hactive⟩
  have hlt := lt_of_not_expired hactive
  refine ⟨tde.actions[tde.numTaps], List.getElem?_eq_getElem hlt, ?_⟩
  have hindex : WaitingState.indexInto tde.actions tde.numTaps
      "index out of bounds: tap-dance actions" = .ok tde.actions[tde.numTaps] := by
    unfold WaitingState.indexInto
    rw [List.getElem?_eq_getElem hlt]
    rfl
  unfold dequeuePress performPressed
  rw [takePress_of_danceAt h]
  simp only [htde, hp, hactive, and_self, if_true, hindex, ok_bind]

/-- Without it, the press performs what the layers have at its coordinate. -/
theorem dequeuePress_of_none (h : s.danceAt p = none) :
    dequeuePress act cfg p since s = performPressed act cfg s p since .trans 0 := by
  unfold dequeuePress performPressed
  rw [takePress_of_none h]
  refine congrArg _ (funext fun layerStack => ?_)
  dsimp only
  split
  · rename_i htde
    rw [htde]
    have hsame : { s with tapDanceEager := none } = s := by rw [← htde]
    simp only [Option.map_none, hsame, ite_self, List.drop_zero]
  · rename_i tde htde
    have hnot : ¬ (p = s.lastPressTracker.coord ∧ tde.isExpired = false) := by
      rintro ⟨hp, hactive⟩
      rw [danceAt_eq_some.mpr ⟨hp, htde, hactive⟩] at h
      cases h
    rw [if_neg hnot, htde]
    rfl

/-- Either way, the press makes the call that `MakesCall` says. -/
theorem dequeuePress_calls (s : Layout T) :
    ∃ action n, (∀ layerStack, s.MakesCall ⟨action, p, since, false, layerStack⟩) ∧
      dequeuePress act cfg p since s = performPressed act cfg s p since action n := by
  cases hdance : s.danceAt p with
  | some tde =>
    rcases dequeuePress_of_danceAt act cfg since hdance with ⟨action, haction, heq⟩
    refine ⟨action, 1, fun layerStack => ?_, heq⟩
    unfold MakesCall
    rw [hdance]
    exact haction
  | none =>
    refine ⟨.trans, 0, fun layerStack => ?_, dequeuePress_of_none act cfg since hdance⟩
    unfold MakesCall
    rw [hdance]

end Kanata.Layout
