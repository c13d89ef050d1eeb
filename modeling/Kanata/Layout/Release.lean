import Mathlib.Data.List.Perm.Basic
import Kanata.Layout.Run

/-!
# Kanata.Layout.Release — what a release removes

A release goes over the states once or, when it pushes the delayed release of a one-shot
key out of its queue, twice. `retainStates_ok` and `retainStates_error` say what a pass
leaves, what it hands over and when it panics.

`release_exact_iff`: a release removes just what it should if and only if there is room
for the custom events of the states it removes.
-/

namespace Kanata

open Fallible Machine

variable {C R : Nat} {T : Type}

/-! ## Custom events that are handed over -/

namespace State

/-- The value of a custom state at the coordinate. -/
def customAt (c : KCoord) : State T → Option T
  | .custom value coord => if coord = c then some value else none
  | _ => none

/-- The value of a custom state. -/
def customValue : State T → Option T
  | .custom value _ => some value
  | _ => none

end State

namespace Released

/-- The values are handed over: the first one is returned if nothing is yet, the others
go to the queue. -/
def handOver (custom : CustomEvent T) (queue : List T) : List T → CustomEvent T × List T
  | [] => (custom, queue)
  | v :: vs =>
    match custom with
    | .noEvent => (.release v, queue ++ vs)
    | _ => (custom, queue ++ v :: vs)

/-- How many more values there is room for. -/
def room (rel : Released T) : Nat :=
  match rel.custom with
  | .noEvent => 1 + (customEventReleaseQueueLen - rel.queue.items.length)
  | _ => customEventReleaseQueueLen - rel.queue.items.length

/-- After the values were handed over. -/
structure After (rel rel' : Released T) (vs : List T) : Prop where
  handed : (rel'.custom, rel'.queue.items) = handOver rel.custom rel.queue.items vs
  room_eq : rel'.room = rel.room - vs.length

/-- Nothing was handed over. -/
theorem After.refl (rel : Released T) : After rel rel [] := ⟨rfl, rfl⟩

/-- One part after the other. -/
theorem After.trans {rel rel' rel'' : Released T} {vs ws : List T} (h : After rel rel' vs)
    (h' : After rel' rel'' ws) : After rel rel'' (vs ++ ws) where
  handed := by
    have hfirst := Prod.mk.inj h.handed
    rw [h'.handed, hfirst.1, hfirst.2]
    cases vs with
    | nil => rfl
    | cons v vs =>
      cases hcustom : rel.custom with
      | noEvent => cases ws <;> simp [handOver]
      | press _ => cases ws <;> simp [handOver]
      | release _ => cases ws <;> simp [handOver]
  room_eq := by
    rw [h'.room_eq, h.room_eq, List.length_append]
    omega

end Released

/-- A state that is no custom state of the coordinate hands nothing over, and is dropped if it
is there. -/
theorem State.release_of_none {c : KCoord} {st : State T} (h : st.customAt c = none)
    (rel : Released T) : st.release c rel = .ok (decide (st.coord ≠ some c), rel) := by
  cases st with
  | custom value coord =>
    -- a custom state of the coordinate would have a value there
    have hne : coord ≠ c := by
      intro heq
      rw [show (State.custom value coord).customAt c = if coord = c then some value else none
        from rfl, if_pos heq] at h
      cases h
    have hcoord : (State.custom value coord).coord ≠ some c := fun heq => hne (Option.some.inj heq)
    unfold State.release
    rw [decide_eq_true hcoord]
    exact if_neg hne
  | _ => rfl

/-- What the release of a custom state does when something is returned already. -/
def Released.queueValue (rel : Released T) (v : T) : Rust (Bool × Released T) :=
  match rel.queue.pushBack v with
  | (queue, none) => pure (false, { rel with queue, removed := rel.removed ++ [v] })
  | (_, some _) => panicWith "overflowed custom action release queue"

/-- A custom state at the coordinate: the first one is returned. -/
theorem State.release_custom (v : T) (c : KCoord) (rel : Released T) :
    (State.custom v c).release c rel =
      match rel.custom with
      | .noEvent => pure (false, { rel with custom := .release v, removed := rel.removed ++ [v] })
      | _ => rel.queueValue v := by
  have hif : (State.custom v c).release c rel = if c = c then _ else _ := rfl
  rw [hif, if_pos rfl]
  rcases rel with ⟨custom, queue, removed⟩
  cases custom <;> rfl

/-- There is room for it, or the release panics. -/
theorem Released.queueValue_spec {rel : Released T} (hcustom : rel.custom ≠ .noEvent) (v : T) :
    (0 < rel.room → ∃ rel', rel.queueValue v = .ok (false, rel') ∧ rel.After rel' [v]) ∧
      (rel.room = 0 → rel.queueValue v = .error ⟨"overflowed custom action release queue"⟩) := by
  -- something is returned already, so only the queue counts
  have hroom : ∀ rel' : Released T, rel'.custom = rel.custom →
      rel'.room = customEventReleaseQueueLen - rel'.queue.items.length := by
    intro rel' heq
    unfold Released.room
    rw [heq]
    split
    · rename_i hno
      exact absurd hno hcustom
    · rfl
  have hhand : Released.handOver rel.custom rel.queue.items [v] =
      (rel.custom, rel.queue.items ++ [v]) := by
    show (match rel.custom with
      | .noEvent => (CustomEvent.release v, rel.queue.items ++ [])
      | _ => (rel.custom, rel.queue.items ++ [v])) = _
    split
    · rename_i hno
      exact absurd hno hcustom
    · rfl
  -- the queue wraps: a value that falls out is the panic of the source
  have hnone : (rel.queue.pushBack v).2 = none ↔
      rel.queue.items.length < customEventReleaseQueueLen := Bounded.pushBack_eq_none
  rw [hroom rel rfl]
  unfold Released.queueValue
  rcases hpush : rel.queue.pushBack v with ⟨queue, lost⟩
  rw [hpush] at hnone
  constructor
  · intro hpos
    have hlt : rel.queue.items.length < customEventReleaseQueueLen := by omega
    have hitems : queue.items = rel.queue.items ++ [v] := by
      have h := (Bounded.pushBack_of_lt hlt v).1
      rwa [hpush] at h
    cases hnone.mpr hlt
    refine ⟨{ rel with queue, removed := rel.removed ++ [v] }, rfl, ?_, ?_⟩
    · rw [hhand, ← hitems]
    · have hroom' := hroom { rel with queue, removed := rel.removed ++ [v] } rfl
      rw [hroom', hroom rel rfl, hitems, List.length_append, Nat.sub_sub]
  · intro hzero
    cases lost with
    | none =>
      have hlt := hnone.mp rfl
      omega
    | some _ => rfl

/-- The release of a custom state is returned, or queued while there is room. -/
theorem State.release_of_some {c : KCoord} {st : State T} {v : T} (h : st.customAt c = some v)
    (rel : Released T) :
    (0 < rel.room → ∃ rel', st.release c rel = .ok (false, rel') ∧ rel.After rel' [v]) ∧
      (rel.room = 0 → st.release c rel = .error ⟨"overflowed custom action release queue"⟩) := by
  cases st with
  | custom value coord =>
    have hif : (if coord = c then some value else none) = some v := h
    split at hif
    · rename_i hcoord
      cases hif
      subst hcoord
      rw [State.release_custom]
      cases hcustom : rel.custom with
      | noEvent =>
        have hroom : rel.room = 1 + (customEventReleaseQueueLen - rel.queue.items.length) := by
          unfold Released.room
          rw [hcustom]
        constructor
        · intro _
          refine ⟨{ rel with custom := .release v, removed := rel.removed ++ [v] }, rfl, ?_, ?_⟩
          · simp [Released.handOver, hcustom]
          · rw [hroom, List.length_singleton, Nat.add_sub_cancel_left]
            rfl
        · intro hzero
          omega
      | press w => exact Released.queueValue_spec (by simp [hcustom]) v
      | release w => exact Released.queueValue_spec (by simp [hcustom]) v
    · cases hif
  | _ => cases h

/-! ## A pass over the states -/

/-- What a pass leaves in place. -/
def ReleaseRule.stays (c : KCoord) (st : State T) : ReleaseRule → Bool
  | .keep => true
  | .drop => false
  | .release => decide (st.coord ≠ some c)

/-- The rule goes by `State::release` for all custom states. -/
def ReleasesCustoms (rule : State T → ReleaseRule) : Prop :=
  ∀ value coord, rule (.custom value coord) = .release

section Pass

variable {rule : State T → ReleaseRule} {c : KCoord}

/-- Other rules are for states that are no custom states. -/
theorem ReleasesCustoms.customAt_eq_none (hrule : ReleasesCustoms rule) {st : State T}
    (h : rule st ≠ .release) : st.customAt c = none := by
  cases st with
  | custom value coord => exact absurd (hrule value coord) h
  | _ => rfl

/-- With enough room a pass hands over the custom states of its coordinate. -/
theorem retainStates_ok (hrule : ReleasesCustoms rule) : ∀ {states : List (State T)}
    {rel : Released T}, (states.filterMap (State.customAt c)).length ≤ rel.room →
      ∃ rel', retainStates rule c states rel =
          .ok (states.filter fun st => (rule st).stays c st, rel') ∧
        rel.After rel' (states.filterMap (State.customAt c))
  | [], rel, _ => ⟨rel, rfl, .refl rel⟩
  | st :: states, rel, h => by
    unfold retainStates
    cases hst : rule st with
    | keep =>
      have hnone : st.customAt c = none := hrule.customAt_eq_none (by simp [hst])
      rw [List.filterMap_cons_none hnone] at h ⊢
      rcases retainStates_ok hrule h with ⟨rel', hrest, hafter⟩
      refine ⟨rel', ?_, hafter⟩
      rw [List.filter_cons_of_pos (by rw [hst]; rfl), hrest]
      rfl
    | drop =>
      have hnone : st.customAt c = none := hrule.customAt_eq_none (by simp [hst])
      rw [List.filterMap_cons_none hnone] at h ⊢
      rcases retainStates_ok hrule h with ⟨rel', hrest, hafter⟩
      refine ⟨rel', ?_, hafter⟩
      rw [List.filter_cons_of_neg (by rw [hst]; simp [ReleaseRule.stays])]
      exact hrest
    | release =>
      cases hcustom : st.customAt c with
      | none =>
        rw [List.filterMap_cons_none hcustom] at h ⊢
        rcases retainStates_ok hrule h with ⟨rel', hrest, hafter⟩
        refine ⟨rel', ?_, hafter⟩
        simp only [State.release_of_none hcustom, ok_bind, hrest]
        rw [List.filter_cons, hst]
        rfl
      | some v =>
        rw [List.filterMap_cons_some hcustom] at h ⊢
        rw [List.length_cons] at h
        rcases (State.release_of_some hcustom rel).1 (by omega) with ⟨rel₁, hrel, hafter₁⟩
        have hroom := hafter₁.room_eq
        rw [List.length_singleton] at hroom
        -- the custom state takes one place
        have hfits : (states.filterMap (State.customAt c)).length ≤ rel₁.room := by omega
        rcases retainStates_ok hrule hfits with ⟨rel', hrest, hafter⟩
        refine ⟨rel', ?_, hafter₁.trans hafter⟩
        -- a custom state that is released does not stay
        have hgone : ReleaseRule.stays c st .release = false := by
          cases st with
          | custom value coord =>
            have hif : (if coord = c then some value else none) = some v := hcustom
            split at hif
            · rename_i hcoord
              simp [ReleaseRule.stays, State.coord, hcoord]
            · cases hif
          | _ => cases hcustom
        simp only [hrel, ok_bind, hrest]
        rw [List.filter_cons_of_neg (by rw [hst, hgone]; simp)]
        rfl

/-- Without enough room it panics. -/
theorem retainStates_error (hrule : ReleasesCustoms rule) : ∀ {states : List (State T)}
    {rel : Released T}, rel.room < (states.filterMap (State.customAt c)).length →
      retainStates rule c states rel = .error ⟨"overflowed custom action release queue"⟩
  | [], rel, h => absurd h (Nat.not_lt_zero _)
  | st :: states, rel, h => by
    unfold retainStates
    cases hst : rule st with
    | keep =>
      have hnone : st.customAt c = none := hrule.customAt_eq_none (by simp [hst])
      rw [List.filterMap_cons_none hnone] at h
      simp only [retainStates_error hrule h, error_bind]
    | drop =>
      have hnone : st.customAt c = none := hrule.customAt_eq_none (by simp [hst])
      rw [List.filterMap_cons_none hnone] at h
      exact retainStates_error hrule h
    | release =>
      cases hcustom : st.customAt c with
      | none =>
        rw [List.filterMap_cons_none hcustom] at h
        simp only [State.release_of_none hcustom, ok_bind, retainStates_error hrule h, error_bind]
      | some v =>
        rw [List.filterMap_cons_some hcustom, List.length_cons] at h
        -- there is no room for this one, or not for a later one
        by_cases hzero : rel.room = 0
        · simp only [(State.release_of_some hcustom rel).2 hzero, error_bind]
        · rcases (State.release_of_some hcustom rel).1 (by omega) with ⟨rel₁, hrel, hafter₁⟩
          have hroom := hafter₁.room_eq
          rw [List.length_singleton] at hroom
          have hless : rel₁.room < (states.filterMap (State.customAt c)).length := by omega
          simp only [hrel, ok_bind, retainStates_error hrule hless, error_bind]

end Pass

/-! ## The release of a coordinate -/

namespace OneShotState

/-- The one-shot key whose delayed release does not fit in the queue any more. -/
def overflowKey (o : OneShotState) (c : KCoord) : Option KCoord :=
  if o.keys.items.contains c then (o.releasedKeys.pushBack c).2 else none

/-- An active one-shot key at the coordinate retains the state. -/
def Retains (o : OneShotState) (c : KCoord) (st : State T) : Prop :=
  c ∈ o.keys.items ∧
    ((∃ kc flags, st = .normalKey kc c flags ∧
        .keyCode c kc ∈ o.stateToRetainOnRelease.items) ∨
      ∃ value, st = .layerModifier value c ∧
        .layer c (asU16 value) ∈ o.stateToRetainOnRelease.items)

/-- What the release of a one-shot key decides. -/
theorem handleRelease_spec (o : OneShotState) (c : KCoord) :
    (o.handleRelease c).2 = (!o.keys.items.contains c, o.overflowKey c) ∧
      (o.handleRelease c).1.stateToRetainOnRelease = o.stateToRetainOnRelease := by
  unfold handleRelease overflowKey
  by_cases hempty : o.keys.items.isEmpty = true
  · rw [if_pos hempty, List.isEmpty_iff.mp hempty]
    exact ⟨rfl, rfl⟩
  · rw [if_neg hempty]
    cases o.keys.items.contains c with
    | true => exact ⟨rfl, rfl⟩
    | false => exact ⟨rfl, rfl⟩

end OneShotState

namespace Layout

/-- The values of the custom states that the release of a coordinate removes. -/
def releasedCustoms (s : Layout T) (c : KCoord) : List T :=
  s.states.items.filterMap (State.customAt c) ++
    match s.oneshot.overflowKey c with
    | some c₂ => (s.states.items.filter (·.coord != some c)).filterMap (State.customAt c₂)
    | none => []

/-- The state is at another coordinate, has no flag to be cleared, and its one-shot key is
not pushed out of the queue. -/
def unconcerned (s : Layout T) (c : KCoord) (st : State T) : Bool :=
  st.coord != some c && !st.clearOnNextRelease &&
    match s.oneshot.overflowKey c with
    | some c₂ => st.coord != some c₂
    | none => true

/-- What the release of a coordinate should do. -/
structure ReleasesExactly (s s' : Layout T) (c : KCoord) (e : CustomEvent T) : Prop where
  sublist : s'.states.items.Sublist s.states.items
  gone : ∀ st ∈ s'.states.items, st.coord = some c → s.oneshot.Retains c st
  others : s'.states.items.filter (s.unconcerned c) = s.states.items.filter (s.unconcerned c)
  /-- The custom states that are removed, and that their releases are handed over. -/
  customs : (s.states.items.filterMap State.customValue).Perm
    (s'.states.items.filterMap State.customValue ++ s.releasedCustoms c)
  handed : (e, s'.customEventReleaseQueue.items) =
    Released.handOver .noEvent s.customEventReleaseQueue.items (s.releasedCustoms c)

end Layout

/-- The rule of the first pass. -/
theorem releasesCustoms_releaseRule (o : OneShotState) (doRelease : Bool) (c : KCoord) :
    ReleasesCustoms (T := T) (Layout.releaseRule o doRelease c) := by
  intro value coord
  cases doRelease with
  | true => rfl
  | false => rfl

section Pass

variable {c : KCoord} {st : State T} {states : List (State T)}

/-- A key of an active one-shot stays if it is to be retained. -/
theorem releaseRule_normalKey (o : OneShotState) (kc : KeyCode) (coord : KCoord)
    (flags : NormalKeyFlags) :
    Layout.releaseRule (T := T) o false c (.normalKey kc coord flags) =
      if coord ≠ c ∨ o.stateToRetainOnRelease.items.contains (.keyCode coord kc) then .keep
      else .drop := rfl

/-- So does a layer. -/
theorem releaseRule_layerModifier (o : OneShotState) (value : Nat) (coord : KCoord) :
    Layout.releaseRule (T := T) o false c (.layerModifier value coord) =
      if coord ≠ c ∨ o.stateToRetainOnRelease.items.contains (.layer coord (asU16 value)) then .keep
      else .drop := rfl

/-- A state at the coordinate that is left is retained. -/
theorem stays_releaseRule {o : OneShotState} {doRelease : Bool}
    (hstays : (Layout.releaseRule o doRelease c st).stays c st = true)
    (hcoord : st.coord = some c) :
    doRelease = false ∧
      ((∃ kc flags, st = .normalKey kc c flags ∧
          .keyCode c kc ∈ o.stateToRetainOnRelease.items) ∨
        ∃ value, st = .layerModifier value c ∧
          .layer c (asU16 value) ∈ o.stateToRetainOnRelease.items) := by
  -- a state of the coordinate stays by the rule `keep` only
  have hnot : ReleaseRule.stays c st .release = false := by
    simp [ReleaseRule.stays, hcoord]
  cases doRelease with
  | true =>
    unfold Layout.releaseRule at hstays
    rw [if_pos rfl] at hstays
    split at hstays
    · cases hstays
    · rw [hnot] at hstays
      cases hstays
  | false =>
    refine ⟨rfl, ?_⟩
    cases st with
    | normalKey kc coord flags =>
      obtain rfl : coord = c := Option.some.inj hcoord
      refine .inl ⟨kc, flags, rfl, ?_⟩
      by_contra hnotMem
      rw [releaseRule_normalKey, if_neg (by simpa using hnotMem)] at hstays
      cases hstays
    | layerModifier value coord =>
      obtain rfl : coord = c := Option.some.inj hcoord
      refine .inr ⟨value, rfl, ?_⟩
      by_contra hnotMem
      rw [releaseRule_layerModifier, if_neg (by simpa using hnotMem)] at hstays
      cases hstays
    | _ =>
      have heq := hstays.symm.trans hnot
      cases heq

/-- A state at another coordinate is left, unless its flag says that it is cleared. -/
theorem releaseRule_stays {o : OneShotState} {doRelease : Bool} (hcoord : st.coord ≠ some c)
    (hflag : st.clearOnNextRelease = false) :
    (Layout.releaseRule o doRelease c st).stays c st = true := by
  have hrelease : ReleaseRule.stays c st .release = true := decide_eq_true hcoord
  cases doRelease with
  | true =>
    unfold Layout.releaseRule
    rw [if_pos rfl, hflag]
    exact hrelease
  | false =>
    cases st with
    | normalKey kc coord flags =>
      rw [releaseRule_normalKey, if_pos (.inl fun heq => hcoord (congrArg some heq))]
      rfl
    | layerModifier value coord =>
      rw [releaseRule_layerModifier, if_pos (.inl fun heq => hcoord (congrArg some heq))]
      rfl
    | _ => exact hrelease

/-- A pass splits the custom states into those that are left and those at its coordinate. -/
theorem customs_perm {rule : State T → ReleaseRule} (hrule : ReleasesCustoms rule) :
    (states.filterMap State.customValue).Perm
      ((states.filter fun st => (rule st).stays c st).filterMap State.customValue ++
        states.filterMap (State.customAt c)) := by
  induction states with
  | nil => exact .nil
  | cons st states ih =>
    cases st with
    | custom value coord =>
      have hvalue : (State.custom value coord).customValue = some value := rfl
      rw [List.filterMap_cons_some hvalue, List.filter_cons, hrule value coord]
      by_cases hcoord : coord = c
      · -- it is removed
        have hat : (State.custom value coord).customAt c = some value := if_pos hcoord
        have hstays : ReleaseRule.stays c (.custom value coord) .release = false := by
          simp [ReleaseRule.stays, State.coord, hcoord]
        rw [List.filterMap_cons_some hat, hstays, if_neg Bool.false_ne_true]
        exact (ih.cons value).trans List.perm_middle.symm
      · have hat : (State.custom value coord).customAt c = none := if_neg hcoord
        have hstays : ReleaseRule.stays c (.custom value coord) .release = true := by
          simp [ReleaseRule.stays, State.coord, hcoord]
        rw [List.filterMap_cons_none hat, hstays, if_pos rfl, List.filterMap_cons_some hvalue]
        exact ih.cons value
    | _ =>
      rw [List.filterMap_cons_none rfl, List.filterMap_cons_none rfl, List.filter_cons]
      split
      · rw [List.filterMap_cons_none rfl]
        exact ih
      · exact ih

/-- For the custom states the rule of the first pass does not matter. -/
theorem customsAt_filter {rule : State T → ReleaseRule} (hrule : ReleasesCustoms rule)
    (c₂ : KCoord) :
    (states.filter fun st => (rule st).stays c st).filterMap (State.customAt c₂) =
      (states.filter (·.coord != some c)).filterMap (State.customAt c₂) := by
  induction states with
  | nil => rfl
  | cons st states ih =>
    cases st with
    | custom value coord =>
      have hstays : ReleaseRule.stays c (.custom value coord) .release =
          ((State.custom value coord).coord != some c) := by
        by_cases hcoord : (State.custom value coord).coord = some c
        · simp [ReleaseRule.stays, hcoord]
        · simp [ReleaseRule.stays, hcoord]
      rw [List.filter_cons, List.filter_cons, hrule value coord, hstays]
      split
      · rw [List.filterMap_cons, List.filterMap_cons, ih]
      · exact ih
    | _ =>
      rw [List.filter_cons, List.filter_cons]
      split
      · split
        · rw [List.filterMap_cons_none rfl, List.filterMap_cons_none rfl]
          exact ih
        · rw [List.filterMap_cons_none rfl]
          exact ih
      · split
        · rw [List.filterMap_cons_none rfl]
          exact ih
        · exact ih

end Pass

namespace Layout

variable {s : Layout T} {c : KCoord}

/-- The state that a release leaves: the states after the first pass, and after the second
one if there is an overflow. -/
def statesLeft (s : Layout T) (c : KCoord) : List (State T) :=
  let rule := releaseRule (s.oneshot.handleRelease c).1 (s.oneshot.handleRelease c).2.1 c
  let states := s.states.items.filter fun st => (rule st).stays c st
  match s.oneshot.overflowKey c with
  | some c₂ => states.filter fun st => ReleaseRule.stays c₂ st .release
  | none => states

/-- No state is added or moved. -/
theorem statesLeft_sublist : (s.statesLeft c).Sublist s.states.items := by
  unfold statesLeft
  cases s.oneshot.overflowKey c with
  | none => exact List.filter_sublist
  | some c₂ => exact List.filter_sublist.trans List.filter_sublist

/-- A state of the coordinate is left only for its one-shot key. -/
theorem mem_statesLeft {st : State T} (h : st ∈ s.statesLeft c) (hcoord : st.coord = some c) :
    s.oneshot.Retains c st := by
  rcases s.oneshot.handleRelease_spec c with ⟨hdo, hretain⟩
  have hfirst : (releaseRule (s.oneshot.handleRelease c).1 (s.oneshot.handleRelease c).2.1 c
      st).stays c st = true := by
    unfold statesLeft at h
    cases hoverflow : s.oneshot.overflowKey c with
    | none =>
      rw [hoverflow] at h
      exact (List.mem_filter.mp h).2
    | some c₂ =>
      rw [hoverflow] at h
      exact (List.mem_filter.mp (List.mem_filter.mp h).1).2
  rcases stays_releaseRule hfirst hcoord with ⟨hactive, hretained⟩
  rw [hdo, Bool.not_eq_false', List.contains_iff_mem] at hactive
  rw [hretain] at hretained
  exact ⟨hactive, hretained⟩

/-- What has nothing to do with the release is left. -/
theorem statesLeft_unconcerned :
    (s.statesLeft c).filter (s.unconcerned c) = s.states.items.filter (s.unconcerned c) := by
  have hfirst : ∀ st : State T, s.unconcerned c st = true →
      (releaseRule (s.oneshot.handleRelease c).1 (s.oneshot.handleRelease c).2.1 c
        st).stays c st = true := by
    intro st hst
    unfold unconcerned at hst
    rw [Bool.and_eq_true, Bool.and_eq_true, bne_iff_ne, Bool.not_eq_true'] at hst
    exact releaseRule_stays hst.1.1 hst.1.2
  unfold statesLeft
  cases hoverflow : s.oneshot.overflowKey c with
  | none =>
    simp only [List.filter_filter]
    refine List.filter_congr fun st _ => ?_
    cases hst : s.unconcerned c st with
    | false => rfl
    | true => rw [hfirst st hst, Bool.and_self]
  | some c₂ =>
    simp only [List.filter_filter]
    refine List.filter_congr fun st _ => ?_
    cases hst : s.unconcerned c st with
    | false => rfl
    | true =>
      have hsecond : ReleaseRule.stays c₂ st .release = true := by
        unfold unconcerned at hst
        rw [hoverflow, Bool.and_eq_true, bne_iff_ne] at hst
        exact decide_eq_true hst.2
      rw [hfirst st hst, hsecond, Bool.and_self]
      rfl

/-- The custom states are left or handed over. -/
theorem statesLeft_customs : (s.states.items.filterMap State.customValue).Perm
    ((s.statesLeft c).filterMap State.customValue ++ s.releasedCustoms c) := by
  have hrule := releasesCustoms_releaseRule (T := T) (s.oneshot.handleRelease c).1
    (s.oneshot.handleRelease c).2.1 c
  have hfirst := @customs_perm _ c s.states.items _ hrule
  unfold statesLeft releasedCustoms
  cases s.oneshot.overflowKey c with
  | none =>
    rw [List.append_nil]
    exact hfirst
  | some c₂ =>
    have hrelease : ReleasesCustoms (T := T) fun _ => .release := fun _ _ => rfl
    have hsecond := @customs_perm _ c₂ (s.states.items.filter fun st =>
      (releaseRule (s.oneshot.handleRelease c).1 (s.oneshot.handleRelease c).2.1 c st).stays c st)
      _ hrelease
    rw [customsAt_filter hrule] at hsecond
    refine (hfirst.trans (hsecond.append_right _)).trans ?_
    rw [List.append_assoc]
    exact List.perm_append_comm.append_left _

/-- The two passes over the states. -/
def releasePasses (s : Layout T) (c : KCoord) : Rust (List (State T) × Released T) := do
  let (states, rel) ← retainStates
    (releaseRule (s.oneshot.handleRelease c).1 (s.oneshot.handleRelease c).2.1 c) c s.states.items
    ⟨.noEvent, s.customEventReleaseQueue, []⟩
  releaseOverflow (s.oneshot.handleRelease c).2.2 states rel

/-- The release is its two passes. -/
theorem dequeueRelease_eq :
    s.dequeueRelease c = s.releasePasses c >>= fun r =>
      pure ({ s with
        oneshot := (s.oneshot.handleRelease c).1
        states := .ofTake _ r.1
        customEventReleaseQueue := r.2.queue
        trace := s.trace ++ r.2.removed.map .customReleased }, r.2.custom) := by
  unfold dequeueRelease releasePasses
  rcases s.oneshot.handleRelease c with ⟨oneshot, doRelease, overflowKey⟩
  rw [bind_assoc]

/-- With room for all custom events both passes succeed. -/
theorem releasePasses_ok
    (h : (s.releasedCustoms c).length ≤
      1 + (customEventReleaseQueueLen - s.customEventReleaseQueue.items.length)) :
    ∃ rel, s.releasePasses c = .ok (s.statesLeft c, rel) ∧
      Released.After ⟨.noEvent, s.customEventReleaseQueue, []⟩ rel (s.releasedCustoms c) := by
  have hrule := releasesCustoms_releaseRule (T := T) (s.oneshot.handleRelease c).1
    (s.oneshot.handleRelease c).2.1 c
  have hrelease : ReleasesCustoms (T := T) fun _ => .release := fun _ _ => rfl
  have hkey : (s.oneshot.handleRelease c).2.2 = s.oneshot.overflowKey c :=
    congrArg Prod.snd (s.oneshot.handleRelease_spec c).1
  unfold releasePasses statesLeft releasedCustoms at *
  rw [hkey]
  rw [List.length_append] at h
  have hfits : (s.states.items.filterMap (State.customAt c)).length ≤
      Released.room ⟨.noEvent, s.customEventReleaseQueue, []⟩ := Nat.le_of_add_right_le h
  rcases retainStates_ok hrule hfits with ⟨rel₁, hfirst, hafter₁⟩
  rw [hfirst, ok_bind]
  cases hoverflow : s.oneshot.overflowKey c with
  | none =>
    rw [List.append_nil]
    exact ⟨rel₁, rfl, hafter₁⟩
  | some c₂ =>
    rw [hoverflow] at h
    dsimp only at h
    have hroom : rel₁.room = 1 + (customEventReleaseQueueLen -
        s.customEventReleaseQueue.items.length) - _ := hafter₁.room_eq
    -- the second pass finds the custom states that the first one has left
    have hsame := @customsAt_filter _ c s.states.items _ hrule c₂
    have hfits₂ : ((s.states.items.filter fun st =>
        (releaseRule (s.oneshot.handleRelease c).1 (s.oneshot.handleRelease c).2.1 c st).stays c
          st).filterMap (State.customAt c₂)).length ≤ rel₁.room := by
      rw [hsame]
      omega
    rcases retainStates_ok hrelease hfits₂ with ⟨rel₂, hsecond, hafter₂⟩
    rw [hsame] at hafter₂
    exact ⟨rel₂, hsecond, hafter₁.trans hafter₂⟩

/-- Without, one of them panics. -/
theorem releasePasses_error
    (h : 1 + (customEventReleaseQueueLen - s.customEventReleaseQueue.items.length) <
      (s.releasedCustoms c).length) :
    s.releasePasses c = .error ⟨"overflowed custom action release queue"⟩ := by
  have hrule := releasesCustoms_releaseRule (T := T) (s.oneshot.handleRelease c).1
    (s.oneshot.handleRelease c).2.1 c
  have hrelease : ReleasesCustoms (T := T) fun _ => .release := fun _ _ => rfl
  have hkey : (s.oneshot.handleRelease c).2.2 = s.oneshot.overflowKey c :=
    congrArg Prod.snd (s.oneshot.handleRelease_spec c).1
  unfold releasePasses releasedCustoms at *
  rw [hkey]
  rw [List.length_append] at h
  by_cases hfits : (s.states.items.filterMap (State.customAt c)).length ≤
      Released.room ⟨.noEvent, s.customEventReleaseQueue, []⟩
  · -- the first pass succeeds
    rcases retainStates_ok hrule hfits with ⟨rel₁, hfirst, hafter₁⟩
    have hroom : rel₁.room = 1 + (customEventReleaseQueueLen -
        s.customEventReleaseQueue.items.length) - _ := hafter₁.room_eq
    have hfits : _ ≤ 1 + (customEventReleaseQueueLen -
      s.customEventReleaseQueue.items.length) := hfits
    rw [hfirst, ok_bind]
    cases hoverflow : s.oneshot.overflowKey c with
    | none =>
      rw [hoverflow] at h
      exact absurd hfits (Nat.not_le_of_lt h)
    | some c₂ =>
      rw [hoverflow] at h
      dsimp only at h
      refine retainStates_error hrelease ?_
      rw [customsAt_filter hrule]
      omega
  · rw [retainStates_error hrule (Nat.lt_of_not_le hfits)]
    rfl

/-- The release does what it should. -/
theorem dequeueRelease_ok
    (h : (s.releasedCustoms c).length ≤
      1 + (customEventReleaseQueueLen - s.customEventReleaseQueue.items.length)) :
    ∃ s' e, s.dequeueRelease c = .ok (s', e) ∧ s.ReleasesExactly s' c e := by
  rcases releasePasses_ok h with ⟨rel, hpasses, hafter⟩
  refine ⟨_, _, by rw [dequeueRelease_eq, hpasses]; rfl, ?_⟩
  have hsub := s.statesLeft_sublist (c := c)
  -- there are no more states than before, so all of them fit
  have hleft : (s.statesLeft c).take statesLen = s.statesLeft c :=
    List.take_of_length_le (Nat.le_trans hsub.length_le s.states.length_le)
  constructor
  · show ((s.statesLeft c).take statesLen).Sublist _
    rw [hleft]
    exact hsub
  · intro st hst hcoord
    have hst : st ∈ (s.statesLeft c).take statesLen := hst
    rw [hleft] at hst
    exact mem_statesLeft hst hcoord
  · show ((s.statesLeft c).take statesLen).filter _ = _
    rw [hleft]
    exact statesLeft_unconcerned
  · show List.Perm _ (((s.statesLeft c).take statesLen).filterMap _ ++ _)
    rw [hleft]
    exact statesLeft_customs
  · exact hafter.handed

/-- The release panics. -/
theorem dequeueRelease_error
    (h : 1 + (customEventReleaseQueueLen - s.customEventReleaseQueue.items.length) <
      (s.releasedCustoms c).length) :
    s.dequeueRelease c = .error ⟨"overflowed custom action release queue"⟩ := by
  rw [dequeueRelease_eq, releasePasses_error h]
  rfl

end Layout

/-- A release removes exactly its coordinate if and only if the custom states that it
removes are at most one more than the queue of releases has room for. -/
theorem release_exact_iff (act : DoAction T) (cfg : LayoutConfig C R T) (s : Layout T) (c : KCoord)
    (since : Nat) (origin : Option Nat) :
    (∃ s' e, Layout.dequeue act cfg ⟨.release c.1 c.2, since, origin⟩ s = .ok (s', e) ∧
        s.ReleasesExactly s' c e) ↔
      (s.releasedCustoms c).length ≤
        1 + (customEventReleaseQueueLen - s.customEventReleaseQueue.items.length) := by
  let noted := s.note (.eventProcessed ⟨.release c.1 c.2, since, origin⟩)
  have hdequeue : Layout.dequeue act cfg ⟨.release c.1 c.2, since, origin⟩ s =
      noted.dequeueRelease c := rfl
  rw [hdequeue]
  constructor
  · rintro ⟨s', e, h, _⟩
    by_contra hover
    have herror := Layout.dequeueRelease_error (s := noted) (Nat.lt_of_not_le hover)
    rw [herror] at h
    cases h
  · intro hfits
    rcases Layout.dequeueRelease_ok (s := noted) hfits with ⟨s', e, h, hexactly⟩
    exact ⟨s', e, h, { hexactly with }⟩

/-- A virtual key with a custom action is pressed eighteen times. -/
def eighteenPresses : List LayoutOp :=
  (List.replicate 18 [.event (.press 1 1), .tick]).flatten

/-- The release of the virtual key panics. -/
theorem release_exact_fails :
    ∃ s os, run (Layout.step (oneLayer [.custom 7])) (.new 0) eighteenPresses = .ok (s, os) ∧
      Layout.dequeue (Layout.act (oneLayer [.custom 7])) (oneLayer [.custom 7])
        (.newRelease 1 1) s = .error ⟨"overflowed custom action release queue"⟩ ∧
      run (Layout.step (oneLayer [.custom 7])) (.new 0)
        (eighteenPresses ++ [.event (.release 1 1), .tick]) =
          .error ⟨"overflowed custom action release queue"⟩ :=
  ⟨_, _, rfl, rfl, rfl⟩

end Kanata
