import Kanata.Layout.Performs

/-!
# Kanata.Layout.Panics — the helpers of `do_action` that can fail

What the layer order, an index and the evaluation of a switch give within a
discipline. None of their panics is a failed key lookup.
-/

namespace Kanata

open Fallible

variable {C R : Nat} {T : Type} {cfg : LayoutConfig C R T} {E : Panic → Prop}
  {D : Discipline cfg E} {s : Layout T}

/-- A panic that is no failed lookup is one that the discipline lets through. -/
theorem Discipline.otherPanic (D : Discipline cfg E) {α : Type} {Q : α → Prop} {msg : String}
    (h : msg ∉ lookupPanics) : Ensures (panicWith msg : Rust α) Q E :=
  D.otherPanics ⟨msg⟩ h

/-- So is the failure of an assertion; behind one that holds, its condition holds. -/
theorem Discipline.assertOther (D : Discipline cfg E) {c : Bool} {msg : String}
    (h : msg ∉ lookupPanics) : Ensures (assertThat c msg) (fun _ => c = true) E := by
  cases c with
  | true => exact rfl
  | false => exact D.otherPanics ⟨msg⟩ h

/-- Nothing is asked of the result of an addition. -/
theorem Discipline.addU16 (D : Discipline cfg E) (checks : Bool) (a b : Nat) :
    Ensures (addU16 checks a b) (fun _ => True) E := by
  unfold Kanata.addU16
  split
  · trivial
  · split
    · exact D.otherPanic (by decide)
    · trivial

/-- An index into the actions of a tap-dance gives one of them. -/
theorem Discipline.indexInto (D : Discipline cfg E) {α : Type} {xs : List α} {i : Nat} :
    Ensures (WaitingState.indexInto xs i "index out of bounds: tap-dance actions")
      (fun a => a ∈ xs) E := by
  unfold WaitingState.indexInto
  split
  · rename_i a ha
    exact List.mem_of_getElem? ha
  · exact D.otherPanic (by decide)

/-! ## Releases -/

/-- Releasing a coordinate may fail only when too many custom actions are released at once. By
induction on the states. -/
theorem retainStates_panics (D : Discipline cfg E) (rule : State T → ReleaseRule) (c : KCoord) :
    ∀ (states : List (State T)) (rel : Released T),
      Ensures (retainStates rule c states rel) (fun _ => True) E := by
  intro states
  induction states with
  | nil => exact fun _ => trivial
  | cons st states ih =>
    intro rel
    unfold retainStates
    split
    · exact Ensures.bind ((ih rel).mono (fun _ _ => trivial) fun _ hp => hp)
    · exact ih rel
    -- a custom action: the queue of those that are released may be full
    · have hrelease : Ensures (st.release c rel) (fun _ => True) E := by
        unfold State.release
        split
        · split
          · dsimp only
            split
            · trivial
            · split
              · trivial
              · exact D.otherPanic (by decide)
          · trivial
        · trivial
      refine Ensures.bind (hrelease.mono ?_ fun _ hp => hp)
      rintro ⟨stays, rel'⟩ _
      exact Ensures.bind ((ih rel').mono (fun _ _ => trivial) fun _ hp => hp)

/-- A release that is taken from the queue, with the release that it may push out of the
one-shot keys. -/
theorem dequeueRelease_panics (D : Discipline cfg E) (s : Layout T) (c : KCoord) :
    Ensures (s.dequeueRelease c) (fun _ => True) E := by
  unfold Layout.dequeueRelease
  dsimp only
  refine Ensures.bind ((retainStates_panics D _ _ _ _).mono ?_ fun _ hp => hp)
  rintro ⟨states, rel⟩ _
  refine Ensures.bind (Ensures.mono (Q := fun _ => True) (E := E) ?_ (fun _ _ => trivial)
    fun _ hp => hp)
  unfold Layout.releaseOverflow
  split
  · exact retainStates_panics D _ _ _ _
  · trivial

/-! ## Layers -/

/-- A layer that is held comes from a state of the layout. -/
theorem mem_activeHeldLayers {l : Nat} (h : l ∈ s.activeHeldLayers) :
    ∃ value coord, State.layerModifier value coord ∈ s.states.items ∧ l = asU16 value := by
  simp only [Layout.activeHeldLayers, List.mem_reverse, List.mem_filterMap] at h
  rcases h with ⟨st, hst, hl⟩
  cases st with
  | layerModifier value coord =>
    refine ⟨value, coord, hst, ?_⟩
    simpa [State.getLayer] using hl.symm
  | _ => simp [State.getLayer] at hl

/-- The current layer is the default one, or the layer that was held last. -/
theorem currentLayer_cases (s : Layout T) :
    s.currentLayer = s.defaultLayer ∨
      ∃ coord, State.layerModifier s.currentLayer coord ∈ s.states.items := by
  unfold Layout.currentLayer
  cases hfound : s.states.items.reverse.findSome? State.getLayer with
  | none => exact Or.inl rfl
  | some value =>
    right
    rcases List.exists_of_findSome?_eq_some hfound with ⟨st, hst, hget⟩
    cases st with
    | layerModifier v coord =>
      simp only [State.getLayer, Option.some.injEq] at hget
      subst hget
      exact ⟨coord, List.mem_reverse.mp hst⟩
    | _ => simp [State.getLayer] at hget

/-- The layers that are held are layers of the discipline. -/
theorem Layout.Obeys.heldLayer (h : s.Obeys D) {l : Nat} (hl : l ∈ s.activeHeldLayers) :
    D.layers l := by
  rcases mem_activeHeldLayers hl with ⟨value, coord, hst, rfl⟩
  exact h.states _ hst

/-- So is the current layer, whether it is held or the default. -/
theorem Layout.Obeys.currentLayer (h : s.Obeys D) : D.layers (asU16 s.currentLayer) := by
  -- a layer modifier is a state, and states are within the discipline
  rcases currentLayer_cases s with heq | ⟨coord, hst⟩
  · rw [heq]
    exact h.defaultLayer
  · exact h.states _ hst

/-- Transparency is resolved through layers that may be in a stack. -/
theorem layerOrder_ensures (h : s.Obeys D) :
    Ensures (s.transResolutionLayerOrder cfg) (fun ls => ∀ l ∈ ls, D.layers l) E := by
  unfold Layout.transResolutionLayerOrder
  dsimp only
  split
  · refine Ensures.bind ((D.assertOther (by decide)).mono ?_ fun _ hp => hp)
    intro _ _
    rw [ensures_pure]
    have hheld : ∀ l ∈ ((Bounded.ofTake maxActiveLayers s.activeHeldLayers).pushIgnore
        (asU16 s.defaultLayer)).items, D.layers l := by
      intro l hl
      rcases Bounded.mem_pushIgnore hl with hl | rfl
      · exact h.heldLayer (Bounded.mem_ofTake hl)
      · exact h.defaultLayer
    intro l hl
    split at hl
    · rcases Bounded.mem_pushIgnore hl with hl | rfl
      · exact hheld l hl
      · exact D.layers_zero
    · exact hheld l hl
  · rw [ensures_pure]
    have hcurrent : ∀ l ∈ ((Bounded.empty : LayerStack).pushIgnore (asU16 s.currentLayer)).items,
        D.layers l := by
      intro l hl
      rcases Bounded.mem_pushIgnore hl with hl | rfl
      · simp at hl
      · exact h.currentLayer
    intro l hl
    split at hl
    · rcases Bounded.mem_pushIgnore hl with hl | rfl
      · exact hcurrent l hl
      · exact D.layers_zero
    · exact hcurrent l hl

/-! ## Switch evaluation -/

section Switch

open Kanata.Switch

/-- Decoding an operation code. A code outside the ranges is a panic of its own. -/
theorem opcodeType_panics (D : Discipline cfg E) (op : Nat) (next : Option Nat) :
    Ensures (OpCode.opcodeType op next) (fun _ => True) E := by
  unfold OpCode.opcodeType
  split
  · trivial
  · split
    · split
      · exact D.otherPanic (by decide)
      · unfold twoWordType
        repeat' split
        all_goals first | trivial | exact D.otherPanic (by decide)
    · split
      · trivial
      · split
        · trivial
        · split
          · trivial
          · refine Ensures.bind ?_
            unfold OperatorAndEndIndex.ofU16
            dsimp only
            repeat' split
            all_goals first | trivial | exact D.otherPanics ⟨_⟩ (by decide)

/-- The value of a condition: only a callback that is not there is a panic. -/
theorem leafValue_panics (D : Discipline cfg E) (env : SwitchEnv) (leaf : OpCodeType) :
    Ensures (leafValue env leaf) (fun _ => True) E := by
  cases leaf with
  | booleanOp o => exact D.otherPanic (by decide)
  | callbackIndex i =>
    simp only [leafValue]
    split
    · trivial
    · exact D.otherPanic (by decide)
  | _ => trivial

/-- One operation code: it opens a group of conditions, or is a condition. -/
theorem evalOpCode_panics (D : Discipline cfg E) (boolExpr : List OpCode) (env : SwitchEnv)
    (st : EvalState) : Ensures (evalOpCode boolExpr env st) (fun _ => True) E := by
  unfold evalOpCode
  split
  · exact D.otherPanic (by decide)
  · refine Ensures.bind ((opcodeType_panics D _ _).mono ?_ fun _ hp => hp)
    intro leaf _
    -- every code but a group ends in the value of a condition
    have hleaf : Ensures (leafValue env leaf >>= fun r => pure (finishLeaf st r.1 r.2))
        (fun _ => True) E :=
      Ensures.bind ((leafValue_panics D env leaf).mono (fun _ _ => trivial) fun _ hp => hp)
    cases leaf with
    | booleanOp o =>
      exact Ensures.bind ((D.assertOther (by decide)).mono (fun _ _ => trivial) fun _ hp => hp)
    | _ => exact hleaf

/-- The loop over the operation codes, by induction on the fuel. -/
theorem evalLoop_panics (D : Discipline cfg E) (boolExpr : List OpCode) (env : SwitchEnv) :
    ∀ (fuel : Nat) (st : EvalState), Ensures (evalLoop boolExpr env fuel st) (fun _ => True) E := by
  intro fuel
  induction fuel with
  | zero =>
    intro st
    unfold evalLoop
    split
    · exact D.otherPanic (by decide)
    · trivial
  | succ fuel ih =>
    intro st
    -- the next code, and the loop behind it
    have hnext : ∀ st', Ensures (evalOpCode boolExpr env st' >>= evalLoop boolExpr env fuel)
        (fun _ => True) E := fun st' =>
      Ensures.bind ((evalOpCode_panics D boolExpr env st').mono (fun _ _ => ih _) fun _ hp => hp)
    unfold evalLoop
    split
    · dsimp only
      split
      · split
        · trivial
        · split
          · exact ih _
          · exact hnext _
      · exact hnext _
    · trivial

/-- The actions whose conditions hold are actions of the cases, which may be performed where the
switch may. -/
theorem switchActions_ensures (D : Discipline cfg E) {c : KCoord} (env : SwitchEnv) :
    ∀ cases : List (SwitchCase (Action T)), (∀ case ∈ cases, D.performs case.action c) →
      Ensures (Layout.switchActions env cases) (fun as => ∀ a ∈ as, D.performs a c) E := by
  intro cases
  induction cases with
  | nil =>
    intro _
    simp [Layout.switchActions]
  | cons case cases ih =>
    intro h
    have hcases := ih fun case' hmem => h case' (List.mem_cons_of_mem _ hmem)
    unfold Layout.switchActions
    refine Ensures.bind ((evalLoop_panics D _ _ _ _).mono ?_ fun _ hp => hp)
    intro b _
    split
    · split
      · rw [ensures_pure]
        intro a ha
        rw [List.mem_singleton.mp ha]
        exact h case List.mem_cons_self
      · refine Ensures.bind (hcases.mono ?_ fun _ hp => hp)
        intro rest hrest
        rw [ensures_pure]
        intro a ha
        rcases List.mem_cons.mp ha with rfl | ha
        · exact h case List.mem_cons_self
        · exact hrest a ha
    · exact hcases

end Switch

end Kanata
