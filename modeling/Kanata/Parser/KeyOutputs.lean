import Kanata.Engine.CurrentKeys
import Kanata.Layout.Uniform

/-!
# Kanata.Parser.KeyOutputs — the table of outputs that repeat

A translation of `parser/src/cfg/key_outputs.rs`: for each layer and key, the keys
that may be output. A key whose hardware repeats is looked up there. `Outputs` says
what the recursion of the table finds in an action.
-/

namespace Kanata

variable {C : Nat}

/-- The entries of a layer. A key that is not in the map has no outputs. -/
abbrev LayerOutputs := OsCode → List OsCode

abbrev KeyOutputs := List LayerOutputs

/-- `output_non_mods_for_input_non_mod`. -/
def outputNonModsForInputNonMod (overrides : List Override) (inOsc : OsCode) : List OsCode :=
  (overrides.filter fun o => o.inNonModOsc == inOsc).map (·.outNonModOsc)

/-- `add_kc_output`, on the entry of the key. -/
def addKcOutput (overrides : List Override) (outputs : List OsCode) (osc : OsCode) :
    List OsCode :=
  (outputNonModsForInputNonMod overrides osc).foldl pushNew (pushNew outputs osc)

mutual

/-- `add_key_output_from_action_to_key_pos`, on the entry of the key. -/
def addKeyOutputFromActionToKeyPos (overrides : List Override) (oscSlot : OsCode) :
    Action CustomAction → List OsCode → List OsCode
  | .keyCode kc, outputs => addKcOutput overrides outputs kc
  | .holdTap ⟨_, hold, tap, timeoutAction, _, _, _, _, _⟩, outputs =>
    let outputs := addKeyOutputFromActionToKeyPos overrides oscSlot tap outputs
    let outputs := addKeyOutputFromActionToKeyPos overrides oscSlot hold outputs
    addKeyOutputFromActionToKeyPos overrides oscSlot timeoutAction outputs
  | .oneShot ⟨action, _, _⟩, outputs =>
    addKeyOutputFromActionToKeyPos overrides oscSlot action outputs
  | .multipleKeyCodes kcs, outputs => kcs.foldl (addKcOutput overrides) outputs
  | .multipleActions actions, outputs => addActionsOutput overrides oscSlot actions outputs
  | .tapDance ⟨actions, _, _⟩, outputs => addActionsOutput overrides oscSlot actions outputs
  | .fork ⟨left, right, _⟩, outputs =>
    let outputs := addKeyOutputFromActionToKeyPos overrides oscSlot left outputs
    addKeyOutputFromActionToKeyPos overrides oscSlot right outputs
  | .chords ⟨_, chords, _⟩, outputs => addChordsOutput overrides oscSlot chords outputs
  | .switch ⟨cases, _⟩, outputs => addCasesOutput overrides oscSlot cases outputs
  | .custom (.unmodded keys _), outputs => keys.foldl (addKcOutput overrides) outputs
  | .custom (.unshifted keys), outputs => keys.foldl (addKcOutput overrides) outputs
  | .src, outputs => addKcOutput overrides outputs oscSlot
  | _, outputs => outputs

def addActionsOutput (overrides : List Override) (oscSlot : OsCode) :
    List (Action CustomAction) → List OsCode → List OsCode
  | [], outputs => outputs
  | action :: actions, outputs =>
    addActionsOutput overrides oscSlot actions
      (addKeyOutputFromActionToKeyPos overrides oscSlot action outputs)

def addChordsOutput (overrides : List Override) (oscSlot : OsCode) :
    List (ChordKeys × Action CustomAction) → List OsCode → List OsCode
  | [], outputs => outputs
  | (_, action) :: chords, outputs =>
    addChordsOutput overrides oscSlot chords
      (addKeyOutputFromActionToKeyPos overrides oscSlot action outputs)

def addCasesOutput (overrides : List Override) (oscSlot : OsCode) :
    List (SwitchCase (Action CustomAction)) → List OsCode → List OsCode
  | [], outputs => outputs
  | ⟨_, action, _⟩ :: cases, outputs =>
    addCasesOutput overrides oscSlot cases
      (addKeyOutputFromActionToKeyPos overrides oscSlot action outputs)

end

/-- The chords of `chords_v2` that a key takes part in on a layer. -/
def enabledChords (chordsV2 : Option (Chord.ChordsConfig (Action CustomAction))) (oscSlot : OsCode)
    (layerIdx : Nat) : List (Chord.ChordV2 (Action CustomAction)) :=
  match chordsV2 with
  | none => []
  | some chordsV2 =>
    ((chordsV2.chords.mapping oscSlot.code).getD []).filter
      fun chord => !chord.disabledLayers.contains (asU16 layerIdx)

/-- `add_chordsv2_output_for_key_pos`. Its assertion holds for the layers that the
parser accepts. -/
def addChordsv2OutputForKeyPos (overrides : List Override) (oscSlot : OsCode) (layerIdx : Nat)
    (chordsV2 : Option (Chord.ChordsConfig (Action CustomAction))) (outputs : List OsCode) :
    List OsCode :=
  (enabledChords chordsV2 oscSlot layerIdx).foldl
    (fun outputs chord => addKeyOutputFromActionToKeyPos overrides oscSlot chord.action outputs)
    outputs

/-- `create_key_outputs`. -/
def createKeyOutputs (cfg : LayoutConfig C 2 CustomAction) (overrides : List Override) :
    KeyOutputs :=
  cfg.layers.zipIdx.map fun (layer, layerIdx) oscSlot =>
    if h : oscSlot.code < C then
      addChordsv2OutputForKeyPos overrides oscSlot layerIdx cfg.chordsV2
        (addKeyOutputFromActionToKeyPos overrides oscSlot
          (layer ⟨0, Nat.zero_lt_two⟩ ⟨oscSlot.code, h⟩) [])
    else []

/-! ## What is in the table -/

/-- The action is the other one or inside it. -/
inductive Action.Inside {T : Type} : Action T → Action T → Prop where
  | refl (a : Action T) : a.Inside a
  | child {a b c : Action T} (hb : b ∈ a.children) (h : b.Inside c) : a.Inside c

theorem Action.Inside.trans {T : Type} {a b c : Action T} (h : a.Inside b) (h' : b.Inside c) :
    a.Inside c := by
  induction h with
  | refl => exact h'
  | child hb _ ih => exact .child hb (ih h')

/-- The key codes that an action on its own makes the layout, or `unmod` and `unshift`,
hold at a key. -/
def Action.holdsAt (oscSlot : OsCode) : Action CustomAction → List KeyCode
  | .keyCode kc => [kc]
  | .multipleKeyCodes kcs => kcs
  | .custom (.unmodded keys _) => keys
  | .custom (.unshifted keys) => keys
  | .src => [oscSlot]
  | _ => []

/-- The key is output for a key code: the key code itself, or what an override has
instead. -/
def OutputFor (overrides : List Override) (kc osc : OsCode) : Prop :=
  osc = kc ∨ osc ∈ outputNonModsForInputNonMod overrides kc

/-- The action, or one inside it, holds a key code for which the key is output. -/
def Outputs (overrides : List Override) (oscSlot : OsCode) (a : Action CustomAction)
    (osc : OsCode) : Prop :=
  ∃ b, a.Inside b ∧ ∃ kc ∈ b.holdsAt oscSlot, OutputFor overrides kc osc

section Table

variable {overrides : List Override} {oscSlot osc : OsCode}

theorem outputs_iff {a : Action CustomAction} :
    Outputs overrides oscSlot a osc ↔
      (∃ kc ∈ a.holdsAt oscSlot, OutputFor overrides kc osc) ∨
        ∃ b ∈ a.children, Outputs overrides oscSlot b osc := by
  constructor
  · rintro ⟨c, hinside, hc⟩
    cases hinside with
    | refl => exact .inl hc
    | @child _ b _ hb h => exact .inr ⟨b, hb, c, h, hc⟩
  · rintro (hhere | ⟨b, hb, c, h, hc⟩)
    · exact ⟨a, .refl a, hhere⟩
    · exact ⟨c, .child hb h, hc⟩

theorem mem_pushNew {outputs : List OsCode} {new : OsCode} :
    osc ∈ pushNew outputs new ↔ osc ∈ outputs ∨ osc = new := by
  unfold pushNew
  split_ifs with h
  · constructor
    · exact .inl
    · rintro (hmem | rfl)
      · exact hmem
      · exact List.contains_iff_mem.mp h
  · rw [List.mem_append, List.mem_singleton]

theorem mem_foldl_pushNew (news : List OsCode) (outputs : List OsCode) :
    osc ∈ news.foldl pushNew outputs ↔ osc ∈ outputs ∨ osc ∈ news := by
  induction news generalizing outputs with
  | nil => simp
  | cons new news ih => rw [List.foldl_cons, ih, mem_pushNew, List.mem_cons, or_assoc]

theorem mem_addKcOutput {outputs : List OsCode} {kc : OsCode} :
    osc ∈ addKcOutput overrides outputs kc ↔ osc ∈ outputs ∨ OutputFor overrides kc osc := by
  rw [addKcOutput, mem_foldl_pushNew, mem_pushNew, OutputFor, or_assoc]

theorem mem_foldl_addKcOutput (kcs : List OsCode) (outputs : List OsCode) :
    osc ∈ kcs.foldl (addKcOutput overrides) outputs ↔
      osc ∈ outputs ∨ ∃ kc ∈ kcs, OutputFor overrides kc osc := by
  induction kcs generalizing outputs with
  | nil => simp
  | cons kc kcs ih =>
    rw [List.foldl_cons, ih, mem_addKcOutput, or_assoc, List.exists_mem_cons_iff]

/-- An action that holds nothing and has nothing inside. -/
theorem mem_iff_of_silent {a : Action CustomAction} {outputs : List OsCode}
    (hholds : a.holdsAt oscSlot = []) (hchildren : a.children = []) :
    osc ∈ outputs ↔ osc ∈ outputs ∨ Outputs overrides oscSlot a osc := by
  rw [outputs_iff, hholds, hchildren]
  simp

/-- An action that holds nothing itself: what is inside it is added. -/
theorem mem_iff_of_children {a : Action CustomAction} {outputs : List OsCode}
    (hholds : a.holdsAt oscSlot = []) :
    (osc ∈ outputs ∨ ∃ b ∈ a.children, Outputs overrides oscSlot b osc) ↔
      osc ∈ outputs ∨ Outputs overrides oscSlot a osc := by
  rw [outputs_iff, hholds]
  simp

/-- An action that only holds key codes. -/
theorem mem_iff_of_holds {a : Action CustomAction} {outputs : List OsCode}
    (hchildren : a.children = []) :
    (osc ∈ outputs ∨ ∃ kc ∈ a.holdsAt oscSlot, OutputFor overrides kc osc) ↔
      osc ∈ outputs ∨ Outputs overrides oscSlot a osc := by
  rw [outputs_iff, hchildren]
  simp

mutual

/-- The entry gets exactly the outputs of the action. -/
theorem mem_addKeyOutput : ∀ (a : Action CustomAction) (outputs : List OsCode),
    osc ∈ addKeyOutputFromActionToKeyPos overrides oscSlot a outputs ↔
      osc ∈ outputs ∨ Outputs overrides oscSlot a osc
  | .keyCode kc, outputs => by
    rw [addKeyOutputFromActionToKeyPos, mem_addKcOutput, ← mem_iff_of_holds rfl]
    simp [Action.holdsAt]
  | .multipleKeyCodes kcs, outputs => by
    rw [addKeyOutputFromActionToKeyPos, mem_foldl_addKcOutput, ← mem_iff_of_holds rfl]
    rfl
  | .custom (.unmodded keys mods), outputs => by
    rw [addKeyOutputFromActionToKeyPos, mem_foldl_addKcOutput, ← mem_iff_of_holds rfl]
    rfl
  | .custom (.unshifted keys), outputs => by
    rw [addKeyOutputFromActionToKeyPos, mem_foldl_addKcOutput, ← mem_iff_of_holds rfl]
    rfl
  | .src, outputs => by
    rw [addKeyOutputFromActionToKeyPos, mem_addKcOutput, ← mem_iff_of_holds rfl]
    simp [Action.holdsAt]
  | .holdTap ⟨timeout, hold, tap, timeoutAction, config, interval, onPress, idle, h⟩, outputs => by
    rw [addKeyOutputFromActionToKeyPos, mem_addKeyOutput timeoutAction, mem_addKeyOutput hold,
      mem_addKeyOutput tap]
    refine Iff.trans ?_ (mem_iff_of_children rfl)
    -- the tap comes first here, and the hold in the record
    simp only [Action.children, List.exists_mem_cons_iff, List.not_mem_nil, false_and,
      exists_false, or_false]
    tauto
  | .oneShot ⟨action, timeout, endConfig⟩, outputs => by
    rw [addKeyOutputFromActionToKeyPos, mem_addKeyOutput action]
    refine Iff.trans ?_ (mem_iff_of_children rfl)
    simp [Action.children]
  | .multipleActions actions, outputs => by
    rw [addKeyOutputFromActionToKeyPos, mem_addActionsOutput actions]
    refine Iff.trans ?_ (mem_iff_of_children rfl)
    rfl
  | .tapDance ⟨actions, timeout, config⟩, outputs => by
    rw [addKeyOutputFromActionToKeyPos, mem_addActionsOutput actions]
    refine Iff.trans ?_ (mem_iff_of_children rfl)
    rfl
  | .fork ⟨left, right, rightTriggers⟩, outputs => by
    rw [addKeyOutputFromActionToKeyPos, mem_addKeyOutput right, mem_addKeyOutput left]
    refine Iff.trans ?_ (mem_iff_of_children rfl)
    simp [Action.children, or_assoc]
  | .chords ⟨coords, chords, timeout⟩, outputs => by
    rw [addKeyOutputFromActionToKeyPos, mem_addChordsOutput chords]
    refine Iff.trans ?_ (mem_iff_of_children rfl)
    simp only [Action.children, List.mem_map, exists_exists_and_eq_and]
  | .switch ⟨cases, callbacks⟩, outputs => by
    rw [addKeyOutputFromActionToKeyPos, mem_addCasesOutput cases]
    refine Iff.trans ?_ (mem_iff_of_children rfl)
    simp only [Action.children, List.mem_map, exists_exists_and_eq_and]
  | .custom .reverseReleaseOrder, _ => mem_iff_of_silent rfl rfl
  | .custom (.capsWord _), _ => mem_iff_of_silent rfl rfl
  | .custom (.fakeKey _ _), _ => mem_iff_of_silent rfl rfl
  | .custom (.fakeKeyOnRelease _ _), _ => mem_iff_of_silent rfl rfl
  | .custom (.fakeKeyOnIdle _), _ => mem_iff_of_silent rfl rfl
  | .custom (.fakeKeyOnPhysicalIdle _), _ => mem_iff_of_silent rfl rfl
  | .custom (.fakeKeyHoldForDuration _ _), _ => mem_iff_of_silent rfl rfl
  | .custom (.other _), _ => mem_iff_of_silent rfl rfl
  | .noOp, _ => mem_iff_of_silent rfl rfl
  | .trans, _ => mem_iff_of_silent rfl rfl
  | .multiKeyBuffer, _ => mem_iff_of_silent rfl rfl
  | .layer _, _ => mem_iff_of_silent rfl rfl
  | .defaultLayer _, _ => mem_iff_of_silent rfl rfl
  | .sequence _, _ => mem_iff_of_silent rfl rfl
  | .repeatableSequence _, _ => mem_iff_of_silent rfl rfl
  | .cancelSequences, _ => mem_iff_of_silent rfl rfl
  | .releaseState _, _ => mem_iff_of_silent rfl rfl
  | .oneShotIgnoreEventsTicks _, _ => mem_iff_of_silent rfl rfl
  | .repeat, _ => mem_iff_of_silent rfl rfl

theorem mem_addActionsOutput : ∀ (actions : List (Action CustomAction)) (outputs : List OsCode),
    osc ∈ addActionsOutput overrides oscSlot actions outputs ↔
      osc ∈ outputs ∨ ∃ b ∈ actions, Outputs overrides oscSlot b osc
  | [], outputs => by simp [addActionsOutput]
  | action :: actions, outputs => by
    rw [addActionsOutput, mem_addActionsOutput actions, mem_addKeyOutput action, or_assoc,
      List.exists_mem_cons_iff]

theorem mem_addChordsOutput : ∀ (chords : List (ChordKeys × Action CustomAction))
    (outputs : List OsCode), osc ∈ addChordsOutput overrides oscSlot chords outputs ↔
      osc ∈ outputs ∨ ∃ b ∈ chords, Outputs overrides oscSlot b.2 osc
  | [], outputs => by simp [addChordsOutput]
  | (mask, action) :: chords, outputs => by
    rw [addChordsOutput, mem_addChordsOutput chords, mem_addKeyOutput action, or_assoc,
      List.exists_mem_cons_iff]

theorem mem_addCasesOutput : ∀ (cases : List (SwitchCase (Action CustomAction)))
    (outputs : List OsCode), osc ∈ addCasesOutput overrides oscSlot cases outputs ↔
      osc ∈ outputs ∨ ∃ b ∈ cases, Outputs overrides oscSlot b.action osc
  | [], outputs => by simp [addCasesOutput]
  | ⟨boolExpr, action, breakOrFallthrough⟩ :: cases, outputs => by
    rw [addCasesOutput, mem_addCasesOutput cases, mem_addKeyOutput action, or_assoc,
      List.exists_mem_cons_iff]

end

theorem mem_foldl_addChord (chords : List (Chord.ChordV2 (Action CustomAction)))
    (outputs : List OsCode) :
    osc ∈ chords.foldl (fun outputs chord =>
        addKeyOutputFromActionToKeyPos overrides oscSlot chord.action outputs) outputs ↔
      osc ∈ outputs ∨ ∃ chord ∈ chords, Outputs overrides oscSlot chord.action osc := by
  induction chords generalizing outputs with
  | nil => simp
  | cons chord chords ih =>
    rw [List.foldl_cons, ih, mem_addKeyOutput, or_assoc, List.exists_mem_cons_iff]

/-- The table has exactly the outputs of the cell and of the chords that are enabled. -/
theorem mem_createKeyOutputs {cfg : LayoutConfig C 2 CustomAction} {l : Nat}
    {a : Action CustomAction} (hcell : cfg.cell l 0 oscSlot.code = .ok a) :
    ∃ entries, (createKeyOutputs cfg overrides)[l]? = some entries ∧
      (osc ∈ entries oscSlot ↔ Outputs overrides oscSlot a osc ∨
        ∃ chord ∈ enabledChords cfg.chordsV2 oscSlot l,
          Outputs overrides oscSlot chord.action osc) := by
  unfold LayoutConfig.cell at hcell
  rcases hlayer : cfg.layers[l]? with _ | layer
  · simp [hlayer, panicWith] at hcell
  · by_cases hlt : oscSlot.code < C
    · simp only [hlayer, Nat.zero_lt_succ, dite_true, hlt] at hcell
      obtain rfl : layer ⟨0, Nat.zero_lt_two⟩ ⟨oscSlot.code, hlt⟩ = a := Except.ok.inj hcell
      refine ⟨_, by rw [createKeyOutputs, List.getElem?_map, List.getElem?_zipIdx, hlayer]; rfl, ?_⟩
      simp only [hlt, dite_true, Nat.zero_add]
      rw [addChordsv2OutputForKeyPos, mem_foldl_addChord, mem_addKeyOutput]
      simp
    · simp [hlayer, hlt, panicWith] at hcell

end Table

end Kanata
