import Kanata.Engine.KeyStream
import Kanata.Engine.Sequences
import Kanata.Layout.Held
import Kanata.Parser.KeyOutputs

/-!
# Kanata.Engine.KeyRepeat — repeating a key that is held

`handle_repeat` of `src/kanata/key_repeat.rs`: a hardware repeat of a key is sent on
as a repeat of the first active key among those that the table lists for it. `CanHold`
says what the key may make the layout hold under some layers, by following the
calls of `do_action`. The table and the search cover it, except for an override of a
key that is transparent down to `defsrc`, and while a key sequence hides what is typed.
-/

namespace Kanata

open Fallible Relation

variable {C : Nat}

namespace Engine

/-! ## `handle_repeat` -/

/-- `cur_keys` of `handle_repeat`, with the scratch space of the overrides. -/
def repeatKeys (kcfg : KeyConfig) (s : Engine) : List KeyCode × OverrideStates :=
  overrideKeys kcfg.overrides s.layout.keycodes s.overrideStates (asU16 s.layout.currentLayer)

/-- The key is among the keys that are held. -/
def isActive (kcfg : KeyConfig) (s : Engine) (kc : KeyCode) : Bool :=
  (s.repeatKeys kcfg).1.contains kc || s.unshiftedKeys.contains kc || s.unmoddedKeys.contains kc

/-- The last output of a key that is held. -/
def searchOutputs (kcfg : KeyConfig) (s : Engine) (outputsForKey : List OsCode) : Option OsCode :=
  outputsForKey.reverse.find? (s.isActive kcfg)

/-- The loop over layers. -/
def searchLayers (kcfg : KeyConfig) (keyOutputs : KeyOutputs) (s : Engine) (code : OsCode) :
    List Nat → Rust (Option OsCode)
  | [] => pure none
  | layer :: layers =>
    match keyOutputs[layer]? with
    | none => panicWith "index out of bounds: key_outputs"
    | some outputs =>
      match s.searchOutputs kcfg (outputs code) with
      | some osc => pure (some osc)
      | none => searchLayers kcfg keyOutputs s code layers

/-- An active key sequence with this input mode hides what is typed. -/
def hides : Option Sequences.SequenceInputMode → Bool
  | some mode => mode != .visibleBackspaced
  | none => false

/-- `handle_repeat`, and the key that it writes. It is given the input mode of the active key
sequence. -/
def handleRepeat {R : Nat} (cfg : LayoutConfig C R CustomAction) (kcfg : KeyConfig)
    (keyOutputs : KeyOutputs) (sequenceInputMode : Option Sequences.SequenceInputMode)
    (s : Engine) (code : OsCode) : Rust (Engine × Option OsCode) := do
  if hides sequenceInputMode then return (s, none)
  let activeHeldLayers ← s.layout.transResolutionLayerOrder cfg
  let s' := { s with overrideStates := (s.repeatKeys kcfg).2 }
  match ← s.searchLayers kcfg keyOutputs code activeHeldLayers with
  | some osc => pure (s', some osc)
  | none =>
    match ← s.searchLayers kcfg keyOutputs code [s.layout.defaultLayer] with
    | some osc => pure (s', some osc)
    -- the default layer might be transparent too
    | none => pure (s', if s.isActive kcfg code then some code else none)

/-! ## What a key may output -/

/-- Where the actions of a key start under some layers: at its cell, and at the chords
that it takes part in. -/
def Starts (cfg : LayoutConfig C 2 CustomAction) (layers : List Nat) (code : OsCode)
    (start : List Nat × Action CustomAction) : Prop :=
  start = (layers, .trans) ∨
    ∃ l ∈ layers, ∃ chord ∈ enabledChords cfg.chordsV2 code l, start = ([], chord.action)

/-- An action that the key reaches holds the key code. The flag allows the key of
`defsrc` when all layers are transparent. -/
def CanHold (cfg : LayoutConfig C 2 CustomAction) (delegates : Bool) (layers : List Nat)
    (code kc : OsCode) : Prop :=
  ∃ start stack a, Starts cfg layers code start ∧
    ReflTransGen (Calls cfg (0, code.code) delegates) start (stack, a) ∧ kc ∈ a.holdsAt code

/-- The outputs of a key under some layers: the key codes that it can hold, and what
overrides have instead, except of the key of `defsrc` that stands for transparent layers. -/
def CanOutput (cfg : LayoutConfig C 2 CustomAction) (overrides : List Override) (layers : List Nat)
    (code osc : OsCode) : Prop :=
  CanHold cfg true layers code osc ∨
    ∃ kc, CanHold cfg false layers code kc ∧ osc ∈ outputNonModsForInputNonMod overrides kc

/-- The table lists the output for the key on one of the layers, or it is the key itself. -/
def Covered (cfg : LayoutConfig C 2 CustomAction) (overrides : List Override) (layers : List Nat)
    (code osc : OsCode) : Prop :=
  (∃ l ∈ layers, ∃ outputs, (createKeyOutputs cfg overrides)[l]? = some outputs ∧
    osc ∈ outputs code) ∨ osc = code

theorem mem_holdsAt_of_keyCodes {a : Action CustomAction} {code kc : OsCode}
    (h : kc ∈ a.keyCodes) : kc ∈ a.holdsAt code := by
  cases a with
  | keyCode kc' => exact h
  | multipleKeyCodes kcs => exact h
  | _ => cases h

/-- What is held at the coordinate of the key is what the key can hold. -/
def HeldByKey (cfg : LayoutConfig C 2 CustomAction) (layers : List Nat) (code : OsCode)
    (kc : KeyCode) (c : KCoord) : Prop :=
  c = (0, code.code) → CanHold cfg true layers code kc

/-- No action that the key reaches repeats another one. -/
def NoRepeat (cfg : LayoutConfig C 2 CustomAction) (layers : List Nat) (code : OsCode) : Prop :=
  ∀ start stack a, Starts cfg layers code start →
    ReflTransGen (Calls cfg (0, code.code) true) start (stack, a) →
      a ≠ .repeat ∧ a ≠ .multiKeyBuffer

/-- The link to the layout: whatever the key reaches, `do_action` makes the layout hold for the
key only what `CanHold` says. -/
theorem doAction_heldByKey {cfg : LayoutConfig C 2 CustomAction} {layers : List Nat}
    {code : OsCode} {start : List Nat × Action CustomAction} {call : Call CustomAction}
    {depth count : Nat} {s : Layout CustomAction}
    {r : Layout CustomAction × CustomEvent CustomAction × Nat}
    (hnorepeat : NoRepeat cfg layers code) (hstart : Starts cfg layers code start)
    (hcoord : call.coord = (0, code.code))
    (hreach : ReflTransGen (Calls cfg (0, code.code) true) start (call.layerStack, call.action))
    (h : Layout.doAction cfg depth call count s = .ok r) :
    Holding cfg (HeldByKey cfg layers code) True s r.1 := by
  refine Layout.doAction_holds depth (by rw [hcoord]) ?_ h
  intro stack a hpath
  rw [hcoord] at hpath
  have hfrom := hreach.trans hpath
  rcases hnorepeat start stack a hstart hfrom with ⟨hrepeat, hbuffer⟩
  refine ⟨hrepeat, hbuffer, fun kc hkc _ => ?_⟩
  exact ⟨start, stack, a, hstart, hfrom, mem_holdsAt_of_keyCodes hkc⟩

/-! ## The table covers the outputs -/

section Cover

variable {cfg : LayoutConfig C 2 CustomAction} {overrides : List Override} {layers : List Nat}
  {code : OsCode} {delegates : Bool}

/-- The action is in the cell of one of the layers or in a chord that is enabled there. -/
def Located (cfg : LayoutConfig C 2 CustomAction) (layers : List Nat) (code : OsCode)
    (a : Action CustomAction) : Prop :=
  ∃ l ∈ layers, ∃ b, b.Inside a ∧
    (cfg.cell l 0 code.code = .ok b ∨ ∃ chord ∈ enabledChords cfg.chordsV2 code l, b = chord.action)

/-- The invariant of the calls: the stack has only layers of the key, and the action is
in a cell or a chord, is still to be resolved, or is the key of `defsrc`. -/
def Traced (cfg : LayoutConfig C 2 CustomAction) (delegates : Bool) (layers : List Nat)
    (code : OsCode) (p : List Nat × Action CustomAction) : Prop :=
  (∀ l ∈ p.1, l ∈ layers) ∧
    (p.2 = .trans ∨ Located cfg layers code p.2 ∨
      (cfg.srcKey code.code = .ok p.2 ∧ (delegates = true ∨ Located cfg layers code .src)))

theorem traced_start {start : List Nat × Action CustomAction}
    (h : Starts cfg layers code start) : Traced cfg delegates layers code start := by
  rcases h with rfl | ⟨l, hl, chord, hchord, rfl⟩
  · constructor
    · intro l hl
      exact hl
    · exact .inl rfl
  · constructor
    · intro l hl
      cases hl
    · exact .inr (.inl ⟨l, hl, chord.action, .refl _, .inr ⟨chord, hchord, rfl⟩⟩)

theorem Located.inside {a b : Action CustomAction} (h : Located cfg layers code a)
    (hb : b ∈ a.children) : Located cfg layers code b := by
  obtain ⟨l, hl, c, hinside, hc⟩ := h
  exact ⟨l, hl, c, hinside.trans (.child hb (.refl b)), hc⟩

/-- The key of `defsrc` is a key code or nothing. -/
theorem srcKey_cases {a : Action CustomAction} (h : cfg.srcKey code.code = .ok a) :
    a = .noOp ∨ ∃ (i : Fin C) (kc : KeyCode), i.val = code.code ∧ cfg.srcKeys i = .keyCode kc ∧
      a = .keyCode kc := by
  unfold LayoutConfig.srcKey at h
  split at h
  · rename_i hlt
    obtain rfl := pure_eq_ok.mp h
    rcases hkey : cfg.srcKeys ⟨code.code, hlt⟩ with _ | kc
    · exact .inl rfl
    · exact .inr ⟨_, kc, rfl, hkey, rfl⟩
  · cases h

theorem foundIn_located {stack rest : List Nat} {a : Action CustomAction}
    (h : FoundIn cfg (0, code.code) stack a rest) (hstack : ∀ l ∈ stack, l ∈ layers) :
    (∀ l ∈ rest, l ∈ layers) ∧ Located cfg layers code a := by
  induction h with
  | @here l rest a h hne =>
    refine ⟨fun l' hl' => hstack l' (List.mem_cons_of_mem _ hl'), ?_⟩
    exact ⟨l, hstack l List.mem_cons_self, a, .refl a, .inl h⟩
  | next h hf ih => exact ih fun l' hl' => hstack l' (List.mem_cons_of_mem _ hl')

/-- Every call keeps the invariant. -/
theorem traced_step {p q : List Nat × Action CustomAction}
    (hcall : Calls cfg (0, code.code) delegates p q) (h : Traced cfg delegates layers code p) :
    Traced cfg delegates layers code q := by
  obtain ⟨hstack, hp⟩ := h
  have hnone : ∀ l ∈ ([] : List Nat), l ∈ layers := fun l hl => by cases hl
  cases hcall with
  | found hfound =>
    obtain ⟨hrest, hlocated⟩ := foundIn_located hfound hstack
    exact ⟨hrest, .inr (.inl hlocated)⟩
  | defsrc hd _ ha => exact ⟨hnone, .inr (.inr ⟨ha, .inl hd⟩)⟩
  | src ha =>
    refine ⟨hnone, .inr (.inr ⟨ha, .inr ?_⟩)⟩
    rcases hp with hp | hp | ⟨hp, _⟩
    · cases hp
    · exact hp
    · rcases srcKey_cases hp with hsrc | ⟨_, _, _, _, hsrc⟩ <;> cases hsrc
  | oneShot =>
    refine ⟨hnone, .inr (.inl ?_)⟩
    rcases hp with hp | hp | ⟨hp, _⟩
    · cases hp
    · exact hp.inside (by simp [Action.children])
    · rcases srcKey_cases hp with hsrc | ⟨_, _, _, _, hsrc⟩ <;> cases hsrc
  | inside _ hb =>
    refine ⟨hstack, .inr (.inl ?_)⟩
    rcases hp with rfl | hp | ⟨hp, _⟩
    · cases hb
    · exact hp.inside hb
    · rcases srcKey_cases hp with rfl | ⟨_, _, _, _, rfl⟩ <;> cases hb

theorem traced {start p : List Nat × Action CustomAction} (hstart : Starts cfg layers code start)
    (h : ReflTransGen (Calls cfg (0, code.code) delegates) start p) :
    Traced cfg delegates layers code p := by
  induction h with
  | refl => exact traced_start hstart
  | tail _ hcall ih => exact traced_step hcall ih

/-- The key of `defsrc` holds the key itself. -/
theorem srcKey_holds {a : Action CustomAction} {kc : KeyCode}
    (hsrc : ∀ i kc, cfg.srcKeys i = .keyCode kc → kc.code = i.val)
    (h : cfg.srcKey code.code = .ok a) (hholds : kc ∈ a.holdsAt code) : kc = code := by
  rcases srcKey_cases h with rfl | ⟨i, kc', hi, hkey, rfl⟩
  · cases hholds
  · rw [List.mem_singleton.mp hholds]
    exact KeyCode.ext_code ((hsrc i kc' hkey).trans hi)

/-- What an action in a cell or a chord outputs is in the table. -/
theorem Located.covered {a : Action CustomAction} {kc osc : OsCode}
    (h : Located cfg layers code a) (hcode : code.code < C)
    (hlayers : ∀ l ∈ layers, l < cfg.layers.length) (hkc : kc ∈ a.holdsAt code)
    (hosc : OutputFor overrides kc osc) : Covered cfg overrides layers code osc := by
  obtain ⟨l, hl, b, hinside, hb⟩ := h
  have houtputs : Outputs overrides code b osc := ⟨a, hinside, kc, hkc, hosc⟩
  have hcell : ∃ cell, cfg.cell l 0 code.code = .ok cell := by
    unfold LayoutConfig.cell
    rw [List.getElem?_eq_getElem (hlayers l hl)]
    exact ⟨_, by simp [hcode]; rfl⟩
  obtain ⟨cell, hcell⟩ := hcell
  obtain ⟨outputs, hget, hmem⟩ : ∃ outputs, (createKeyOutputs cfg overrides)[l]? = some outputs ∧
      (osc ∈ outputs code ↔ Outputs overrides code cell osc ∨
        ∃ chord ∈ enabledChords cfg.chordsV2 code l, Outputs overrides code chord.action osc) :=
    mem_createKeyOutputs hcell
  refine .inl ⟨l, hl, outputs, hget, hmem.mpr ?_⟩
  rcases hb with hb | ⟨chord, hchord, rfl⟩
  · obtain rfl := Except.ok.inj (hcell.symm.trans hb)
    exact .inl houtputs
  · exact .inr ⟨chord, hchord, houtputs⟩

/-- The table covers what the key can output. -/
theorem CanOutput.covered {osc : OsCode} (h : CanOutput cfg overrides layers code osc)
    (hsrc : ∀ i kc, cfg.srcKeys i = .keyCode kc → kc.code = i.val) (hcode : code.code < C)
    (hlayers : ∀ l ∈ layers, l < cfg.layers.length) : Covered cfg overrides layers code osc := by
  rcases h with ⟨start, stack, a, hstart, hcalls, hholds⟩ | ⟨kc, ⟨start, stack, a, hstart, hcalls,
    hholds⟩, hosc⟩
  · obtain ⟨_, hp⟩ := traced hstart hcalls
    rcases hp with hp | hp | ⟨hp, _⟩
    · obtain rfl : a = .trans := hp
      cases hholds
    · exact hp.covered hcode hlayers hholds (.inl rfl)
    · exact .inr (srcKey_holds hsrc hp hholds)
  · obtain ⟨_, hp⟩ := traced hstart hcalls
    rcases hp with hp | hp | ⟨hp, hd⟩
    · obtain rfl : a = .trans := hp
      cases hholds
    · exact hp.covered hcode hlayers hholds (.inr hosc)
    · -- not by delegation, so through an action that is `use-defsrc`
      obtain rfl := srcKey_holds hsrc hp hholds
      rcases hd with hd | hd
      · cases hd
      · exact hd.covered hcode hlayers (List.mem_singleton.mpr rfl) (.inr hosc)

end Cover

/-! ## The search -/

section Search

variable (kcfg : KeyConfig) (keyOutputs : KeyOutputs) (s : Engine) (code : OsCode)

theorem searchOutputs_none {kcfg : KeyConfig} {s : Engine} {outputs : List OsCode}
    (h : s.searchOutputs kcfg outputs = none) :
    ∀ osc ∈ outputs, s.isActive kcfg osc = false := by
  intro osc hosc
  have hnot := List.find?_eq_none.mp h osc (List.mem_reverse.mpr hosc)
  exact Bool.eq_false_iff.mpr hnot

/-- The search over layers that exist ends, with an active key or with none of the
outputs active. -/
theorem searchLayers_spec : ∀ (layers : List Nat), (∀ l ∈ layers, l < keyOutputs.length) →
    ∃ r, s.searchLayers kcfg keyOutputs code layers = .ok r ∧
      (∀ osc, r = some osc → s.isActive kcfg osc = true) ∧
      (r = none → ∀ l ∈ layers, ∀ outputs, keyOutputs[l]? = some outputs →
        ∀ osc ∈ outputs code, s.isActive kcfg osc = false)
  | [], _ => by
    refine ⟨none, rfl, ?_, ?_⟩
    · intro osc hosc
      cases hosc
    · intro _ l hl
      cases hl
  | layer :: layers, hlayers => by
    obtain ⟨outputs, hget⟩ : ∃ outputs, keyOutputs[layer]? = some outputs :=
      ⟨_, List.getElem?_eq_getElem (hlayers layer List.mem_cons_self)⟩
    rw [searchLayers, hget]
    dsimp only
    rcases hfound : s.searchOutputs kcfg (outputs code) with _ | osc
    · -- nothing on this layer
      obtain ⟨r, hr, hsome, hnone⟩ :=
        searchLayers_spec layers fun l hl => hlayers l (List.mem_cons_of_mem _ hl)
      refine ⟨r, hr, hsome, ?_⟩
      intro hrnone l hl outputs' hget' osc hosc
      rcases List.mem_cons.mp hl with rfl | hl
      · obtain rfl := Option.some.inj (hget.symm.trans hget')
        exact searchOutputs_none hfound osc hosc
      · exact hnone hrnone l hl outputs' hget' osc hosc
    · refine ⟨some osc, rfl, ?_, ?_⟩
      · intro osc' hosc'
        obtain rfl := Option.some.inj hosc'
        exact List.find?_some hfound
      · intro hnone
        cases hnone

end Search

section Complete

variable {cfg : LayoutConfig C 2 CustomAction} {kcfg : KeyConfig} {code : OsCode}
  {layers : List Nat}

/-- An active output of the key is found when its layers are active and no key sequence hides
what is typed. -/
theorem handleRepeat_finds {s : Engine} {mode : Option Sequences.SequenceInputMode}
    (hsrc : ∀ i kc, cfg.srcKeys i = .keyCode kc → kc.code = i.val) (hcode : code.code < C)
    (hlayers : ∀ l ∈ layers, l < cfg.layers.length)
    (hdefault : s.layout.defaultLayer < cfg.layers.length)
    (horder : s.layout.transResolutionLayerOrder cfg = .ok layers) (hmode : hides mode = false)
    {osc : OsCode} (hosc : CanOutput cfg kcfg.overrides layers code osc)
    (hactive : s.isActive kcfg osc = true) :
    ∃ s' r, handleRepeat cfg kcfg (createKeyOutputs cfg kcfg.overrides) mode s code =
        .ok (s', some r) ∧ s.isActive kcfg r = true := by
  have hlength : (createKeyOutputs cfg kcfg.overrides).length = cfg.layers.length := by
    simp [createKeyOutputs]
  obtain ⟨r, hr, hsome, hnone⟩ :=
    searchLayers_spec kcfg (createKeyOutputs cfg kcfg.overrides) s code layers
      fun l hl => by rw [hlength]; exact hlayers l hl
  obtain ⟨r', hr', hsome', _⟩ :=
    searchLayers_spec kcfg (createKeyOutputs cfg kcfg.overrides) s code [s.layout.defaultLayer]
      fun l hl => by rw [hlength, List.mem_singleton.mp hl]; exact hdefault
  unfold handleRepeat
  simp only [hmode, horder, hr, hr', ok_bind, Bool.false_eq_true, if_false]
  rcases r with _ | osc₁
  · rcases r' with _ | osc₂
    · -- the output is the key itself
      have hself : osc = code := by
        rcases hosc.covered hsrc hcode hlayers with ⟨l, hl, outputs, hget, hmem⟩ | heq
        · rw [hnone rfl l hl outputs hget osc hmem] at hactive
          cases hactive
        · exact heq
      subst hself
      exact ⟨_, osc, by rw [if_pos hactive]; rfl, hactive⟩
    · exact ⟨_, osc₂, rfl, hsome' osc₂ rfl⟩
  · exact ⟨_, osc₁, rfl, hsome osc₁ rfl⟩

end Complete

/-! ## A transparent key with an override -/

/-- One layer with an action on all its keys. -/
def allKeys (action : Action CustomAction) : LayoutConfig 31 2 CustomAction where
  srcKeys i := .keyCode ⟨i.val, Nat.le_trans (Nat.le_of_lt i.isLt) (show 31 ≤ keyCodeMax by decide)⟩
  layers := [fun _ _ => action]
  transResolutionBehaviorV2 := true
  delegateToFirstLayer := false
  quickTapHoldTimeout := false
  tapHoldRequirePriorIdle := 0
  chordsV2 := none
  callbacks _ _ := false
  overflowChecks := true
  stackDepth := 10

/-- `(defoverrides (a) (b))`. -/
def insteadOfA : KeyConfig where
  overrides := [{
    inNonModOsc := keyA
    outNonModOsc := keyB
    inModOscs := []
    outModOscs := []
    excludedModOscs := none
    excludedLayers := none
    inNonMod_mask := by decide
    inMods_mask := by simp
    excludedMods_mask := by simp }]
  overrideReleaseOnActivation := false

/-- The key is pressed, and it repeats after one tick. -/
def pressAndRepeat (cfg : LayoutConfig 31 2 CustomAction) (kcfg : KeyConfig) (code : OsCode) :
    Rust (Tick × Option OsCode) := do
  let layout ← (Layout.new 0).event cfg (.press 0 code.code)
  let (s, t) ← tickStates cfg kcfg (new layout)
  let (_, repeated) ← handleRepeat cfg kcfg (createKeyOutputs cfg kcfg.overrides) none s code
  pure (t, repeated)

/-- A key that holds `b`. -/
def holdingB : Engine := new ((Layout.new 0).pushState (.normalKey keyB (0, 30) ⟨false, false⟩))

/-- The table of the layer on which all keys are `b`. -/
def outputsB : KeyOutputs := createKeyOutputs (allKeys (.keyCode keyB)) []

end Engine

end Kanata
