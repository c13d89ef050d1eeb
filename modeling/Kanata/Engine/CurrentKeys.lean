import Kanata.Engine.Output
import Kanata.Engine.VirtualKeys
import Kanata.Lib.PressRelease
import Kanata.Parser.Macro

/-!
# Kanata.Engine.CurrentKeys — from the keys of the layout to the keys that are sent

What `handle_keystate_changes` of `src/kanata/mod.rs` does with the key codes of
the layout: the custom actions that concern keys, `unmod` and `unshift`, the
overrides of `parser/src/cfg/key_override.rs`, caps-word of
`src/kanata/caps_word.rs`, then the releases and the presses. The rest of `tick_states`
is what it gives back to the layout, by the custom actions for virtual keys.

There is no key sequence and no zippychord here. `CustomAction` keeps the custom
actions that the lists of keys and the layout depend on; the others are `other`.
-/

namespace Kanata

open Macro PressRelease

/-! ## Custom actions -/

/-- `UnmodMods`. -/
structure UnmodMods where
  bits : BitVec 8
deriving DecidableEq, Repr

/-- The modifiers of the bits that are set, from the lowest bit. -/
def UnmodMods.keys (mods : UnmodMods) : List KeyCode :=
  ([lShift, rShift, lAlt, rAlt, lCtrl, rCtrl, lGui, rGui].zipIdx.filter
    fun (_, bit) => mods.bits.getLsbD bit).map Prod.fst

inductive CapsWordRepressBehaviour where
  | overwrite
  | toggle
deriving DecidableEq, Repr

structure CapsWordCfg where
  keysToCapitalize : List KeyCode
  keysNonterminal : List KeyCode
  timeout : Nat
  repressBehaviour : CapsWordRepressBehaviour
deriving DecidableEq, Repr

inductive CustomAction where
  | unmodded (keys : List KeyCode) (mods : UnmodMods)
  | unshifted (keys : List KeyCode)
  | reverseReleaseOrder
  | capsWord (cfg : CapsWordCfg)
  | fakeKey (coord : KCoord) (action : FakeKeyAction)
  | fakeKeyOnRelease (coord : KCoord) (action : FakeKeyAction)
  | fakeKeyOnIdle (fkd : FakeKeyOnIdle)
  | fakeKeyOnPhysicalIdle (fkd : FakeKeyOnIdle)
  | fakeKeyHoldForDuration (coord : KCoord) (holdDuration : Nat)
  /-- An action that neither the lists of keys nor the layout depends on. -/
  | other (id : Nat)
deriving DecidableEq, Repr

/-! ## Overrides -/

/-- `mask_for_key`. -/
def maskForKey (osc : OsCode) : Option (BitVec 8) :=
  if osc = lCtrl then some 1
  else if osc = lShift then some 2
  else if osc = lAlt then some 4
  else if osc = lGui then some 8
  else if osc = rCtrl then some 16
  else if osc = rShift then some 32
  else if osc = rAlt then some 64
  else if osc = rGui then some 128
  else none

/-- `Override`. The fields that end in `_mask` are what `try_new` and the parser of
`defoverridesv2` check. -/
structure Override where
  inNonModOsc : OsCode
  outNonModOsc : OsCode
  inModOscs : List OsCode
  outModOscs : List OsCode
  excludedModOscs : Option (List OsCode)
  excludedLayers : Option (List Nat)
  inNonMod_mask : maskForKey inNonModOsc = none
  inMods_mask : ∀ osc ∈ inModOscs, (maskForKey osc).isSome
  excludedMods_mask : ∀ oscs ∈ excludedModOscs, ∀ osc ∈ oscs, (maskForKey osc).isSome

namespace Override

/-- The masks of a list of modifiers together. The `expect` does not fail, by the
fields of an override. -/
def maskOf (oscs : List OsCode) : BitVec 8 :=
  oscs.foldl (fun mask osc => mask ||| (maskForKey osc).getD 0) 0

/-- `get_mod_mask`. -/
def getModMask (o : Override) : BitVec 8 := maskOf o.inModOscs

/-- `get_excluded_mod_mask`. -/
def getExcludedModMask (o : Override) : BitVec 8 := (o.excludedModOscs.map maskOf).getD 0

/-- The test of `update_keys`. -/
def applies (o : Override) (activeModMask : BitVec 8) (activeLayer : Nat) : Bool :=
  if (o.excludedLayers.map fun layers => layers.contains activeLayer).getD false then false
  else
    o.getModMask &&& activeModMask == o.getModMask &&
      o.getExcludedModMask &&& activeModMask == 0

end Override

/-- Push a key that is not there. -/
def pushNew (oscs : List OsCode) (osc : OsCode) : List OsCode :=
  if oscs.contains osc then oscs else oscs ++ [osc]

/-- `OverrideStates`. -/
structure OverrideStates where
  modsPressed : BitVec 8
  oscsToRemove : List OsCode
  oscsToAdd : List OsCode
deriving DecidableEq, Repr

namespace OverrideStates

def new : OverrideStates := ⟨0, [], []⟩

/-- `update`, with `update_keys`. -/
def update (overrides : List Override) (activeLayer : Nat) (states : OverrideStates)
    (osc : OsCode) : OverrideStates :=
  match maskForKey osc with
  | some modMask => { states with modsPressed := states.modsPressed ||| modMask }
  | none =>
    -- `overrides_by_osc`, then the last one that applies
    match (overrides.filter fun o => o.inNonModOsc == osc).reverse.find?
        fun o => o.applies states.modsPressed activeLayer with
    | none => states
    | some o =>
      { states with
        oscsToAdd := pushNew (o.outModOscs.foldl pushNew states.oscsToAdd) o.outNonModOsc
        oscsToRemove := pushNew (o.inModOscs.foldl pushNew states.oscsToRemove) o.inNonModOsc }

end OverrideStates

/-- `override_keys`. -/
def overrideKeys (overrides : List Override) (kcs : List KeyCode) (states : OverrideStates)
    (activeLayer : Nat) : List KeyCode × OverrideStates :=
  if overrides.isEmpty then (kcs, states)
  else
    let states := kcs.foldl (OverrideStates.update overrides activeLayer) .new
    ((kcs.filter fun kc => !states.oscsToRemove.contains kc) ++ states.oscsToAdd, states)

/-- The keys of `removed_oscs` that are not modifiers. -/
def OverrideStates.removedNonMods (states : OverrideStates) : List OsCode :=
  states.oscsToRemove.filter fun osc => !OsCode.isModifier osc

/-- `mark_overridden_nonmodkeys_for_eager_erasure`. -/
def markOverridden (states : OverrideStates) : State CustomAction → State CustomAction
  | .normalKey keycode coord flags =>
    if states.removedNonMods.contains keycode then .normalKey keycode coord ⟨true, true⟩
    else .normalKey keycode coord flags
  | st => st

/-! ## Caps-word -/

structure CapsWordState where
  keysToCapitalize : List KeyCode
  keysNonterminal : List KeyCode
  timeout : Nat
  timeoutTicks : Nat
deriving DecidableEq, Repr

inductive CapsWordNextState where
  | active
  | ended
deriving DecidableEq, Repr

namespace CapsWordState

def new (cfg : CapsWordCfg) : CapsWordState :=
  ⟨cfg.keysToCapitalize, cfg.keysNonterminal, cfg.timeout, cfg.timeout⟩

/-- `tick_maybe_add_lsft`. -/
def tickMaybeAddLsft (s : CapsWordState) (activeKeys : List KeyCode) :
    CapsWordState × List KeyCode × CapsWordNextState :=
  if s.timeoutTicks = 0 then (s, activeKeys, .ended)
  else if activeKeys.any fun kc => !s.keysToCapitalize.contains kc && !s.keysNonterminal.contains kc
  then (s, activeKeys, .ended)
  else
    let activeKeys :=
      if (activeKeys.getLast?.map fun kc => s.keysToCapitalize.contains kc).getD false
      then lShift :: activeKeys else activeKeys
    let timeoutTicks := if activeKeys.isEmpty then s.timeoutTicks else s.timeout
    ({ s with timeoutTicks := timeoutTicks - 1 }, activeKeys, .active)

end CapsWordState

/-! ## The engine -/

structure KeyConfig where
  overrides : List Override
  overrideReleaseOnActivation : Bool
  /-- The orders of the hash map and of the hash sets. -/
  vkeyOrder : VkeyOrder := .insertion _
  idleOrder : HashOrder FakeKeyOnIdle := .insertion _

/-- The part of the engine that the keys depend on. `cur_keys` is empty between ticks. -/
structure Engine where
  layout : Layout CustomAction
  prevKeys : List KeyCode
  unmoddedKeys : List KeyCode
  unmoddedMods : UnmodMods
  unshiftedKeys : List KeyCode
  overrideStates : OverrideStates
  capsWord : Option CapsWordState
  waitingForIdle : List FakeKeyOnIdle
  waitingForPhysicalIdle : List FakeKeyOnIdle
  ticksSinceIdle : Nat
  ticksSincePhysicalIdle : Nat
  vkeysPendingRelease : VkeysPendingRelease

namespace Engine

def new (layout : Layout CustomAction) : Engine where
  layout := layout
  prevKeys := []
  unmoddedKeys := []
  unmoddedMods := ⟨0⟩
  unshiftedKeys := []
  overrideStates := .new
  capsWord := none
  waitingForIdle := []
  waitingForPhysicalIdle := []
  ticksSinceIdle := 0
  ticksSincePhysicalIdle := 0
  vkeysPendingRelease := .new

/-- The custom actions before the presses and releases. The flag is
`reverse_release_order`. -/
def earlyCustom (custom : CustomEvent CustomAction) (s : Engine) : Engine × Bool :=
  match custom with
  | .press (.unmodded keys mods) =>
    ({ s with unmoddedKeys := s.unmoddedKeys ++ keys, unmoddedMods := mods }, false)
  | .press (.unshifted keys) => ({ s with unshiftedKeys := s.unshiftedKeys ++ keys }, false)
  | .release (.unmodded keys _) =>
    ({ s with unmoddedKeys := s.unmoddedKeys.filter fun k => !keys.contains k }, false)
  | .release (.unshifted keys) =>
    ({ s with unshiftedKeys := s.unshiftedKeys.filter fun k => !keys.contains k }, false)
  | .release .reverseReleaseOrder => (s, true)
  | _ => (s, false)

/-- `unmod` and `unshift` on `cur_keys`. -/
def unmodKeys (s : Engine) (curKeys : List KeyCode) : List KeyCode :=
  let curKeys :=
    if s.unmoddedKeys.isEmpty then curKeys
    else s.unmoddedMods.keys.foldl (fun ks kc => ks.filter fun k => k != kc) curKeys
      ++ s.unmoddedKeys
  if s.unshiftedKeys.isEmpty then curKeys
  else (curKeys.filter fun k => k != lShift && k != rShift) ++ s.unshiftedKeys

/-- The overrides on `cur_keys`, and what they do to the states of the layout. -/
def override (cfg : KeyConfig) (s : Engine) (curKeys : List KeyCode) : Engine × List KeyCode :=
  let (curKeys, overrideStates) :=
    overrideKeys cfg.overrides curKeys s.overrideStates (asU16 s.layout.currentLayer)
  let states := s.layout.states.map (markOverridden overrideStates)
  let states :=
    if cfg.overrideReleaseOnActivation then
      overrideStates.removedNonMods.foldl
        (fun states removed => states.retain (State.survivesReleaseState (.keyCode removed))) states
    else states
  ({ s with overrideStates, layout := { s.layout with states } }, curKeys)

/-- Caps-word on `cur_keys`. -/
def tickCapsWord (s : Engine) (curKeys : List KeyCode) : Engine × List KeyCode :=
  match s.capsWord with
  | none => (s, curKeys)
  | some capsWord =>
    match capsWord.tickMaybeAddLsft curKeys with
    | (_, curKeys, .ended) => ({ s with capsWord := none }, curKeys)
    | (capsWord, curKeys, .active) => ({ s with capsWord := some capsWord }, curKeys)

/-- The releases, in the order of `prev_keys` or against it. -/
def releases (reverseReleaseOrder : Bool) (prevKeys curKeys : List KeyCode) :
    List (Edge KeyCode) :=
  ((if reverseReleaseOrder then prevKeys.reverse else prevKeys).filter
    fun k => !curKeys.contains k).map .release

/-- What one tick does: the keys it began with, the keys it ended with and the edges
it passed to `press_key` and `release_key`. -/
structure Tick where
  prevKeys : List KeyCode
  curKeys : List KeyCode
  edges : List (Edge KeyCode)
deriving DecidableEq, Repr

/-- The calls of `KbdOut` for one edge. -/
def sendEdge : Edge KeyCode → List KbdCall
  | .press k => OutputLogic.pressKey k
  | .release k => OutputLogic.releaseKey k

/-- What a tick sends. -/
def Tick.sent (t : Tick) : List KbdCall := t.edges.flatMap sendEdge

variable {C R : Nat}

/-- The custom actions after the presses and releases. -/
def lateCustom (cfg : LayoutConfig C R CustomAction) (custom : CustomEvent CustomAction)
    (s : Engine) : Rust Engine :=
  match custom with
  | .press (.capsWord cfg) =>
    match cfg.repressBehaviour with
    | .overwrite => pure { s with capsWord := some (.new cfg) }
    | .toggle =>
      pure { s with
        capsWord := match s.capsWord with
          | some _ => none
          | none => some (.new cfg) }
  | .press (.fakeKey coord action) | .release (.fakeKeyOnRelease coord action) => do
    let layout ← handleFakekeyAction cfg action s.layout coord.1 coord.2
    pure { s with layout }
  | .press (.fakeKeyOnIdle fkd) =>
    pure { s with ticksSinceIdle := 0, waitingForIdle := insertIdle s.waitingForIdle fkd }
  | .press (.fakeKeyOnPhysicalIdle fkd) =>
    pure { s with
      ticksSincePhysicalIdle := 0
      waitingForPhysicalIdle := insertIdle s.waitingForPhysicalIdle fkd }
  | .press (.fakeKeyHoldForDuration coord holdDuration) => do
    let (vkeysPendingRelease, es) := s.vkeysPendingRelease.holdForDuration coord holdDuration
    let layout ← events cfg es s.layout
    pure { s with layout, vkeysPendingRelease }
  | _ => pure s

/-- `tick_idle_timeout`. -/
def tickIdleTimeout (cfg : LayoutConfig C R CustomAction) (kcfg : KeyConfig) (s : Engine) :
    Rust Engine := do
  let (layout, waitingForIdle) ←
    tickWaiting kcfg.idleOrder cfg s.waitingForIdle s.ticksSinceIdle s.layout
  pure { s with layout, waitingForIdle }

/-- `tick_physical_idle_timeout`. -/
def tickPhysicalIdleTimeout (cfg : LayoutConfig C R CustomAction) (kcfg : KeyConfig)
    (s : Engine) : Rust Engine := do
  let (layout, waitingForPhysicalIdle) ←
    tickWaiting kcfg.idleOrder cfg s.waitingForPhysicalIdle s.ticksSincePhysicalIdle s.layout
  pure { s with layout, waitingForPhysicalIdle }

/-- `tick_held_vkeys`. -/
def tickHeldVkeys (cfg : LayoutConfig C R CustomAction) (kcfg : KeyConfig) (s : Engine) :
    Rust Engine := do
  let (vkeysPendingRelease, es) := s.vkeysPendingRelease.tickHeldVkeys kcfg.vkeyOrder
  let layout ← events cfg es s.layout
  pure { s with layout, vkeysPendingRelease }

/-- The keys of a tick and its releases and presses. -/
def keystateChanges (kcfg : KeyConfig) (custom : CustomEvent CustomAction) (s : Engine) :
    Engine × Tick :=
  let early := earlyCustom custom s
  let overridden := early.1.override kcfg (early.1.unmodKeys s.layout.keycodes)
  let caps := overridden.1.tickCapsWord overridden.2
  (caps.1, ⟨s.prevKeys, caps.2,
    releases early.2 s.prevKeys caps.2 ++ (presses s.prevKeys caps.2).2⟩)

/-- `handle_keystate_changes`, and what else of `tick_states` concerns the keys and the
layout. -/
def tickStates (cfg : LayoutConfig C R CustomAction) (kcfg : KeyConfig) (s : Engine) :
    Rust (Engine × Tick) := do
  let (layout, custom) ← s.layout.tick cfg
  let changed := keystateChanges kcfg custom { s with layout }
  let s ← lateCustom cfg custom changed.1
  let s ← s.tickIdleTimeout cfg kcfg
  let s ← s.tickPhysicalIdleTimeout cfg kcfg
  let s ← tickHeldVkeys cfg kcfg { s with prevKeys := changed.2.curKeys }
  pure (s, changed.2)

end Engine

end Kanata
