import Kanata.Engine.Output
import Kanata.Parser.Zippychord

/-!
# Kanata.Engine.Zippychord — typing chords

`src/kanata/output_logic/zippychord.rs`, the filter between the keys of the layout and the
output. Keys that may become a chord are typed as they come. A chord that is complete
erases them, together with a smaller chord of the same hold or the chord that it follows up,
and types its output.

The chords and the options do not change while the program runs, so the functions get them as
a `ZchSetup`. The counters of characters are `i16` and the count of activations of a hold is
`u16`; nothing bounds them but the output of a chord, and chords without output add to them as
long as keys are held. A sum that leaves its type panics or wraps around, as the build has it.
Errors of the output device are left out.
-/

namespace Kanata

/-! ## Keys -/

theorem keyBackspace_le : 14 ≤ keyCodeMax := by decide

def keyBackspace : OsCode := ⟨14, keyBackspace_le⟩

theorem keyLeftShift_le : 42 ≤ keyCodeMax := by decide

def keyLeftShift : OsCode := ⟨42, keyLeftShift_le⟩

theorem keyRightShift_le : 54 ≤ keyCodeMax := by decide

def keyRightShift : OsCode := ⟨54, keyRightShift_le⟩

theorem keyRightAlt_le : 100 ≤ keyCodeMax := by decide

def keyRightAlt : OsCode := ⟨100, keyRightAlt_le⟩

/-- `OsCode::is_zippy_ignored`. -/
def OsCode.isZippyIgnored (osc : OsCode) : Bool :=
  -- LShift, RShift, LMeta, RMeta, LCtrl, RCtrl, LAlt, RAlt, Esc, Backspace, Delete
  [42, 54, 125, 126, 29, 97, 56, 100, 1, 14, 111].contains osc.code

namespace ZchOutput

def osc : ZchOutput → OsCode
  | .lowercase osc | .uppercase osc | .altGr osc | .shiftAltGr osc
  | .noEraseLowercase osc | .noEraseUppercase osc | .noEraseAltGr osc | .noEraseShiftAltGr osc =>
    osc

def isNoerase : ZchOutput → Bool
  | .lowercase _ | .uppercase _ | .altGr _ | .shiftAltGr _ => false
  | _ => true

def outputCharCount (out : ZchOutput) : Int :=
  if out.osc = keyBackspace then -1 else if out.isNoerase then 0 else 1

/-- Adds the counts of the outputs to a number of characters. -/
def addCharCounts (overflowChecks : Bool) (len : Int) (outs : List ZchOutput) : Rust Int :=
  outs.foldlM (fun len out => addI16 overflowChecks len out.outputCharCount) len

def displayLen (overflowChecks : Bool) (outs : List ZchOutput) : Rust Int :=
  addCharCounts overflowChecks 0 outs

end ZchOutput

/-! ## State -/

inductive ZchEnabledState where
  | enabled
  | waitEnable
  | disabled
deriving DecidableEq, Repr

inductive ZchLastPressClassification where
  | isChord
  | notChord
deriving DecidableEq, Repr

inductive ZchSmartSpaceState where
  | inactive
  | sent
deriving DecidableEq, Repr

inductive ZchSmartSpaceCfg where
  | full
  | addSpaceOnly
  | disabled
deriving DecidableEq, Repr

structure ZchConfig where
  zchCfgTicksWaitEnable : Nat
  zchCfgTicksChordDeadline : Nat
  zchCfgSmartSpace : ZchSmartSpaceCfg
  zchCfgSmartSpacePunctuation : List ZchOutput

/-- What `zch_configure` sets, and whether the build checks for overflow. The chords are those
at the first address. -/
structure ZchSetup where
  zchChords : ZchHeap
  zchCfg : ZchConfig
  overflowChecks : Bool

structure ZchDynamicState where
  /-- Sorted, as the keys of the chords are. -/
  zchdInputKeys : List Nat
  zchdEnabledState : ZchEnabledState
  zchdPrioritizedChords : Option Nat
  zchdPriorActivationOutputCount : Int
  zchdCharactersToDeleteOnNextActivation : Int
  zchdPriorActivation : Option ZchChordOutput
  zchdTicksSinceStateChange : Nat
  zchdTicksUntilEnabled : Nat
  zchdTicksUntilDisable : Nat
  zchdSameHoldActivationCount : Nat
  zchdIsCapsWordActive : Bool
  zchdIsLsftActive : Bool
  zchdIsRsftActive : Bool
  zchdIsAltgrActive : Bool
  zchdLastPress : ZchLastPressClassification
  zchdSmartSpaceState : ZchSmartSpaceState

namespace ZchDynamicState

/-- `Default::default()`. -/
def new : ZchDynamicState where
  zchdInputKeys := []
  zchdEnabledState := .enabled
  zchdPrioritizedChords := none
  zchdPriorActivationOutputCount := 0
  zchdCharactersToDeleteOnNextActivation := 0
  zchdPriorActivation := none
  zchdTicksSinceStateChange := 0
  zchdTicksUntilEnabled := 0
  zchdTicksUntilDisable := 0
  zchdSameHoldActivationCount := 0
  zchdIsCapsWordActive := false
  zchdIsLsftActive := false
  zchdIsRsftActive := false
  zchdIsAltgrActive := false
  zchdLastPress := .isChord
  zchdSmartSpaceState := .inactive

def zchdClearHistory (s : ZchDynamicState) : ZchDynamicState :=
  { s with
    zchdCharactersToDeleteOnNextActivation := 0
    zchdPrioritizedChords := none
    zchdPriorActivation := none
    zchdPriorActivationOutputCount := 0 }

def zchdSoftReset (s : ZchDynamicState) : ZchDynamicState :=
  { s with
    zchdLastPress := .notChord
    zchdEnabledState := .disabled
    zchdInputKeys := []
    zchdTicksSinceStateChange := 0
    zchdTicksUntilDisable := 0
    zchdTicksUntilEnabled := 0
    zchdSmartSpaceState := .inactive }.zchdClearHistory

def zchdReset (s : ZchDynamicState) : ZchDynamicState :=
  { s.zchdSoftReset with
    zchdIsCapsWordActive := false
    zchdIsLsftActive := false
    zchdIsRsftActive := false
    zchdIsAltgrActive := false
    zchdLastPress := .isChord
    zchdEnabledState := .enabled }

def ticksUntilForceStateReset : Nat := 10000

/-- The timers of a tick. -/
def tickTimers (s : ZchDynamicState) : ZchDynamicState :=
  match s.zchdEnabledState with
  | .waitEnable =>
    let s := { s with zchdTicksUntilEnabled := s.zchdTicksUntilEnabled - 1 }
    if s.zchdTicksUntilEnabled = 0 then
      { s with zchdEnabledState := .enabled, zchdTicksUntilDisable := 0 }
    else s
  | .enabled =>
    -- zero means that no press has set the deadline
    if s.zchdTicksUntilDisable > 0 then
      let s := { s with zchdTicksUntilDisable := s.zchdTicksUntilDisable - 1 }
      if s.zchdTicksUntilDisable = 0 then s.zchdSoftReset else s
    else s
  | .disabled => s

def zchdTick (s : ZchDynamicState) (isCapsWordActive : Bool) : ZchDynamicState :=
  let s := { s with
    -- the reset below keeps this sum within `u16`
    zchdTicksSinceStateChange := s.zchdTicksSinceStateChange + 1
    zchdIsCapsWordActive := isCapsWordActive }.tickTimers
  if s.zchdTicksSinceStateChange > ticksUntilForceStateReset then s.zchdReset else s

def zchdStateChange (s : ZchDynamicState) (cfg : ZchConfig) : ZchDynamicState :=
  { s with
    zchdTicksSinceStateChange := 0
    zchdTicksUntilEnabled := cfg.zchCfgTicksWaitEnable }

def zchdActivateChordDeadline (s : ZchDynamicState) (deadlineTicks : Nat) : ZchDynamicState :=
  if s.zchdTicksUntilDisable = 0 then { s with zchdTicksUntilDisable := deadlineTicks } else s

def zchdRestartDeadline (s : ZchDynamicState) (deadlineTicks : Nat) : ZchDynamicState :=
  { s with zchdTicksUntilDisable := deadlineTicks }

def zchdPressKey (s : ZchDynamicState) (osc : OsCode) : ZchDynamicState :=
  { s with zchdInputKeys := zchInsert s.zchdInputKeys osc.code }

/-- `zchik_contains`. -/
def holds (s : ZchDynamicState) (osc : OsCode) : Bool := s.zchdInputKeys.contains osc.code

def zchdReleaseKey (s : ZchDynamicState) (osc : OsCode) : ZchDynamicState :=
  let s := { s with zchdInputKeys := s.zchdInputKeys.filter fun k => k != osc.code }
  match s.zchdLastPress, s.zchdInputKeys.isEmpty with
  | .notChord, true => { s with zchdEnabledState := .waitEnable }.zchdClearHistory
  | .notChord, false => s.zchdSoftReset
  | .isChord, true =>
    let s := if s.zchdPrioritizedChords.isNone then s.zchdClearHistory else s
    { s with
      zchdCharactersToDeleteOnNextActivation := 0
      zchdTicksUntilDisable := 0
      zchdEnabledState := .enabled
      zchdSameHoldActivationCount := 0 }
  | .isChord, false => { s with zchdTicksUntilDisable := 0 }

/-! ## Output of a chord -/

def typeOsc (s : ZchDynamicState) (osc : OsCode) : List KbdCall :=
  if s.holds osc then [.releaseKey osc, .pressKey osc] else [.pressKey osc, .releaseKey osc]

/-- Whether shift has to be pressed for an output, and released after it. -/
def needsSft (s : ZchDynamicState) (sftAlreadyReleased : Bool) : Bool :=
  !s.zchdIsCapsWordActive &&
    (sftAlreadyReleased || !s.zchdIsLsftActive && !s.zchdIsRsftActive)

def maybePressSftDuringActivation (s : ZchDynamicState) (sftAlreadyReleased : Bool) :
    List KbdCall :=
  if s.needsSft sftAlreadyReleased then [.pressKey keyLeftShift] else []

def maybeReleaseSftDuringActivation (s : ZchDynamicState) (sftAlreadyReleased : Bool) :
    List KbdCall :=
  if s.needsSft sftAlreadyReleased then [.releaseKey keyLeftShift] else []

/-- One output. -/
def sendKey (s : ZchDynamicState) (releasedSft : Bool) : ZchOutput → List KbdCall
  | .lowercase osc | .noEraseLowercase osc => s.typeOsc osc
  | .uppercase osc | .noEraseUppercase osc =>
    s.maybePressSftDuringActivation releasedSft ++ s.typeOsc osc ++
      s.maybeReleaseSftDuringActivation releasedSft
  | .altGr osc | .noEraseAltGr osc =>
    [.pressKey keyRightAlt] ++ s.typeOsc osc ++ [.releaseKey keyRightAlt]
  | .shiftAltGr osc | .noEraseShiftAltGr osc =>
    [.pressKey keyRightAlt] ++ s.maybePressSftDuringActivation releasedSft ++ s.typeOsc osc ++
      s.maybeReleaseSftDuringActivation releasedSft ++ [.releaseKey keyRightAlt]

/-- The shift keys that are held go up, or down again. -/
def eachShift (s : ZchDynamicState) (call : OsCode → KbdCall) : List KbdCall :=
  (if s.zchdIsLsftActive then [call keyLeftShift] else []) ++
    (if s.zchdIsRsftActive then [call keyRightShift] else [])

/-- The loop over the outputs. -/
def sendKeys (s : ZchDynamicState) : Bool → List ZchOutput → List KbdCall
  | _, [] => []
  | releasedSft, out :: outs =>
    let releases := !releasedSft && !s.zchdIsCapsWordActive
    s.sendKey releasedSft out ++ (if releases then s.eachShift .releaseKey else []) ++
      s.sendKeys (releasedSft || releases) outs

/-- How many outputs at the beginning are the same, up to a backspace. -/
def commonLenFrom (overflowChecks : Bool) (len : Int) :
    List ZchOutput → List ZchOutput → Rust Int
  | past :: pasts, current :: currents =>
    if past.osc = keyBackspace ∨ current.osc = keyBackspace ∨ past ≠ current then pure len
    else do
      let len ← addI16 overflowChecks len 1
      commonLenFrom overflowChecks len pasts currents
  | _, _ => pure len

/-- How many outputs of the activation before stay. -/
def commonPrefixLenFromPastActivation (s : ZchDynamicState) (overflowChecks : Bool)
    (a : ZchChordOutput) (isPrioritizedActivation : Bool) : Rust Int :=
  if !isPrioritizedActivation && s.zchdSameHoldActivationCount == 0 then pure 0
  else
    match s.zchdPriorActivation with
    | some priorActivation =>
      commonLenFrom overflowChecks 0 priorActivation.zchOutput a.zchOutput
    | none => pure 0

def backspace : List KbdCall := [.pressKey keyBackspace, .releaseKey keyBackspace]

/-- The number of backspaces before a chord is typed. -/
def backspaces (s : ZchDynamicState) (overflowChecks : Bool) (isPrioritizedActivation : Bool)
    (commonLen : Int) : Rust Nat := do
  let typed ← addI16 overflowChecks s.zchdCharactersToDeleteOnNextActivation
    (if isPrioritizedActivation then s.zchdPriorActivationOutputCount else 0)
  let count ← subI16 overflowChecks typed commonLen
  pure count.toNat

/-- Whether a chord is followed by a space. -/
def sendsSpace (cfg : ZchConfig) (a : ZchChordOutput) : Bool :=
  cfg.zchCfgSmartSpace != .disabled &&
    match a.zchOutput.getLast? with
    | some out => out.osc != keySpace && out.osc != keyBackspace
    | none => false

/-- What is on the screen gives way to the chord: the number of backspaces, and the two counters
of characters. With an empty output nothing is erased, and the key is counted. -/
def eraseTyped (s : ZchDynamicState) (overflowChecks : Bool) (a : ZchChordOutput)
    (isPrioritizedActivation : Bool) (commonLen : Int) : Rust (Nat × Int × Int) :=
  if a.zchOutput.isEmpty then do
    let toDelete ← addI16 overflowChecks s.zchdCharactersToDeleteOnNextActivation 1
    let outputCount ← addI16 overflowChecks s.zchdPriorActivationOutputCount
      (asI16 s.zchdInputKeys.length)
    pure (0, toDelete, outputCount)
  else do
    let count ← s.backspaces overflowChecks isPrioritizedActivation commonLen
    let outputCount ← ZchOutput.displayLen overflowChecks a.zchOutput
    pure (count, 0, outputCount)

/-- What a chord sends, with so many backspaces and these of its outputs. An empty output lets
the key through. -/
def activationCalls (s : ZchDynamicState) (cfg : ZchConfig) (osc : OsCode) (a : ZchChordOutput)
    (count : Nat) (typed : List ZchOutput) : List KbdCall :=
  let altGr := s.zchdIsAltgrActive && !a.zchOutput.isEmpty
  (if a.zchOutput.isEmpty then [.pressKey osc] else (List.replicate count backspace).flatten) ++
    (if altGr then [.releaseKey keyRightAlt] else []) ++
    s.sendKeys false typed ++
    (if sendsSpace cfg a then [.pressKey keySpace, .releaseKey keySpace] else []) ++
    (if !s.zchdIsCapsWordActive then s.eachShift .pressKey else []) ++
    (if altGr then [.pressKey keyRightAlt] else [])

/-- A chord is activated. -/
def activate (s : ZchDynamicState) (z : ZchSetup) (osc : OsCode) (a : ZchChordOutput)
    (isPrioritizedActivation : Bool) : Rust (ZchDynamicState × List KbdCall) := do
  let commonLen ←
    s.commonPrefixLenFromPastActivation z.overflowChecks a isPrioritizedActivation
  let activationCount ← addU16 z.overflowChecks s.zchdSameHoldActivationCount 1
  let (count, toDelete, outputCount) ←
    s.eraseTyped z.overflowChecks a isPrioritizedActivation commonLen
  let typed := a.zchOutput.drop (i16AsUsize commonLen)
  let toDelete ← ZchOutput.addCharCounts z.overflowChecks toDelete typed
  let spaces : Int := if sendsSpace z.zchCfg a then 1 else 0
  let outputCount ← addI16 z.overflowChecks outputCount spaces
  let toDelete ← addI16 z.overflowChecks toDelete spaces
  pure ({ s.zchdRestartDeadline z.zchCfg.zchCfgTicksChordDeadline with
      zchdPriorActivation := some a
      zchdSameHoldActivationCount := activationCount
      zchdPrioritizedChords := a.zchFollowups
      zchdPriorActivationOutputCount := outputCount
      zchdCharactersToDeleteOnNextActivation := toDelete
      zchdSmartSpaceState :=
        if sendsSpace z.zchCfg a && z.zchCfg.zchCfgSmartSpace == .full then .sent
        else s.zchdSmartSpaceState
      zchdLastPress := .isChord },
    s.activationCalls z.zchCfg osc a count typed)

/-! ## Presses and releases -/

/-- What a key would type now, as punctuation. -/
def punctuation (s : ZchDynamicState) (osc : OsCode) : ZchOutput :=
  match s.zchdIsLsftActive || s.zchdIsRsftActive, s.zchdIsAltgrActive with
  | false, false => .lowercase osc
  | true, false => .uppercase osc
  | false, true => .altGr osc
  | true, true => .shiftAltGr osc

/-- Whether a press erases the smart space before it. -/
def erasesSmartSpace (s : ZchDynamicState) (cfg : ZchConfig) (osc : OsCode) : Bool :=
  s.zchdSmartSpaceState == .sent && cfg.zchCfgSmartSpacePunctuation.contains (s.punctuation osc)

/-- The state after the smart space is erased before punctuation, or is kept for good. -/
def settleSmartSpace (s : ZchDynamicState) (z : ZchSetup) (osc : OsCode) :
    Rust ZchDynamicState := do
  let toDelete ← subI16 z.overflowChecks s.zchdCharactersToDeleteOnNextActivation
    (if s.erasesSmartSpace z.zchCfg osc then 1 else 0)
  pure { s with
    zchdCharactersToDeleteOnNextActivation := toDelete
    zchdSmartSpaceState := .inactive }

/-- The chord that the input keys are, and whether it follows up the one before. -/
def lookUp (s : ZchDynamicState) (chords : ZchHeap) :
    GetOrIsSubsetOfKnownKey ZchChordOutput × Bool :=
  match s.zchdPrioritizedChords.map fun pchords => chords.get pchords s.zchdInputKeys with
  | some (.hasValue a) => (.hasValue a, true)
  | _ => (chords.get 0 s.zchdInputKeys, false)

/-- The press of a key that may be part of a chord. -/
def pressPart (s : ZchDynamicState) (z : ZchSetup) (osc : OsCode) :
    Rust (ZchDynamicState × List KbdCall) :=
  let s := ((s.zchdActivateChordDeadline z.zchCfg.zchCfgTicksChordDeadline).zchdStateChange
    z.zchCfg).zchdPressKey osc
  match s.lookUp z.zchChords with
  | (.hasValue a, isPrioritizedActivation) => s.activate z osc a isPrioritizedActivation
  | (.isSubset, _) => do
    let toDelete ← addI16 z.overflowChecks s.zchdCharactersToDeleteOnNextActivation 1
    pure ({ s with
        zchdLastPress := .notChord
        zchdCharactersToDeleteOnNextActivation := toDelete }, [.pressKey osc])
  | (.neither, _) => pure (s.zchdSoftReset, [.pressKey osc])

/-- Whether no chords are configured. -/
def noChords (z : ZchSetup) : Bool :=
  match z.zchChords[0]? with
  | some chords => chords.isEmpty
  | none => true

def zchPressKey (s : ZchDynamicState) (z : ZchSetup) (osc : OsCode) :
    Rust (ZchDynamicState × List KbdCall) :=
  if noChords z then pure (s, [.pressKey osc])
  else if osc = keyLeftShift then pure ({ s with zchdIsLsftActive := true }, [.pressKey osc])
  else if osc = keyRightShift then pure ({ s with zchdIsRsftActive := true }, [.pressKey osc])
  else if osc = keyRightAlt then pure ({ s with zchdIsAltgrActive := true }, [.pressKey osc])
  else if OsCode.isZippyIgnored osc then pure (s, [.pressKey osc])
  else do
    let erasing := if s.erasesSmartSpace z.zchCfg osc then backspace else []
    let s ← s.settleSmartSpace z osc
    if s.zchdEnabledState ≠ .enabled then pure (s, erasing ++ [.pressKey osc])
    else do
      let r ← s.pressPart z osc
      pure (r.1, erasing ++ r.2)

/-- The flags of the modifiers after a release. -/
def releaseModifier (s : ZchDynamicState) (osc : OsCode) : ZchDynamicState :=
  if osc = keyLeftShift then { s with zchdIsLsftActive := false }
  else if osc = keyRightShift then { s with zchdIsRsftActive := false }
  else if osc = keyRightAlt then { s with zchdIsAltgrActive := false }
  else s

def zchReleaseKey (s : ZchDynamicState) (z : ZchSetup) (osc : OsCode) :
    ZchDynamicState × List KbdCall :=
  if noChords z then (s, [.releaseKey osc])
  else
    let s := s.releaseModifier osc
    if OsCode.isZippyIgnored osc then (s, [.releaseKey osc])
    else ((s.zchdStateChange z.zchCfg).zchdReleaseKey osc, [.releaseKey osc])

end ZchDynamicState

/-! ## Runs -/

inductive ZippyOp where
  | press (osc : OsCode)
  | release (osc : OsCode)
  | tick (isCapsWordActive : Bool)
deriving DecidableEq, Repr

/-- One call of `zch_press_key`, `zch_release_key` or `zch_tick`. -/
def ZchSetup.step (z : ZchSetup) (s : ZchDynamicState) :
    ZippyOp → Rust (ZchDynamicState × List KbdCall)
  | .press osc => s.zchPressKey z osc
  | .release osc => pure (s.zchReleaseKey z osc)
  | .tick isCapsWordActive => pure (s.zchdTick isCapsWordActive, [])

end Kanata
