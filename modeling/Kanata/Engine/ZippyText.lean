import Kanata.Engine.Zippychord
import Kanata.Lib.Machine
import Kanata.Lib.Typing

/-!
# Kanata.Engine.ZippyText — the text that chords leave

The output of zippychord is read as text: a key inserts itself, backspace erases. The code
erases by counting. A `Page` says what is meant: a chord takes the place of the keys and
chords of its hold, and a follow-up that of the chord before as well. `zippy_text`: as long as
the counters are not led astray, and what they count fits in `i16`, the text is the page.

Shift, AltGr and caps-word change the characters and not how many there are, so that the
text has the keys only.
-/

namespace Kanata

open Fallible Machine Typing BinarySearch

/-! ## Reading the output -/

/-- What a call does to the text. -/
def KbdCall.edit : KbdCall → Option (Edit OsCode)
  | .pressKey osc =>
    if osc = keyBackspace then some .erase
    else if OsCode.isZippyIgnored osc then none
    else some (.insert osc)
  | _ => none

/-- What the calls do to the text, in order. -/
def KbdCall.edits (calls : List KbdCall) : List (Edit OsCode) := calls.filterMap KbdCall.edit

/-- The text after some calls. -/
def KbdCall.readText (text : List OsCode) (calls : List KbdCall) : List OsCode :=
  read text (KbdCall.edits calls)

/-- Calls one after the other. -/
theorem KbdCall.edits_append (calls calls' : List KbdCall) :
    KbdCall.edits (calls ++ calls') = KbdCall.edits calls ++ KbdCall.edits calls' :=
  List.filterMap_append

/-- The text after them. -/
theorem KbdCall.readText_append (text : List OsCode) (calls calls' : List KbdCall) :
    KbdCall.readText text (calls ++ calls') =
      KbdCall.readText (KbdCall.readText text calls) calls' := by
  unfold KbdCall.readText
  rw [KbdCall.edits_append, read_append]

/-- The outputs are characters that a backspace erases. -/
def ZchChordOutput.Plain (a : ZchChordOutput) : Prop :=
  ∀ out ∈ a.zchOutput, out.isNoerase = false ∧ OsCode.isZippyIgnored out.osc = false

instance ZchChordOutput.decidablePlain (a : ZchChordOutput) : Decidable a.Plain :=
  inferInstanceAs (Decidable (∀ out ∈ a.zchOutput, _))

/-- All outputs are. -/
def ZchSetup.Plain (z : ZchSetup) : Prop :=
  ∀ map keys a, z.zchChords.get map keys = .hasValue a → a.Plain

/-- The chords are plain when what is stored is. -/
theorem ZchSetup.plain_of_stored {z : ZchSetup} (h : ∀ chords ∈ z.zchChords,
    ∀ e ∈ chords.map.entries, ∀ kv ∈ e.2, kv.value.Plain) : z.Plain := by
  intro map keys a hget
  unfold ZchHeap.get at hget
  split at hget
  · rename_i chords hchords
    unfold SubsetMap.ssmGetOrIsSubsetKsorted at hget
    split at hget
    · split at hget <;> cases hget
    split at hget
    · cases hget
    rename_i kvs hlookup
    split at hget
    · split at hget
      · rename_i kv hkv
        cases hget
        exact h chords (List.mem_of_getElem? hchords) ⟨_, kvs⟩
          (AList.mem_lookup_iff.mp hlookup) kv (List.mem_of_getElem? hkv)
      · cases hget
    · split at hget <;> cases hget
  · cases hget

/-- What a chord leaves on the screen. -/
def ZchChordOutput.shown (cfg : ZchConfig) (a : ZchChordOutput) : List OsCode :=
  a.zchOutput.map ZchOutput.osc ++ if ZchDynamicState.sendsSpace cfg a then [keySpace] else []

/-! ## Pages -/

/-- What is on the screen, by what may take its place. -/
structure Page where
  /-- Nothing takes its place any more. -/
  settled : List OsCode
  /-- The chord that a follow-up takes the place of. -/
  antecedent : List OsCode
  /-- What the hold has left: a chord, or keys. -/
  current : List OsCode
  /-- How much of the current chord was there from the chord before it. -/
  kept : Nat

namespace Page

/-- Everything that is on the screen. -/
def text (p : Page) : List OsCode := p.settled ++ p.antecedent ++ p.current

/-- Nothing takes the place of this text. -/
def ofText (text : List OsCode) : Page := ⟨text, [], [], 0⟩

/-- Nothing of it is replaced any more. -/
def settle (p : Page) : Page := ofText p.text

/-- A character for good. -/
def put (p : Page) (osc : OsCode) : Page := ofText (p.text ++ [osc])

/-- The last character goes, the rest stays for good. -/
def eraseLast (p : Page) : Page := ofText p.text.dropLast

/-- A key that may become part of a chord. -/
def type (p : Page) (osc : OsCode) : Page := { p with current := p.current ++ [osc] }

/-- The chord before is not followed up. -/
def settleAntecedent (p : Page) : Page :=
  { p with settled := p.settled ++ p.antecedent, antecedent := [] }

/-- A chord takes the place of what the hold has left, a follow-up that of the chord before as
well. -/
def replace (p : Page) (shown : List OsCode) (isPrioritizedActivation : Bool) (kept : Nat) : Page :=
  ⟨if isPrioritizedActivation then p.settled else p.settled ++ p.antecedent, [], shown, kept⟩

/-- The keys are up: the chord may be followed up. -/
def release (p : Page) : Page := ⟨p.settled, p.antecedent ++ p.current, [], 0⟩

/-- The text of a page that is settled. -/
@[simp] theorem ofText_text (text : List OsCode) : (ofText text).text = text := by
  simp [ofText, Page.text]

/-- Settling changes nothing on the screen. -/
@[simp] theorem settle_text (p : Page) : p.settle.text = p.text := ofText_text _

/-- One more character. -/
@[simp] theorem put_text (p : Page) (osc : OsCode) : (p.put osc).text = p.text ++ [osc] :=
  ofText_text _

/-- One character less. -/
@[simp] theorem eraseLast_text (p : Page) : p.eraseLast.text = p.text.dropLast := ofText_text _

/-- One more character, which may be replaced. -/
@[simp] theorem type_text (p : Page) (osc : OsCode) : (p.type osc).text = p.text ++ [osc] := by
  simp [type, text]

/-- Nothing changes on the screen. -/
@[simp] theorem settleAntecedent_text (p : Page) : p.settleAntecedent.text = p.text := by
  simp [settleAntecedent, text]

/-- Nor does it when the keys are up. -/
@[simp] theorem release_text (p : Page) : p.release.text = p.text := by simp [release, text]

/-- The end of the text that an activation takes the place of. -/
def replaced (p : Page) (isPrioritizedActivation : Bool) : List OsCode :=
  if isPrioritizedActivation then p.antecedent ++ p.current else p.current

/-- The text in front of what is replaced stays. -/
theorem text_eq_replaced (p : Page) (shown : List OsCode) (pri : Bool) (kept : Nat) :
    ∃ front, p.text = front ++ p.replaced pri ∧
      (p.replace shown pri kept).text = front ++ shown := by
  cases pri with
  | true => exact ⟨p.settled, List.append_assoc _ _ _, by simp [replace, text]⟩
  | false => exact ⟨p.settled ++ p.antecedent, rfl, by simp [replace, text]⟩

end Page

namespace ZchDynamicState

variable {s : ZchDynamicState} {z : ZchSetup} {osc : OsCode} {a : ZchChordOutput} {p : Page}
  {text : List OsCode} {pri : Bool}

/-- How many outputs at the beginning are the same, up to a backspace. -/
def commonLen : List ZchOutput → List ZchOutput → Nat
  | past :: pasts, current :: currents =>
    if past.osc = keyBackspace ∨ current.osc = keyBackspace ∨ past ≠ current then 0
    else commonLen pasts currents + 1
  | _, _ => 0

/-- How many outputs of the activation before an activation keeps. -/
def keptLen (s : ZchDynamicState) (a : ZchChordOutput) (isPrioritizedActivation : Bool) : Nat :=
  if !isPrioritizedActivation && s.zchdSameHoldActivationCount == 0 then 0
  else
    match s.zchdPriorActivation with
    | some priorActivation => commonLen priorActivation.zchOutput a.zchOutput
    | none => 0

/-- How many characters an activation erases. -/
def erasedLen (s : ZchDynamicState) (a : ZchChordOutput) (isPrioritizedActivation : Bool) : Nat :=
  (s.zchdCharactersToDeleteOnNextActivation +
    (if isPrioritizedActivation then s.zchdPriorActivationOutputCount else 0) -
      s.keptLen a isPrioritizedActivation).toNat

/-- The calls of an activation, and the state after it, as long as every count fits. -/
def activated (s : ZchDynamicState) (cfg : ZchConfig) (osc : OsCode) (a : ZchChordOutput)
    (isPrioritizedActivation : Bool) : ZchDynamicState × List KbdCall :=
  let spaces : Int := if sendsSpace cfg a then 1 else 0
  ({ s.zchdRestartDeadline cfg.zchCfgTicksChordDeadline with
      zchdPriorActivation := some a
      zchdSameHoldActivationCount := s.zchdSameHoldActivationCount + 1
      zchdPrioritizedChords := a.zchFollowups
      zchdPriorActivationOutputCount :=
        (if a.zchOutput.isEmpty then s.zchdPriorActivationOutputCount + s.zchdInputKeys.length
        else (a.zchOutput.length : Int)) + spaces
      zchdCharactersToDeleteOnNextActivation :=
        (if a.zchOutput.isEmpty then s.zchdCharactersToDeleteOnNextActivation + 1
        else (a.zchOutput.length : Int) - s.keptLen a isPrioritizedActivation) + spaces
      zchdSmartSpaceState :=
        if sendsSpace cfg a && cfg.zchCfgSmartSpace == .full then .sent
        else s.zchdSmartSpaceState
      zchdLastPress := .isChord },
    s.activationCalls cfg osc a (s.erasedLen a isPrioritizedActivation)
      (a.zchOutput.drop (s.keptLen a isPrioritizedActivation)))

/-- The smart space is settled, as long as the count fits. -/
def settled (s : ZchDynamicState) (cfg : ZchConfig) (osc : OsCode) : ZchDynamicState :=
  { s with
    zchdCharactersToDeleteOnNextActivation :=
      s.zchdCharactersToDeleteOnNextActivation - if s.erasesSmartSpace cfg osc then 1 else 0
    zchdSmartSpaceState := .inactive }

/-- The key is among the inputs, before the chords are asked. -/
def pressed (s : ZchDynamicState) (cfg : ZchConfig) (osc : OsCode) : ZchDynamicState :=
  (((s.settled cfg osc).zchdActivateChordDeadline
    cfg.zchCfgTicksChordDeadline).zchdStateChange cfg).zchdPressKey osc

/-- The smart space is erased, if the press does that. -/
def spaced (s : ZchDynamicState) (cfg : ZchConfig) (p : Page) (osc : OsCode) : Page :=
  if s.erasesSmartSpace cfg osc then p.eraseLast else p

/-- What an activation means. With an empty output the chord waits for its follow-up. -/
def pageOfActivation (s : ZchDynamicState) (cfg : ZchConfig) (p : Page) (osc : OsCode)
    (a : ZchChordOutput) (isPrioritizedActivation : Bool) : Page :=
  if a.zchOutput.isEmpty then
    (if isPrioritizedActivation then p else p.settleAntecedent).type osc
  else p.replace (a.shown cfg) isPrioritizedActivation
    (s.keptLen a isPrioritizedActivation)

/-- What a press means. -/
def pageOfPress (s : ZchDynamicState) (z : ZchSetup) (p : Page) (osc : OsCode) : Page :=
  if osc = keyBackspace then { p with settled := p.settled.dropLast }
  else if OsCode.isZippyIgnored osc then p
  else if s.zchdEnabledState ≠ .enabled then p.put osc
  else
    match (s.pressed z.zchCfg osc).lookUp z.zchChords with
    | (.hasValue a, isPrioritizedActivation) =>
      (s.pressed z.zchCfg osc).pageOfActivation z.zchCfg p osc a isPrioritizedActivation
    | (.isSubset, _) => p.type osc
    | (.neither, _) => (s.spaced z.zchCfg p osc).put osc

/-- What a release means. -/
def pageOfRelease (s : ZchDynamicState) (p : Page) (osc : OsCode) : Page :=
  if OsCode.isZippyIgnored osc then p
  else
    match s.zchdLastPress, (s.zchdInputKeys.filter fun k => k != osc.code).isEmpty with
    | .notChord, _ => p.settle
    | .isChord, true => if s.zchdPrioritizedChords.isNone then p.settle else p.release
    | .isChord, false => p

/-- The deadline of the chord is the next tick. -/
def deadlineEnds (s : ZchDynamicState) : Bool :=
  s.zchdEnabledState == .enabled && s.zchdTicksUntilDisable == 1

/-- Whether the next tick ends what is under way. -/
def expires (s : ZchDynamicState) : Bool :=
  s.deadlineEnds || decide (s.zchdTicksSinceStateChange ≥ ticksUntilForceStateReset)

/-- What an event means. -/
def pageAfter (s : ZchDynamicState) (z : ZchSetup) (p : Page) : ZippyOp → Page
  | .press osc => s.pageOfPress z p osc
  | .release osc => s.pageOfRelease p osc
  | .tick _ => if s.expires then p.settle else p

/-! ## What the calls type -/

/-- An ignored key types nothing. -/
theorem edits_of_ignored (h : OsCode.isZippyIgnored osc = true) (hne : osc ≠ keyBackspace) :
    KbdCall.edits [.pressKey osc] = [] := by
  simp [KbdCall.edits, KbdCall.edit, h, hne]

/-- Backspace is ignored. -/
theorem ne_backspace (h : OsCode.isZippyIgnored osc = false) : osc ≠ keyBackspace := by
  rintro rfl
  exact absurd h (by decide)

/-- Any other key types itself. -/
theorem edits_press (h : OsCode.isZippyIgnored osc = false) :
    KbdCall.edits [.pressKey osc] = [.insert osc] := by
  simp [KbdCall.edits, KbdCall.edit, h, ne_backspace h]

/-- So does a key of an output, whether it is held or not. -/
theorem edits_typeOsc (s : ZchDynamicState) (h : OsCode.isZippyIgnored osc = false) :
    KbdCall.edits (s.typeOsc osc) = [.insert osc] := by
  unfold typeOsc
  split
  · exact edits_press h
  · exact (KbdCall.edits_append [.pressKey osc] [.releaseKey osc]).trans
      (by rw [edits_press h]; rfl)

/-- Shift types nothing. -/
theorem edits_shift_press (s : ZchDynamicState) (releasedSft : Bool) :
    KbdCall.edits (s.maybePressSftDuringActivation releasedSft) = [] := by
  unfold maybePressSftDuringActivation
  split
  · exact edits_of_ignored (by decide) (by decide)
  · rfl

/-- Nor when it is released. -/
theorem edits_shift_release (s : ZchDynamicState) (releasedSft : Bool) :
    KbdCall.edits (s.maybeReleaseSftDuringActivation releasedSft) = [] := by
  unfold maybeReleaseSftDuringActivation
  split <;> rfl

/-- Nor does AltGr. -/
theorem edits_altgr : KbdCall.edits [.pressKey keyRightAlt] = [] :=
  edits_of_ignored (by decide) (by decide)

/-- The shift keys that are put down again. -/
theorem edits_eachShift_press (s : ZchDynamicState) :
    KbdCall.edits (s.eachShift .pressKey) = [] := by
  unfold eachShift
  rw [KbdCall.edits_append]
  split_ifs <;> rfl

/-- The shift keys that are lifted. -/
theorem edits_eachShift_release (s : ZchDynamicState) :
    KbdCall.edits (s.eachShift .releaseKey) = [] := by
  unfold eachShift
  rw [KbdCall.edits_append]
  split_ifs <;> rfl

/-- One key of an output types one character. -/
theorem edits_sendKey (s : ZchDynamicState) (releasedSft : Bool) {out : ZchOutput}
    (h : OsCode.isZippyIgnored out.osc = false) :
    KbdCall.edits (s.sendKey releasedSft out) = [.insert out.osc] := by
  have hrelease : ∀ k, KbdCall.edits [.releaseKey k] = [] := fun _ => rfl
  have htype : KbdCall.edits (s.typeOsc out.osc) = [.insert out.osc] := edits_typeOsc s h
  cases out <;>
    simp only [sendKey, KbdCall.edits_append, edits_shift_press, edits_shift_release, edits_altgr,
      hrelease, List.nil_append, List.append_nil] <;> exact htype

/-- An output types its characters. -/
theorem edits_sendKeys (s : ZchDynamicState) :
    ∀ (outs : List ZchOutput) (releasedSft : Bool),
      (∀ out ∈ outs, OsCode.isZippyIgnored out.osc = false) →
      KbdCall.edits (s.sendKeys releasedSft outs) = outs.map fun out => .insert out.osc
  | [], _, _ => rfl
  | out :: outs, releasedSft, h => by
    -- the shift keys are lifted once, which types nothing
    have hrest := edits_sendKeys s outs (releasedSft || (!releasedSft && !s.zchdIsCapsWordActive))
      fun o ho => h o (List.mem_cons_of_mem _ ho)
    have hreleases : KbdCall.edits (if (!releasedSft && !s.zchdIsCapsWordActive) = true then
        s.eachShift .releaseKey else []) = [] := by
      split
      · exact edits_eachShift_release s
      · rfl
    rw [sendKeys]
    rw [KbdCall.edits_append, KbdCall.edits_append,
      edits_sendKey s releasedSft (h out List.mem_cons_self), hreleases, hrest]
    rfl

/-- Backspaces erase. -/
theorem edits_backspaces (n : Nat) :
    KbdCall.edits (List.replicate n backspace).flatten = List.replicate n .erase := by
  induction n with
  | zero => rfl
  | succ n ih =>
    rw [List.replicate_succ, List.flatten_cons, KbdCall.edits_append, ih]
    rfl

/-- What an activation types: the backspaces, the outputs that are not there yet, and the
smart space. -/
theorem edits_activationCalls (hne : a.zchOutput.isEmpty = false) (cfg : ZchConfig)
    (osc : OsCode) (count : Nat) {typed : List ZchOutput}
    (hplain : ∀ out ∈ typed, OsCode.isZippyIgnored out.osc = false) :
    KbdCall.edits (s.activationCalls cfg osc a count typed) =
      List.replicate count .erase ++ (typed.map ZchOutput.osc).map .insert ++
        (if sendsSpace cfg a then [keySpace] else []).map .insert := by
  have haltgr : ∀ b : Bool, KbdCall.edits (if b then [.releaseKey keyRightAlt] else []) = [] := by
    rintro (_ | _) <;> rfl
  have haltgr' : ∀ b : Bool, KbdCall.edits (if b then [.pressKey keyRightAlt] else []) = [] := by
    rintro (_ | _)
    · rfl
    · exact edits_altgr
  have hshift : ∀ b : Bool, KbdCall.edits (if b then s.eachShift .pressKey else []) = [] := by
    rintro (_ | _)
    · rfl
    · exact edits_eachShift_press s
  have hspace : KbdCall.edits (if sendsSpace cfg a then [.pressKey keySpace, .releaseKey keySpace]
      else []) = (if sendsSpace cfg a then [keySpace] else []).map .insert := by
    split <;> rfl
  unfold activationCalls
  rw [hne, if_neg Bool.false_ne_true]
  simp only [KbdCall.edits_append, haltgr, haltgr', hshift, hspace, edits_backspaces,
    edits_sendKeys s _ false hplain, List.append_nil]
  simp [Function.comp_def]

/-! ## The counters -/

/-- A key that is pressed. -/
theorem readText_press (text : List OsCode) (h : OsCode.isZippyIgnored osc = false) :
    KbdCall.readText text [.pressKey osc] = text ++ [osc] := by
  rw [KbdCall.readText, edits_press h]
  rfl

/-- No chord of the hold is known. -/
def FirstOfHold (s : ZchDynamicState) : Prop :=
  s.zchdSameHoldActivationCount = 0 ∨ s.zchdPriorActivation = none

/-- The characters of the activation before are at the beginning of a text. -/
def PriorAt (s : ZchDynamicState) (text : List OsCode) : Prop :=
  ∀ a, s.zchdPriorActivation = some a → a.zchOutput.map ZchOutput.osc <+: text

/-- The counters and the activation before tell what is on the page. -/
structure Tracks (s : ZchDynamicState) (p : Page) : Prop where
  sorted : s.zchdInputKeys.Pairwise (· < ·)
  counted : (p.current.length : Int) = s.zchdCharactersToDeleteOnNextActivation + p.kept
  small : 0 ≤ s.zchdCharactersToDeleteOnNextActivation ∧
    s.zchdCharactersToDeleteOnNextActivation ≤ i16Max
  off : s.zchdEnabledState ≠ .enabled →
    s.zchdLastPress = .notChord ∧ s.zchdPriorActivation = none ∧ p.antecedent = [] ∧ p.current = []
  first : s.FirstOfHold → p.kept = 0 ∧
    s.zchdPriorActivationOutputCount = p.antecedent.length ∧
    p.current.length = s.zchdInputKeys.length ∧ s.PriorAt p.antecedent
  later : ¬ s.FirstOfHold → s.PriorAt p.current
  space : s.zchdSmartSpaceState = .sent → s.zchdLastPress = .isChord
  chord : s.zchdLastPress = .isChord →
    s.zchdPriorActivationOutputCount = (p.antecedent ++ p.current).length ∧
    s.PriorAt (p.antecedent ++ p.current) ∧ (s.FirstOfHold → p.current = [])

/-- Nothing is counted when nothing may be replaced. -/
theorem tracks_ofText (hdelete : s.zchdCharactersToDeleteOnNextActivation = 0)
    (hcount : s.zchdPriorActivationOutputCount = 0) (hprior : s.zchdPriorActivation = none)
    (hinputs : s.zchdInputKeys = [])
    (hoff : s.zchdEnabledState ≠ .enabled → s.zchdLastPress = .notChord)
    (hspace : s.zchdSmartSpaceState = .sent → s.zchdLastPress = .isChord) (text : List OsCode) :
    s.Tracks (.ofText text) := by
  -- there is no activation before
  have hat : ∀ text, s.PriorAt text := fun text a ha => by rw [hprior] at ha; cases ha
  exact {
    sorted := by rw [hinputs]; exact .nil
    counted := by rw [hdelete]; rfl
    small := by rw [hdelete]; decide
    off := fun h => ⟨hoff h, hprior, rfl, rfl⟩
    first := fun _ => ⟨rfl, hcount, by rw [hinputs]; rfl, hat _⟩
    later := fun _ => hat _
    space := hspace
    chord := fun _ => ⟨hcount, hat _, fun _ => rfl⟩ }

/-- After a soft reset nothing is replaced. -/
theorem tracks_zchdSoftReset (s : ZchDynamicState) (text : List OsCode) :
    s.zchdSoftReset.Tracks (.ofText text) :=
  tracks_ofText rfl rfl rfl rfl (fun _ => rfl) (fun h => by cases h) text

/-- Nor after a reset. -/
theorem tracks_zchdReset (s : ZchDynamicState) (text : List OsCode) :
    s.zchdReset.Tracks (.ofText text) :=
  tracks_ofText rfl rfl rfl rfl (fun h => absurd rfl h) (fun h => by cases h) text

/-- The counters do not see what is settled. -/
theorem Tracks.of_settled (h : s.Tracks p) (settled : List OsCode) :
    s.Tracks { p with settled := settled } :=
  { h with }

/-- Only the fields that `Tracks` reads matter. -/
theorem Tracks.congr {s' : ZchDynamicState} (h : s.Tracks p)
    (hdelete : s'.zchdCharactersToDeleteOnNextActivation = s.zchdCharactersToDeleteOnNextActivation)
    (hcount : s'.zchdPriorActivationOutputCount = s.zchdPriorActivationOutputCount)
    (hprior : s'.zchdPriorActivation = s.zchdPriorActivation)
    (hhold : s'.zchdSameHoldActivationCount = s.zchdSameHoldActivationCount)
    (hinputs : s'.zchdInputKeys = s.zchdInputKeys)
    (hlast : s'.zchdLastPress = s.zchdLastPress)
    (hspace : s'.zchdSmartSpaceState = s.zchdSmartSpaceState)
    (henabled : s'.zchdEnabledState ≠ .enabled → s.zchdEnabledState ≠ .enabled) :
    s'.Tracks p := by
  have hfirst : s'.FirstOfHold ↔ s.FirstOfHold := by unfold FirstOfHold; rw [hhold, hprior]
  have hat : ∀ text, s'.PriorAt text ↔ s.PriorAt text := fun text => by
    unfold PriorAt
    rw [hprior]
  constructor
  · rw [hinputs]
    exact h.sorted
  · rw [hdelete]
    exact h.counted
  · rw [hdelete]
    exact h.small
  · intro hoff
    rw [hlast, hprior]
    exact h.off (henabled hoff)
  · rw [hfirst, hcount, hinputs, hat]
    exact h.first
  · rw [hfirst, hat]
    exact h.later
  · rw [hspace, hlast]
    exact h.space
  · rw [hlast, hcount, hat, hfirst]
    exact h.chord

/-! ## Activations -/

/-- The outputs that two activations have in common. -/
theorem commonLen_spec : ∀ pasts currents : List ZchOutput,
    commonLen pasts currents ≤ pasts.length ∧ commonLen pasts currents ≤ currents.length ∧
      pasts.take (commonLen pasts currents) = currents.take (commonLen pasts currents)
  | past :: pasts, current :: currents => by
    rcases commonLen_spec pasts currents with ⟨hle, hle', htake⟩
    rw [commonLen]
    split
    · exact ⟨Nat.zero_le _, Nat.zero_le _, rfl⟩
    · rename_i hsame
      push Not at hsame
      refine ⟨Nat.succ_le_succ hle, Nat.succ_le_succ hle', ?_⟩
      rw [List.take_succ_cons, List.take_succ_cons, htake, hsame.2.2]
  | [], _ => ⟨Nat.zero_le _, Nat.zero_le _, rfl⟩
  | _ :: _, [] => ⟨Nat.zero_le _, Nat.zero_le _, rfl⟩

/-- What two activations have in common is on the screen and stays there. -/
theorem commonLen_take {past : ZchChordOutput} (cfg : ZchConfig)
    (h : past.zchOutput.map ZchOutput.osc <+: text) :
    commonLen past.zchOutput a.zchOutput ≤ text.length ∧
      commonLen past.zchOutput a.zchOutput ≤ a.zchOutput.length ∧
      text.take (commonLen past.zchOutput a.zchOutput) =
        (a.shown cfg).take (commonLen past.zchOutput a.zchOutput) := by
  rcases commonLen_spec past.zchOutput a.zchOutput with ⟨hle, hle', htake⟩
  rcases h with ⟨rest, rfl⟩
  have hlen : past.zchOutput.length ≤ (past.zchOutput.map ZchOutput.osc ++ rest).length := by
    rw [List.length_append, List.length_map]
    omega
  refine ⟨hle.trans hlen, hle', ?_⟩
  rw [List.take_append_of_le_length (by rwa [List.length_map]), ZchChordOutput.shown,
    List.take_append_of_le_length (by rwa [List.length_map]), ← List.map_take, htake,
    List.map_take]

/-! ### Sums that fit -/

/-- A sum that fits. -/
theorem addI16_eq (overflowChecks : Bool) {m n : Int} (hmin : i16Min ≤ m + n)
    (hmax : m + n ≤ i16Max) : addI16 overflowChecks m n = .ok (m + n) := if_pos ⟨hmin, hmax⟩

/-- A difference that fits. -/
theorem subI16_eq (overflowChecks : Bool) {m n : Int} (hmin : i16Min ≤ m - n)
    (hmax : m - n ≤ i16Max) : subI16 overflowChecks m n = .ok (m - n) := if_pos ⟨hmin, hmax⟩

/-- What is not negative is large enough. -/
theorem i16Min_le_of_nonneg {n : Int} (h : 0 ≤ n) : i16Min ≤ n :=
  Int.le_trans (by decide) h

/-- A count that fits is cast to itself. -/
theorem i16AsUsize_natCast {n : Nat} (h : (n : Int) ≤ i16Max) : i16AsUsize n = n := by
  unfold i16AsUsize i16Max at *
  omega

/-- Each output counts for one character. -/
theorem addCharCounts_eq (overflowChecks : Bool) : ∀ {outs : List ZchOutput} {len : Int},
    (∀ out ∈ outs, out.isNoerase = false ∧ OsCode.isZippyIgnored out.osc = false) → 0 ≤ len →
    len + outs.length ≤ i16Max →
    ZchOutput.addCharCounts overflowChecks len outs = .ok (len + outs.length)
  | [], len, _, _, _ => by
    rw [List.length_nil, Int.natCast_zero, Int.add_zero]
    rfl
  | out :: outs, len, hplain, hmin, hmax => by
    rw [List.length_cons, Int.natCast_add, Int.natCast_one] at hmax ⊢
    have hout := hplain out List.mem_cons_self
    -- a plain output is one character
    have hcount : out.outputCharCount = 1 := by
      unfold ZchOutput.outputCharCount
      rw [if_neg (ne_backspace hout.2), hout.1]
      rfl
    have hadd : addI16 overflowChecks len out.outputCharCount = .ok (len + 1) := by
      rw [hcount]
      exact addI16_eq overflowChecks (i16Min_le_of_nonneg (by omega)) (by omega)
    have hrest : ZchOutput.addCharCounts overflowChecks (len + 1) outs =
        .ok (len + 1 + outs.length) :=
      addCharCounts_eq overflowChecks (fun o ho => hplain o (List.mem_cons_of_mem _ ho))
        (by omega) (by omega)
    unfold ZchOutput.addCharCounts at hrest ⊢
    rw [List.foldlM_cons, hadd, ok_bind, hrest]
    congr 1
    omega

/-- The loop that counts what two outputs have in common. -/
theorem commonLenFrom_eq (overflowChecks : Bool) : ∀ (pasts currents : List ZchOutput) {len : Int},
    0 ≤ len → len + currents.length ≤ i16Max →
    commonLenFrom overflowChecks len pasts currents = .ok (len + commonLen pasts currents)
  | [], _, len, _, _ => congrArg Except.ok (Int.add_zero len).symm
  | _ :: _, [], len, _, _ => congrArg Except.ok (Int.add_zero len).symm
  | past :: pasts, current :: currents, len, hmin, hmax => by
    rw [List.length_cons, Int.natCast_add, Int.natCast_one] at hmax
    unfold commonLenFrom commonLen
    split
    · exact congrArg Except.ok (Int.add_zero len).symm
    · rw [addI16_eq overflowChecks (i16Min_le_of_nonneg (by omega)) (by omega), ok_bind,
        commonLenFrom_eq overflowChecks pasts currents (by omega) (by omega)]
      congr 1
      push_cast
      omega

/-- What the code keeps is `keptLen`. -/
theorem commonPrefixLen_eq (s : ZchDynamicState) (overflowChecks : Bool) (a : ZchChordOutput)
    (pri : Bool) (hlen : (a.zchOutput.length : Int) ≤ i16Max) :
    s.commonPrefixLenFromPastActivation overflowChecks a pri = .ok (s.keptLen a pri : Int) := by
  unfold commonPrefixLenFromPastActivation keptLen
  split
  · rfl
  cases s.zchdPriorActivation with
  | none => rfl
  | some prior =>
    exact (commonLenFrom_eq overflowChecks _ _ (Int.le_refl 0) (by omega)).trans
      (congrArg Except.ok (Int.zero_add _))

/-- The smart space is settled without leaving `i16`. -/
theorem settleSmartSpace_eq (z : ZchSetup) (osc : OsCode)
    (h : 0 ≤ s.zchdCharactersToDeleteOnNextActivation ∧
      s.zchdCharactersToDeleteOnNextActivation ≤ i16Max) :
    s.settleSmartSpace z osc = .ok (s.settled z.zchCfg osc) := by
  unfold settleSmartSpace settled
  rw [subI16_eq z.overflowChecks]
  · rfl
  · unfold i16Min
    split <;> omega
  · split <;> omega

/-- An activation is on time: the counters count what it takes the place of, and what they are
about to count fits. -/
def Takes (s : ZchDynamicState) (cfg : ZchConfig) (p : Page) (a : ZchChordOutput)
    (isPrioritizedActivation : Bool) : Prop :=
  s.zchdSameHoldActivationCount < u16Max ∧
    ((p.antecedent ++ p.current).length + (a.shown cfg).length : Int) < i16Max ∧
    if a.zchOutput.isEmpty then
      s.FirstOfHold ∧ (isPrioritizedActivation = true ∨ p.antecedent = [])
    else p.kept = 0 ∧ (isPrioritizedActivation = true → s.FirstOfHold)

section Activation

variable (cfg : ZchConfig) (hcounted : (p.current.length : Int) =
    s.zchdCharactersToDeleteOnNextActivation + p.kept)
  (hfirst : s.FirstOfHold → p.kept = 0 ∧
    s.zchdPriorActivationOutputCount = p.antecedent.length ∧ s.PriorAt p.antecedent)
  (hlater : ¬ s.FirstOfHold → s.PriorAt p.current) (ha : a.Plain)
  (hne : a.zchOutput.isEmpty = false)

include hfirst hlater in
/-- What is kept is the beginning of what is replaced, and of what is shown. -/
theorem common_replaced (hpri : pri = true → s.FirstOfHold) :
    s.keptLen a pri ≤ (p.replaced pri).length ∧
      s.keptLen a pri ≤ a.zchOutput.length ∧
      (p.replaced pri).take (s.keptLen a pri) =
        (a.shown cfg).take (s.keptLen a pri) := by
  have hzero : ∀ n, n = 0 → n ≤ (p.replaced pri).length ∧ n ≤ a.zchOutput.length ∧
      (p.replaced pri).take n = (a.shown cfg).take n := by
    rintro _ rfl
    exact ⟨Nat.zero_le _, Nat.zero_le _, rfl⟩
  unfold keptLen
  split
  · exact hzero _ rfl
  · rename_i hsame
    cases hprior : s.zchdPriorActivation with
    | none => exact hzero _ rfl
    | some past =>
      refine commonLen_take cfg ?_
      cases pri with
      | true =>
        exact ((hfirst (hpri rfl)).2.2 past hprior).trans (List.prefix_append _ _)
      | false =>
        refine hlater ?_ past hprior
        rintro (hcount | hnone)
        · exact hsame (by simp [hcount])
        · rw [hprior] at hnone
          cases hnone

include hcounted hfirst in
/-- The counters count what is replaced. -/
theorem length_replaced (hkept : p.kept = 0) (hpri : pri = true → s.FirstOfHold) :
    ((p.replaced pri).length : Int) = s.zchdCharactersToDeleteOnNextActivation +
      if pri then s.zchdPriorActivationOutputCount else 0 := by
  rw [hkept] at hcounted
  cases pri with
  | true =>
    have hcount := (hfirst (hpri rfl)).2.1
    simp only [Page.replaced, if_true, List.length_append, Int.natCast_add]
    omega
  | false => simpa [Page.replaced] using hcounted

include hcounted hfirst hlater ha hne in
/-- A chord takes the place of what the counters count. -/
theorem readText_activation (osc : OsCode) (htakes : s.Takes cfg p a pri) :
    KbdCall.readText p.text (s.activated cfg osc a pri).2 =
      (p.replace (a.shown cfg) pri (s.keptLen a pri)).text := by
  have hpri := (if_neg (Bool.eq_false_iff.mp hne) ▸ htakes.2.2 : p.kept = 0 ∧ _)
  rcases common_replaced (a := a) cfg hfirst hlater hpri.2 with ⟨hle, hle', htake⟩
  have hlen := length_replaced hcounted hfirst hpri.1 hpri.2
  rcases p.text_eq_replaced (a.shown cfg) pri (s.keptLen a pri) with ⟨front, htext, hreplace⟩
  -- all that is replaced goes, but for what is kept
  have herased : s.erasedLen a pri = (p.replaced pri).length - s.keptLen a pri := by
    unfold erasedLen
    omega
  have hdrop : (a.shown cfg).drop (s.keptLen a pri) =
      (a.zchOutput.drop (s.keptLen a pri)).map ZchOutput.osc ++
        if sendsSpace cfg a then [keySpace] else [] := by
    rw [ZchChordOutput.shown, List.drop_append_of_le_length (by rwa [List.length_map]),
      List.map_drop]
  rw [hreplace, KbdCall.readText, activated, edits_activationCalls hne cfg osc _
      fun out hout => (ha out (List.mem_of_mem_drop hout)).2, herased, htext,
    ← read_replace front hle htake, hdrop, List.map_append, List.append_assoc]

/-- The characters of an output and its smart space. -/
theorem length_shown (cfg : ZchConfig) (a : ZchChordOutput) :
    (a.shown cfg).length = a.zchOutput.length + if sendsSpace cfg a then 1 else 0 := by
  rw [ZchChordOutput.shown, List.length_append, List.length_map]
  split <;> rfl

include hcounted hfirst hlater ha hne in
/-- An activation counts without leaving the types of its counters. -/
theorem activate_eq {z : ZchSetup} (hz : z.zchCfg = cfg) (osc : OsCode)
    (htakes : s.Takes cfg p a pri) :
    s.activate z osc a pri = .ok (s.activated cfg osc a pri) := by
  subst hz
  have hpri := (if_neg (Bool.eq_false_iff.mp hne) ▸ htakes.2.2 : p.kept = 0 ∧ _)
  rcases common_replaced (a := a) z.zchCfg hfirst hlater hpri.2 with ⟨hle, hle', -⟩
  have hlen := length_replaced hcounted hfirst hpri.1 hpri.2
  have hbound := htakes.2.1
  rw [length_shown, List.length_append] at hbound
  -- every count is at most what `Takes` bounds
  have hreplaced : (p.replaced pri).length ≤ p.antecedent.length + p.current.length := by
    unfold Page.replaced
    split
    · rw [List.length_append]
    · omega
  have hspaces : (0 : Int) ≤ (if sendsSpace z.zchCfg a then 1 else 0) ∧
      ((if sendsSpace z.zchCfg a then 1 else 0 : Nat) : Int) =
        if sendsSpace z.zchCfg a then 1 else 0 := by
    split <;> decide
  simp only [Int.natCast_add, hspaces.2] at hbound
  have hcount : addU16 z.overflowChecks s.zchdSameHoldActivationCount 1 =
      .ok (s.zchdSameHoldActivationCount + 1) := if_pos htakes.1
  have htyped : ((a.zchOutput.drop (s.keptLen a pri)).length : Int) =
      a.zchOutput.length - s.keptLen a pri := by
    rw [List.length_drop]
    omega
  have herase : s.eraseTyped z.overflowChecks a pri (s.keptLen a pri) =
      .ok (s.erasedLen a pri, 0, (a.zchOutput.length : Int)) := by
    unfold eraseTyped backspaces ZchOutput.displayLen erasedLen
    rw [hne, if_neg Bool.false_ne_true, ← hlen,
      addI16_eq z.overflowChecks (i16Min_le_of_nonneg (by omega)) (by omega), ok_bind, ← hlen,
      subI16_eq z.overflowChecks (i16Min_le_of_nonneg (by omega)) (by omega), ok_bind,
      addCharCounts_eq z.overflowChecks ha (Int.le_refl 0) (by omega), Int.zero_add]
    rfl
  unfold activate activated
  rw [commonPrefixLen_eq s z.overflowChecks a pri (by omega), ok_bind, hcount, ok_bind, herase,
    ok_bind]
  dsimp only
  rw [i16AsUsize_natCast (by omega), addCharCounts_eq z.overflowChecks
      (fun out hout => ha out (List.mem_of_mem_drop hout)) (Int.le_refl 0) (by omega), ok_bind,
    addI16_eq z.overflowChecks (i16Min_le_of_nonneg (by omega)) (by omega), ok_bind,
    addI16_eq z.overflowChecks (i16Min_le_of_nonneg (by omega)) (by omega), ok_bind, htyped,
    Int.zero_add, hne]
  rfl

/-- An activation is not the first thing of its hold any more. -/
theorem not_firstOfHold_activated (osc : OsCode) (a : ZchChordOutput) (pri : Bool) :
    ¬ (s.activated cfg osc a pri).1.FirstOfHold := by
  rintro (hzero | hnone)
  · cases hzero
  · cases hnone

include hfirst hlater hne in
/-- The counters are right after a chord. -/
theorem tracks_activated (hsorted : s.zchdInputKeys.Pairwise (· < ·)) (osc : OsCode)
    (htakes : s.Takes cfg p a pri) (henabled : s.zchdEnabledState = .enabled) :
    (s.activated cfg osc a pri).1.Tracks (p.replace (a.shown cfg) pri (s.keptLen a pri)) := by
  have hpri := (if_neg (Bool.eq_false_iff.mp hne) ▸ htakes.2.2 : p.kept = 0 ∧ _)
  rcases common_replaced (a := a) cfg hfirst hlater hpri.2 with ⟨-, hle, -⟩
  have hbound := htakes.2.1
  have hnot := not_firstOfHold_activated (s := s) cfg osc a pri
  have hat : (s.activated cfg osc a pri).1.PriorAt (a.shown cfg) := by
    rintro _ ⟨⟩
    exact List.prefix_append _ _
  rw [length_shown] at hbound
  constructor
  · exact hsorted
  · simp only [activated, hne, Page.replace, length_shown, Bool.false_eq_true, if_false]
    split <;> omega
  · simp only [activated, hne, Bool.false_eq_true, if_false]
    split at hbound <;> split <;> simp_all <;> omega
  · exact fun hoff => absurd henabled hoff
  · exact fun h => absurd h hnot
  · exact fun _ => hat
  · exact fun _ => rfl
  · refine fun _ => ⟨?_, hat, fun h => absurd h hnot⟩
    simp only [activated, hne, Page.replace, List.nil_append, length_shown, Bool.false_eq_true,
      if_false]
    split <;> rfl

section Empty

variable (hempty : a.zchOutput.isEmpty = true)

include hempty in
/-- An empty output has no smart space. -/
theorem sendsSpace_empty : sendsSpace cfg a = false := by
  simp [sendsSpace, List.isEmpty_iff.mp hempty]

include hempty in
/-- A chord that waits for its follow-up counts without leaving the types of its counters. -/
theorem activate_empty_eq {z : ZchSetup} (hz : z.zchCfg = cfg)
    (hcounted : (p.current.length : Int) = s.zchdCharactersToDeleteOnNextActivation + p.kept)
    (hsmall : 0 ≤ s.zchdCharactersToDeleteOnNextActivation)
    (hfirst : s.FirstOfHold → s.zchdPriorActivationOutputCount = p.antecedent.length ∧
      p.current.length + 1 = s.zchdInputKeys.length)
    (osc : OsCode) (htakes : s.Takes cfg p a pri) :
    s.activate z osc a pri = .ok (s.activated cfg osc a pri) := by
  subst hz
  have hnil : a.zchOutput = [] := List.isEmpty_iff.mp hempty
  have htakes' := (if_pos hempty ▸ htakes.2.2 : s.FirstOfHold ∧ _)
  rcases hfirst htakes'.1 with ⟨hantecedent, hinputs⟩
  have hbound := htakes.2.1
  rw [List.length_append] at hbound
  have hcount : addU16 z.overflowChecks s.zchdSameHoldActivationCount 1 =
      .ok (s.zchdSameHoldActivationCount + 1) := if_pos htakes.1
  -- the cast to `i16` does not wrap
  have hkeys : asI16 s.zchdInputKeys.length = s.zchdInputKeys.length := by
    unfold asI16 i16Max at *
    rw [Int.bmod_eq_of_le] <;> omega
  have herase : s.eraseTyped z.overflowChecks a pri (s.keptLen a pri) =
      .ok (0, s.zchdCharactersToDeleteOnNextActivation + 1,
        s.zchdPriorActivationOutputCount + s.zchdInputKeys.length) := by
    unfold eraseTyped
    rw [if_pos hempty, hkeys,
      addI16_eq z.overflowChecks (i16Min_le_of_nonneg (by omega)) (by omega), ok_bind,
      addI16_eq z.overflowChecks (i16Min_le_of_nonneg (by omega)) (by omega), ok_bind]
    rfl
  -- with an empty output nothing is erased, whatever the count
  have hsent : ∀ count, s.activationCalls z.zchCfg osc a count [] =
      s.activationCalls z.zchCfg osc a (s.erasedLen a pri) [] := by
    intro count
    unfold activationCalls
    rw [if_pos hempty, if_pos hempty]
  unfold activate activated
  rw [commonPrefixLen_eq s z.overflowChecks a pri (by rw [hnil]; decide), ok_bind, hcount,
    ok_bind, herase, ok_bind]
  dsimp only
  rw [hnil, List.drop_nil, List.drop_nil,
    addCharCounts_eq z.overflowChecks (by simp) (by omega) (by simp; omega), ok_bind,
    sendsSpace_empty z.zchCfg hempty, if_neg Bool.false_ne_true,
    addI16_eq z.overflowChecks (i16Min_le_of_nonneg (by omega)) (by omega), ok_bind,
    addI16_eq z.overflowChecks (i16Min_le_of_nonneg (by simp; omega)) (by simp; omega), ok_bind,
    hsent 0]
  simp
  rfl

include hempty in
/-- The counters are right after a chord that waits for its follow-up. -/
theorem tracks_activated_empty (hsorted : s.zchdInputKeys.Pairwise (· < ·))
    (hcounted : (p.current.length : Int) = s.zchdCharactersToDeleteOnNextActivation + p.kept)
    (hsmall : 0 ≤ s.zchdCharactersToDeleteOnNextActivation)
    (hfirst : s.FirstOfHold → s.zchdPriorActivationOutputCount = p.antecedent.length ∧
      p.current.length + 1 = s.zchdInputKeys.length)
    (osc : OsCode) (htakes : s.Takes cfg p a pri)
    (henabled : s.zchdEnabledState = .enabled) :
    (s.activated cfg osc a pri).1.Tracks
      ((if pri then p else p.settleAntecedent).type osc) := by
  have htakes' := (if_pos hempty ▸ htakes.2.2 : s.FirstOfHold ∧ _)
  have hbound := htakes.2.1
  have hnot := not_firstOfHold_activated (s := s) cfg osc a pri
  have hat : ∀ text, (s.activated cfg osc a pri).1.PriorAt text := by
    rintro text _ ⟨⟩
    rw [List.isEmpty_iff.mp hempty]
    exact List.nil_prefix
  -- without a follow-up there is nothing to settle
  have hpage : (if pri then p else p.settleAntecedent).antecedent = p.antecedent ∧
      (if pri then p else p.settleAntecedent).current = p.current ∧
      (if pri then p else p.settleAntecedent).kept = p.kept := by
    split
    · exact ⟨rfl, rfl, rfl⟩
    · rename_i hpri
      exact ⟨(htakes'.2.resolve_left hpri).symm, rfl, rfl⟩
  have hspace := sendsSpace_empty cfg hempty
  rcases hfirst htakes'.1 with ⟨hcount, hinputs⟩
  rw [List.length_append] at hbound
  constructor
  · exact hsorted
  · simp only [activated, hempty, hspace, Page.type, hpage, List.length_append]
    simp
    omega
  · simp only [activated, hempty, hspace]
    simp
    omega
  · exact fun hoff => absurd henabled hoff
  · exact fun h => absurd h hnot
  · exact fun _ => hat _
  · exact fun _ => rfl
  · refine fun _ => ⟨?_, hat _, fun h => absurd h hnot⟩
    simp only [activated, hempty, hspace, Page.type, hpage, List.length_append]
    simp
    omega

include hempty in
/-- With an empty output the key is typed. -/
theorem readText_activation_empty (hosc : OsCode.isZippyIgnored osc = false) :
    KbdCall.readText text (s.activated cfg osc a pri).2 = text ++ [osc] := by
  have hnil : a.zchOutput = [] := List.isEmpty_iff.mp hempty
  have hshift : KbdCall.edits (if !s.zchdIsCapsWordActive then s.eachShift .pressKey else []) =
      [] := by
    split
    · exact edits_eachShift_press s
    · rfl
  have hcalls : KbdCall.edits (s.activated cfg osc a pri).2 = [.insert osc] := by
    unfold activated activationCalls
    simp only [KbdCall.edits_append, sendsSpace_empty cfg hempty, hnil, List.drop_nil, sendKeys,
      hshift]
    simpa [KbdCall.edits] using edits_press hosc
  rw [KbdCall.readText, hcalls]
  rfl

end Empty

end Activation

/-! ## Events -/

/-- The answer to a press fits the page. The smart space is erased before other keys only. -/
def FitsLookUp (s : ZchDynamicState) (cfg : ZchConfig) (p : Page) (osc : OsCode) :
    GetOrIsSubsetOfKnownKey ZchChordOutput × Bool → Prop
  | (.hasValue a, isPrioritizedActivation) =>
    s.erasesSmartSpace cfg osc = false ∧
      (s.pressed cfg osc).Takes cfg p a isPrioritizedActivation
  | (.isSubset, _) =>
    s.erasesSmartSpace cfg osc = false ∧ (p.current.length : Int) < i16Max
  | (.neither, _) => True

/-- Whether a press means what the code does: the key is no input yet, and the counters count
what a chord takes the place of. -/
def FitsPress (s : ZchDynamicState) (z : ZchSetup) (p : Page) (osc : OsCode) : Prop :=
  if osc = keyBackspace then p.antecedent = [] ∧ p.current = []
  else OsCode.isZippyIgnored osc = false → s.zchdEnabledState = .enabled →
    s.holds osc = false ∧
      s.FitsLookUp z.zchCfg p osc ((s.pressed z.zchCfg osc).lookUp z.zchChords)

instance decidableFirstOfHold (s : ZchDynamicState) : Decidable s.FirstOfHold :=
  inferInstanceAs (Decidable (_ ∨ _))

instance decidableTakes (s : ZchDynamicState) (cfg : ZchConfig) (p : Page) (a : ZchChordOutput)
    (pri : Bool) : Decidable (s.Takes cfg p a pri) :=
  inferInstanceAs (Decidable (_ ∧ _ ∧ @ite _ _ _ _ _))

instance decidableFitsLookUp (s : ZchDynamicState) (cfg : ZchConfig) (p : Page) (osc : OsCode) :
    ∀ r, Decidable (s.FitsLookUp cfg p osc r)
  | (.hasValue _, _) => inferInstanceAs (Decidable (_ ∧ _))
  | (.isSubset, _) => inferInstanceAs (Decidable (_ ∧ _))
  | (.neither, _) => .isTrue trivial

instance decidableFitsPress (s : ZchDynamicState) (z : ZchSetup) (p : Page) (osc : OsCode) :
    Decidable (s.FitsPress z p osc) :=
  inferInstanceAs (Decidable (@ite _ _ _ _ _))

/-- The events of the keys are text, and the counters keep track of it. -/
def Shows (p p' : Page) (r : ZchDynamicState × List KbdCall) : Prop :=
  r.1.Tracks p' ∧ KbdCall.readText p.text r.2 = p'.text

/-- As `Shows`, for a call that does not panic. -/
def ShowsOk (p p' : Page) (call : Rust (ZchDynamicState × List KbdCall)) : Prop :=
  ∃ r, call = .ok r ∧ Shows p p' r

/-- What is found is plain. -/
theorem lookUp_plain (hz : z.Plain)
    (h : s.lookUp z.zchChords = (.hasValue a, pri)) : a.Plain := by
  unfold lookUp at h
  split at h
  · rename_i hsome
    cases h
    rcases Option.map_eq_some_iff.mp hsome with ⟨map, -, hget⟩
    exact hz map _ _ hget
  · exact hz 0 _ _ (Prod.ext_iff.mp h).1

/-- A new key is one input more. -/
theorem length_zchInsert {keys : List Nat} {k : Nat} (hsorted : keys.Pairwise (· < ·))
    (h : k ∉ keys) : (zchInsert keys k).length = keys.length + 1 := by
  have hsorted' : SortedBy id keys := hsorted
  unfold zchInsert
  split
  · rename_i hsearch
    rcases search_ok hsearch with ⟨pre, x, post, rfl, -, rfl⟩
    exact absurd (List.mem_append_right _ List.mem_cons_self) h
  · rename_i hsearch
    rcases hsorted'.search_error hsearch with ⟨pre, post, rfl, rfl, -, -⟩
    rw [List.length_insertIdx_of_le_length (by simp)]

/-- The deadline is one number. -/
theorem zchdActivateChordDeadline_eq (s : ZchDynamicState) (deadlineTicks : Nat) :
    ∃ n, s.zchdActivateChordDeadline deadlineTicks = { s with zchdTicksUntilDisable := n } := by
  unfold zchdActivateChordDeadline
  split
  · exact ⟨_, rfl⟩
  · exact ⟨s.zchdTicksUntilDisable, rfl⟩

/-- A press changes the inputs and the timers. -/
theorem pressed_frame (cfg : ZchConfig) (h : s.erasesSmartSpace cfg osc = false) :
    (s.pressed cfg osc).zchdInputKeys = zchInsert s.zchdInputKeys osc.code ∧
      (s.pressed cfg osc).zchdCharactersToDeleteOnNextActivation =
        s.zchdCharactersToDeleteOnNextActivation ∧
      (s.pressed cfg osc).zchdPriorActivationOutputCount = s.zchdPriorActivationOutputCount ∧
      (s.pressed cfg osc).zchdPriorActivation = s.zchdPriorActivation ∧
      (s.pressed cfg osc).zchdSameHoldActivationCount = s.zchdSameHoldActivationCount ∧
      (s.pressed cfg osc).zchdEnabledState = s.zchdEnabledState ∧
      (s.pressed cfg osc).zchdSmartSpaceState = .inactive := by
  have hdelete : (s.settled cfg osc).zchdCharactersToDeleteOnNextActivation =
      s.zchdCharactersToDeleteOnNextActivation := by
    unfold settled
    rw [h]
    exact Int.sub_zero _
  unfold pressed
  rcases zchdActivateChordDeadline_eq (s.settled cfg osc)
    cfg.zchCfgTicksChordDeadline with ⟨n, hn⟩
  rw [hn]
  exact ⟨rfl, hdelete, rfl, rfl, rfl, rfl, rfl⟩

/-- What the counters say while a key is being pressed. -/
structure Pressing (s : ZchDynamicState) (p : Page) : Prop where
  sorted : s.zchdInputKeys.Pairwise (· < ·)
  counted : (p.current.length : Int) = s.zchdCharactersToDeleteOnNextActivation + p.kept
  small : 0 ≤ s.zchdCharactersToDeleteOnNextActivation
  first : s.FirstOfHold → p.kept = 0 ∧
    s.zchdPriorActivationOutputCount = p.antecedent.length ∧ s.PriorAt p.antecedent
  inputs : s.FirstOfHold → p.current.length + 1 = s.zchdInputKeys.length
  later : ¬ s.FirstOfHold → s.PriorAt p.current
  enabled : s.zchdEnabledState = .enabled
  space : s.zchdSmartSpaceState = .inactive

/-- What the counters say before a press they say while it is looked up. -/
theorem Tracks.pressing (h : s.Tracks p) (cfg : ZchConfig)
    (herases : s.erasesSmartSpace cfg osc = false) (hholds : s.holds osc = false)
    (henabled : s.zchdEnabledState = .enabled) : (s.pressed cfg osc).Pressing p := by
  rcases pressed_frame cfg herases with ⟨hinputs, hdelete, hcount, hprior, hhold, henabled', hspace⟩
  -- the key is no input yet
  have hnew : osc.code ∉ s.zchdInputKeys := fun hmem =>
    Bool.false_ne_true (hholds.symm.trans (List.contains_iff_mem.mpr hmem))
  have hfirst : (s.pressed cfg osc).FirstOfHold ↔ s.FirstOfHold := by
    unfold FirstOfHold
    rw [hhold, hprior]
  have hat : ∀ text, (s.pressed cfg osc).PriorAt text ↔ s.PriorAt text := fun text => by
    unfold PriorAt
    rw [hprior]
  constructor
  · rw [hinputs]
    exact (zchInsert_isKey h.sorted _).2
  · rw [hdelete]
    exact h.counted
  · rw [hdelete]
    exact h.small.1
  · rw [hfirst, hcount, hat]
    exact fun hf => ⟨(h.first hf).1, (h.first hf).2.1, (h.first hf).2.2.2⟩
  · rw [hfirst, hinputs, length_zchInsert h.sorted hnew]
    exact fun hf => congrArg Nat.succ (h.first hf).2.2.1
  · rw [hfirst, hat]
    exact h.later
  · rw [henabled']
    exact henabled
  · exact hspace

/-- The key is not a chord yet. -/
theorem Pressing.tracks_type (h : s.Pressing p) (hfits : (p.current.length : Int) < i16Max)
    (osc : OsCode) :
    ({ s with
        zchdLastPress := .notChord
        zchdCharactersToDeleteOnNextActivation :=
          s.zchdCharactersToDeleteOnNextActivation + 1 } : ZchDynamicState).Tracks
      (p.type osc) where
  sorted := h.sorted
  counted := by
    have := h.counted
    simp only [Page.type, List.length_append, Int.natCast_add]
    simp
    omega
  small := by
    have hcounted := h.counted
    have hsmall := h.small
    dsimp only
    omega
  off := fun hoff => absurd h.enabled hoff
  first := fun hf => by
    have hf' := h.first hf
    refine ⟨hf'.1, hf'.2.1, ?_, hf'.2.2⟩
    rw [Page.type, List.length_append]
    exact h.inputs hf
  later := fun hf a ha => (h.later hf a ha).trans (List.prefix_append _ _)
  space := fun hsent => by
    have hsent : s.zchdSmartSpaceState = .sent := hsent
    rw [h.space] at hsent
    cases hsent
  chord := nofun

/-- A chord activates. -/
theorem Pressing.activate_shows (h : s.Pressing p) (cfg : ZchConfig)
    {z : ZchSetup} (hz : z.zchCfg = cfg) (hosc : OsCode.isZippyIgnored osc = false)
    (ha : a.Plain) (htakes : s.Takes cfg p a pri) :
    ShowsOk p (s.pageOfActivation cfg p osc a pri) (s.activate z osc a pri) := by
  unfold pageOfActivation
  split
  · rename_i hempty
    have hinputs : s.FirstOfHold → s.zchdPriorActivationOutputCount = p.antecedent.length ∧
        p.current.length + 1 = s.zchdInputKeys.length :=
      fun hf => ⟨(h.first hf).2.1, h.inputs hf⟩
    refine ⟨_, activate_empty_eq cfg hempty hz h.counted h.small hinputs osc htakes,
      tracks_activated_empty cfg hempty h.sorted h.counted h.small hinputs osc htakes h.enabled, ?_⟩
    rw [readText_activation_empty cfg hempty hosc, Page.type_text]
    split
    · rfl
    · rw [Page.settleAntecedent_text]
  · rename_i hne
    have hne : a.zchOutput.isEmpty = false := Bool.eq_false_iff.mpr hne
    exact ⟨_, activate_eq cfg h.counted h.first h.later ha hne hz osc htakes,
      tracks_activated cfg h.first h.later hne h.sorted osc htakes h.enabled,
      readText_activation cfg h.counted h.first h.later ha hne osc htakes⟩

/-- An ignored key other than backspace is no text. -/
theorem readText_ignored (text : List OsCode) (h : OsCode.isZippyIgnored osc = true)
    (hne : osc ≠ keyBackspace) : KbdCall.readText text [.pressKey osc] = text := by
  rw [KbdCall.readText, edits_of_ignored h hne]
  rfl

/-- The smart space goes, and the key stays for good. -/
theorem readText_spaced (s : ZchDynamicState) (cfg : ZchConfig) (p : Page)
    (hosc : OsCode.isZippyIgnored osc = false) :
    KbdCall.readText p.text
      ((if s.erasesSmartSpace cfg osc then backspace else []) ++ [.pressKey osc]) =
        ((s.spaced cfg p osc).put osc).text := by
  rw [KbdCall.readText_append, readText_press _ hosc, Page.put_text, spaced]
  split
  · rw [Page.eraseLast_text]
    rfl
  · rfl

/-- Without a smart space the key is typed. -/
theorem readText_unspaced (text : List OsCode) {cfg : ZchConfig}
    (herases : s.erasesSmartSpace cfg osc = false) (hosc : OsCode.isZippyIgnored osc = false) :
    KbdCall.readText text
      ((if s.erasesSmartSpace cfg osc then backspace else []) ++ [.pressKey osc]) =
        text ++ [osc] := by
  rw [herases]
  exact readText_press text hosc

/-- An ignored key changes nothing that the counters see. -/
theorem zchPressKey_ignored (hosc : OsCode.isZippyIgnored osc = true) (h : s.Tracks p) :
    ∃ s', s.zchPressKey z osc = .ok (s', [.pressKey osc]) ∧ s'.Tracks p := by
  unfold zchPressKey
  rw [if_pos hosc]
  split_ifs
  · exact ⟨_, rfl, h⟩
  · exact ⟨_, rfl, h.congr rfl rfl rfl rfl rfl rfl rfl id⟩
  · exact ⟨_, rfl, h.congr rfl rfl rfl rfl rfl rfl rfl id⟩
  · exact ⟨_, rfl, h.congr rfl rfl rfl rfl rfl rfl rfl id⟩
  · exact ⟨_, rfl, h⟩

/-- What a key does that may be part of a chord. -/
theorem zchPressKey_eq (hchords : noChords z = false) (hosc : OsCode.isZippyIgnored osc = false)
    (h : s.Tracks p) :
    s.zchPressKey z osc =
      if s.zchdEnabledState ≠ .enabled then
        .ok (s.settled z.zchCfg osc,
          (if s.erasesSmartSpace z.zchCfg osc then backspace else []) ++ [.pressKey osc])
      else (s.settled z.zchCfg osc).pressPart z osc >>= fun r =>
        pure (r.1, (if s.erasesSmartSpace z.zchCfg osc then backspace else []) ++ r.2) := by
  have hne : ∀ k, OsCode.isZippyIgnored k = true → osc ≠ k := by
    rintro _ hk rfl
    exact Bool.false_ne_true (hosc.symm.trans hk)
  unfold zchPressKey
  rw [hchords, if_neg Bool.false_ne_true, if_neg (hne _ (by decide)), if_neg (hne _ (by decide)),
    if_neg (hne _ (by decide)), hosc, if_neg Bool.false_ne_true, settleSmartSpace_eq z osc h.small]
  rfl

/-- While chords are off, keys are typed. -/
theorem Tracks.press_off (h : s.Tracks p) (hoff : s.zchdEnabledState ≠ .enabled) (cfg : ZchConfig)
    (hosc : OsCode.isZippyIgnored osc = false) :
    Shows p (p.put osc) (s.settled cfg osc,
      (if s.erasesSmartSpace cfg osc then backspace else []) ++ [.pressKey osc]) := by
  -- while chords are off nothing is counted
  rcases h.off hoff with ⟨hlast, hprior, hant, hcur⟩
  have hfirst : s.FirstOfHold := .inr hprior
  have herases : s.erasesSmartSpace cfg osc = false := by
    unfold erasesSmartSpace
    cases hspace : s.zchdSmartSpaceState with
    | inactive => rfl
    | sent =>
      rw [h.space hspace] at hlast
      cases hlast
  rcases h.first hfirst with ⟨hkept, hcount, hinputs, -⟩
  have hcounted := h.counted
  rw [hcur, hkept] at hcounted
  rw [hcur] at hinputs
  rw [hant] at hcount
  have hdelete : s.zchdCharactersToDeleteOnNextActivation = 0 := by simpa using hcounted.symm
  have htracks : (s.settled cfg osc).Tracks (p.put osc) :=
    tracks_ofText (s := s.settled cfg osc) (by simp [settled, herases, hdelete])
      hcount hprior (List.length_eq_zero_iff.mp hinputs.symm) (fun _ => hlast)
      (fun hsent => by cases hsent) _
  exact ⟨htracks, (readText_unspaced p.text herases hosc).trans (Page.put_text p osc).symm⟩

/-- While chords are on, a key is typed, or is the last one of a chord. -/
theorem Tracks.press_on (hz : z.Plain) (h : s.Tracks p) (hon : s.zchdEnabledState = .enabled)
    (hosc : OsCode.isZippyIgnored osc = false) (hfits : s.FitsPress z p osc)
    (hback : osc ≠ keyBackspace) :
    ShowsOk p (s.pageOfPress z p osc) ((s.settled z.zchCfg osc).pressPart z osc >>= fun r =>
      pure (r.1, (if s.erasesSmartSpace z.zchCfg osc then backspace else []) ++ r.2)) := by
  unfold FitsPress at hfits
  rw [if_neg hback] at hfits
  rcases hfits hosc hon with ⟨hholds, hmatch⟩
  have hpart : (s.settled z.zchCfg osc).pressPart z osc =
      match (s.pressed z.zchCfg osc).lookUp z.zchChords with
      | (.hasValue a, pri) => (s.pressed z.zchCfg osc).activate z osc a pri
      | (.isSubset, _) => do
        let toDelete ← addI16 z.overflowChecks
          (s.pressed z.zchCfg osc).zchdCharactersToDeleteOnNextActivation 1
        pure ({ s.pressed z.zchCfg osc with
            zchdLastPress := .notChord
            zchdCharactersToDeleteOnNextActivation := toDelete }, [.pressKey osc])
      | (.neither, _) => pure ((s.pressed z.zchCfg osc).zchdSoftReset, [.pressKey osc]) := rfl
  unfold pageOfPress
  rw [hpart, if_neg hback, hosc, if_neg Bool.false_ne_true, if_neg (not_not_intro hon)]
  rcases hlookup : (s.pressed z.zchCfg osc).lookUp z.zchChords with ⟨a | _ | _, pri⟩
  · rw [hlookup] at hmatch
    have ha : a.Plain := lookUp_plain hz hlookup
    rcases (h.pressing z.zchCfg hmatch.1 hholds hon).activate_shows z.zchCfg rfl hosc ha hmatch.2
      with ⟨r, hr, hshows⟩
    refine ⟨r, ?_, hshows⟩
    dsimp only
    rw [hr, hmatch.1]
    rfl
  · rw [hlookup] at hmatch
    have hpressing := h.pressing z.zchCfg hmatch.1 hholds hon
    have hcounted := hpressing.counted
    have hbound := hmatch.2
    have hadd : addI16 z.overflowChecks
        (s.pressed z.zchCfg osc).zchdCharactersToDeleteOnNextActivation 1 =
          .ok ((s.pressed z.zchCfg osc).zchdCharactersToDeleteOnNextActivation + 1) := by
      have hsmall := hpressing.small
      exact addI16_eq z.overflowChecks (i16Min_le_of_nonneg (by omega)) (by omega)
    refine ⟨_, by dsimp only; rw [hadd]; rfl, hpressing.tracks_type hbound osc, ?_⟩
    exact (readText_unspaced p.text hmatch.1 hosc).trans (Page.type_text p osc).symm
  · exact ⟨_, rfl, tracks_zchdSoftReset _ _, readText_spaced s z.zchCfg p hosc⟩

/-- A press leaves the text of the page that it means. -/
theorem Tracks.press (hz : z.Plain) (hchords : noChords z = false) (h : s.Tracks p)
    (hfits : s.FitsPress z p osc) :
    ShowsOk p (s.pageOfPress z p osc) (s.zchPressKey z osc) := by
  by_cases hback : osc = keyBackspace
  · subst hback
    rcases zchPressKey_ignored (z := z) (by decide : OsCode.isZippyIgnored keyBackspace = true) h
      with ⟨s', hs', htracks⟩
    unfold FitsPress at hfits
    unfold pageOfPress
    rw [if_pos rfl] at hfits ⊢
    refine ⟨_, hs', htracks.of_settled _, ?_⟩
    simp only [Page.text, hfits, List.append_nil]
    rfl
  cases hosc : OsCode.isZippyIgnored osc with
  | true =>
    rcases zchPressKey_ignored (z := z) hosc h with ⟨s', hs', htracks⟩
    unfold pageOfPress
    rw [if_neg hback, if_pos hosc]
    exact ⟨_, hs', htracks, readText_ignored _ hosc hback⟩
  | false =>
    rw [zchPressKey_eq hchords hosc h]
    by_cases hon : s.zchdEnabledState = .enabled
    · rw [if_neg (not_not_intro hon)]
      exact h.press_on hz hon hosc hfits hback
    · unfold pageOfPress
      rw [if_pos hon, if_neg hback, hosc, if_neg Bool.false_ne_true, if_pos hon]
      exact ⟨_, rfl, h.press_off hon z.zchCfg hosc⟩

/-- A release of an input. -/
theorem Tracks.zchdReleaseKey (h : s.Tracks p) (hosc : OsCode.isZippyIgnored osc = false) :
    (s.zchdReleaseKey osc).Tracks (s.pageOfRelease p osc) := by
  -- a smart space is there behind a chord only
  have hnotSent : s.zchdLastPress = .notChord → s.zchdSmartSpaceState ≠ .sent := by
    intro hlast hsent
    rw [h.space hsent] at hlast
    cases hlast
  unfold ZchDynamicState.zchdReleaseKey
  dsimp only
  split
  · rename_i hlast hempty
    have hpage : s.pageOfRelease p osc = p.settle := by simp [pageOfRelease, hosc, hlast]
    rw [hpage]
    refine tracks_ofText rfl rfl rfl ?_ (fun _ => ?_) (fun hsent => ?_) _
    · exact List.isEmpty_iff.mp hempty
    · exact hlast
    · exact absurd hsent (hnotSent hlast)
  · rename_i hlast hempty
    have hpage : s.pageOfRelease p osc = p.settle := by simp [pageOfRelease, hosc, hlast]
    rw [hpage]
    exact tracks_zchdSoftReset _ _
  · rename_i hlast hempty
    have hinputs := List.isEmpty_iff.mp hempty
    have hpage : s.pageOfRelease p osc =
        if s.zchdPrioritizedChords.isNone then p.settle else p.release := by
      simp only [pageOfRelease, hosc, hlast, hempty]
      rfl
    rw [hpage]
    split
    · refine tracks_ofText rfl rfl rfl ?_ (fun hoff => ?_) (fun _ => ?_) _
      · exact hinputs
      · exact absurd rfl hoff
      · exact hlast
    · rcases h.chord hlast with ⟨hcount, hat, -⟩
      exact {
        sorted := h.sorted.filter _
        counted := rfl
        small := ⟨Int.le_refl 0, (by decide : (0 : Int) ≤ i16Max)⟩
        off := fun hoff => absurd rfl hoff
        first := fun _ => ⟨rfl, hcount, by rw [hinputs]; rfl, hat⟩
        later := fun hnot => absurd (.inl rfl) hnot
        space := fun _ => hlast
        chord := fun _ => ⟨by rw [Page.release, List.append_nil]; exact hcount,
          by rw [Page.release, List.append_nil]; exact hat, fun _ => rfl⟩ }
  · rename_i hlast hempty
    have hpage : s.pageOfRelease p osc = p := by simp only [pageOfRelease, hosc, hlast, hempty]; rfl
    have hfilter : s.FirstOfHold → p.current.length =
        (s.zchdInputKeys.filter fun k => k != osc.code).length := by
      intro hf
      have hcur := (h.chord hlast).2.2 hf
      have hlen := (h.first hf).2.2.1
      rw [hcur] at hlen ⊢
      rw [List.length_eq_zero_iff.mp hlen.symm]
      rfl
    rw [hpage]
    exact {
      h with
      sorted := h.sorted.filter _
      first := fun hf => ⟨(h.first hf).1, (h.first hf).2.1, hfilter hf, (h.first hf).2.2.2⟩ }

/-- What a release means does not depend on the modifiers and the timers. -/
theorem pageOfRelease_congr {s' : ZchDynamicState} (hinputs : s'.zchdInputKeys = s.zchdInputKeys)
    (hlast : s'.zchdLastPress = s.zchdLastPress)
    (hprioritized : s'.zchdPrioritizedChords = s.zchdPrioritizedChords) (p : Page) (osc : OsCode) :
    s'.pageOfRelease p osc = s.pageOfRelease p osc := by
  unfold pageOfRelease
  rw [hinputs, hlast, hprioritized]

/-- A release leaves the text of the page that it means. -/
theorem Tracks.release (hchords : noChords z = false) (h : s.Tracks p) (osc : OsCode) :
    Shows p (s.pageOfRelease p osc) (s.zchReleaseKey z osc) := by
  -- the flags of the modifiers are not counted
  have hmodifier : (s.releaseModifier osc).Tracks p := by
    unfold releaseModifier
    split_ifs
    · exact h.congr rfl rfl rfl rfl rfl rfl rfl id
    · exact h.congr rfl rfl rfl rfl rfl rfl rfl id
    · exact h.congr rfl rfl rfl rfl rfl rfl rfl id
    · exact h
  have hpage : ((s.releaseModifier osc).zchdStateChange z.zchCfg).pageOfRelease p osc =
      s.pageOfRelease p osc := by
    unfold releaseModifier
    split_ifs <;> exact pageOfRelease_congr rfl rfl rfl p osc
  have htext : ∀ p' : Page, p'.text = p.text →
      KbdCall.readText p.text [.releaseKey osc] = p'.text := fun _ h => h.symm
  unfold zchReleaseKey
  rw [hchords, if_neg Bool.false_ne_true]
  dsimp only
  split
  · rename_i hosc
    unfold pageOfRelease
    rw [if_pos hosc]
    exact ⟨hmodifier, htext p rfl⟩
  · rename_i hosc
    have hchanged : ((s.releaseModifier osc).zchdStateChange z.zchCfg).Tracks p :=
      hmodifier.congr rfl rfl rfl rfl rfl rfl rfl id
    refine ⟨hpage ▸ hchanged.zchdReleaseKey (Bool.eq_false_iff.mpr hosc), htext _ ?_⟩
    unfold pageOfRelease
    split
    · rfl
    split
    · exact p.settle_text
    · split
      · exact p.settle_text
      · exact p.release_text
    · rfl

/-- The timers end what is under way, or change nothing that matters. -/
theorem tickTimers_tracks (h : s.Tracks p) :
    s.deadlineEnds = true ∧ s.tickTimers = s.zchdSoftReset ∨
      s.deadlineEnds = false ∧ s.tickTimers.Tracks p ∧
        s.tickTimers.zchdTicksSinceStateChange = s.zchdTicksSinceStateChange := by
  unfold tickTimers deadlineEnds
  split
  · rename_i hwait
    rw [hwait]
    dsimp only
    split
    · exact .inr ⟨rfl, h.congr rfl rfl rfl rfl rfl rfl rfl (fun hoff => absurd rfl hoff), rfl⟩
    · exact .inr ⟨rfl, h.congr rfl rfl rfl rfl rfl rfl rfl (fun _ => by rw [hwait]; nofun), rfl⟩
  · rename_i hon
    rw [hon]
    dsimp only
    by_cases hends : s.zchdTicksUntilDisable = 1
    · rw [hends]
      exact .inl ⟨rfl, rfl⟩
    · have hfalse : (s.zchdTicksUntilDisable == 1) = false := beq_eq_false_iff_ne.mpr hends
      refine .inr ⟨by rw [hfalse]; rfl, ?_⟩
      split
      · rw [if_neg (by omega)]
        exact ⟨h.congr rfl rfl rfl rfl rfl rfl rfl (fun hoff => absurd rfl hoff), rfl⟩
      · exact ⟨h, rfl⟩
  · rename_i hoff
    rw [hoff]
    exact .inr ⟨rfl, h, rfl⟩

/-- So does a tick. -/
theorem Tracks.tick (h : s.Tracks p) (isCapsWordActive : Bool) :
    (s.zchdTick isCapsWordActive).Tracks (if s.expires then p.settle else p) := by
  have hcounted : ({ s with
      zchdTicksSinceStateChange := s.zchdTicksSinceStateChange + 1
      zchdIsCapsWordActive := isCapsWordActive } : ZchDynamicState).Tracks p :=
    h.congr rfl rfl rfl rfl rfl rfl rfl id
  unfold zchdTick expires
  dsimp only
  rcases tickTimers_tracks hcounted with ⟨hends, hreset⟩ | ⟨hends, htracks, hticks⟩
  · have hends : s.deadlineEnds = true := hends
    rw [hreset, hends, Bool.true_or, if_pos rfl]
    split
    · exact tracks_zchdReset _ _
    · exact tracks_zchdSoftReset _ _
  · have hends : s.deadlineEnds = false := hends
    rw [hticks, hends, Bool.false_or]
    dsimp only
    split
    · rename_i hlate
      rw [decide_eq_true (Nat.le_of_lt_succ hlate), if_pos rfl]
      exact tracks_zchdReset _ _
    · rename_i hearly
      rw [decide_eq_false fun hlate => hearly (Nat.lt_succ_of_le hlate), if_neg Bool.false_ne_true]
      exact htracks

end ZchDynamicState

/-! ## Runs -/

open ZchDynamicState

/-- The machine with the page that the events mean. -/
def ZchSetup.write (z : ZchSetup) (sp : ZchDynamicState × Page) (op : ZippyOp) :
    Rust ((ZchDynamicState × Page) × List KbdCall) :=
  (z.step sp.1 op).map fun r => ((r.1, sp.1.pageAfter z sp.2 op), r.2)

/-- The condition on the presses of a run. -/
def ZchSetup.Fits (z : ZchSetup) (sp : ZchDynamicState × Page) : ZippyOp → Prop
  | .press osc => sp.1.FitsPress z sp.2 osc
  | _ => True

instance ZchSetup.decidableFits (z : ZchSetup) (sp : ZchDynamicState × Page) :
    ∀ op, Decidable (z.Fits sp op)
  | .press osc => ZchDynamicState.decidableFitsPress sp.1 z sp.2 osc
  | .release _ => .isTrue trivial
  | .tick _ => .isTrue trivial

/-- An event leaves the text of the page that it means. -/
theorem zippy_write_step {z : ZchSetup} (hz : z.Plain) (hchords : noChords z = false)
    {s : ZchDynamicState} {p : Page} (h : s.Tracks p) (op : ZippyOp) (hfits : z.Fits (s, p) op) :
    ShowsOk p (s.pageAfter z p op) (z.step s op) := by
  cases op with
  | press osc => exact h.press hz hchords hfits
  | release osc => exact ⟨_, rfl, h.release hchords osc⟩
  | tick isCapsWordActive =>
    refine ⟨_, rfl, h.tick isCapsWordActive, ?_⟩
    unfold pageAfter
    dsimp only
    split
    · exact p.settle_text.symm
    · rfl

/-- So does a run. -/
theorem zippy_write_run {z : ZchSetup} (hz : z.Plain) (hchords : noChords z = false) :
    ∀ (ops : List ZippyOp) {s : ZchDynamicState} {p : Page}, s.Tracks p →
      Along z.write z.Fits (s, p) ops →
      ∃ s' p' calls, run z.write (s, p) ops = .ok ((s', p'), calls) ∧
        run z.step s ops = .ok (s', calls) ∧ KbdCall.readText p.text calls.flatten = p'.text
  | [], s, p, _, _ => ⟨s, p, [], rfl, rfl, rfl⟩
  | op :: ops, s, p, h, halong => by
    rcases zippy_write_step hz hchords h op halong.1 with ⟨r, hr, htracks, htext⟩
    have hstep : z.write (s, p) op = .ok ((r.1, s.pageAfter z p op), r.2) := by
      unfold ZchSetup.write
      rw [hr]
      rfl
    rcases zippy_write_run hz hchords ops htracks (halong.tail hstep) with
      ⟨s', p', calls, hrun, hcode, hread⟩
    refine ⟨s', p', r.2 :: calls, run_cons_eq_ok.mpr ⟨_, _, _, hstep, hrun, rfl⟩,
      run_cons_eq_ok.mpr ⟨_, _, _, hr, hcode, rfl⟩, ?_⟩
    rw [List.flatten_cons, KbdCall.readText_append, htext, hread]

/-- As long as the presses fit, the text that the output has typed is the text of the page: each
chord stands where its keys and the smaller chords of its hold were, and a follow-up where the
chord before was as well. -/
theorem zippy_text (z : ZchSetup) (hz : z.Plain) (hchords : noChords z = false)
    (text : List OsCode) (ops : List ZippyOp)
    (h : Along z.write z.Fits (.new, .ofText text) ops) :
    ∃ s p calls, run z.write (.new, .ofText text) ops = .ok ((s, p), calls) ∧
      run z.step .new ops = .ok (s, calls) ∧ KbdCall.readText text calls.flatten = p.text := by
  have hnew : ZchDynamicState.new.Tracks (.ofText text) :=
    tracks_ofText rfl rfl rfl rfl (fun hoff => absurd rfl hoff) (fun _ => rfl) text
  have hrun := zippy_write_run hz hchords ops hnew h
  rwa [Page.ofText_text] at hrun

/-! ### A chord that grows -/

theorem keyC_le : 46 ≤ keyCodeMax := by decide

def keyC : OsCode := ⟨46, keyC_le⟩

/-- The chord of two keys types `ac`, and `ab` with a third key. -/
def ZchSetup.growing : ZchSetup where
  zchChords := ZchHeap.insert (ZchHeap.insert [SubsetMap.ssmNew] 0 [30, 48]
    ⟨[.lowercase keyA, .uppercase keyC], none⟩) 0 [30, 46, 48]
    ⟨[.lowercase keyA, .lowercase keyB], none⟩
  zchCfg := ⟨500, 500, .full, []⟩
  overflowChecks := true

theorem ZchSetup.growing_plain : ZchSetup.growing.Plain := ZchSetup.plain_of_stored (by decide)

theorem zippy_text_growing :
    ∃ s p calls, run ZchSetup.growing.write (.new, .ofText [])
        [.press keyA, .press keyB, .press keyC] = .ok ((s, p), calls) ∧
      run ZchSetup.growing.step .new [.press keyA, .press keyB, .press keyC] = .ok (s, calls) ∧
      KbdCall.readText [] calls.flatten = p.text :=
  zippy_text ZchSetup.growing ZchSetup.growing_plain (by decide) [] _ (by decide)

end Kanata
