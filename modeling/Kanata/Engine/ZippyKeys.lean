import Kanata.Engine.Zippychord
import Kanata.Lib.Machine
import Kanata.Lib.PressRelease

/-!
# Kanata.Engine.ZippyKeys — chords leave no key down

A chord types its output with keys that may be held, lifts the shift keys and AltGr, and puts
them down again. `zippy_no_stuck_keys`: a key that is down for the operating system is one
whose last event was a press, after every run; a run panics only where a counter overflows in a
build that checks for it.
-/

namespace Kanata

open Fallible Machine PressRelease

/-- What a call does to a key. -/
def KbdCall.edge : KbdCall → Option (Edge OsCode)
  | .pressKey osc => some (.press osc)
  | .releaseKey osc => some (.release osc)
  | _ => none

/-- What the calls do to the keys, in order. -/
def KbdCall.edges (calls : List KbdCall) : List (Edge OsCode) := calls.filterMap KbdCall.edge

/-- What happens to a key that is pressed or released. -/
def ZippyOp.edge : ZippyOp → Option (Edge OsCode)
  | .press osc => some (.press osc)
  | .release osc => some (.release osc)
  | .tick _ => none

/-- The keys that are held after an event. -/
def ZippyOp.hold (held : OsCode → Bool) (op : ZippyOp) : OsCode → Bool := fun k =>
  downAfter k (held k) op.edge.toList

namespace ZchDynamicState

variable {held : OsCode → Bool} {s : ZchDynamicState} {z : ZchSetup} {osc : OsCode}

/-- What the state takes for held is held, and may be an input. -/
structure HeldBy (held : OsCode → Bool) (s : ZchDynamicState) : Prop where
  inputKeys : ∀ k : OsCode, k.code ∈ s.zchdInputKeys →
    held k = true ∧ OsCode.isZippyIgnored k = false
  lsft : s.zchdIsLsftActive = true → held keyLeftShift = true
  rsft : s.zchdIsRsftActive = true → held keyRightShift = true
  altgr : s.zchdIsAltgrActive = true → held keyRightAlt = true

/-- The calls put only keys down that are held. -/
def Safe (held : OsCode → Bool) (calls : List KbdCall) : Prop :=
  HoldsWithin held (KbdCall.edges calls)

namespace Safe

variable {calls calls' : List KbdCall}

/-- No calls. -/
theorem nil : Safe held [] := HoldsWithin.nil

/-- Calls one after the other. -/
theorem append (h : Safe held calls) (h' : Safe held calls') : Safe held (calls ++ calls') := by
  unfold Safe KbdCall.edges
  rw [List.filterMap_append]
  exact HoldsWithin.append h h'

/-- A held key may be pressed. -/
theorem press (h : held osc = true) : Safe held [.pressKey osc] := HoldsWithin.press h

/-- Any key may be released. -/
theorem release (osc : OsCode) : Safe held [.releaseKey osc] := HoldsWithin.release osc

/-- A key that is pressed and released. -/
theorem tap (osc : OsCode) : Safe held [.pressKey osc, .releaseKey osc] := HoldsWithin.tap osc

/-- A key that is pressed for a while. -/
theorem between (osc : OsCode) (h : Safe held calls) :
    Safe held ([.pressKey osc] ++ calls ++ [.releaseKey osc]) := by
  unfold Safe KbdCall.edges
  rw [List.filterMap_append, List.filterMap_append]
  exact HoldsWithin.between osc h

/-- Calls that are made under a condition. -/
theorem ite {c : Prop} [Decidable c] (h : c → Safe held calls) :
    Safe held (if c then calls else []) := by
  split
  · rename_i hc
    exact h hc
  · exact nil

/-- The same calls several times. -/
theorem replicate (h : Safe held calls) (n : Nat) :
    Safe held (List.replicate n calls).flatten := by
  induction n with
  | zero => exact nil
  | succ n ih =>
    rw [List.replicate_succ, List.flatten_cons]
    exact h.append ih

end Safe

/-! ## The output of a chord -/

/-- A key that the state takes for held is held. -/
theorem HeldBy.of_holds (h : s.HeldBy held) (hosc : s.holds osc = true) : held osc = true :=
  (h.inputKeys osc (List.contains_iff_mem.mp hosc)).1

/-- A held key is lifted and put down again, another one is tapped. -/
theorem typeOsc_safe (h : s.HeldBy held) (osc : OsCode) : Safe held (s.typeOsc osc) := by
  unfold typeOsc
  split
  · rename_i hosc
    exact (Safe.release osc).append (.press (h.of_holds hosc))
  · exact .tap osc

/-- With shift around it, when it has to be pressed. -/
theorem shifted_safe {calls : List KbdCall} (h : Safe held calls) (releasedSft : Bool) :
    Safe held (s.maybePressSftDuringActivation releasedSft ++ calls ++
      s.maybeReleaseSftDuringActivation releasedSft) := by
  unfold maybePressSftDuringActivation maybeReleaseSftDuringActivation
  split
  · exact h.between keyLeftShift
  · simpa using h

/-- One key of an output, with its modifiers. -/
theorem sendKey_safe (h : s.HeldBy held) (releasedSft : Bool) (out : ZchOutput) :
    Safe held (s.sendKey releasedSft out) := by
  have htype := typeOsc_safe h
  have hboth : ∀ osc, Safe held ([.pressKey keyRightAlt] ++
      s.maybePressSftDuringActivation releasedSft ++ s.typeOsc osc ++
        s.maybeReleaseSftDuringActivation releasedSft ++ [.releaseKey keyRightAlt]) := by
    intro osc
    have hshifted := (shifted_safe (s := s) (htype osc) releasedSft).between keyRightAlt
    simpa only [List.append_assoc] using hshifted
  cases out with
  | lowercase osc => exact htype osc
  | uppercase osc => exact shifted_safe (htype osc) releasedSft
  | altGr osc => exact (htype osc).between keyRightAlt
  | shiftAltGr osc => exact hboth osc
  | noEraseLowercase osc => exact htype osc
  | noEraseUppercase osc => exact shifted_safe (htype osc) releasedSft
  | noEraseAltGr osc => exact (htype osc).between keyRightAlt
  | noEraseShiftAltGr osc => exact hboth osc

/-- The shift keys are lifted. -/
theorem eachShift_release_safe : Safe held (s.eachShift .releaseKey) :=
  (Safe.ite fun _ => .release keyLeftShift).append (.ite fun _ => .release keyRightShift)

/-- The shift keys that are held are put down again. -/
theorem eachShift_press_safe (h : s.HeldBy held) : Safe held (s.eachShift .pressKey) :=
  (Safe.ite fun hl => .press (h.lsft hl)).append (.ite fun hr => .press (h.rsft hr))

/-- All keys of an output. -/
theorem sendKeys_safe (h : s.HeldBy held) :
    ∀ (outs : List ZchOutput) (releasedSft : Bool), Safe held (s.sendKeys releasedSft outs)
  | [], _ => .nil
  | out :: outs, releasedSft =>
    ((sendKey_safe h releasedSft out).append (.ite fun _ => eachShift_release_safe)).append
      (sendKeys_safe h outs _)

/-! ## Overflow -/

/-- A sum left its type, in a build that checks for it. -/
def CounterOverflows (z : ZchSetup) (p : Panic) : Prop :=
  z.overflowChecks = true ∧
    (p.msg = "attempt to add with overflow" ∨ p.msg = "attempt to subtract with overflow")

/-- Each sum gives a value or overflows. -/
theorem addU16_overflows (z : ZchSetup) (m n : Nat) :
    Ensures (addU16 z.overflowChecks m n) (fun _ => True) (CounterOverflows z) := by
  unfold addU16
  split
  · trivial
  split
  · rename_i hchecks
    exact ⟨hchecks, .inl rfl⟩
  · trivial

/-- The same for the counters. -/
theorem addI16_overflows (z : ZchSetup) (m n : Int) :
    Ensures (addI16 z.overflowChecks m n) (fun _ => True) (CounterOverflows z) := by
  unfold addI16 fitI16
  split
  · trivial
  split
  · rename_i hchecks
    exact ⟨hchecks, .inl rfl⟩
  · trivial

/-- And for differences. -/
theorem subI16_overflows (z : ZchSetup) (m n : Int) :
    Ensures (subI16 z.overflowChecks m n) (fun _ => True) (CounterOverflows z) := by
  unfold subI16 fitI16
  split
  · trivial
  split
  · rename_i hchecks
    exact ⟨hchecks, .inr rfl⟩
  · trivial

/-- The length of an output. -/
theorem addCharCounts_overflows (z : ZchSetup) :
    ∀ (outs : List ZchOutput) (len : Int),
      Ensures (ZchOutput.addCharCounts z.overflowChecks len outs) (fun _ => True)
        (CounterOverflows z)
  | [], _ => trivial
  | out :: outs, len => by
    unfold ZchOutput.addCharCounts
    rw [List.foldlM_cons]
    exact (addI16_overflows z len _).andThen fun len _ => addCharCounts_overflows z outs len

/-- What the output has in common with the one before. -/
theorem commonLenFrom_overflows (z : ZchSetup) : ∀ (len : Int) (pasts currents : List ZchOutput),
    Ensures (commonLenFrom z.overflowChecks len pasts currents) (fun _ => True) (CounterOverflows z)
  | _, [], _ => by
    unfold commonLenFrom
    trivial
  | _, _ :: _, [] => by
    unfold commonLenFrom
    trivial
  | len, _ :: pasts, _ :: currents => by
    unfold commonLenFrom
    split
    · trivial
    · exact (addI16_overflows z len 1).andThen fun len _ =>
        commonLenFrom_overflows z len pasts currents

/-- The same from the state. -/
theorem commonPrefixLen_overflows (s : ZchDynamicState) (z : ZchSetup) (a : ZchChordOutput)
    (isPrioritizedActivation : Bool) :
    Ensures (s.commonPrefixLenFromPastActivation z.overflowChecks a isPrioritizedActivation)
      (fun _ => True) (CounterOverflows z) := by
  unfold commonPrefixLenFromPastActivation
  split
  · trivial
  split
  · exact commonLenFrom_overflows z _ _ _
  · trivial

/-- What is erased before an output. -/
theorem eraseTyped_overflows (s : ZchDynamicState) (z : ZchSetup) (a : ZchChordOutput)
    (isPrioritizedActivation : Bool) (commonLen : Int) :
    Ensures (s.eraseTyped z.overflowChecks a isPrioritizedActivation commonLen) (fun _ => True)
      (CounterOverflows z) := by
  unfold eraseTyped
  split
  · refine (addI16_overflows z _ _).andThen fun _ _ => ?_
    exact (addI16_overflows z _ _).andThen fun _ _ => trivial
  · have hcount : Ensures (s.backspaces z.overflowChecks isPrioritizedActivation commonLen)
        (fun _ => True) (CounterOverflows z) :=
      (addI16_overflows z _ _).andThen fun _ _ =>
        (subI16_overflows z _ _).andThen fun _ _ => trivial
    exact hcount.andThen fun _ _ => (addCharCounts_overflows z _ _).andThen fun _ _ => trivial

/-! ## Events -/

/-- The calls of an event are safe and leave a state that is right about the held keys. -/
def Leaves (held : OsCode → Bool) (r : ZchDynamicState × List KbdCall) : Prop :=
  r.1.HeldBy held ∧ Safe held r.2

/-- Backspace is tapped. -/
theorem backspace_safe : Safe held backspace := .tap keyBackspace

/-- A soft reset forgets the inputs. -/
theorem HeldBy.zchdSoftReset (h : s.HeldBy held) : s.zchdSoftReset.HeldBy held where
  inputKeys := fun _ hk => by cases hk
  lsft := h.lsft
  rsft := h.rsft
  altgr := h.altgr

/-- A reset forgets the modifiers, too. -/
theorem HeldBy.zchdReset (held : OsCode → Bool) (s : ZchDynamicState) :
    s.zchdReset.HeldBy held where
  inputKeys := fun _ hk => by cases hk
  lsft := fun h => by cases h
  rsft := fun h => by cases h
  altgr := fun h => by cases h

/-- A tick ends with the state as it was, or with a reset. -/
theorem HeldBy.zchdTick (h : s.HeldBy held) (isCapsWordActive : Bool) :
    (s.zchdTick isCapsWordActive).HeldBy held := by
  have htimers : ∀ s : ZchDynamicState, s.HeldBy held → s.tickTimers.HeldBy held := by
    intro s h
    unfold tickTimers
    split
    · dsimp only
      split <;> exact { h with }
    · split
      · dsimp only
        split
        · exact HeldBy.zchdSoftReset { h with }
        · exact { h with }
      · exact h
    · exact h
  unfold ZchDynamicState.zchdTick
  dsimp only
  split
  · exact .zchdReset held _
  · exact htimers _ { h with }

theorem activate_leaves (h : s.HeldBy held) (hosc : held osc = true) (a : ZchChordOutput)
    (isPrioritizedActivation : Bool) :
    Ensures (s.activate z osc a isPrioritizedActivation) (Leaves held) (CounterOverflows z) := by
  have hcalls : ∀ count typed, Safe held (s.activationCalls z.zchCfg osc a count typed) := by
    intro count typed
    have herase : Safe held (if a.zchOutput.isEmpty then [.pressKey osc]
        else (List.replicate count backspace).flatten) := by
      split
      · exact .press hosc
      · exact backspace_safe.replicate _
    have haltgr : s.zchdIsAltgrActive && !a.zchOutput.isEmpty →
        Safe held [.pressKey keyRightAlt] :=
      fun hactive => .press (h.altgr (Bool.and_eq_true_iff.mp hactive).1)
    exact ((((herase.append (.ite fun _ => .release keyRightAlt)).append
      (sendKeys_safe h typed false)).append (.ite fun _ => .tap keySpace)).append
        (.ite fun _ => eachShift_press_safe h)).append (.ite haltgr)
  unfold activate
  refine (commonPrefixLen_overflows s z a _).andThen fun commonLen _ => ?_
  refine (addU16_overflows z _ _).andThen fun activationCount _ => ?_
  refine (eraseTyped_overflows s z a _ commonLen).andThen fun ⟨count, toDelete, outputCount⟩ _ => ?_
  refine (addCharCounts_overflows z _ _).andThen fun toDelete _ => ?_
  refine (addI16_overflows z _ _).andThen fun outputCount _ => ?_
  refine (addI16_overflows z _ _).andThen fun toDelete _ => ?_
  exact ⟨{ h with }, hcalls _ _⟩

/-- The inputs after one more. -/
theorem mem_zchInsert {zchKeys : List Nat} {key k : Nat} (h : k ∈ zchInsert zchKeys key) :
    k = key ∨ k ∈ zchKeys := by
  unfold zchInsert at h
  split at h
  · exact .inr h
  · rename_i pos _
    rcases List.eq_or_mem_of_mem_insertIdx h with heq | hmem
    · exact .inl heq
    · exact .inr hmem

/-- A press that is an input: it activates a chord, or is typed. -/
theorem pressPart_leaves (h : s.HeldBy held) (hosc : held osc = true)
    (hinput : OsCode.isZippyIgnored osc = false) :
    Ensures (s.pressPart z osc) (Leaves held) (CounterOverflows z) := by
  have hpressed : (((s.zchdActivateChordDeadline
      z.zchCfg.zchCfgTicksChordDeadline).zchdStateChange z.zchCfg).zchdPressKey osc).HeldBy
      held := by
    -- the deadline does not touch the keys
    have hdeadline : (s.zchdActivateChordDeadline
        z.zchCfg.zchCfgTicksChordDeadline).HeldBy held := by
      unfold zchdActivateChordDeadline
      split
      · exact { h with }
      · exact h
    refine { hdeadline with inputKeys := fun k hk => ?_ }
    rcases mem_zchInsert hk with heq | hmem
    · exact KeyCode.ext_code heq ▸ ⟨hosc, hinput⟩
    · exact hdeadline.inputKeys k hmem
  unfold pressPart
  dsimp only
  split
  · exact activate_leaves hpressed hosc _ _
  · exact (addI16_overflows z _ _).andThen fun _ _ => ⟨{ hpressed with }, .press hosc⟩
  · exact ⟨hpressed.zchdSoftReset, .press hosc⟩

/-- A press. -/
theorem zchPressKey_leaves (h : s.HeldBy held) (hosc : held osc = true) :
    Ensures (s.zchPressKey z osc) (Leaves held) (CounterOverflows z) := by
  have hpress : Safe held [.pressKey osc] := .press hosc
  unfold zchPressKey
  dsimp only
  split
  · exact ⟨h, hpress⟩
  split
  · rename_i heq
    exact ⟨{ h with lsft := fun _ => heq ▸ hosc }, hpress⟩
  split
  · rename_i heq
    exact ⟨{ h with rsft := fun _ => heq ▸ hosc }, hpress⟩
  split
  · rename_i heq
    exact ⟨{ h with altgr := fun _ => heq ▸ hosc }, hpress⟩
  split
  · exact ⟨h, hpress⟩
  rename_i hinput
  -- the smart space is settled first, which may erase it
  have hsettled : Ensures (s.settleSmartSpace z osc) (HeldBy held) (CounterOverflows z) :=
    (subI16_overflows z _ _).andThen fun _ _ => ensures_pure.mpr { h with }
  have herasing : Safe held (if s.erasesSmartSpace z.zchCfg osc then backspace else []) :=
    .ite fun _ => backspace_safe
  refine hsettled.andThen fun s' hs' => ?_
  split
  · exact ⟨hs', herasing.append hpress⟩
  · refine (pressPart_leaves (z := z) hs' hosc (Bool.eq_false_iff.mpr hinput)).andThen
      fun r hr => ?_
    exact ⟨hr.1, herasing.append hr.2⟩

/-- The flags of the keys other than the one that is released. -/
theorem releaseModifier_flags (s : ZchDynamicState) (osc : OsCode) :
    ((s.releaseModifier osc).zchdIsLsftActive = true →
      keyLeftShift ≠ osc ∧ s.zchdIsLsftActive = true) ∧
    ((s.releaseModifier osc).zchdIsRsftActive = true →
      keyRightShift ≠ osc ∧ s.zchdIsRsftActive = true) ∧
    ((s.releaseModifier osc).zchdIsAltgrActive = true →
      keyRightAlt ≠ osc ∧ s.zchdIsAltgrActive = true) := by
  have hlr : keyLeftShift ≠ keyRightShift := by decide
  have hla : keyLeftShift ≠ keyRightAlt := by decide
  have hra : keyRightShift ≠ keyRightAlt := by decide
  unfold releaseModifier
  split
  · rename_i heq
    subst heq
    exact ⟨fun h => (Bool.false_ne_true h).elim, fun h => ⟨hlr.symm, h⟩, fun h => ⟨hla.symm, h⟩⟩
  split
  · rename_i heq
    subst heq
    exact ⟨fun h => ⟨hlr, h⟩, fun h => (Bool.false_ne_true h).elim, fun h => ⟨hra.symm, h⟩⟩
  split
  · rename_i heq
    subst heq
    exact ⟨fun h => ⟨hla, h⟩, fun h => ⟨hra, h⟩, fun h => (Bool.false_ne_true h).elim⟩
  · rename_i hl hr ha
    exact ⟨fun h => ⟨Ne.symm hl, h⟩, fun h => ⟨Ne.symm hr, h⟩, fun h => ⟨Ne.symm ha, h⟩⟩

/-- A release takes the key out of the inputs, or all of them. -/
theorem zchdReleaseKey_frame (s : ZchDynamicState) (osc : OsCode) :
    (∀ k ∈ (s.zchdReleaseKey osc).zchdInputKeys, k ∈ s.zchdInputKeys ∧ k ≠ osc.code) ∧
      (s.zchdReleaseKey osc).zchdIsLsftActive = s.zchdIsLsftActive ∧
      (s.zchdReleaseKey osc).zchdIsRsftActive = s.zchdIsRsftActive ∧
      (s.zchdReleaseKey osc).zchdIsAltgrActive = s.zchdIsAltgrActive := by
  have hfilter : ∀ k ∈ s.zchdInputKeys.filter fun k => k != osc.code,
      k ∈ s.zchdInputKeys ∧ k ≠ osc.code := fun k hk =>
    ⟨(List.mem_filter.mp hk).1, bne_iff_ne.mp (List.mem_filter.mp hk).2⟩
  unfold zchdReleaseKey
  dsimp only
  split
  · exact ⟨hfilter, rfl, rfl, rfl⟩
  · exact ⟨nofun, rfl, rfl, rfl⟩
  · split <;> exact ⟨hfilter, rfl, rfl, rfl⟩
  · exact ⟨hfilter, rfl, rfl, rfl⟩

/-- A key that was released is held no more. -/
theorem zchReleaseKey_heldBy (hz : noChords z = false) (h : s.HeldBy held) (osc : OsCode) :
    (s.zchReleaseKey z osc).1.HeldBy fun k => decide (k ≠ osc) && held k := by
  rcases s.releaseModifier_flags osc with ⟨hlsft, hrsft, haltgr⟩
  have hinputs : (s.releaseModifier osc).zchdInputKeys = s.zchdInputKeys := by
    unfold releaseModifier
    split_ifs <;> rfl
  -- every other key is held as before
  have hkept : ∀ k, k ≠ osc → held k = true → (decide (k ≠ osc) && held k) = true :=
    fun k hne hk => by simp [hne, hk]
  unfold zchReleaseKey
  simp only [hz, Bool.false_eq_true, if_false]
  split
  · rename_i hignored
    refine ⟨fun k hk => ?_, fun hl => ?_, fun hr => ?_, fun ha => ?_⟩
    -- an ignored key is never among the inputs
    · have hmem : k.code ∈ (s.releaseModifier osc).zchdInputKeys := hk
      have hk := h.inputKeys k (hinputs ▸ hmem)
      have hne : k ≠ osc := fun heq => Bool.false_ne_true (hk.2.symm.trans (heq ▸ hignored))
      exact ⟨hkept k hne hk.1, hk.2⟩
    · exact hkept _ (hlsft hl).1 (h.lsft (hlsft hl).2)
    · exact hkept _ (hrsft hr).1 (h.rsft (hrsft hr).2)
    · exact hkept _ (haltgr ha).1 (h.altgr (haltgr ha).2)
  · have hframe := ((s.releaseModifier osc).zchdStateChange z.zchCfg).zchdReleaseKey_frame osc
    refine ⟨fun k hk => ?_, fun hl => ?_, fun hr => ?_, fun ha => ?_⟩
    · have hmem := hframe.1 k.code hk
      have hk := h.inputKeys k (hinputs ▸ hmem.1)
      exact ⟨hkept k (fun heq => hmem.2 (heq ▸ rfl)) hk.1, hk.2⟩
    · have hl := hlsft (hframe.2.1 ▸ hl)
      exact hkept _ hl.1 (h.lsft hl.2)
    · have hr := hrsft (hframe.2.2.1 ▸ hr)
      exact hkept _ hr.1 (h.rsft hr.2)
    · have ha := haltgr (hframe.2.2.2 ▸ ha)
      exact hkept _ ha.1 (h.altgr ha.2)

end ZchDynamicState

/-! ## Runs -/

open ZchDynamicState

/-- A key that is pressed is held. -/
theorem ZippyOp.hold_press (held : OsCode → Bool) (osc k : OsCode) :
    (ZippyOp.press osc).hold held k = if osc = k then true else held k := rfl

/-- A key that is released is not. -/
theorem ZippyOp.hold_release (held : OsCode → Bool) (osc k : OsCode) :
    (ZippyOp.release osc).hold held k = if osc = k then false else held k := rfl

/-- An event that leaves every key that is down among those that are held. -/
def KeepsWithin (held held' : OsCode → Bool) (calls : List KbdCall) : Prop :=
  ∀ k down, (down = true → held k = true) →
    downAfter k down (KbdCall.edges calls) = true → held' k = true

/-- A step keeps the keys that are down within those that are held. -/
theorem zippy_step {z : ZchSetup} (hz : noChords z = false) {held : OsCode → Bool}
    {s : ZchDynamicState} (hs : s.HeldBy held) (op : ZippyOp) :
    Ensures (z.step s op)
      (fun r => r.1.HeldBy (op.hold held) ∧ KeepsWithin held (op.hold held) r.2)
      (CounterOverflows z) := by
  cases op with
  | press osc =>
    have hpressed : ∀ k, held k = true → (ZippyOp.press osc).hold held k = true := by
      intro k hk
      rw [ZippyOp.hold_press, hk, ite_self]
    have hself : (ZippyOp.press osc).hold held osc = true := if_pos rfl
    have hheld : s.HeldBy ((ZippyOp.press osc).hold held) :=
      ⟨fun k hk => ⟨hpressed k (hs.inputKeys k hk).1, (hs.inputKeys k hk).2⟩,
        fun h => hpressed _ (hs.lsft h), fun h => hpressed _ (hs.rsft h),
        fun h => hpressed _ (hs.altgr h)⟩
    refine (zchPressKey_leaves (z := z) hheld hself).mono (fun r hr => ?_) fun _ he => he
    exact ⟨hr.1, fun k down hdown => hr.2 k down fun h => hpressed k (hdown h)⟩
  | release osc =>
    have hhold : (ZippyOp.release osc).hold held = fun k => decide (k ≠ osc) && held k := by
      funext k
      rw [ZippyOp.hold_release]
      by_cases heq : osc = k
      · simp [heq]
      · simp [heq, Ne.symm heq]
    -- whatever the state is, the release is passed on
    have hcalls : (s.zchReleaseKey z osc).2 = [.releaseKey osc] := by
      unfold zchReleaseKey
      split_ifs <;> rfl
    refine ⟨hhold ▸ zchReleaseKey_heldBy hz hs osc, fun k down hdown h => ?_⟩
    change downAfter k down (KbdCall.edges (s.zchReleaseKey z osc).2) = true at h
    rw [hcalls] at h
    exact downAfter_mono k hdown _ h
  | tick isCapsWordActive => exact ⟨hs.zchdTick _, fun _ _ hdown => hdown⟩

/-- Without chords, keys are passed on. -/
theorem zippy_step_noChords {z : ZchSetup} (hz : noChords z = true) (s : ZchDynamicState)
    (held : OsCode → Bool) (op : ZippyOp) :
    Ensures (z.step s op) (fun r => True ∧ KeepsWithin held (op.hold held) r.2)
      (CounterOverflows z) := by
  have hpassed : ∀ edges : List KbdCall, KbdCall.edges edges = op.edge.toList →
      KeepsWithin held (op.hold held) edges := by
    intro edges hedges k down hdown h
    rw [hedges] at h
    exact downAfter_mono k hdown _ h
  cases op with
  | press osc =>
    simp only [ZchSetup.step, zchPressKey, hz, if_true]
    exact ⟨trivial, hpassed _ rfl⟩
  | release osc =>
    simp only [ZchSetup.step, zchReleaseKey, hz, if_true]
    exact ⟨trivial, hpassed _ rfl⟩
  | tick isCapsWordActive => exact ⟨trivial, hpassed _ rfl⟩

/-- The keys that are held after some events. -/
def ZippyOp.holds (held : OsCode → Bool) (ops : List ZippyOp) : OsCode → Bool := fun k =>
  downAfter k (held k) (ops.filterMap ZippyOp.edge)

/-- The first event comes first. -/
theorem ZippyOp.holds_cons (held : OsCode → Bool) (op : ZippyOp) (ops : List ZippyOp) :
    ZippyOp.holds held (op :: ops) = ZippyOp.holds (op.hold held) ops := by
  funext k
  cases op <;> rfl

/-- What a run keeps within the held keys, given that its steps do. -/
theorem zippy_run {z : ZchSetup} (Inv : (OsCode → Bool) → ZchDynamicState → Prop)
    (hstep : ∀ held s op, Inv held s → Ensures (z.step s op)
      (fun r => Inv (op.hold held) r.1 ∧ KeepsWithin held (op.hold held) r.2)
        (CounterOverflows z)) :
    ∀ (ops : List ZippyOp) (held : OsCode → Bool) (s : ZchDynamicState), Inv held s →
      Ensures (run z.step s ops)
        (fun r => KeepsWithin held (ZippyOp.holds held ops) r.2.flatten) (CounterOverflows z)
  | [], _, _, _ => fun _ _ hdown h => hdown h
  | op :: ops, held, s, hs => by
    refine (hstep held s op hs).andThen fun r hr => ?_
    refine (zippy_run Inv hstep ops _ r.1 hr.1).andThen fun r' hrest => ?_
    intro k down hdown h
    rw [ZippyOp.holds_cons]
    refine hrest k _ (hr.2 k down hdown) ?_
    rwa [List.flatten_cons, KbdCall.edges, List.filterMap_append, downAfter_append] at h

/-- Whatever is pressed and released, with whatever chords and options: a call panics only where
a counter overflows in a build that checks for it, and after a run without a panic a key that is
down is one that is held. -/
theorem zippy_no_stuck_keys (z : ZchSetup) (ops : List ZippyOp) :
    (∀ p, run z.step .new ops = .error p → CounterOverflows z p) ∧
      ∀ s calls, run z.step .new ops = .ok (s, calls) →
        ∀ k, downAfter k false (KbdCall.edges calls.flatten) = true →
          downAfter k false (ops.filterMap ZippyOp.edge) = true := by
  have hrun : Ensures (run z.step .new ops)
      (fun r => KeepsWithin (fun _ => false) (ZippyOp.holds (fun _ => false) ops) r.2.flatten)
      (CounterOverflows z) := by
    rcases hz : noChords z with _ | _
    · have hnew : HeldBy (fun _ => false) .new := ⟨nofun, nofun, nofun, nofun⟩
      exact zippy_run HeldBy (fun _ _ op hs => zippy_step hz hs op) ops _ _ hnew
    · exact zippy_run (fun _ _ => True) (fun held s op _ => zippy_step_noChords hz s held op) ops
        _ _ trivial
  exact ⟨fun p hp => hrun.of_error hp, fun s calls hcalls k => hrun.of_ok hcalls k false nofun⟩

end Kanata
