import Kanata.Engine.CurrentKeys
import Kanata.Lib.Machine

/-!
# Kanata.Engine.KeyStream — the presses and releases over a run

A tick passes the difference between the keys of the tick before and its own to `press_key` and
`release_key`. These send nothing for the keys `nop0` to `nop9`, and only a scroll for the wheel.
For all other keys `keyStream_wellFormed` says what the output sees over a run.

The list of the keys may hold a key twice. The presses skip the second occurrence and
the releases do not: a key that is held twice and goes is released twice.
-/

namespace Kanata

open Fallible Machine PressRelease

/-- The press or the release that a call is. A scroll is neither. -/
def KbdCall.deviceEdge : KbdCall → Option (Edge OsCode)
  | .pressKey osc => some (.press osc)
  | .clickBtn osc => some (.press osc)
  | .releaseKey osc => some (.release osc)
  | .releaseBtn osc => some (.release osc)
  | .scroll _ => none

/-- The key is sent as a press and a release. -/
def OsCode.isSent (osc : OsCode) : Bool := !OsCode.isIgnored osc && !OsCode.isWheel osc

namespace Engine

variable {C R : Nat} {cfg : LayoutConfig C R CustomAction} {kcfg : KeyConfig} {s s' : Engine}
  {t : Tick}

/-! ## The output -/

/-- The presses and releases that the output gets in some ticks. -/
def outputOf (ts : List Tick) : List (Edge OsCode) :=
  (ts.flatMap Tick.sent).filterMap KbdCall.deviceEdge

/-- No button is a key of the wheel. -/
theorem isWheel_of_isButton {k : OsCode} (h : OsCode.isButton k = true) :
    OsCode.isWheel k = false := by
  unfold OsCode.isButton at h
  unfold OsCode.isWheel
  rw [decide_eq_true_iff] at h
  exact decide_eq_false (by omega)

theorem deviceEdge_sendEdge (e : Edge KeyCode) :
    (sendEdge e).filterMap KbdCall.deviceEdge = if OsCode.isSent e.key then [e] else [] := by
  rcases e with k | k
  all_goals
    simp only [sendEdge, OutputLogic.pressKey, OutputLogic.releaseKey, OsCode.isSent, Edge.key]
    by_cases hignored : OsCode.isIgnored k = true
    · simp [hignored]
    by_cases hbutton : OsCode.isButton k = true
    · simp [hignored, hbutton, isWheel_of_isButton hbutton, KbdCall.deviceEdge]
    by_cases hwheel : OsCode.isWheel k = true
    · simp [hignored, hbutton, hwheel, KbdCall.deviceEdge]
    · simp [hignored, hbutton, hwheel, KbdCall.deviceEdge]

/-- The output gets the edges of the keys that are sent. -/
theorem outputOf_eq (ts : List Tick) :
    outputOf ts = (ts.flatMap Tick.edges).filter fun e => OsCode.isSent e.key := by
  have hedges : ∀ es : List (Edge KeyCode), (es.flatMap sendEdge).filterMap KbdCall.deviceEdge =
      es.filter fun e => OsCode.isSent e.key := by
    intro es
    induction es with
    | nil => rfl
    | cons e es ih =>
      rw [List.flatMap_cons, List.filterMap_append, ih, deviceEdge_sendEdge, List.filter_cons]
      split <;> rfl
  rw [← hedges, List.flatMap_assoc]
  rfl

/-! ## One tick -/

/-- The edges of a tick are the difference between its two lists of keys. -/
def Tick.IsDifference (t : Tick) : Prop :=
  ∃ gone : List KeyCode, gone.Perm (t.prevKeys.filter fun k => !t.curKeys.contains k) ∧
    t.edges = gone.map .release ++ (presses t.prevKeys t.curKeys).2

/-- The lists that the keys of a tick depend on are the same. -/
structure SameLists (s s' : Engine) : Prop where
  prevKeys : s'.prevKeys = s.prevKeys
  unmoddedKeys : s'.unmoddedKeys = s.unmoddedKeys
  unmoddedMods : s'.unmoddedMods = s.unmoddedMods
  unshiftedKeys : s'.unshiftedKeys = s.unshiftedKeys

theorem SameLists.trans {s₁ s₂ s₃ : Engine} (h : SameLists s₁ s₂) (h' : SameLists s₂ s₃) :
    SameLists s₁ s₃ where
  prevKeys := h'.prevKeys.trans h.prevKeys
  unmoddedKeys := h'.unmoddedKeys.trans h.unmoddedKeys
  unmoddedMods := h'.unmoddedMods.trans h.unmoddedMods
  unshiftedKeys := h'.unshiftedKeys.trans h.unshiftedKeys

theorem override_sameLists (kcfg : KeyConfig) (s : Engine) (curKeys : List KeyCode) :
    SameLists s (s.override kcfg curKeys).1 := ⟨rfl, rfl, rfl, rfl⟩

theorem tickCapsWord_sameLists (s : Engine) (curKeys : List KeyCode) :
    SameLists s (s.tickCapsWord curKeys).1 := by
  unfold tickCapsWord
  split
  · exact ⟨rfl, rfl, rfl, rfl⟩
  · split <;> exact ⟨rfl, rfl, rfl, rfl⟩

theorem lateCustom_sameLists {custom : CustomEvent CustomAction}
    (h : lateCustom cfg custom s = .ok s') : SameLists s s' := by
  unfold lateCustom at h
  split at h
  · split at h <;> (obtain rfl := pure_eq_ok.mp h; exact ⟨rfl, rfl, rfl, rfl⟩)
  · rcases bind_eq_ok.mp h with ⟨layout, -, h⟩
    obtain rfl := pure_eq_ok.mp h
    exact ⟨rfl, rfl, rfl, rfl⟩
  · rcases bind_eq_ok.mp h with ⟨layout, -, h⟩
    obtain rfl := pure_eq_ok.mp h
    exact ⟨rfl, rfl, rfl, rfl⟩
  · obtain rfl := pure_eq_ok.mp h
    exact ⟨rfl, rfl, rfl, rfl⟩
  · obtain rfl := pure_eq_ok.mp h
    exact ⟨rfl, rfl, rfl, rfl⟩
  · rcases bind_eq_ok.mp h with ⟨layout, -, h⟩
    obtain rfl := pure_eq_ok.mp h
    exact ⟨rfl, rfl, rfl, rfl⟩
  · obtain rfl := pure_eq_ok.mp h
    exact ⟨rfl, rfl, rfl, rfl⟩

theorem tickIdleTimeout_sameLists (h : s.tickIdleTimeout cfg kcfg = .ok s') :
    SameLists s s' := by
  rcases bind_eq_ok.mp h with ⟨_, -, h⟩
  obtain rfl := pure_eq_ok.mp h
  exact ⟨rfl, rfl, rfl, rfl⟩

theorem tickPhysicalIdleTimeout_sameLists (h : s.tickPhysicalIdleTimeout cfg kcfg = .ok s') :
    SameLists s s' := by
  rcases bind_eq_ok.mp h with ⟨_, -, h⟩
  obtain rfl := pure_eq_ok.mp h
  exact ⟨rfl, rfl, rfl, rfl⟩

theorem tickHeldVkeys_sameLists (h : s.tickHeldVkeys cfg kcfg = .ok s') : SameLists s s' := by
  rcases bind_eq_ok.mp h with ⟨_, -, h⟩
  obtain rfl := pure_eq_ok.mp h
  exact ⟨rfl, rfl, rfl, rfl⟩

/-- What `unmod` and `unshift` have is what the early custom actions left. -/
theorem keystateChanges_sameLists (kcfg : KeyConfig) (custom : CustomEvent CustomAction)
    (s : Engine) : SameLists (earlyCustom custom s).1 (keystateChanges kcfg custom s).1 :=
  (override_sameLists kcfg _ _).trans (tickCapsWord_sameLists _ _)

theorem keystateChanges_isDifference (kcfg : KeyConfig) (custom : CustomEvent CustomAction)
    (s : Engine) : (keystateChanges kcfg custom s).2.IsDifference := by
  refine ⟨_, ?_, rfl⟩
  split_ifs
  · exact (List.reverse_perm _).filter _
  · exact List.Perm.refl _

/-- Everything that a tick does to the lists: the keys of the layout are changed and sent, and
the rest leaves the lists alone. -/
theorem tickStates_cases (h : tickStates cfg kcfg s = .ok (s', t)) :
    ∃ layout custom, s.layout.tick cfg = .ok (layout, custom) ∧
      t = (keystateChanges kcfg custom { s with layout }).2 ∧
      SameLists { (earlyCustom custom { s with layout }).1 with prevKeys := t.curKeys } s' := by
  unfold tickStates at h
  rcases bind_eq_ok.mp h with ⟨⟨layout, custom⟩, hlayout, h⟩
  rcases bind_eq_ok.mp h with ⟨s₁, hlate, h⟩
  rcases bind_eq_ok.mp h with ⟨s₂, hidle, h⟩
  rcases bind_eq_ok.mp h with ⟨s₃, hphysical, h⟩
  rcases bind_eq_ok.mp h with ⟨s₄, hvkeys, h⟩
  have heq := pure_eq_ok.mp h
  rw [Prod.mk.injEq] at heq
  rcases heq with ⟨rfl, rfl⟩
  have hrest := (((keystateChanges_sameLists kcfg custom { s with layout }).trans
    (lateCustom_sameLists hlate)).trans (tickIdleTimeout_sameLists hidle)).trans
      (tickPhysicalIdleTimeout_sameLists hphysical)
  have hend := tickHeldVkeys_sameLists hvkeys
  exact ⟨layout, custom, hlayout, rfl, hend.prevKeys,
    hend.unmoddedKeys.trans hrest.unmoddedKeys, hend.unmoddedMods.trans hrest.unmoddedMods,
    hend.unshiftedKeys.trans hrest.unshiftedKeys⟩

/-- The spec of a tick: it starts from the keys of the engine, leaves its own, and
passes on the difference. -/
theorem tickStates_spec (h : tickStates cfg kcfg s = .ok (s', t)) :
    t.prevKeys = s.prevKeys ∧ s'.prevKeys = t.curKeys ∧ t.IsDifference := by
  rcases tickStates_cases h with ⟨layout, custom, -, rfl, hsame⟩
  exact ⟨rfl, hsame.prevKeys, keystateChanges_isDifference kcfg custom _⟩

/-! ## A run -/

/-- What happens before a tick: events, virtual keys and changes of the layer change the
layout, and the processing loop counts the ticks without an input. -/
structure Between where
  layout : Layout CustomAction → Layout CustomAction
  ticksSinceIdle : Nat
  ticksSincePhysicalIdle : Nat

def Between.before (b : Between) (s : Engine) : Engine :=
  { s with
    layout := b.layout s.layout
    ticksSinceIdle := b.ticksSinceIdle
    ticksSincePhysicalIdle := b.ticksSincePhysicalIdle }

/-- A tick, after what happens before it. -/
def step (cfg : LayoutConfig C R CustomAction) (kcfg : KeyConfig) (s : Engine) (b : Between) :
    Rust (Engine × Tick) := tickStates cfg kcfg (b.before s)

/-- A key that is listed twice among the keys of the tick before is still there. -/
def Tick.KeepsDuplicate (k : KeyCode) (t : Tick) : Prop := 2 ≤ t.prevKeys.count k → k ∈ t.curKeys

instance (k : KeyCode) (t : Tick) : Decidable (t.KeepsDuplicate k) :=
  inferInstanceAs (Decidable (_ → _))

/-- What the edges of some ticks have done to a key: it is down if it is among the keys, it was
only pressed when it was up, and its edges alternate when no tick drops it while it is listed
twice. -/
structure EdgesRight (ts : List Tick) (curKeys : List KeyCode) (k : KeyCode) : Prop where
  down : downAfter k false (ts.flatMap Tick.edges) = decide (k ∈ curKeys)
  fresh : FreshPresses k false (ts.flatMap Tick.edges)
  alternates : (∀ t ∈ ts, t.KeepsDuplicate k) →
    track k false (ts.flatMap Tick.edges) = some (decide (k ∈ curKeys))

/-- A tick continues what the ticks before it have done. -/
theorem EdgesRight.tick {ts : List Tick} {k : KeyCode} (h : EdgesRight ts t.prevKeys k)
    (ht : t.IsDifference) : EdgesRight (ts ++ [t]) t.curKeys k := by
  rcases ht with ⟨gone, hgone, hedges⟩
  constructor
  · rw [List.flatMap_append, downAfter_append, h.down, List.flatMap_singleton, hedges]
    exact downAfter_difference k _ _ gone hgone
  · rw [List.flatMap_append, freshPresses_append, h.down, List.flatMap_singleton, hedges]
    exact ⟨h.fresh, freshPresses_difference k _ _ gone hgone⟩
  · intro hkeeps
    have hbefore := h.alternates fun u hu => hkeeps u (List.mem_append_left _ hu)
    have hlast : ¬(2 ≤ t.prevKeys.count k ∧ k ∉ t.curKeys) := fun hdrops =>
      hdrops.2 (hkeeps t (List.mem_append_right _ List.mem_cons_self) hdrops.1)
    rw [List.flatMap_append, track_append, hbefore, List.flatMap_singleton, hedges,
      Option.bind_some, track_difference k _ _ gone hgone, if_neg hlast]

/-- The ticks of a run, one after the other. -/
theorem run_edgesRight {layout : Layout CustomAction} {bs : List Between} {ts : List Tick}
    (h : run (step cfg kcfg) (new layout) bs = .ok (s, ts)) {done rest : List Tick}
    (hts : ts = done ++ t :: rest) (k : KeyCode) : EdgesRight (done ++ [t]) t.curKeys k := by
  have hall := @run_history _ _ _ _ (step cfg kcfg) (fun _ _ => True)
    (fun ts s => EdgesRight ts s.prevKeys k ∧
      ∀ done t rest, ts = done ++ t :: rest → EdgesRight (done ++ [t]) t.curKeys k)
    (fun ts s b s' u hinv _ hstep => by
      rcases tickStates_spec hstep with ⟨hprev, hcur, hdiff⟩
      have hu : EdgesRight (ts ++ [u]) u.curKeys k := by
        refine EdgesRight.tick ?_ hdiff
        rw [hprev]
        exact hinv.1
      refine ⟨hcur ▸ hu, ?_⟩
      intro done t rest hts
      rcases List.eq_nil_or_concat' rest with rfl | ⟨rest, v, rfl⟩
      · rcases List.append_inj' hts rfl with ⟨rfl, hlast⟩
        obtain rfl := List.singleton_inj.mp hlast
        exact hu
      · rw [← List.cons_append, ← List.append_assoc] at hts
        exact hinv.2 done t rest (List.append_inj' hts rfl).1)
    bs [] (new layout) s ts ⟨⟨rfl, trivial, fun _ => rfl⟩, by simp⟩ (along_trivial _ _) h
  exact hall.2 done t rest hts

/-- What the output has seen of a key after some ticks. -/
structure OutputRight (ts : List Tick) (curKeys : List KeyCode) (k : KeyCode) : Prop where
  down : downAfter k false (outputOf ts) = (decide (k ∈ curKeys) && OsCode.isSent k)
  fresh : FreshPresses k false (outputOf ts)
  alternates : (∀ t ∈ ts, t.KeepsDuplicate k) → ∃ down, track k false (outputOf ts) = some down

theorem EdgesRight.output {ts : List Tick} {curKeys : List KeyCode} {k : KeyCode}
    (h : EdgesRight ts curKeys k) : OutputRight ts curKeys k := by
  cases hsent : OsCode.isSent k with
  | true =>
    constructor
    · rw [outputOf_eq, downAfter_filter hsent, h.down, hsent, Bool.and_true]
    · rw [outputOf_eq]
      exact freshPresses_filter hsent h.fresh
    · intro hkeeps
      rw [outputOf_eq, track_filter hsent]
      exact ⟨_, h.alternates hkeeps⟩
  | false =>
    -- nothing is sent for this key
    have htrack := track_filter_of_dropped hsent false (ts.flatMap Tick.edges)
    rw [← outputOf_eq] at htrack
    constructor
    · rw [downAfter_of_track htrack, hsent, Bool.and_false]
    · exact freshPresses_of_track htrack
    · exact fun _ => ⟨false, htrack⟩

/-- After every tick of a run from a new engine, the keys that are down are those of the tick
which are sent at all. A key is only pressed when it is up, and its presses and releases
alternate unless a tick drops it while the keys before list it twice. -/
theorem keyStream_wellFormed (cfg : LayoutConfig C R CustomAction) (kcfg : KeyConfig)
    (layout : Layout CustomAction) (bs : List Between) (ts : List Tick)
    (h : run (step cfg kcfg) (new layout) bs = .ok (s, ts)) :
    ∀ done t rest, ts = done ++ t :: rest → ∀ k, OutputRight (done ++ [t]) t.curKeys k := by
  intro done t rest hts k
  exact (run_edgesRight h hts k).output

/-! ## Taps -/

/-- One key with an action. -/
def oneKey (action : Action CustomAction) : LayoutConfig 1 1 CustomAction where
  srcKeys _ := .noOp
  layers := [fun _ _ => action]
  transResolutionBehaviorV2 := true
  delegateToFirstLayer := false
  quickTapHoldTimeout := false
  tapHoldRequirePriorIdle := 0
  chordsV2 := none
  callbacks _ _ := false
  overflowChecks := true
  stackDepth := 10

def noOverrides : KeyConfig where
  overrides := []
  overrideReleaseOnActivation := false

/-- An input event. -/
def input (cfg : LayoutConfig C R CustomAction) (event : Event) : Between where
  layout layout :=
    match layout.event cfg event with
    | .ok layout => layout
    | .error _ => layout
  ticksSinceIdle := 0
  ticksSincePhysicalIdle := 0

/-- The key is pressed before one tick and released before the next. -/
def tap (action : Action CustomAction) : Rust (Engine × List Tick) :=
  run (step (oneKey action) noOverrides) (new (.new 0))
    [input (oneKey action) (.press 0 0), input (oneKey action) (.release 0 0)]

/-- The tap has these ticks. -/
def tapIs (action : Action CustomAction) (ticks : List Tick) : Bool :=
  endsWith (step (oneKey action) noOverrides) (fun _ ts => ts == ticks) (new (.new 0))
    [input (oneKey action) (.press 0 0), input (oneKey action) (.release 0 0)]

theorem tap_of_tapIs {action : Action CustomAction} {ticks : List Tick}
    (h : tapIs action ticks = true) : ∃ s, tap action = .ok (s, ticks) := by
  rcases of_endsWith h with ⟨s, ts, hrun, hts⟩
  obtain rfl := eq_of_beq hts
  exact ⟨s, hrun⟩

def theKey : KeyCode := keyA

/-- The ticks of a tap of a key. -/
def tapTicks (k : KeyCode) : List Tick := [⟨[], [k], [.press k]⟩, ⟨[k], [], [.release k]⟩]

/-- The ticks of a tap of `(multi a a)`. -/
def twiceTicks : List Tick :=
  [⟨[], [theKey, theKey], [.press theKey]⟩,
    ⟨[theKey, theKey], [], [.release theKey, .release theKey]⟩]

/-- `KEY_IGNORE_MIN`. -/
def nop0 : KeyCode := ⟨0x2a4, by decide⟩

theorem keyStream_wellFormed_tap :
    ∃ s, tap (.keyCode theKey) = .ok (s, tapTicks theKey) ∧
      downAfter theKey false (outputOf ((tapTicks theKey).take 1)) = true ∧
      ∃ down, track theKey false (outputOf (tapTicks theKey)) = some down := by
  rcases tap_of_tapIs (show tapIs (.keyCode theKey) (tapTicks theKey) = true by decide +kernel)
    with ⟨s, hrun⟩
  have hfirst := keyStream_wellFormed _ _ _ _ _ hrun [] _ _ rfl theKey
  have hsecond := keyStream_wellFormed _ _ _ _ _ hrun [_] _ [] rfl theKey
  exact ⟨s, hrun, hfirst.down, hsecond.alternates (by decide)⟩

/-- In the first tick of a tap of `nop0` the key is among the keys, but not down. The second
release of `(multi a a)` is for a key that is up. -/
theorem keyStream_wellFormed_fails :
    (∃ s, tap (.keyCode nop0) = .ok (s, tapTicks nop0) ∧
      ∃ t ∈ (tapTicks nop0).head?, nop0 ∈ t.curKeys ∧
        downAfter nop0 false (outputOf [t]) = false) ∧
    ∃ s, tap (.multipleActions [.keyCode theKey, .keyCode theKey]) = .ok (s, twiceTicks) ∧
      track theKey false (outputOf twiceTicks) = none := by
  constructor
  · rcases tap_of_tapIs (show tapIs (.keyCode nop0) (tapTicks nop0) = true by decide +kernel)
      with ⟨s, hrun⟩
    exact ⟨s, hrun, _, rfl, by decide, by decide⟩
  · rcases tap_of_tapIs (show tapIs (.multipleActions [.keyCode theKey, .keyCode theKey])
      twiceTicks = true by decide +kernel) with ⟨s, hrun⟩
    exact ⟨s, hrun, by decide⟩

end Engine

end Kanata
