import Kanata.Engine.KeyStream
import Kanata.Layout.Idle

/-!
# Kanata.Engine.Idle — an idle engine falls silent

When `is_idle` holds, the processing loop blocks until there is an input event, so the ticks
until then do not happen. `idle_ticks` says what they would have sent. Each tick shows the key
codes of the states of the layout; no tick makes a custom event, and the engine stays idle.
An action that waits for the engine to be idle would press keys, so there must be none: the loop
does not block while there is one.

The keys can still change: a key that is suppressed for one cycle comes back, and a key that
`override-release-on-activation` takes out of the states is released a tick later. Without that
option the keys after the first tick are those of all later ones.
-/

namespace Kanata

open Fallible Machine PressRelease

namespace Engine

variable {C R : Nat} {cfg : LayoutConfig C R CustomAction} {kcfg : KeyConfig} {s s' : Engine}
  {p : Bool}

/-- `is_idle`, for the layout, caps-word and the virtual keys that are held for a time. -/
def isIdle (cfg : LayoutConfig C R CustomAction) (liveReloadRequested : Bool) (s : Engine) :
    Bool :=
  let pressedKeysMeansNotIdle := !s.waitingForIdle.isEmpty || liveReloadRequested
  s.layout.isIdle cfg pressedKeysMeansNotIdle && s.capsWord.isNone &&
    s.vkeysPendingRelease.entries.isEmpty

/-- No `on-idle` action waits. -/
structure NoneWaiting (s : Engine) : Prop where
  idle : s.waitingForIdle = []
  physical : s.waitingForPhysicalIdle = []

theorem isIdle_iff {liveReloadRequested : Bool} (hnone : s.NoneWaiting) :
    s.isIdle cfg liveReloadRequested = true ↔
      s.layout.isIdle cfg liveReloadRequested = true ∧ s.capsWord = none ∧
        s.vkeysPendingRelease.entries = [] := by
  unfold isIdle
  rw [hnone.idle]
  simp [and_assoc]

/-- The key codes of the states. -/
def heldCodes (s : Engine) : List KeyCode := s.layout.states.items.filterMap State.keycode

/-- The keys that a tick shows when none is suppressed. -/
def shown (kcfg : KeyConfig) (s : Engine) : List KeyCode :=
  (overrideKeys kcfg.overrides (s.unmodKeys s.heldCodes) s.overrideStates
    (asU16 s.layout.currentLayer)).1

/-- The ticks that send something. -/
def noisy (ts : List Tick) : List Tick := ts.filter fun t => !t.edges.isEmpty

/-! ## What a tick sends -/

theorem presses_eq_nil {old ks : List KeyCode} :
    (presses old ks).2 = [] ↔ ∀ k ∈ ks, k ∈ old := by
  induction ks generalizing old with
  | nil => simp [presses]
  | cons k ks ih =>
    unfold presses
    by_cases hk : k ∈ old
    · rw [if_pos (List.contains_iff_mem.mpr hk), ih]
      simp [hk]
    · rw [if_neg (fun h => hk (List.contains_iff_mem.mp h))]
      simp [hk]

theorem releases_eq_nil {prevKeys curKeys : List KeyCode} :
    releases false prevKeys curKeys = [] ↔ ∀ k ∈ prevKeys, k ∈ curKeys := by
  simp [releases]

/-- A difference is empty when the keys are the same. -/
theorem edges_eq_nil {prevKeys curKeys : List KeyCode} :
    releases false prevKeys curKeys ++ (presses prevKeys curKeys).2 = [] ↔
      ∀ k, k ∈ prevKeys ↔ k ∈ curKeys := by
  rw [List.append_eq_nil_iff, releases_eq_nil, presses_eq_nil]
  exact ⟨fun h k => ⟨h.1 k, h.2 k⟩, fun h => ⟨fun k => (h k).mp, fun k => (h k).mpr⟩⟩

/-! ## What overrides do to the states -/

theorem overrideKeys_fst (overrides : List Override) (kcs : List KeyCode)
    (states states' : OverrideStates) (activeLayer : Nat) :
    (overrideKeys overrides kcs states activeLayer).1 =
      (overrideKeys overrides kcs states' activeLayer).1 := by
  unfold overrideKeys
  split <;> rfl

section Marks

variable (states : OverrideStates) (st : State CustomAction)

theorem keycode_markOverridden : (markOverridden states st).keycode = st.keycode := by
  cases st <;> first | rfl | (unfold markOverridden; simp only; split <;> rfl)

theorem getLayer_markOverridden : (markOverridden states st).getLayer = st.getLayer := by
  cases st <;> first | rfl | (unfold markOverridden; simp only; split <;> rfl)

theorem isSeqCustom_markOverridden : (markOverridden states st).isSeqCustom = st.isSeqCustom := by
  cases st <;> first | rfl | (unfold markOverridden; simp only; split <;> rfl)

theorem isNormalKey_markOverridden : (markOverridden states st).isNormalKey = st.isNormalKey := by
  cases st <;> first | rfl | (unfold markOverridden; simp only; split <;> rfl)

theorem isRepeatingSequence_markOverridden :
    (markOverridden states st).isRepeatingSequence = st.isRepeatingSequence := by
  cases st <;> first | rfl | (unfold markOverridden; simp only; split <;> rfl)

end Marks

/-- The states that the overrides leave. -/
def overridden (kcfg : KeyConfig) (overrideStates : OverrideStates)
    (states : Bounded statesLen (State CustomAction)) : Bounded statesLen (State CustomAction) :=
  if kcfg.overrideReleaseOnActivation then
    overrideStates.removedNonMods.foldl
      (fun states removed => states.retain (State.survivesReleaseState (.keyCode removed)))
      (states.map (markOverridden overrideStates))
  else states.map (markOverridden overrideStates)

theorem override_states (kcfg : KeyConfig) (s : Engine) (curKeys : List KeyCode) :
    (s.override kcfg curKeys).1.layout.states =
      overridden kcfg (s.override kcfg curKeys).1.overrideStates s.layout.states := rfl

theorem foldl_retain_sublist (removed : List KeyCode) :
    ∀ states : Bounded statesLen (State CustomAction),
      (removed.foldl (fun states removed =>
        states.retain (State.survivesReleaseState (.keyCode removed))) states).items.Sublist
        states.items := by
  induction removed with
  | nil => exact fun states => List.Sublist.refl _
  | cons k removed ih => exact fun states => (ih _).trans List.filter_sublist

/-- A key code that is released takes no layer with it. -/
theorem foldl_retain_layers (removed : List KeyCode) :
    ∀ states : Bounded statesLen (State CustomAction),
      (removed.foldl (fun states removed =>
        states.retain (State.survivesReleaseState (.keyCode removed))) states).items.filterMap
          State.getLayer = states.items.filterMap State.getLayer := by
  induction removed with
  | nil => exact fun states => rfl
  | cons k removed ih =>
    intro states
    rw [List.foldl_cons, ih, Bounded.retain_items, List.filterMap_filter]
    refine List.filterMap_congr fun st _ => ?_
    cases st <;> simp [State.survivesReleaseState, State.getLayer]

theorem overridden_sublist (kcfg : KeyConfig) (overrideStates : OverrideStates)
    (states : Bounded statesLen (State CustomAction)) :
    (overridden kcfg overrideStates states).items.Sublist
      (states.items.map (markOverridden overrideStates)) := by
  unfold overridden
  split
  · exact foldl_retain_sublist _ _
  · exact List.Sublist.refl _

theorem overridden_codes (kcfg : KeyConfig) (overrideStates : OverrideStates)
    (states : Bounded statesLen (State CustomAction)) :
    ((overridden kcfg overrideStates states).items.filterMap State.keycode).Sublist
      (states.items.filterMap State.keycode) := by
  have h := (overridden_sublist kcfg overrideStates states).filterMap State.keycode
  rw [List.filterMap_map] at h
  simpa only [Function.comp_def, keycode_markOverridden] using h

theorem overridden_codes_eq (hkeeps : kcfg.overrideReleaseOnActivation = false)
    (overrideStates : OverrideStates) (states : Bounded statesLen (State CustomAction)) :
    (overridden kcfg overrideStates states).items.filterMap State.keycode =
      states.items.filterMap State.keycode := by
  unfold overridden
  rw [hkeeps, if_neg (by decide), Bounded.map_items, List.filterMap_map]
  simp only [Function.comp_def, keycode_markOverridden]

theorem overridden_layers (kcfg : KeyConfig) (overrideStates : OverrideStates)
    (states : Bounded statesLen (State CustomAction)) :
    (overridden kcfg overrideStates states).items.filterMap State.getLayer =
      states.items.filterMap State.getLayer := by
  have hmarks : (states.map (markOverridden overrideStates)).items.filterMap State.getLayer =
      states.items.filterMap State.getLayer := by
    rw [Bounded.map_items, List.filterMap_map]
    simp only [Function.comp_def, getLayer_markOverridden]
  unfold overridden
  split
  · rw [foldl_retain_layers, hmarks]
  · exact hmarks

theorem mem_overridden {overrideStates : OverrideStates}
    {states : Bounded statesLen (State CustomAction)} {st : State CustomAction}
    (h : st ∈ (overridden kcfg overrideStates states).items) :
    ∃ st' ∈ states.items, markOverridden overrideStates st' = st :=
  List.mem_map.mp ((overridden_sublist kcfg overrideStates states).subset h)

/-! ## A tick -/

/-- What a tick of an idle engine leaves. -/
structure Quieter (cfg : LayoutConfig C R CustomAction) (kcfg : KeyConfig) (p : Bool)
    (s s' : Engine) : Prop where
  idle : s'.isIdle cfg p = true
  noneWaiting : s'.NoneWaiting
  settled : s'.layout.Settled
  codes : s'.heldCodes.Sublist s.heldCodes
  codes_eq : kcfg.overrideReleaseOnActivation = false → s'.heldCodes = s.heldCodes
  currentLayer : s'.layout.currentLayer = s.layout.currentLayer
  unmodKeys : s'.unmodKeys = s.unmodKeys
  prevKeys : s'.prevKeys = s.shown kcfg

theorem shown_congr (kcfg : KeyConfig) (hcodes : s'.heldCodes = s.heldCodes)
    (hlayer : s'.layout.currentLayer = s.layout.currentLayer)
    (hunmod : s'.unmodKeys = s.unmodKeys) : s'.shown kcfg = s.shown kcfg := by
  unfold shown
  rw [hcodes, hlayer, hunmod]
  exact overrideKeys_fst _ _ _ _ _

theorem keycodes_of_not_suppressed {layout : Layout CustomAction}
    (h : layout.keysToSuppressForOneCycle.items = []) :
    layout.keycodes = layout.states.items.filterMap State.keycode := by
  unfold Layout.keycodes
  rw [h]
  simp

/-- Without a virtual key that is held for a time there is nothing to release. -/
theorem tickHeldVkeys_idle (hvkeys : s.vkeysPendingRelease.entries = []) :
    ∃ v : VkeysPendingRelease, v.entries = [] ∧
      s.tickHeldVkeys cfg kcfg = .ok { s with vkeysPendingRelease := v } := by
  have horder : kcfg.vkeyOrder.order s.vkeysPendingRelease.entries = [] := by
    rw [hvkeys]
    exact (kcfg.vkeyOrder.perm []).eq_nil
  have htick : s.vkeysPendingRelease.tickHeldVkeys kcfg.vkeyOrder =
      ((s.vkeysPendingRelease.tickHeldVkeys kcfg.vkeyOrder).1, []) := by
    unfold VkeysPendingRelease.tickHeldVkeys
    simp only [horder, List.filterMap_nil]
  refine ⟨(s.vkeysPendingRelease.tickHeldVkeys kcfg.vkeyOrder).1, ?_, ?_⟩
  · simp only [VkeysPendingRelease.tickHeldVkeys, horder, List.filterMap_nil]
  · unfold tickHeldVkeys
    rw [htick]
    rfl

theorem tickIdleTimeout_idle (h : s.waitingForIdle = []) :
    s.tickIdleTimeout cfg kcfg = .ok s := by
  unfold tickIdleTimeout
  rw [h, tickWaiting_nil]
  change Except.ok { s with waitingForIdle := [] } = _
  rw [← h]

theorem tickPhysicalIdleTimeout_idle (h : s.waitingForPhysicalIdle = []) :
    s.tickPhysicalIdleTimeout cfg kcfg = .ok s := by
  unfold tickPhysicalIdleTimeout
  rw [h, tickWaiting_nil]
  change Except.ok { s with waitingForPhysicalIdle := [] } = _
  rw [← h]

/-- A tick without a custom event, without caps-word and with nothing that waits. -/
theorem tickStates_noEvent {layout : Layout CustomAction} {keys : List KeyCode}
    (htick : s.layout.tick cfg = .ok (layout, .noEvent)) (hcaps : s.capsWord = none)
    (hnone : s.NoneWaiting) (hvkeys : s.vkeysPendingRelease.entries = [])
    (hpass : override kcfg { s with layout } (s.unmodKeys layout.keycodes) = (s', keys)) :
    ∃ v : VkeysPendingRelease, v.entries = [] ∧
      tickStates cfg kcfg s = .ok ({ s' with prevKeys := keys, vkeysPendingRelease := v },
        ⟨s.prevKeys, keys, releases false s.prevKeys keys ++ (presses s.prevKeys keys).2⟩) := by
  have hcaps' : s'.capsWord = none := by
    rw [← hcaps]
    exact (congrArg (fun r => r.1.capsWord) hpass).symm
  have hnone' : s'.NoneWaiting := by
    constructor
    · rw [← hnone.idle]
      exact (congrArg (fun r => r.1.waitingForIdle) hpass).symm
    · rw [← hnone.physical]
      exact (congrArg (fun r => r.1.waitingForPhysicalIdle) hpass).symm
  have hvkeys' : s'.vkeysPendingRelease.entries = [] := by
    rw [← hvkeys]
    exact (congrArg (fun r => r.1.vkeysPendingRelease.entries) hpass).symm
  have hkeys : keystateChanges kcfg .noEvent { s with layout } = (s',
      ⟨s.prevKeys, keys, releases false s.prevKeys keys ++ (presses s.prevKeys keys).2⟩) := by
    have hunmod : unmodKeys { s with layout } = s.unmodKeys := rfl
    unfold keystateChanges
    simp only [earlyCustom, hunmod, hpass, tickCapsWord, hcaps']
  rcases @tickHeldVkeys_idle _ _ cfg kcfg { s' with prevKeys := keys } hvkeys' with
    ⟨v, hv, hheld⟩
  refine ⟨v, hv, ?_⟩
  unfold tickStates
  rw [htick]
  simp only [ok_bind, hkeys, lateCustom, pure_bind, tickIdleTimeout_idle hnone'.idle,
    tickPhysicalIdleTimeout_idle hnone'.physical, hheld]
  rfl

theorem tickStates_idle (kcfg : KeyConfig) (hidle : s.isIdle cfg p = true)
    (hnone : s.NoneWaiting) (hsettled : s.layout.Settled) :
    ∃ s', tickStates cfg kcfg s = .ok (s', ⟨s.prevKeys, s.shown kcfg,
        releases false s.prevKeys (s.shown kcfg) ++ (presses s.prevKeys (s.shown kcfg)).2⟩) ∧
      Quieter cfg kcfg p s s' := by
  rcases (isIdle_iff hnone).mp hidle with ⟨hidle, hcaps, hvkeys⟩
  have hrests := Layout.rests_of_isIdle hidle hsettled
  rcases Layout.tick_rests hrests with ⟨layout, htick, hrests', hover⟩
  -- the key codes and the layer are those of the states before
  have hcodes : layout.states.items.filterMap State.keycode = s.heldCodes := by
    rw [hover.states, Layout.kept, List.filterMap_filter]
    refine List.filterMap_congr fun st _ => ?_
    cases st <;> rfl
  have hkeycodes : layout.keycodes = s.heldCodes := by
    rw [keycodes_of_not_suppressed hover.suppressed, hcodes]
  have hlayer : layout.currentLayer = s.layout.currentLayer := by
    rw [Layout.currentLayer_eq, Layout.currentLayer_eq, hover.states, hover.defaultLayer,
      Layout.kept, List.filterMap_filter]
    congr 2
    refine List.filterMap_congr fun st _ => ?_
    cases st <;> rfl
  let s₁ : Engine := { s with layout }
  let s₂ : Engine := (s₁.override kcfg (s.unmodKeys s.heldCodes)).1
  have hshown : (s₁.override kcfg (s.unmodKeys s.heldCodes)).2 = s.shown kcfg := by
    change (overrideKeys _ _ _ (asU16 layout.currentLayer)).1 = _
    rw [hlayer]
    rfl
  have hstates : s₂.layout.states = overridden kcfg s₂.overrideStates layout.states := rfl
  have hmem : ∀ st ∈ s₂.layout.states.items, ∃ st' ∈ layout.states.items,
      markOverridden s₂.overrideStates st' = st := by
    intro st hst
    rw [hstates] at hst
    exact mem_overridden hst
  have hrests₂ : s₂.layout.Rests cfg := by
    refine { hrests' with seqCustom := ?_, repeating := ?_ }
    · intro st hst
      rcases hmem st hst with ⟨st', hst', rfl⟩
      rw [isSeqCustom_markOverridden]
      exact hrests'.seqCustom st' hst'
    · intro st hst
      rcases hmem st hst with ⟨st', hst', rfl⟩
      rw [isRepeatingSequence_markOverridden]
      exact hrests'.repeating st' hst'
  have hpass : override kcfg { s with layout } (s.unmodKeys layout.keycodes) =
      (s₂, s.shown kcfg) := by
    rw [hkeycodes, ← hshown]
  rcases tickStates_noEvent htick hcaps hnone hvkeys hpass with ⟨v, hv, hstep⟩
  refine ⟨_, hstep, ?_, ⟨hnone.idle, hnone.physical⟩, hrests₂.settled, ?_, ?_, ?_, rfl, rfl⟩
  · refine (isIdle_iff ?_).mpr ⟨?_, hcaps, hv⟩
    · exact ⟨hnone.idle, hnone.physical⟩
    refine Layout.isIdle_of_rests hidle hrests₂ ?_ ?_
    · change layout.lastPressTracker.tapHoldTimeout = 0
      rw [hover.tapHoldTimeout, Layout.tapHoldTimeout_of_isIdle hidle]
    · intro st hst
      rcases hmem st hst with ⟨st', hst', rfl⟩
      rw [hover.states] at hst'
      exact ⟨st', List.mem_of_mem_filter hst', isNormalKey_markOverridden _ _⟩
  · rw [← hcodes]
    exact overridden_codes kcfg s₂.overrideStates layout.states
  · intro hkeeps
    rw [← hcodes]
    exact overridden_codes_eq hkeeps s₂.overrideStates layout.states
  · rw [← hlayer, Layout.currentLayer_eq, Layout.currentLayer_eq]
    change (List.filterMap State.getLayer s₂.layout.states.items).getLast?.getD _ = _
    rw [hstates, overridden_layers]
    rfl

/-! ## A run -/

/-- The loop goes on without an input: it only counts. -/
def counting (counts : Nat × Nat) : Between := ⟨id, counts.1, counts.2⟩

/-- Ticks without an input between them, each after some counting. -/
def idleTicks (cfg : LayoutConfig C R CustomAction) (kcfg : KeyConfig) (s : Engine)
    (counts : List (Nat × Nat)) : Rust (Engine × List Tick) :=
  run (step cfg kcfg) s (counts.map counting)

theorem idleTicks_cons {c : Nat × Nat} {counts : List (Nat × Nat)} {t : Tick} {ts : List Tick}
    {s'' : Engine} (htick : tickStates cfg kcfg ((counting c).before s) = .ok (s', t))
    (hrest : idleTicks cfg kcfg s' counts = .ok (s'', ts)) :
    idleTicks cfg kcfg s (c :: counts) = .ok (s'', t :: ts) :=
  run_cons_eq_ok.mpr ⟨s', t, ts, htick, hrest, rfl⟩

theorem noisy_cons_le (t : Tick) (ts : List Tick) :
    (noisy (t :: ts)).length ≤ (noisy ts).length + 1 := by
  unfold noisy
  rw [List.filter_cons]
  split
  · exact Nat.le_refl _
  · exact Nat.le_succ _

theorem noisy_cons_silent {t : Tick} (h : t.edges = []) (ts : List Tick) :
    noisy (t :: ts) = noisy ts := by
  unfold noisy
  rw [List.filter_cons, h]
  rfl

theorem noisy_eq_nil {ts : List Tick} : noisy ts = [] ↔ ∀ t ∈ ts, t.edges = [] := by
  simp [noisy]

/-- Each tick that sends something, but the first, comes after one that lost a key code. -/
theorem noisy_idleTicks (kcfg : KeyConfig) (counts : List (Nat × Nat)) : ∀ {s : Engine},
    s.isIdle cfg p = true → s.NoneWaiting → s.layout.Settled →
    ∃ s' ts, idleTicks cfg kcfg s counts = .ok (s', ts) ∧
      (noisy ts).length ≤ s.heldCodes.length + 1 ∧
      ((∀ k, k ∈ s.prevKeys ↔ k ∈ s.shown kcfg) → (noisy ts).length ≤ s.heldCodes.length) := by
  induction counts with
  | nil => exact fun {s} _ _ _ => ⟨s, [], rfl, Nat.zero_le _, fun _ => Nat.zero_le _⟩
  | cons c counts ih =>
    intro s hidle hnone hsettled
    rcases tickStates_idle (s := (counting c).before s) kcfg hidle ⟨hnone.idle, hnone.physical⟩
      hsettled with ⟨s', htick, hquiet⟩
    rcases ih hquiet.idle hquiet.noneWaiting hquiet.settled with ⟨s'', ts, hrest, hany, hsame⟩
    have hcodes_le : s'.heldCodes.length ≤ s.heldCodes.length := hquiet.codes.length_le
    have hlater : (noisy ts).length ≤ s.heldCodes.length := by
      rcases Nat.lt_or_eq_of_le hcodes_le with hlt | heq
      · exact Nat.le_trans hany hlt
      · -- nothing was lost, so the keys are shown already
        have hcodes : s'.heldCodes = s.heldCodes := hquiet.codes.eq_of_length heq
        have hshown : s'.shown kcfg = s.shown kcfg :=
          shown_congr kcfg hcodes hquiet.currentLayer hquiet.unmodKeys
        have hprev : s'.prevKeys = s.shown kcfg := hquiet.prevKeys
        rw [← hcodes]
        refine hsame fun k => ?_
        rw [hprev, hshown]
    refine ⟨s'', _, idleTicks_cons htick hrest, ?_, ?_⟩
    · exact Nat.le_trans (noisy_cons_le _ ts) (Nat.succ_le_succ hlater)
    · intro hkeys
      rw [noisy_cons_silent (edges_eq_nil.mpr hkeys)]
      exact hlater

/-- When no override takes a key out of the states, the keys do not change after a tick. -/
theorem idleTicks_keeps (hkeeps : kcfg.overrideReleaseOnActivation = false)
    (counts : List (Nat × Nat)) : ∀ {s : Engine},
    s.isIdle cfg p = true → s.NoneWaiting → s.layout.Settled →
    ∃ s' ts, idleTicks cfg kcfg s counts = .ok (s', ts) ∧ (∀ t ∈ ts, t.curKeys = s.shown kcfg) ∧
      noisy ts.tail = [] ∧
      (noisy ts = [] ↔ counts = [] ∨ ∀ k, k ∈ s.prevKeys ↔ k ∈ s.shown kcfg) := by
  induction counts with
  | nil => exact fun {s} _ _ _ => ⟨s, [], rfl, by simp, rfl, fun _ => .inl rfl, fun _ => rfl⟩
  | cons c counts ih =>
    intro s hidle hnone hsettled
    rcases tickStates_idle (s := (counting c).before s) kcfg hidle ⟨hnone.idle, hnone.physical⟩
      hsettled with ⟨s', htick, hquiet⟩
    rcases ih hquiet.idle hquiet.noneWaiting hquiet.settled with ⟨s'', ts, hrest, hcur, -, hsilent⟩
    have hshown : s'.shown kcfg = s.shown kcfg :=
      shown_congr kcfg (hquiet.codes_eq hkeeps) hquiet.currentLayer hquiet.unmodKeys
    have hprev : s'.prevKeys = s.shown kcfg := hquiet.prevKeys
    -- the keys of the first tick are those of the next ones
    have hrest_silent : noisy ts = [] := by
      refine hsilent.mpr (.inr fun k => ?_)
      rw [hprev, hshown]
    refine ⟨s'', _, idleTicks_cons htick hrest, ?_, hrest_silent, ?_⟩
    · intro t ht
      rcases List.mem_cons.mp ht with rfl | ht
      · rfl
      · rw [hcur t ht, hshown]
    · have hsame : (∀ k, k ∈ ((counting c).before s).prevKeys ↔
          k ∈ ((counting c).before s).shown kcfg) ↔ ∀ k, k ∈ s.prevKeys ↔ k ∈ s.shown kcfg :=
        Iff.rfl
      rw [noisy_eq_nil, List.forall_mem_cons, ← noisy_eq_nil, edges_eq_nil, hsame]
      simp [hrest_silent]

/-- While an idle engine ticks and no action waits for it to be idle, no more ticks send
something than there are key codes held, and one. When overrides do not release keys, only the
first tick can send something, all ticks show the same keys, and nothing is sent if these are
the keys of the tick before. -/
theorem idle_ticks (hidle : s.isIdle cfg p = true) (hnone : s.NoneWaiting)
    (hsettled : s.layout.Settled) (counts : List (Nat × Nat)) :
    ∃ s' ts, idleTicks cfg kcfg s counts = .ok (s', ts) ∧
      (noisy ts).length ≤ s.heldCodes.length + 1 ∧
      (kcfg.overrideReleaseOnActivation = false →
        (∀ t ∈ ts, t.curKeys = s.shown kcfg) ∧ noisy ts.tail = [] ∧
        (noisy ts = [] ↔ counts = [] ∨ ∀ k, k ∈ s.prevKeys ↔ k ∈ s.shown kcfg)) := by
  rcases noisy_idleTicks kcfg counts hidle hnone hsettled with ⟨s', ts, hrun, hbound, -⟩
  refine ⟨s', ts, hrun, hbound, fun hkeeps => ?_⟩
  rcases idleTicks_keeps hkeeps counts hidle hnone hsettled with ⟨s'', ts', hrun', hall⟩
  have heq : (s', ts) = (s'', ts') := Except.ok.inj (hrun.symm.trans hrun')
  rw [(Prod.mk.inj heq).2]
  exact hall

/-- An engine with a key that is held. -/
def holding : Engine :=
  { new { Layout.new 0 with states := ⟨[.normalKey keyA (0, 0) ⟨false, false⟩], by decide⟩ } with
    prevKeys := [keyA] }

theorem idle_ticks_holding :
    ∃ s' ts, idleTicks (oneKey (.keyCode keyA)) noOverrides holding
      (List.replicate 1000 (0, 0)) = .ok (s', ts) ∧ noisy ts = [] := by
  have hsettled : holding.layout.Settled := ⟨rfl, rfl, by decide⟩
  rcases @idle_ticks 1 1 (oneKey (.keyCode keyA)) noOverrides holding false (by decide)
    ⟨rfl, rfl⟩ hsettled (List.replicate 1000 (0, 0)) with ⟨s', ts, hrun, -, hkeeps⟩
  exact ⟨s', ts, hrun, (hkeeps rfl).2.2.mpr (.inr fun k => Iff.rfl)⟩

end Engine

end Kanata
