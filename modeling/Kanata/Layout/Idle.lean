import Kanata.Keyberon.Layout
import Kanata.Lib.Fallible

/-!
# Kanata.Layout.Idle — a layout with nothing to do

The part of `is_idle` in `kanata/mod.rs` that is about the layout. The processing loop blocks
until there is an event instead of ticking a layout that is idle.

The test does not look at everything that can happen in a tick. `Settled` is what it leaves
out: a one-shot key whose timeout is zero, a waiting state behind the first one, and a macro
that repeats but has no sequence that is active. Without these a tick makes no custom event,
and the layout stays as it is up to counters (`tick_rests`).
-/

namespace Kanata.Chord.ChordsV2

open Fallible

variable {A : Type} {s : ChordsV2 A}

/-- No inputs and no active chords. -/
def Rests (s : ChordsV2 A) : Prop := s.queue.items = [] ∧ s.activeChords.items = []

/-- It is what `is_idle_chv2` tests. -/
theorem rests_iff : s.Rests ↔ s.isIdleChv2 = true := by
  simp [Rests, isIdleChv2]

/-- There is nothing to drain. -/
theorem drainInputs_rests (cfg : ChordsConfig A) (activeLayer : Nat) (h : s.Rests) :
    ∃ s', drainInputs cfg activeLayer s .empty = .ok (s', .empty) ∧ s'.Rests := by
  rcases h with ⟨hqueue, hchords⟩
  unfold drainInputs
  by_cases hignore : s.ticksToIgnoreChord > 0
  · rw [if_pos hignore]
    unfold drainWithoutNewActivations
    rw [hqueue]
    exact ⟨_, rfl, rfl, hchords⟩
  rw [if_neg hignore]
  split
  · exact ⟨_, rfl, hqueue, hchords⟩
  · -- there are no presses to gather
    unfold processInputs drainVirtualKeys drainReleases processPresses
    simp only [hqueue, drainVirtual, ok_bind, pure, Except.pure, Bounded.retain_items,
      List.filter_nil, List.foldlM_nil, gatherPresses, Bounded.empty_items, Bounded.ofTake_items,
      List.take_nil]
    exact ⟨_, rfl, rfl, hchords⟩

/-- A tick hands nothing over. -/
theorem tickChv2_rests (cfg : ChordsConfig A) (activeLayer : Nat) (h : s.Rests) :
    ∃ s', tickChv2 cfg activeLayer s = .ok (s', .empty) ∧ s'.Rests := by
  have hage : s.age.Rests := by
    refine ⟨?_, ?_⟩
    · rw [age, Bounded.map_items, h.1, List.map_nil]
    · rw [age, Bounded.map_items, h.2, List.map_nil]
  rcases drainInputs_rests cfg activeLayer hage with ⟨s₁, hdrain, hqueue, hchords⟩
  unfold tickChv2 tickWith
  rw [hdrain]
  simp only [ok_bind]
  have htriggers : pushTriggers s.activeChords.items.length s₁ .empty = .empty := by
    simp [pushTriggers, hchords, h.2]
  rw [htriggers]
  unfold clearReleasedChords
  simp only [hchords, pushReleased, ok_bind, pure, Except.pure]
  refine ⟨_, rfl, hqueue, ?_⟩
  rw [Bounded.retain_items, hchords, List.filter_nil]

/-- No action comes from chords. -/
theorem getActionChv2_rests (h : s.Rests) :
    s.getActionChv2.1.Rests ∧ s.getActionChv2.2 = none := by
  have hfound : findUnread s.activeChords.items = ([], none) := by
    rw [h.2]
    rfl
  exact ⟨⟨h.1, congrArg Prod.fst hfound⟩, congrArg Prod.snd hfound⟩

end Kanata.Chord.ChordsV2

namespace Kanata

/-- A custom action of a macro that is pressed, or is to be. -/
def State.isSeqCustom {T : Type} : State T → Bool
  | .seqCustomPending _ | .seqCustomActive _ => true
  | _ => false

/-- A key that is pressed. -/
def State.isNormalKey {T : Type} : State T → Bool
  | .normalKey .. => true
  | _ => false

/-- A macro that repeats. -/
def State.isRepeatingSequence {T : Type} : State T → Bool
  | .repeatingSequence .. => true
  | _ => false

/-- A custom action of a macro that is over. -/
def State.isTombstone {T : Type} : State T → Bool
  | .tombstone => true
  | _ => false

namespace Layout

open Fallible

variable {C R : Nat} {T : Type} {cfg : LayoutConfig C R T} {s : Layout T}

/-- The conditions of `is_idle` on the layout. The flag is `pressed_keys_means_not_idle`. -/
def isIdle (cfg : LayoutConfig C R T) (pressedKeysMeansNotIdle : Bool) (s : Layout T) : Bool :=
  s.queue.items.isEmpty && s.waiting.isNone && s.lastPressTracker.tapHoldTimeout == 0 &&
    (s.oneshot.timeout == 0 || s.oneshot.keys.items.isEmpty) &&
    s.activeSequences.items.isEmpty && s.tapDanceEager.isNone && s.actionQueue.items.isEmpty &&
    s.customEventReleaseQueue.items.isEmpty &&
    (!s.states.items.any fun st =>
      st.isSeqCustom || (pressedKeysMeansNotIdle && st.isNormalKey)) &&
    (cfg.chordsV2.isNone || s.chordsV2.isIdleChv2)

/-- What `is_idle` does not look at, and a tick does. -/
structure Settled (s : Layout T) : Prop where
  extraWaiting : s.extraWaiting.items = []
  oneshot : s.oneshot.keys.items = []
  repeating : ∀ st ∈ s.states.items, st.isRepeatingSequence = false

/-- Nothing that a tick would act on. -/
structure Rests (cfg : LayoutConfig C R T) (s : Layout T) : Prop where
  queue : s.queue.items = []
  waiting : s.waiting = none
  extraWaiting : s.extraWaiting.items = []
  oneshot : s.oneshot.keys.items = []
  activeSequences : s.activeSequences.items = []
  tapDanceEager : s.tapDanceEager = none
  actionQueue : s.actionQueue.items = []
  releases : s.customEventReleaseQueue.items = []
  seqCustom : ∀ st ∈ s.states.items, st.isSeqCustom = false
  repeating : ∀ st ∈ s.states.items, st.isRepeatingSequence = false
  chordsV2 : cfg.chordsV2.isSome = true → s.chordsV2.Rests

/-- An idle layout rests, if what the test leaves out is not there. -/
theorem rests_of_isIdle {p : Bool} (hidle : s.isIdle cfg p = true) (hsettled : s.Settled) :
    s.Rests cfg := by
  unfold isIdle at hidle
  simp only [Bool.and_eq_true, List.isEmpty_iff, Option.isNone_iff_eq_none, Bool.not_eq_true',
    List.any_eq_false, Bool.or_eq_true] at hidle
  rcases hidle with ⟨⟨⟨⟨⟨⟨⟨⟨⟨hqueue, hwaiting⟩, -⟩, -⟩, hsequences⟩, hdance⟩, hactions⟩,
    hreleases⟩, hstates⟩, hchords⟩
  refine ⟨hqueue, hwaiting, hsettled.extraWaiting, hsettled.oneshot, hsequences, hdance,
    hactions, hreleases, ?_, hsettled.repeating, ?_⟩
  · intro st hst
    have := hstates st hst
    simpa using fun h => this (.inl h)
  · intro hsome
    rcases hchords with hnone | hchords
    · rw [Option.isSome_iff_ne_none] at hsome
      exact absurd hnone hsome
    · exact Chord.ChordsV2.rests_iff.mpr hchords

/-- The layer of the state that was pushed last. -/
theorem currentLayer_eq (s : Layout T) :
    s.currentLayer = (s.states.items.filterMap State.getLayer).getLast?.getD s.defaultLayer := by
  unfold currentLayer
  rw [← List.head?_filterMap, List.filterMap_reverse, List.head?_reverse]

/-- The states after a tick of a layout that rests: the macros' custom actions that are over
are taken out. -/
def kept (s : Layout T) : List (State T) := s.states.items.filter fun st => !st.isTombstone

/-- What such a tick leaves. The layer and the key codes depend on nothing else. -/
structure TickedOver (s s' : Layout T) : Prop where
  states : s'.states.items = s.kept
  defaultLayer : s'.defaultLayer = s.defaultLayer
  suppressed : s'.keysToSuppressForOneCycle.items = []
  tapHoldTimeout : s'.lastPressTracker.tapHoldTimeout = s.lastPressTracker.tapHoldTimeout - 1
  oneshot : s'.oneshot.timeout = s.oneshot.timeout

/-- The part of a tick for chords. -/
theorem tickChordsV2_rests (h : s.Rests cfg) :
    ∃ chordsV2, s.tickChordsV2 cfg = .ok { s with chordsV2 } ∧
      (cfg.chordsV2.isSome = true → chordsV2.Rests) := by
  unfold tickChordsV2
  cases hcfg : cfg.chordsV2 with
  | none => exact ⟨s.chordsV2, rfl, fun hsome => by cases hsome⟩
  | some chords =>
    -- no chord is active, so none has an action that is not read yet
    have hrests := h.chordsV2 (by rw [hcfg]; rfl)
    rcases Chord.ChordsV2.tickChv2_rests chords (asU16 s.currentLayer) hrests with
      ⟨chordsV2, htick, hrests'⟩
    rcases Chord.ChordsV2.getActionChv2_rests hrests' with ⟨hrests'', haction⟩
    simp only [htick, ok_bind, haction, Bounded.empty_items, List.foldl_nil]
    exact ⟨_, rfl, fun _ => hrests''⟩

/-- No macro goes on. -/
theorem processSequences_rests (h : s.Rests cfg) : s.processSequences = s := by
  have hnone : latestRepeating s.states.items = none := by
    unfold latestRepeating
    rw [List.findSome?_eq_none_iff]
    intro st hst
    have hnot := h.repeating st (List.mem_reverse.mp hst)
    cases st <;> first | rfl | cases hnot
  unfold processSequences
  simp [h.activeSequences, processActive, hnone]

/-- The custom events of macros. -/
theorem advanceSeqCustom_rests : ∀ {states : List (State T)},
    (∀ st ∈ states, st.isSeqCustom = false) → advanceSeqCustom states = (states, .noEvent)
  | [], _ => rfl
  | st :: states, h => by
    have hrest := advanceSeqCustom_rests fun st' hst' => h st' (List.mem_cons_of_mem st hst')
    have hnot := h st List.mem_cons_self
    cases st with
    | seqCustomPending value => cases hnot
    | seqCustomActive value => cases hnot
    | _ => simp [advanceSeqCustom, hrest]

/-- Only the custom actions that are over are taken out. -/
theorem processSequenceCustom_rests (h : ∀ st ∈ s.states.items, st.isSeqCustom = false) :
    ∃ states, s.processSequenceCustom .noEvent = ({ s with states }, .noEvent) ∧
      states.items = s.kept := by
  have hadvance : advanceSeqCustom s.kept = (s.kept, .noEvent) :=
    advanceSeqCustom_rests fun st hst => h st (List.mem_of_mem_filter hst)
  unfold processSequenceCustom
  split
  · rename_i hnil
    exact ⟨s.states, rfl, by rw [kept, hnil]; rfl⟩
  · simp only
    rw [List.filter_congr (q := fun st => !st.isTombstone) fun st _ => by cases st <;> rfl]
    rw [← kept, hadvance]
    refine ⟨_, rfl, ?_⟩
    rw [Bounded.ofTake_items]
    exact List.take_of_length_le
      (Nat.le_trans (List.length_filter_le _ _) s.states.length_le)
  · rename_i hcustom
    exact absurd rfl hcustom

/-- What a part of a tick leaves that only counts. -/
structure Counts (cfg : LayoutConfig C R T) (s s' : Layout T) : Prop where
  rests : s'.Rests cfg
  states : s'.states = s.states
  defaultLayer : s'.defaultLayer = s.defaultLayer
  suppressed : s'.keysToSuppressForOneCycle = s.keysToSuppressForOneCycle
  oneshot : s'.oneshot.timeout = s.oneshot.timeout

/-- The timers count. -/
theorem tickTimers_rests (h : s.Rests cfg) :
    Counts cfg s s.tickTimers ∧
      s.tickTimers.lastPressTracker.tapHoldTimeout = s.lastPressTracker.tapHoldTimeout - 1 := by
  -- ageing an empty queue leaves it empty
  have haged : Rests cfg ({ s with
      queue := s.queue.map Queued.tickQd
      lastPressTracker := s.lastPressTracker.tickLpt
      tapDanceEager := none }.note .danceAged) := by
    refine { h with queue := ?_, tapDanceEager := rfl }
    show (s.queue.map Queued.tickQd).items = []
    rw [Bounded.map_items, h.queue, List.map_nil]
  have htimers : s.tickTimers =
      { s with
        queue := s.queue.map Queued.tickQd
        lastPressTracker := s.lastPressTracker.tickLpt
        tapDanceEager := none
        historicalKeys := s.historicalKeys.tickHist
        historicalInputs := s.historicalInputs.tickHist
        historicalInputsSansHoldsOrTimeouts := s.historicalInputsSansHoldsOrTimeouts.tickHist
        trace := s.trace ++ [.danceAged] ++ [.historiesAged] } := by
    unfold tickTimers
    simp only [h.tapDanceEager]
    rw [processSequences_rests haged]
    rfl
  rw [htimers]
  exact ⟨⟨{ haged with }, rfl, rfl, rfl, rfl⟩, rfl⟩

/-- Nothing waits, and no event is taken from the queue. -/
theorem tickWaiting_rests (h : s.Rests cfg) :
    ∃ s', s.tickWaiting cfg = .ok (s', .noEvent) ∧ Counts cfg s s' ∧
      s'.lastPressTracker = s.lastPressTracker := by
  unfold tickWaiting
  simp only [h.waiting, h.extraWaiting, List.isEmpty_nil, if_true]
  split
  · exact ⟨_, rfl, ⟨{ h with waiting := rfl }, rfl, rfl, rfl, rfl⟩, rfl⟩
  · have hpop : s.queue.popFront = (none, s.queue) :=
      Prod.ext (by rw [Bounded.popFront_fst, h.queue]; rfl)
        (Bounded.popFront_of_none (by rw [h.queue]; rfl))
    rw [hpop]
    exact ⟨s, rfl, ⟨h, rfl, rfl, rfl, rfl⟩, rfl⟩

/-- Nor does anything wait behind it. -/
theorem processExtraWaitings_rests (h : s.Rests cfg) :
    s.processExtraWaitings cfg .noEvent = .ok (s, .noEvent) := by
  unfold processExtraWaitings
  simp only [h.extraWaiting]
  rfl

/-- A tick of a layout that rests makes no custom event and leaves a layout that rests. -/
theorem tickMain_rests (h : s.Rests cfg) :
    ∃ s', s.tickMain cfg = .ok (s', .noEvent) ∧ s'.Rests cfg ∧ s'.states.items = s.kept ∧
      s'.defaultLayer = s.defaultLayer ∧
      s'.keysToSuppressForOneCycle = s.keysToSuppressForOneCycle ∧
      s'.lastPressTracker.tapHoldTimeout = s.lastPressTracker.tapHoldTimeout - 1 ∧
      s'.oneshot.timeout = s.oneshot.timeout := by
  rcases tickTimers_rests h with ⟨htimers, htap⟩
  -- no one-shot key ends
  have hosh : s.tickTimers.oneshot.tickOsh = (s.tickTimers.oneshot, none) := by
    unfold OneShotState.tickOsh
    rw [htimers.rests.oneshot]
    rfl
  rcases tickWaiting_rests htimers.rests with ⟨s₁, hwaiting, hcounts, htracker⟩
  have hextra := processExtraWaitings_rests hcounts.rests
  rcases processSequenceCustom_rests hcounts.rests.seqCustom with ⟨states, hcustom, hstates⟩
  refine ⟨{ s₁ with states }, ?_, ?_, ?_, ?_, ?_, ?_, ?_⟩
  · unfold tickMain
    simp only [hosh, Option.getD_none, releaseOneshots, ok_bind, pure, Except.pure, hwaiting,
      updateCustom, CustomEvent.lost, CustomEvent.update, discard, hextra, hcustom]
  · refine { hcounts.rests with seqCustom := ?_, repeating := ?_ }
    · intro st hst
      rw [hstates] at hst
      exact hcounts.rests.seqCustom st (List.mem_of_mem_filter hst)
    · intro st hst
      rw [hstates] at hst
      exact hcounts.rests.repeating st (List.mem_of_mem_filter hst)
  · rw [hstates, kept, kept, hcounts.states, htimers.states]
  · exact hcounts.defaultLayer.trans htimers.defaultLayer
  · exact hcounts.suppressed.trans htimers.suppressed
  · rw [← htap, ← htracker]
  · exact hcounts.oneshot.trans htimers.oneshot

/-- A whole tick: it makes no custom event, and the layout still rests. -/
theorem tick_rests (h : s.Rests cfg) :
    ∃ s', s.tick cfg = .ok (s', .noEvent) ∧ s'.Rests cfg ∧ TickedOver s s' := by
  have hreleases : s.customEventReleaseQueue.popFront.1 = none := by
    rw [Bounded.popFront_fst, h.releases]
    rfl
  rcases tickChordsV2_rests h with ⟨chordsV2, hchords, hrests⟩
  -- the layout after the part for chords
  let s₁ : Layout T := { s with chordsV2, keysToSuppressForOneCycle := .empty }
  have hrests₁ : s₁.Rests cfg := { h with chordsV2 := hrests }
  have hactions : s₁.actionQueue.popFront.1 = none := by
    rw [Bounded.popFront_fst, hrests₁.actionQueue]
    rfl
  rcases tickMain_rests hrests₁ with ⟨s', hmain, hrests', hstates, hlayer, hsuppressed, htap, hone⟩
  refine ⟨s', ?_, hrests', hstates, hlayer, by rw [hsuppressed]; rfl, htap, hone⟩
  have htick : s.tick cfg = s₁.tickMain cfg := by
    unfold tick
    split
    · rename_i hpop
      rw [hpop] at hreleases
      cases hreleases
    · rw [hchords]
      simp only [ok_bind]
      split
      · rename_i hpop
        rw [show _ = s₁.actionQueue.popFront from rfl] at hpop
        rw [hpop] at hactions
        cases hactions
      · rfl
  rw [htick, hmain]

/-- The test holds of what is left of the states. -/
theorem isIdle_of_rests {p : Bool} {s' : Layout T} (hidle : s.isIdle cfg p = true)
    (hrests : s'.Rests cfg) (htap : s'.lastPressTracker.tapHoldTimeout = 0)
    (hstates : ∀ st' ∈ s'.states.items, ∃ st ∈ s.states.items,
      st'.isNormalKey = st.isNormalKey) : s'.isIdle cfg p = true := by
  -- with the flag no key is pressed
  have hnormal : p = true → ∀ st ∈ s.states.items, st.isNormalKey = false := by
    unfold isIdle at hidle
    simp only [Bool.and_eq_true, Bool.not_eq_true', List.any_eq_false, Bool.or_eq_true] at hidle
    intro hp st hst
    have := hidle.1.2 st hst
    simpa [hp] using fun h => this (.inr ⟨hp, h⟩)
  have hchords : cfg.chordsV2.isNone = true ∨ s'.chordsV2.isIdleChv2 = true := by
    cases hcfg : cfg.chordsV2 with
    | none => exact .inl rfl
    | some chords =>
      exact .inr (Chord.ChordsV2.rests_iff.mp (hrests.chordsV2 (by rw [hcfg]; rfl)))
  unfold isIdle
  simp only [Bool.and_eq_true, Bool.or_eq_true, Bool.not_eq_true', List.any_eq_false]
  refine ⟨⟨⟨⟨⟨⟨⟨⟨⟨?_, ?_⟩, ?_⟩, ?_⟩, ?_⟩, ?_⟩, ?_⟩, ?_⟩, ?_⟩, hchords⟩
  · rw [hrests.queue]; rfl
  · rw [hrests.waiting]; rfl
  · rw [htap]; rfl
  · rw [hrests.oneshot]; exact .inr rfl
  · rw [hrests.activeSequences]; rfl
  · rw [hrests.tapDanceEager]; rfl
  · rw [hrests.actionQueue]; rfl
  · rw [hrests.releases]; rfl
  · intro st' hst'
    rcases hstates st' hst' with ⟨st, hst, hsame⟩
    rw [hrests.seqCustom st' hst', hsame]
    rintro (hno | ⟨hp, hyes⟩)
    · cases hno
    · rw [hnormal hp st hst] at hyes
      cases hyes

/-- The timeout of a quick tap is over in an idle layout. -/
theorem tapHoldTimeout_of_isIdle {p : Bool} (hidle : s.isIdle cfg p = true) :
    s.lastPressTracker.tapHoldTimeout = 0 := by
  unfold isIdle at hidle
  simp only [Bool.and_eq_true, beq_iff_eq] at hidle
  exact hidle.1.1.1.1.1.1.1.2

/-- A layout that rests has nothing that the test leaves out. -/
theorem Rests.settled (h : s.Rests cfg) : s.Settled :=
  ⟨h.extraWaiting, h.oneshot, h.repeating⟩

end Layout

end Kanata
