import Kanata.HoldTap.Termination

/-!
# Kanata.Waiting.FastPath — looks at the queue that are skipped

A pending decision does not look at the queue while it is as long as at its last look and
the timeout is not over. The queue is shared: when another decision takes out as many
events as came in, the length is the same and the events are not. `fast_path_unobservable`
says that the skipped looks make no difference as long as a queue of the same length holds
the same events, only older.
-/

namespace Kanata

open Fallible

variable {T : Type}

/-- The decision function of a hold-tap does not read how old the events are. -/
def HoldTapConfig.IgnoresAges (cfg : HoldTapConfig) : Prop :=
  ∀ func, cfg = .custom func → ∀ (qs qs' : List Queued) (coord : KCoord),
    (qs.map fun q => q.event) = (qs'.map fun q => q.event) → func qs coord = func qs' coord

/-- The events a tick later. -/
def olderEvents (queued : List Queued) : List Queued := queued.map Queued.tickQd

theorem olderEvents_events (queued : List Queued) :
    ((olderEvents queued).map fun q => q.event) = queued.map fun q => q.event := by
  unfold olderEvents
  rw [List.map_map]
  rfl

/-! ## The decision functions of the parser -/

namespace CustomTapHold

theorem ofBehavior_drops (b : DecisionBehavior) : (PressRule.ofBehavior b).drops = false := by
  cases b <;> rfl

theorem ofBehaviorRelease_drops (b : DecisionBehavior) :
    (PressRule.ofBehaviorRelease b).drops = false := by
  cases b <;> rfl

theorem rule_drops (c : CustomTapHold) (col i j : Nat) : (c.rule col i j).drops = false := by
  cases c with
  | release keys =>
    unfold rule PressRule.release
    dsimp only
    split <;> rfl
  | releaseTriggerTapRelease taps tapsRelease =>
    unfold rule PressRule.releaseTriggerTapRelease
    dsimp only
    repeat' split
    all_goals rfl
  | keys taps tapsRelease holds =>
    unfold rule PressRule.keys
    dsimp only
    repeat' split
    all_goals rfl
  | except keys =>
    unfold rule PressRule.except
    dsimp only
    split <;> rfl
  | tapKeys keys =>
    unfold rule PressRule.tapKeys
    dsimp only
    split <;> rfl
  | oppositeHand o =>
    unfold rule PressRule.oppositeHand
    dsimp only
    repeat' split
    all_goals first | rfl | exact ofBehavior_drops _
  | oppositeHandRelease o =>
    unfold rule PressRule.oppositeHandRelease
    dsimp only
    repeat' split
    all_goals first | rfl | exact ofBehavior_drops _ | exact ofBehaviorRelease_drops _

/-- The closures of the parser read no ages. -/
theorem ignoresAges (c : CustomTapHold) : c.config.IgnoresAges := by
  intro func hfunc qs qs' coord hsame
  obtain rfl : c.func = func := HoldTapConfig.custom.inj hfunc
  have hruled : ∀ queued : List Queued,
      (queued.map fun q => (q.event, c.rule coord.2 q.event.coord.1 q.event.coord.2)) =
        (queued.map fun q => q.event).map fun e => (e, c.rule coord.2 e.coord.1 e.coord.2) := by
    intro queued
    rw [List.map_map]
    rfl
  unfold func
  dsimp only
  rw [scanPresses_eq_scanRuled, scanPresses_eq_scanRuled, hruled, hruled, hsame]

/-- Nor do they drop the press. -/
theorem neverDrops (c : CustomTapHold) : c.config.NeverDrops := by
  intro func hfunc qs coord
  obtain rfl : c.func = func := HoldTapConfig.custom.inj hfunc
  exact scanPresses_ne_noOp (fun q => c.rule_drops _ _ _) qs

end CustomTapHold

namespace WaitingState

variable {w : WaitingState T} {overflowChecks : Bool} {queue : Queue} {seen : List Queued}

/-! ## Full evaluations -/

/-- `handle_hold_tap` without its fast path. -/
def handleHoldTapFull (w : WaitingState T) (cfg : HoldTapConfig) (queued : List Queued) :
    WaitingState T × Option WaitingAction :=
  let w := { w.resetTimeout queued with prevQueueLen := queued.length }
  match w.modeDecision cfg queued with
  | (some a, _) => (w, some a)
  | (none, skipTimeout) => (w, w.releaseOrTimeout queued skipTimeout)

/-- `handle_tap_dance` without its fast path. -/
def handleTapDanceFull (w : WaitingState T) (numTaps maxTaps : Nat) (queued : Queue) :
    Option WaitingAction × Nat × Queue :=
  if w.timeout = 0 then (some .tap, numTaps, w.evict numTaps queued)
  else
    match w.countTaps queued.items 1 with
    | (numTaps, true) => (some .tap, numTaps, w.evict numTaps queued)
    | (numTaps, false) =>
      if numTaps ≥ maxTaps then (some .tap, numTaps, w.evict numTaps queued)
      else (none, numTaps, queued)

def tickTapDanceFull (w : WaitingState T) (tds : TapDanceState T) (queued : Queue) :
    Rust (Ticked T) := do
  let (ret, numTaps, queued) := w.handleTapDanceFull tds.numTaps tds.actions.length queued
  let tap ← w.decidedTap tds numTaps ret
  pure {
    waiting := { w with
      prevQueueLen := queued.items.length
      tap
      timeout := if numTaps > tds.numTaps then tds.timeout else w.timeout
      config := .tapDance { tds with numTaps } }
    queued
    actions := []
    decision := ret.map fun a => (a, none) }

/-- `handle_chord` without its fast path. -/
def tickChordFull (overflowChecks : Bool) (w : WaitingState T) (group : ChordsGroup (Action T))
    (queued : Queue) : Rust (Ticked T) := do
  let w := { w with prevQueueLen := queued.items.length }
  match ← w.handleChord overflowChecks group queued with
  | none => pure ⟨w, queued, [], none⟩
  | some d =>
    pure ⟨{ w with coord := d.coord, tap := d.action }, d.queued, d.actions,
      some (d.decision, some d.pressed)⟩

/-- `tick_wt` without the fast paths. -/
def tickWtFull (overflowChecks : Bool) (w : WaitingState T) (queued : Queue) : Rust (Ticked T) :=
  let w := { w with timeout := w.timeout - 1, ticks := satAdd w.ticks 1 }
  match w.config with
  | .holdTap htc =>
    let (w, decision) := w.handleHoldTapFull htc queued.items
    pure ⟨w, queued, [], decision.map fun a => (a, none)⟩
  | .tapDance tds => w.tickTapDanceFull tds queued
  | .chord group => w.tickChordFull overflowChecks group queued

/-! ## What was seen -/

/-- A full evaluation of these events decides nothing before the timeout. -/
def Undecided (w : WaitingState T) (seen : List Queued) : Prop :=
  match w.config with
  | .holdTap cfg =>
    ¬ cfg.Decides w.coord w.ticks seen ∧ ∀ q ∈ seen, w.isCorrespondingRelease q.event = false
  | .tapDance tds =>
    w.countTaps seen 1 = (tds.numTaps, false) ∧ tds.numTaps < tds.actions.length
  | .chord group =>
    let fold := w.foldChord group seen ⟨false, (group.getKeys w.coord).getD 0, 0, none⟩
    fold.ended = false ∧ group.getChordIfUnambiguous fold.active = none

/-- No timeout reset, and a decision function like those of the parser. -/
structure Regular (w : WaitingState T) : Prop where
  noReset : ∀ cfg, w.config = .holdTap cfg → w.onPressResetTimeoutTo = none
  ignoresAges : ∀ cfg, w.config = .holdTap cfg → cfg.IgnoresAges
  neverDrops : ∀ cfg, w.config = .holdTap cfg → cfg.NeverDrops
  delay_le : w.delay ≤ u16Max

/-! ## Older events -/

/-- When the events are no younger against the ticks, the mode decides on no more of them. -/
theorem Decides.of_older {cfg : HoldTapConfig} (hignores : cfg.IgnoresAges) {coord : KCoord}
    {ticks ticks' : Nat}
    (hages : ∀ q ∈ seen, ticks' - q.tickQd.since ≤ ticks - q.since)
    (h : cfg.Decides coord ticks' (olderEvents seen)) : cfg.Decides coord ticks seen := by
  have hpair : ∀ (counts counts' : Queued → Prop), (∀ q ∈ seen, counts' q.tickQd → counts q) →
      PressThenRelease counts' (olderEvents seen) → PressThenRelease counts seen := by
    rintro counts counts' hcounts ⟨q', r', hsub, hq', i, j, hpress, hrelease⟩
    rcases List.sublist_map_iff.mp hsub with ⟨l, hl, heq⟩
    obtain ⟨q, rest, rfl, rfl, hrest⟩ := List.map_eq_cons_iff.mp heq.symm
    obtain ⟨r, last, rfl, rfl, hlast⟩ := List.map_eq_cons_iff.mp hrest
    obtain rfl := List.map_eq_nil_iff.mp hlast
    exact ⟨q, r, hl, hcounts q (hl.subset List.mem_cons_self) hq', i, j, hpress, hrelease⟩
  cases cfg with
  | default => exact h
  | holdOnOtherKeyPress =>
    rcases h with ⟨q', hq', hpress⟩
    rcases List.mem_map.mp hq' with ⟨q, hq, rfl⟩
    exact ⟨q, hq, hpress⟩
  | order buffer => exact hpair _ _ (fun q hq hcounts => Nat.le_trans hcounts (hages q hq)) h
  | permissiveHold => exact hpair _ _ (fun _ _ hcounts => hcounts) h
  | custom func =>
    have hsame := hignores func rfl (olderEvents seen) seen coord (olderEvents_events seen)
    show (func seen coord).1.isSome = true
    rw [← hsame]
    exact h

theorem isCorrespondingRelease_older (h : ∀ q ∈ seen, w.isCorrespondingRelease q.event = false) :
    ∀ q ∈ olderEvents seen, w.isCorrespondingRelease q.event = false := by
  intro q' hq'
  rcases List.mem_map.mp hq' with ⟨q, hq, rfl⟩
  exact h q hq

/-- The taps are counted by coordinate, whatever the ages. -/
theorem countTaps_congr {w' : WaitingState T} (hcoord : w'.coord = w.coord) :
    ∀ {seen seen' : List Queued} (count : Nat),
      (seen'.map fun q => q.event) = (seen.map fun q => q.event) →
        w'.countTaps seen' count = w.countTaps seen count
  | [], seen', _, h => by
    obtain rfl := List.map_eq_nil_iff.mp h
    rfl
  | q :: seen, seen', count, h => by
    obtain ⟨q', rest, rfl, hevent, hrest⟩ := List.map_eq_cons_iff.mp h
    have ih := fun count => countTaps_congr hcoord count hrest
    have hpress : w'.isCorrespondingPress q'.event = w.isCorrespondingPress q.event := by
      unfold isCorrespondingPress
      rw [hcoord, hevent]
    unfold countTaps
    rw [hpress, hevent, ih, ih]

/-- Until the timeout an event stays as late, or as early, as it is. -/
theorem isLate_older (hdelay : w.delay ≤ u16Max) (htimeout : 0 < w.timeout) (q : Queued) :
    w.older.isLate q.tickQd = w.isLate q := by
  unfold isLate older Queued.tickQd satAdd
  refine decide_eq_decide.mpr ?_
  show w.delay - min (q.since + 1) u16Max > w.timeout - 1 ↔ w.delay - q.since > w.timeout
  generalize u16Max = m at hdelay
  omega

theorem foldChord_older (hdelay : w.delay ≤ u16Max) (htimeout : 0 < w.timeout)
    (group : ChordsGroup (Action T)) :
    ∀ (seen : List Queued) (acc : ChordFold),
      w.older.foldChord group (olderEvents seen) acc = w.foldChord group seen acc
  | [], _ => rfl
  | q :: seen, acc => by
    have ih := foldChord_older hdelay htimeout group seen
    unfold olderEvents at ih ⊢
    rw [List.map_cons]
    unfold foldChord
    rw [isLate_older hdelay htimeout q]
    simp only [ih]
    rfl

/-- In a tick in which a hold-tap is not looked at only the events get older. -/
theorem Undecided.pass {cfg : HoldTapConfig} (h : w.Undecided seen) (hw : w.Regular)
    (hconfig : w.config = .holdTap cfg) (hsince : ∀ q ∈ seen, q.since ≤ u16Max) :
    w.Undecided (olderEvents seen) := by
  unfold Undecided at h ⊢
  rw [hconfig] at h ⊢
  refine ⟨fun hdecides => h.1 (Decides.of_older (hw.ignoresAges cfg hconfig) ?_ hdecides),
    isCorrespondingRelease_older h.2⟩
  intro q hq
  have hle := hsince q hq
  unfold Queued.tickQd satAdd
  generalize u16Max = m at hle
  dsimp only
  omega

/-- A tick makes the waiting state and the events older. -/
theorem Undecided.older (h : w.Undecided seen) (hw : w.Regular) (htimeout : 0 < w.timeout) :
    w.older.Undecided (olderEvents seen) := by
  have hsame : w.older.config = w.config := rfl
  unfold Undecided at h ⊢
  rw [hsame]
  cases hconfig : w.config with
  | holdTap cfg =>
    rw [hconfig] at h
    refine ⟨fun hdecides => h.1 (Decides.of_older (hw.ignoresAges cfg hconfig) ?_ hdecides),
      isCorrespondingRelease_older h.2⟩
    intro q hq
    show satAdd w.ticks 1 - satAdd q.since 1 ≤ w.ticks - q.since
    unfold satAdd
    generalize u16Max = m
    omega
  | tapDance tds =>
    rw [hconfig] at h
    have hcoord : w.older.coord = w.coord := rfl
    have htaps : w.older.countTaps (olderEvents seen) 1 = w.countTaps seen 1 :=
      countTaps_congr hcoord 1 (olderEvents_events seen)
    exact ⟨htaps.trans h.1, h.2⟩
  | chord group =>
    rw [hconfig] at h
    have hfold := foldChord_older hw.delay_le htimeout group seen
      ⟨false, (group.getKeys w.coord).getD 0, 0, none⟩
    dsimp only at h ⊢
    rw [← hfold] at h
    exact h

/-! ## A look -/

theorem handleHoldTap_eq_full (w : WaitingState T) (cfg : HoldTapConfig) (queued : List Queued) :
    w.handleHoldTap cfg queued =
      if queued.length = w.prevQueueLen ∧ w.timeout > 0 then (w, none)
      else w.handleHoldTapFull cfg queued := rfl

theorem handleTapDance_eq_full (w : WaitingState T) (numTaps maxTaps : Nat) (queued : Queue) :
    w.handleTapDance numTaps maxTaps queued =
      if queued.items.length = w.prevQueueLen ∧ w.timeout > 0 then (none, numTaps, queued)
      else w.handleTapDanceFull numTaps maxTaps queued := rfl

theorem tickChord_eq_full (w : WaitingState T) (group : ChordsGroup (Action T)) (queued : Queue) :
    w.tickChord overflowChecks group queued =
      if queued.items.length = w.prevQueueLen ∧ w.timeout - w.delay > 0 then
        pure ⟨w, queued, [], none⟩
      else w.tickChordFull overflowChecks group queued := rfl

/-- The length that was seen is that of the queue. -/
theorem setSeen_of_eq {n : Nat} (h : n = w.prevQueueLen) : { w with prevQueueLen := n } = w := by
  rw [h]

theorem handleHoldTapFull_of_undecided {cfg : HoldTapConfig} {queued : List Queued}
    (hw : w.Regular) (hconfig : w.config = .holdTap cfg) (h : w.Undecided queued)
    (hlen : queued.length = w.prevQueueLen) (htimeout : 0 < w.timeout) :
    w.handleHoldTapFull cfg queued = (w, none) := by
  unfold Undecided at h
  rw [hconfig] at h
  have hnoReset : w.resetTimeout queued = w :=
    resetTimeout_of_noReset (.inl (hw.noReset cfg hconfig))
  have hmode := w.modeDecision_isSome cfg queued
  have hheld : queued.find? (fun s => w.isCorrespondingRelease s.event) = none := by
    refine List.find?_eq_none.mpr ?_
    intro q hq hrelease
    rw [h.2 q hq] at hrelease
    cases hrelease
  unfold handleHoldTapFull
  rw [hnoReset, setSeen_of_eq hlen]
  dsimp only
  cases hdecision : w.modeDecision cfg queued with
  | mk action skip =>
    rw [hdecision] at hmode
    cases action with
    | some a => exact absurd (hmode.mp rfl) h.1
    | none =>
      have hnone : w.releaseOrTimeout queued skip = none := by
        unfold releaseOrTimeout
        rw [hheld]
        exact if_neg fun hover => Nat.pos_iff_ne_zero.mp htimeout hover.1
      exact congrArg (Prod.mk w) hnone

theorem handleTapDanceFull_of_undecided {tds : TapDanceState T}
    (hconfig : w.config = .tapDance tds) (h : w.Undecided queue.items) (htimeout : 0 < w.timeout) :
    w.handleTapDanceFull tds.numTaps tds.actions.length queue = (none, tds.numTaps, queue) := by
  unfold Undecided at h
  rw [hconfig] at h
  unfold handleTapDanceFull
  rw [if_neg (Nat.pos_iff_ne_zero.mp htimeout), h.1]
  exact if_neg (Nat.not_le.mpr h.2)

theorem tickChordFull_of_undecided {group : ChordsGroup (Action T)}
    (hconfig : w.config = .chord group) (h : w.Undecided queue.items)
    (hlen : queue.items.length = w.prevQueueLen) (htimeout : 0 < w.timeout - w.delay) :
    w.tickChordFull overflowChecks group queue = pure ⟨w, queue, [], none⟩ := by
  unfold Undecided at h
  rw [hconfig] at h
  have hhandle : w.handleChord overflowChecks group queue = pure none := by
    unfold handleChord
    dsimp only at h ⊢
    rw [if_pos ⟨h.1, htimeout⟩, h.2]
  unfold tickChordFull
  rw [setSeen_of_eq hlen]
  dsimp only
  rw [hhandle]
  rfl

theorem Regular.older (hw : w.Regular) : w.older.Regular where
  noReset := hw.noReset
  ignoresAges := hw.ignoresAges
  neverDrops := hw.neverDrops
  delay_le := hw.delay_le

/-- Regular at sight: no timeout reset and no decision function. -/
def isPlain (w : WaitingState T) : Bool :=
  decide (w.delay ≤ u16Max) &&
    match w.config with
    | .holdTap (.custom _) => false
    | .holdTap _ => w.onPressResetTimeoutTo.isNone
    | _ => true

/-- A decision of the parser is regular when nothing resets its timeout: its decision
function, if it has one, is one of the closures. -/
theorem Regular.of_closures (hdelay : w.delay ≤ u16Max)
    (hreset : ∀ cfg, w.config = .holdTap cfg → w.onPressResetTimeoutTo = none)
    (hclosures : ∀ func, w.config = .holdTap (.custom func) →
      ∃ c : CustomTapHold, .custom func = c.config) : w.Regular where
  noReset := hreset
  ignoresAges cfg hcfg func hfunc := by
    subst hfunc
    obtain ⟨c, hc⟩ := hclosures func hcfg
    exact c.ignoresAges func hc.symm
  neverDrops cfg hcfg func hfunc := by
    subst hfunc
    obtain ⟨c, hc⟩ := hclosures func hcfg
    exact c.neverDrops func hc.symm
  delay_le := hdelay

theorem Regular.of_isPlain (h : w.isPlain = true) : w.Regular := by
  unfold isPlain at h
  rcases Bool.and_eq_true_iff.mp h with ⟨hdelay, hkind⟩
  have hnoFunc : ∀ func, w.config ≠ .holdTap (.custom func) := by
    intro func hfunc
    rw [hfunc] at hkind
    cases hkind
  refine .of_closures (of_decide_eq_true hdelay) ?_ fun func hfunc => absurd hfunc (hnoFunc func)
  intro cfg hcfg
  rw [hcfg] at hkind
  cases cfg with
  | custom func => exact absurd hcfg (hnoFunc func)
  | _ => exact Option.isNone_iff_eq_none.mp hkind

/-- A queue is never as long as `QueueLen::MAX`. -/
theorem length_ne_queueLenMax (queue : Queue) : queue.items.length ≠ queueLenMax := by
  intro h
  have hle := queue.length_le
  rw [h] at hle
  exact absurd hle (by decide)

/-- The tick of a tap-dance or of a chord, and the full evaluation of each kind. -/
theorem tickWt_of_tapDance {tds : TapDanceState T} (h : w.config = .tapDance tds) :
    w.tickWt overflowChecks queue = w.older.tickTapDance tds queue := by
  cases w with
  | mk coord timeout reset delay ticks hold tap timeoutAction config layerStack len id =>
    simp only at h
    subst h
    rfl

theorem tickWt_of_chord {group : ChordsGroup (Action T)} (h : w.config = .chord group) :
    w.tickWt overflowChecks queue = w.older.tickChord overflowChecks group queue := by
  cases w with
  | mk coord timeout reset delay ticks hold tap timeoutAction config layerStack len id =>
    simp only at h
    subst h
    rfl

theorem tickWtFull_of_holdTap {cfg : HoldTapConfig} (h : w.config = .holdTap cfg) :
    w.tickWtFull overflowChecks queue =
      pure ⟨(w.older.handleHoldTapFull cfg queue.items).1, queue, [],
        (w.older.handleHoldTapFull cfg queue.items).2.map fun a => (a, none)⟩ := by
  cases w with
  | mk coord timeout reset delay ticks hold tap timeoutAction config layerStack len id =>
    simp only at h
    subst h
    rfl

theorem tickWtFull_of_tapDance {tds : TapDanceState T} (h : w.config = .tapDance tds) :
    w.tickWtFull overflowChecks queue = w.older.tickTapDanceFull tds queue := by
  cases w with
  | mk coord timeout reset delay ticks hold tap timeoutAction config layerStack len id =>
    simp only at h
    subst h
    rfl

theorem tickWtFull_of_chord {group : ChordsGroup (Action T)} (h : w.config = .chord group) :
    w.tickWtFull overflowChecks queue = w.older.tickChordFull overflowChecks group queue := by
  cases w with
  | mk coord timeout reset delay ticks hold tap timeoutAction config layerStack len id =>
    simp only at h
    subst h
    rfl

/-- A skipped look makes no difference when the events that it does not look at are
undecided. -/
theorem tickWt_eq_full (overflowChecks : Bool) (hw : w.Regular)
    (hseen : queue.items.length = w.prevQueueLen → 0 < w.older.timeout →
      w.older.Undecided queue.items) :
    w.tickWt overflowChecks queue = w.tickWtFull overflowChecks queue := by
  cases hconfig : w.config with
  | holdTap cfg =>
    rw [tickWt_of_config hconfig, tickWtFull_of_holdTap hconfig, handleHoldTap_eq_full]
    by_cases hfast : queue.items.length = w.older.prevQueueLen ∧ w.older.timeout > 0
    · rw [if_pos hfast, handleHoldTapFull_of_undecided hw.older hconfig (hseen hfast.1 hfast.2)
        hfast.1 hfast.2]
    · rw [if_neg hfast]
  | tapDance tds =>
    rw [tickWt_of_tapDance hconfig, tickWtFull_of_tapDance hconfig]
    unfold tickTapDance tickTapDanceFull
    rw [handleTapDance_eq_full]
    by_cases hfast : queue.items.length = w.older.prevQueueLen ∧ w.older.timeout > 0
    · have hconfig' : w.older.config = .tapDance tds := hconfig
      rw [if_pos hfast, handleTapDanceFull_of_undecided hconfig' (hseen hfast.1 hfast.2) hfast.2]
    · rw [if_neg hfast]
  | chord group =>
    rw [tickWt_of_chord hconfig, tickWtFull_of_chord hconfig, tickChord_eq_full]
    by_cases hfast : queue.items.length = w.older.prevQueueLen ∧
        w.older.timeout - w.older.delay > 0
    · have hconfig' : w.older.config = .chord group := hconfig
      have hpos : 0 < w.older.timeout := by omega
      rw [if_pos hfast, tickChordFull_of_undecided hconfig' (hseen hfast.1 hpos) hfast.1 hfast.2]
    · rw [if_neg hfast]

theorem undecided_of_holdTapFull {cfg : HoldTapConfig} {queued : List Queued} (hw : w.Regular)
    (hconfig : w.config = .holdTap cfg) (hnone : (w.handleHoldTapFull cfg queued).2 = none) :
    (w.handleHoldTapFull cfg queued).1 = { w with prevQueueLen := queued.length } ∧
      { w with prevQueueLen := queued.length }.Undecided queued := by
  have hnoReset : w.resetTimeout queued = w :=
    resetTimeout_of_noReset (.inl (hw.noReset cfg hconfig))
  unfold handleHoldTapFull at hnone ⊢
  rw [hnoReset] at hnone ⊢
  dsimp only at hnone ⊢
  generalize hw' : ({ w with prevQueueLen := queued.length } : WaitingState T) = w' at hnone ⊢
  have hconfig' : w'.config = .holdTap cfg := by
    rw [← hw']
    exact hconfig
  have hmode := w'.modeDecision_isSome cfg queued
  cases hdecision : w'.modeDecision cfg queued with
  | mk action skip =>
    rw [hdecision] at hmode hnone
    cases action with
    | some a => cases hnone
    | none =>
      refine ⟨rfl, ?_⟩
      unfold Undecided
      rw [hconfig']
      refine ⟨fun hdecides => Bool.false_ne_true (hmode.mpr hdecides), ?_⟩
      -- a release of the key itself would have decided
      intro q hq
      refine Bool.eq_false_iff.mpr fun hrelease => ?_
      have hreleased : w'.releaseOrTimeout queued skip = none := hnone
      have hfound : (queued.find? fun s => w'.isCorrespondingRelease s.event).isSome :=
        List.find?_isSome.mpr ⟨q, hq, hrelease⟩
      rcases Option.isSome_iff_exists.mp hfound with ⟨r, hr⟩
      unfold releaseOrTimeout at hreleased
      rw [hr] at hreleased
      dsimp only at hreleased
      split at hreleased
      · cases hreleased
      · cases hreleased

theorem handleHoldTapFull_ne_noOp {cfg : HoldTapConfig} {queued : List Queued}
    (hdrops : cfg.NeverDrops) : (w.handleHoldTapFull cfg queued).2 ≠ some .noOp := by
  unfold handleHoldTapFull
  dsimp only
  generalize ({ w.resetTimeout queued with prevQueueLen := queued.length } : WaitingState T) = w'
  have hmode : (w'.modeDecision cfg queued).1 ≠ some .noOp := modeDecision_ne_noOp hdrops
  split
  · rename_i a skip hdecision
    rw [hdecision] at hmode
    exact hmode
  · exact releaseOrTimeout_ne_noOp queued _

theorem undecided_of_tapDanceFull {tds : TapDanceState T} {t : Ticked T}
    (h : w.tickTapDanceFull tds queue = .ok t) (hpending : t.decision = none) :
    t.queued = queue ∧ t.waiting.id = w.id ∧ t.waiting.Undecided queue.items := by
  unfold tickTapDanceFull at h
  rcases hhandle : w.handleTapDanceFull tds.numTaps tds.actions.length queue with
    ⟨ret, numTaps, queued⟩
  rw [hhandle] at h
  rcases bind_eq_ok.mp h with ⟨tap, _, h⟩
  obtain rfl := pure_eq_ok.mp h
  obtain rfl : ret = none := Option.map_eq_none_iff.mp hpending
  -- only a count of too few taps does not decide
  unfold handleTapDanceFull at hhandle
  split at hhandle
  · cases hhandle
  · cases hcount : w.countTaps queue.items 1 with
    | mk n other =>
      rw [hcount] at hhandle
      cases other with
      | true => cases hhandle
      | false =>
        dsimp only at hhandle
        split at hhandle
        · cases hhandle
        · rename_i hfew
          cases hhandle
          refine ⟨rfl, rfl, ?_⟩
          unfold Undecided
          refine ⟨?_, Nat.not_le.mp hfew⟩
          rw [← hcount]
          apply countTaps_congr
          · rfl
          · rfl

theorem undecided_of_chordFull {group : ChordsGroup (Action T)} {t : Ticked T}
    (hconfig : w.config = .chord group)
    (h : w.tickChordFull overflowChecks group queue = .ok t) (hpending : t.decision = none) :
    t.queued = queue ∧ t.waiting = { w with prevQueueLen := queue.items.length } ∧
      t.waiting.Undecided queue.items := by
  unfold tickChordFull at h
  dsimp only at h
  generalize hw' : ({ w with prevQueueLen := queue.items.length } : WaitingState T) = w' at h ⊢
  have hconfig' : w'.config = .chord group := by
    rw [← hw']
    exact hconfig
  rcases bind_eq_ok.mp h with ⟨decided, hdecided, h⟩
  cases decided with
  | some d =>
    obtain rfl := pure_eq_ok.mp h
    cases hpending
  | none =>
    obtain rfl := pure_eq_ok.mp h
    refine ⟨rfl, rfl, ?_⟩
    unfold handleChord at hdecided
    unfold Undecided
    rw [hconfig']
    dsimp only at hdecided ⊢
    split at hdecided
    · rename_i hactive
      refine ⟨hactive.1, ?_⟩
      split at hdecided
      · cases pure_eq_ok.mp hdecided
      · assumption
    · -- past the timeout there is always a decision
      split at hdecided
      · cases pure_eq_ok.mp hdecided
      · rcases bind_eq_ok.mp hdecided with ⟨actions, _, hdecided⟩
        cases pure_eq_ok.mp hdecided

/-- A full evaluation that decides nothing leaves the queue as it is, and what it saw
undecided. -/
theorem undecided_of_full {t : Ticked T} (hw : w.Regular)
    (h : w.tickWtFull overflowChecks queue = .ok t) (hpending : t.decision = none) :
    t.queued = queue ∧ t.waiting.id = w.id ∧
      (∀ cfg, w.config = .holdTap cfg → t.waiting.config = .holdTap cfg) ∧
      t.waiting.Undecided queue.items := by
  cases hconfig : w.config with
  | holdTap cfg =>
    rw [tickWtFull_of_holdTap hconfig] at h
    obtain rfl := pure_eq_ok.mp h
    have hnone : (w.older.handleHoldTapFull cfg queue.items).2 = none :=
      Option.map_eq_none_iff.mp hpending
    rcases undecided_of_holdTapFull hw.older hconfig hnone with ⟨hwaiting, hundecided⟩
    refine ⟨rfl, ?_, ?_, ?_⟩
    · rw [hwaiting]
      rfl
    · intro cfg' hcfg'
      rw [hwaiting, ← hcfg']
      exact hconfig
    · rw [hwaiting]
      exact hundecided
  | tapDance tds =>
    rw [tickWtFull_of_tapDance hconfig] at h
    rcases undecided_of_tapDanceFull h hpending with ⟨hqueue, hid, hundecided⟩
    exact ⟨hqueue, hid, fun cfg hcfg => (by cases hcfg), hundecided⟩
  | chord group =>
    rw [tickWtFull_of_chord hconfig] at h
    have hconfig' : w.older.config = .chord group := hconfig
    rcases undecided_of_chordFull hconfig' h hpending with ⟨hqueue, hwaiting, hundecided⟩
    refine ⟨hqueue, ?_, fun cfg hcfg => (by cases hcfg), hundecided⟩
    rw [hwaiting]
    rfl

/-- A hold-tap drops no press. -/
theorem tickWtFull_ne_noOp {cfg : HoldTapConfig} {t : Ticked T} {pq : Option PressedQueue}
    (hw : w.Regular) (hconfig : w.config = .holdTap cfg)
    (h : w.tickWtFull overflowChecks queue = .ok t) : t.decision ≠ some (.noOp, pq) := by
  rw [tickWtFull_of_holdTap hconfig] at h
  obtain rfl := pure_eq_ok.mp h
  intro hnoOp
  rcases Option.map_eq_some_iff.mp hnoOp with ⟨a, hdecision, ha⟩
  cases ha
  exact handleHoldTapFull_ne_noOp (hw.neverDrops cfg hconfig) hdecision

end WaitingState

/-! ## Looks -/

/-- A decision looks at the queue. -/
structure Look (T : Type) where
  waiting : WaitingState T
  queue : Queue

/-- When the queue is as long as at the last look, it holds what it held then, a tick older. -/
structure Look.SeesSame (look : Look T) (seen : Option (List Queued)) : Prop where
  regular : look.waiting.Regular
  since_le : ∀ q ∈ look.queue.items, q.since ≤ u16Max
  same : ∀ events ∈ seen, look.queue.items.length = look.waiting.prevQueueLen →
    look.queue.items = olderEvents events

/-- What a decision has seen of the queue: nothing yet, or events that are undecided. -/
def Remembers (w : WaitingState T) (seen : Option (List Queued)) : Prop :=
  match seen with
  | none => w.prevQueueLen = queueLenMax
  | some events => w.Regular → w.Undecided events ∧ ∀ q ∈ events, q.since ≤ u16Max

theorem olderEvents_since (queued : List Queued) : ∀ q ∈ olderEvents queued, q.since ≤ u16Max := by
  intro q hq
  rcases List.mem_map.mp hq with ⟨q₀, _, rfl⟩
  exact satAdd_le _ _

namespace Remembers

variable {w : WaitingState T} {seen : Option (List Queued)} {look : Look T}

/-- A look is a full evaluation. -/
theorem tickWt_eq (overflowChecks : Bool) (h : Remembers look.waiting seen)
    (hsame : look.SeesSame seen) :
    look.waiting.tickWt overflowChecks look.queue =
      look.waiting.tickWtFull overflowChecks look.queue := by
  refine WaitingState.tickWt_eq_full overflowChecks hsame.regular fun hlen htimeout => ?_
  cases seen with
  | none => exact absurd (hlen.trans h) (WaitingState.length_ne_queueLenMax look.queue)
  | some events =>
    rw [hsame.same events rfl hlen]
    have hpos : 0 < look.waiting.timeout := by
      have hsub : look.waiting.older.timeout = look.waiting.timeout - 1 := rfl
      omega
    exact (h hsame.regular).1.older hsame.regular hpos

/-- A hold-tap that is passed over in a tick. -/
theorem pass {cfg : HoldTapConfig} (h : Remembers w seen) (hconfig : w.config = .holdTap cfg) :
    Remembers w (seen.map olderEvents) := by
  cases seen with
  | none => exact h
  | some events =>
    intro hw
    rcases h hw with ⟨hundecided, hsince⟩
    exact ⟨hundecided.pass hw hconfig hsince, olderEvents_since events⟩

end Remembers

/-- A look that decides nothing is remembered. -/
structure Look.Undecided (look : Look T) (t : Ticked T) : Prop where
  queued : t.queued = look.queue
  id : t.waiting.id = look.waiting.id
  holdTap : ∀ cfg, look.waiting.config = .holdTap cfg → t.waiting.config = .holdTap cfg
  remembers : Remembers t.waiting (some look.queue.items)

theorem Look.SeesSame.undecided {overflowChecks : Bool} {look : Look T}
    {seen : Option (List Queued)} {t : Ticked T} (hsame : look.SeesSame seen)
    (h : look.waiting.tickWtFull overflowChecks look.queue = .ok t) (hpending : t.decision = none) :
    look.Undecided t := by
  rcases WaitingState.undecided_of_full hsame.regular h hpending
    with ⟨hqueue, hid, hkind, hundecided⟩
  exact ⟨hqueue, hid, hkind, fun _ => ⟨hundecided, hsame.since_le⟩⟩

end Kanata
