import Kanata.HoldTap.Batching

/-!
# Kanata.HoldTap.Delayed — a hold-tap that was queued behind another decision

The press of a plain `tap-hold` may wait in the queue, and so may its release. Once
the press gets its turn the key is decided in the next tick, from the two ages. A
tick that hands over a custom release or performs an action of the action queue
ends before the queue ages, so `Queued.through` follows an event through ticks of
either kind.
-/

namespace Kanata

variable {C R T : Type}

/-! ## Ages in the queue -/

/-- An event after some ticks in the queue. Each tick ages the queue, or ends
before it gets there. -/
def Queued.through (q : Queued) : List Bool → Queued
  | [] => q
  | ages :: ticks => (if ages then q.tickQd else q).through ticks

@[simp] theorem Queued.through_event (q : Queued) :
    ∀ ticks : List Bool, (q.through ticks).event = q.event
  | [] => rfl
  | true :: ticks => q.tickQd.through_event ticks
  | false :: ticks => q.through_event ticks

/-- The age saturates. -/
theorem Queued.through_since :
    ∀ (ticks : List Bool) {q : Queued}, q.since ≤ u16Max →
      (q.through ticks).since = min (q.since + ticks.count true) u16Max
  | [], q, h => by
    show q.since = min (q.since + 0) u16Max
    omega
  | true :: ticks, q, h => by
    have ih := through_since ticks (q := q.tickQd) (satAdd_le _ _)
    show (q.tickQd.through ticks).since = _
    rw [ih, List.count_cons_self]
    simp only [tickQd, satAdd]
    omega
  | false :: ticks, q, h => by
    have ih := through_since ticks h
    show (q.through ticks).since = _
    rw [ih, List.count_cons_of_ne (by simp)]

/-! ## The first tick of the waiting state -/

namespace WaitingState

/-- Without a mode and without a timeout reset, the release in the queue decides. -/
theorem handleHoldTap_released {w : WaitingState T} {queued : List Queued} {q : Queued}
    (hreset : w.onPressResetTimeoutTo = none) (hnew : queued.length ≠ w.prevQueueLen)
    (hq : queued.find? (fun s => w.isCorrespondingRelease s.event) = some q) :
    (w.handleHoldTap .default queued).2 =
      some (if w.delay - q.since ≤ w.timeout then .tap else .timeout) := by
  have hslow : ¬ (queued.length = w.prevQueueLen ∧ w.timeout > 0) := by
    rintro ⟨hlen, _⟩
    exact hnew hlen
  have hresetTimeout : w.resetTimeout queued = w := by
    unfold resetTimeout
    rw [hreset]
  have hq' : queued.find? (fun s =>
      ({ w with prevQueueLen := queued.length } : WaitingState T).isCorrespondingRelease
        s.event) = some q := hq
  unfold handleHoldTap
  rw [hresetTimeout, if_neg hslow]
  simp only [modeDecision]
  unfold releaseOrTimeout
  rw [hq']
  by_cases htime : w.delay - q.since ≤ w.timeout
  · simp only [ge_iff_le, if_pos htime]
  · simp only [ge_iff_le, if_neg htime]

end WaitingState

section Delayed

variable {overflowChecks quick : Bool} {ht : HoldTapAction (Action T)} {coord : KCoord}
  {delay id : Nat} {layerStack : List Nat} {queue : Queue} {q : Queued}

open Layout (holdTapWaiting)
open WaitingState

/-- A queue never has the length that a new waiting state remembers. -/
theorem Queue.length_ne_max (queue : Queue) : queue.items.length ≠ queueLenMax := by
  have hle := queue.length_le
  have hmax : queueLenMax = 255 ∧ queueSize = 32 := ⟨rfl, rfl⟩
  omega

/-- The release of a new waiting key decides it in its first tick. With the quick
timeout, part of the delay is taken off both sides of the comparison. -/
theorem holdTapWaiting_released (hcfg : ht.config = .default)
    (hreset : ht.onPressResetTimeoutTo = none)
    (hq : queue.items.find? (fun s => s.event == .release coord.1 coord.2) = some q) :
    firstDecision overflowChecks (holdTapWaiting quick ht coord delay layerStack id) queue [none] =
      pure (some (if delay - satAdd q.since 1 ≤ ht.timeout - 1 then .tap else .timeout)) := by
  let w := holdTapWaiting quick ht coord delay layerStack id
  have hfind : (queue.map Queued.tickQd).items.find?
      (fun s => w.older.isCorrespondingRelease s.event) = some q.tickQd := by
    have hsame : (fun s : Queued => w.older.isCorrespondingRelease s.event) ∘ Queued.tickQd =
        fun s => s.event == .release coord.1 coord.2 := by
      funext s
      show w.isCorrespondingRelease s.event = _
      cases s.event with
      | press i j => rfl
      | release i j =>
        show ((i, j) == coord) = _
        rw [Bool.eq_iff_iff]
        simp [Prod.ext_iff]
    rw [Bounded.map_items, List.find?_map, hsame, hq]
    rfl
  have hnew : (queue.map Queued.tickQd).items.length ≠ w.older.prevQueueLen := by
    rw [Bounded.map_items, List.length_map]
    exact queue.length_ne_max
  have hdecided := handleHoldTap_released (w := w.older) hreset hnew hfind
  have hcompare : w.older.delay - q.tickQd.since ≤ w.older.timeout ↔
      delay - satAdd q.since 1 ≤ ht.timeout - 1 := by
    show w.delay - satAdd q.since 1 ≤ w.timeout - 1 ↔ _
    unfold w holdTapWaiting
    cases quick with
    | true =>
      simp only [if_true]
      omega
    | false =>
      simp only [Bool.false_eq_true, if_false]
      omega
  have hconfig : w.config = .holdTap .default := congrArg WaitingConfig.holdTap hcfg
  unfold firstDecision arrive
  simp only
  rw [tickWt_of_config hconfig, hdecided]
  simp only [pure_bind, Option.map_some, hcompare]

/-! ## The timing law -/

/-- The press came, then after the ticks of `between` the release, then after those
of `later` the press got its turn: the decision of the key in its first tick. -/
def delayedDecision (overflowChecks quick : Bool) (ht : HoldTapAction (Action T)) (coord : KCoord)
    (layerStack : List Nat) (id : Nat) (queue : Queue) (between later : List Bool) :
    Rust (Option WaitingAction) :=
  let press := (Queued.newPress coord.1 coord.2).through (between ++ later)
  firstDecision overflowChecks (holdTapWaiting quick ht coord press.since layerStack id) queue
    [none]

/-- The first release of the key in the queue came before the ticks of `later`. -/
def ReleasedBefore (coord : KCoord) (queue : Queue) (later : List Bool) : Prop :=
  ∃ origin, queue.items.find? (fun s => s.event == .release coord.1 coord.2) =
    some ((⟨.release coord.1 coord.2, 0, origin⟩ : Queued).through later)

/-- The comparison of two ages that saturate. -/
theorem saturated_le_iff {b l t : Nat} (ht : 0 < t) :
    min (b + l) u16Max - satAdd (min l u16Max) 1 ≤ t - 1 ↔ b ≤ t ∨ u16Max ≤ t + l := by
  unfold satAdd
  generalize u16Max = m
  omega

/-- What the ages make of the release: it counts as a tap when at most the timeout
passed in ticks that age the queue, and also when its own age and the timeout are
as much as an age can be. -/
theorem delayedDecision_eq {between later : List Bool} (hcfg : ht.config = .default)
    (hreset : ht.onPressResetTimeoutTo = none) (hpos : 0 < ht.timeout)
    (hrelease : ReleasedBefore coord queue later) :
    delayedDecision overflowChecks quick ht coord layerStack id queue between later =
      pure (some (if between.count true ≤ ht.timeout ∨ u16Max ≤ ht.timeout + later.count true
        then .tap else .timeout)) := by
  rcases hrelease with ⟨origin, hfind⟩
  have hpress := Queued.through_since (between ++ later)
    (q := .newPress coord.1 coord.2) (Nat.zero_le _)
  have hsince := Queued.through_since later
    (q := ⟨.release coord.1 coord.2, 0, origin⟩) (Nat.zero_le _)
  unfold delayedDecision
  simp only
  rw [holdTapWaiting_released hcfg hreset hfind, hpress, hsince, List.count_append]
  simp only [Queued.newPress, Nat.zero_add]
  congr 2
  exact if_congr (saturated_le_iff hpos) rfl rfl

/-- For every plain tap-hold and every release that was queued before its key got its
turn: the key is a tap exactly when the release came within the timeout, with both
settings alike, if and only if the release came within the timeout, or it came too
late even without the ticks that do not age the queue, and its age then left room
for the timeout. -/
theorem delayed_release {between later : List Bool} (hcfg : ht.config = .default)
    (hreset : ht.onPressResetTimeoutTo = none) (hpos : 0 < ht.timeout)
    (hrelease : ReleasedBefore coord queue later) :
    let decision := fun quick =>
      delayedDecision overflowChecks quick ht coord layerStack id queue between later
    ((∀ quick, decision quick =
        pure (some (if between.length ≤ ht.timeout then .tap else .timeout))) ∧
      decision false = decision true) ↔
      between.length ≤ ht.timeout ∨
        ht.timeout < between.count true ∧ ht.timeout + later.count true < u16Max := by
  intro decision
  have hdecision : ∀ quick, decision quick =
      pure (some (if between.count true ≤ ht.timeout ∨ u16Max ≤ ht.timeout + later.count true
        then .tap else .timeout)) := by
    intro quick
    exact delayedDecision_eq hcfg hreset hpos hrelease
  have hcount : between.count true ≤ between.length := List.count_le_length
  constructor
  · rintro ⟨hlaw, _⟩
    have hfalse := (hdecision false).symm.trans (hlaw false)
    by_cases hin : between.length ≤ ht.timeout
    · exact .inl hin
    · rw [if_neg hin] at hfalse
      by_cases htap : between.count true ≤ ht.timeout ∨ u16Max ≤ ht.timeout + later.count true
      · rw [if_pos htap] at hfalse
        cases hfalse
      · omega
  · intro hcond
    constructor
    · intro quick
      rw [hdecision]
      congr 2
      refine if_congr ?_ rfl rfl
      omega
    · rw [hdecision, hdecision]

end Delayed

/-! ## A key that was queued for more than a minute -/

theorem thousand_le_u16Max : 1000 ≤ u16Max := by
  unfold u16Max
  omega

/-- `(tap-hold 200 1000 a lsft)`, with the actions left out. -/
def tapHold : HoldTapAction (Action Unit) where
  timeout := 1000
  hold := .noOp
  tap := .noOp
  timeoutAction := .noOp
  config := .default
  tapHoldInterval := 200
  onPressResetTimeoutTo := none
  requirePriorIdle := none
  timeout_le := thousand_le_u16Max

/-- The release of the key, and nothing else. -/
def releaseAfter (later : List Bool) : Queue :=
  .ofTake _ [(⟨.release 0 30, 0, none⟩ : Queued).through later]

theorem releaseAfter_releasedBefore (later : List Bool) :
    ReleasedBefore (0, 30) (releaseAfter later) later := by
  refine ⟨none, ?_⟩
  show [_].find? _ = _
  rw [List.find?_singleton, Queued.through_event]
  rfl

/-- A key that is released after 66000 ticks, and gets its turn ten ticks later: with both
settings its timeout is over. -/
theorem delayed_release_long :
    let between := List.replicate 66000 true
    let later := List.replicate 10 true
    delayedDecision true false tapHold (0, 30) [] 0 (releaseAfter later) between later =
        pure (some .timeout) ∧
      delayedDecision true true tapHold (0, 30) [] 0 (releaseAfter later) between later =
        pure (some .timeout) := by
  have hlong : ∀ between later : List Bool, between.length = 66000 →
      between.count true = 66000 → later.count true = 10 → ∀ quick,
        delayedDecision true quick tapHold (0, 30) [] 0 (releaseAfter later) between later =
          pure (some .timeout) := by
    intro between later hlength hcount hlater quick
    have hmax : u16Max = 65535 ∧ tapHold.timeout = 1000 := ⟨rfl, rfl⟩
    have hlate : tapHold.timeout < between.count true ∧
        tapHold.timeout + later.count true < u16Max := ⟨by omega, by omega⟩
    have hdecided := (@delayed_release _ true tapHold (0, 30) 0 [] (releaseAfter later) between
      later rfl rfl (Nat.succ_pos _) (releaseAfter_releasedBefore later)).mpr (.inr hlate)
    have htimeout : ¬ between.length ≤ tapHold.timeout := by omega
    rw [if_neg htimeout] at hdecided
    exact hdecided.1 quick
  have hboth := hlong (List.replicate 66000 true) (List.replicate 10 true) List.length_replicate
    List.count_replicate_self List.count_replicate_self
  exact ⟨hboth false, hboth true⟩

/-- It is a tap, long after its timeout. -/
theorem delayed_release_fails :
    let between := List.replicate 66000 true
    let later := List.replicate 65070 true
    ¬ (between.length ≤ tapHold.timeout) ∧
      delayedDecision true false tapHold (0, 30) [] 0 (releaseAfter later) between later =
        pure (some .tap) := by
  intro between later
  have hbetween : between.length = 66000 := List.length_replicate
  have hlater : later.count true = 65070 := List.count_replicate_self
  have hsat : u16Max ≤ tapHold.timeout + later.count true := by
    have hmax : u16Max = 65535 ∧ tapHold.timeout = 1000 := ⟨rfl, rfl⟩
    omega
  constructor
  · have htimeout : tapHold.timeout = 1000 := rfl
    omega
  · rw [delayedDecision_eq rfl rfl (Nat.succ_pos _) (releaseAfter_releasedBefore later),
      if_pos (.inr hsat)]

end Kanata
