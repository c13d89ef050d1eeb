import Kanata.Keyberon.Action

/-!
# Kanata.Keyberon.Waiting — keys whose action is not decided yet

A hold-tap, a lazy tap-dance or a chord key waits before it acts. This is the
code of `WaitingState`: `tickWt` ages the state, looks at the queue of events
and may decide.

Most decisions of hold-taps go through the queue press by press, and what they
do at a press depends on the press alone and on whether its release is further
back in the queue. That loop is `scanPresses`; a mode is a `PressRule` for every
press.
-/

namespace Kanata

variable {T : Type}

/-! ## Going through the presses of a queue -/

/-- What a decision function does at a press. -/
inductive PressRule where
  /-- Go on with the next event. -/
  | pass
  | now (a : WaitingAction)
  /-- Decide if the same key is released further back, else go on. -/
  | onRelease (a : WaitingAction)
  /-- Leave the loop without a decision. -/
  | giveUp
deriving DecidableEq, Repr

/-- How the loop over the queue ends. -/
inductive Scan where
  | decided (a : WaitingAction)
  | gaveUp
  | finished
deriving DecidableEq, Repr

/-- `while let Some(q) = queued.next()`, with the rest of the queue at hand. -/
def scanPresses (rule : Queued → PressRule) : List Queued → Scan
  | [] => .finished
  | q :: queued =>
    match q.event with
    | .release _ _ => scanPresses rule queued
    | .press i j =>
      match rule q with
      | .pass => scanPresses rule queued
      | .now a => .decided a
      | .onRelease a =>
        if queued.any fun q => q.event == .release i j then .decided a
        else scanPresses rule queued
      | .giveUp => .gaveUp

def Scan.action : Scan → Option WaitingAction
  | .decided a => some a
  | .gaveUp => none
  | .finished => none

/-! ## Waiting states -/

structure TapDanceState (T : Type) where
  actions : List (Action T)
  timeout : Nat
  numTaps : Nat

inductive WaitingConfig (T : Type) where
  | holdTap (cfg : HoldTapConfig)
  | tapDance (tds : TapDanceState T)
  | chord (group : ChordsGroup (Action T))

/-- `QueueLen::MAX`. -/
def queueLenMax : Nat := 255

structure WaitingState (T : Type) where
  coord : KCoord
  timeout : Nat
  onPressResetTimeoutTo : Option Nat
  delay : Nat
  ticks : Nat
  hold : Action T
  tap : Action T
  timeoutAction : Action T
  config : WaitingConfig T
  layerStack : List Nat
  prevQueueLen : Nat
  /-- History variable, read by no function of the model: the number of the
  waiting state. -/
  id : Nat

/-- `PressedQueue`. -/
abbrev PressedQueue := Bounded queueSize KCoord

/-- `QueuedAction`. Every element that is put in an action queue is `Some`. -/
structure QueuedAction (T : Type) where
  coord : KCoord
  delay : Nat
  action : Action T
  layerStack : List Nat

/-- What a tick of a waiting state gives: the state, the queue of events, the
actions that go to the action queue, and the decision. -/
structure Ticked (T : Type) where
  waiting : WaitingState T
  queued : Queue
  actions : List (QueuedAction T)
  decision : Option (WaitingAction × Option PressedQueue)

namespace WaitingState

def isCorrespondingRelease (w : WaitingState T) (event : Event) : Bool :=
  match event with
  | .release i j => (i, j) == w.coord
  | .press _ _ => false

def isCorrespondingPress (w : WaitingState T) (event : Event) : Bool :=
  match event with
  | .press i j => (i, j) == w.coord
  | .release _ _ => false

/-! ## Hold-tap -/

/-- The part of `handle_hold_tap` that depends on the mode: a decision, and
whether the timeout is skipped. -/
def modeDecision (w : WaitingState T) (cfg : HoldTapConfig) (queued : List Queued) :
    Option WaitingAction × Bool :=
  match cfg with
  | .default => (none, false)
  | .holdOnOtherKeyPress =>
    (if queued.any fun s => s.event.isPress then some .hold else none, false)
  | .order buffer =>
    ((scanPresses (fun q => if w.ticks - q.since < buffer then .pass else .onRelease .hold)
      queued).action, false)
  | .permissiveHold => ((scanPresses (fun _ => .onRelease .hold) queued).action, false)
  | .custom func => func queued w.coord

/-- The part of `handle_hold_tap` after the mode: the release of the key itself,
then the timeout. -/
def releaseOrTimeout (w : WaitingState T) (queued : List Queued) (skipTimeout : Bool) :
    Option WaitingAction :=
  match queued.find? fun s => w.isCorrespondingRelease s.event with
  | some q => if w.timeout ≥ w.delay - q.since then some .tap else some .timeout
  | none => if w.timeout = 0 ∧ skipTimeout = false then some .timeout else none

/-- The timeout starts anew when the last event is a press. -/
def resetTimeout (w : WaitingState T) (queued : List Queued) : WaitingState T :=
  match w.onPressResetTimeoutTo, queued.getLast? with
  | some timeoutResetVal, some last =>
    if last.event.isPress then { w with timeout := timeoutResetVal } else w
  | _, _ => w

def handleHoldTap (w : WaitingState T) (cfg : HoldTapConfig) (queued : List Queued) :
    WaitingState T × Option WaitingAction :=
  if queued.length = w.prevQueueLen ∧ w.timeout > 0 then (w, none)
  else
    let w := { w.resetTimeout queued with prevQueueLen := queued.length }
    match w.modeDecision cfg queued with
    | (some a, _) => (w, some a)
    | (none, skipTimeout) => (w, w.releaseOrTimeout queued skipTimeout)

/-! ## Tap-dance -/

/-- The closure `evict_same_coord_events`. -/
def evictSameCoordEvents (w : WaitingState T) : Nat → List Queued → List Queued
  | _, [] => []
  | releasesToRemove, s :: queued =>
    if w.isCorrespondingRelease s.event then
      if releasesToRemove > 0 then w.evictSameCoordEvents (releasesToRemove - 1) queued
      else s :: w.evictSameCoordEvents releasesToRemove queued
    else if w.isCorrespondingPress s.event then w.evictSameCoordEvents releasesToRemove queued
    else s :: w.evictSameCoordEvents releasesToRemove queued

theorem evictSameCoordEvents_sublist (w : WaitingState T) :
    ∀ (n : Nat) (queued : List Queued), (w.evictSameCoordEvents n queued).Sublist queued
  | _, [] => List.Sublist.refl _
  | n, s :: queued => by
    unfold evictSameCoordEvents
    split
    · split
      · exact (w.evictSameCoordEvents_sublist (n - 1) queued).cons s
      · exact (w.evictSameCoordEvents_sublist n queued).cons_cons s
    · split
      · exact (w.evictSameCoordEvents_sublist n queued).cons s
      · exact (w.evictSameCoordEvents_sublist n queued).cons_cons s

def evict (w : WaitingState T) (numTaps : Nat) (queued : Queue) : Queue :=
  ⟨w.evictSameCoordEvents (numTaps - 1) queued.items,
    Nat.le_trans (w.evictSameCoordEvents_sublist _ _).length_le queued.length_le⟩

/-- The fold that counts the taps, and whether another key ends it. -/
def countTaps (w : WaitingState T) : List Queued → Nat → Nat × Bool
  | [], count => (count, false)
  | s :: queued, count =>
    if w.isCorrespondingPress s.event then w.countTaps queued (count + 1)
    else if s.event.isPress then (count, true)
    else w.countTaps queued count

/-- `handle_tap_dance`: the decision, the taps so far and the queue. -/
def handleTapDance (w : WaitingState T) (numTaps maxTaps : Nat) (queued : Queue) :
    Option WaitingAction × Nat × Queue :=
  if queued.items.length = w.prevQueueLen ∧ w.timeout > 0 then (none, numTaps, queued)
  else if w.timeout = 0 then (some .tap, numTaps, w.evict numTaps queued)
  else
    match w.countTaps queued.items 1 with
    | (numTaps, true) => (some .tap, numTaps, w.evict numTaps queued)
    | (numTaps, false) =>
      if numTaps ≥ maxTaps then (some .tap, numTaps, w.evict numTaps queued)
      else (none, numTaps, queued)

/-! ## Chords -/

/-- The local variables of the fold over the queue in `handle_chord`. `ended` is
its `Err`. -/
structure ChordFold where
  ended : Bool
  active : ChordKeys
  handledPressEvents : Nat
  releasedCoord : Option KCoord
deriving DecidableEq, Repr

/-- The event came too late to take part. -/
def isLate (w : WaitingState T) (s : Queued) : Bool := decide (w.delay - s.since > w.timeout)

def foldChord (w : WaitingState T) (group : ChordsGroup (Action T)) :
    List Queued → ChordFold → ChordFold
  | [], acc => acc
  | s :: queued, acc =>
    if w.isLate s then w.foldChord group queued acc
    else
      match group.getKeys s.event.coord, s.event with
      | some chordKeys, .press _ _ =>
        w.foldChord group queued { acc with
          active := acc.active ||| chordKeys
          handledPressEvents := acc.handledPressEvents + 1 }
      | some _, .release i j => { acc with ended := true, releasedCoord := some (i, j) }
      -- pressed a non-chord key, abort
      | none, .press _ _ => { acc with ended := true }
      | none, .release _ _ => w.foldChord group queued acc

/-- The local variables of the fold in `decompose_chord_into_action_queue`. The
array of the source has room for every event of a queue. -/
structure ChordOrder where
  active : ChordKeys
  chordKeyOrder : List ChordKeys
  defaultAssociatedCoord : KCoord
deriving DecidableEq, Repr

def foldOrder (w : WaitingState T) (group : ChordsGroup (Action T)) :
    List Queued → ChordOrder → ChordOrder
  | [], acc => acc
  | s :: queued, acc =>
    if w.isLate s then w.foldOrder group queued acc
    else
      match group.getKeys s.event.coord, s.event with
      | some chordKeys, .press _ _ =>
        w.foldOrder group queued { acc with
          active := acc.active ||| chordKeys
          chordKeyOrder :=
            if acc.active ||| chordKeys ≠ acc.active then acc.chordKeyOrder ++ [chordKeys]
            else acc.chordKeyOrder }
      -- released a chord key, abort
      | some _, .release i j => { acc with defaultAssociatedCoord := (i, j) }
      -- pressed a non-chord key, abort
      | none, .press _ _ => acc
      | none, .release _ _ => w.foldOrder group queued acc

/-- The closure `get_coord_for_chord`. -/
def getCoordForChord (w : WaitingState T) (group : ChordsGroup (Action T)) (queued : List Queued)
    (defaultAssociatedCoord : KCoord) (mask : ChordKeys) : KCoord :=
  if ((group.getKeys defaultAssociatedCoord).getD 0) &&& mask > 0 then defaultAssociatedCoord
  else if w.coord ≠ defaultAssociatedCoord ∧ ((group.getKeys w.coord).getD 0) &&& mask > 0 then
    w.coord
  else
    match queued.find? fun q => ((group.getKeys q.event.coord).getD 0) &&& mask ≠ 0 with
    | some q => q.event.coord
    | none => defaultAssociatedCoord

/-- The keys of `chord_keys[start..end]` together. -/
def subChordMask (chordKeys : List ChordKeys) (start «end» : Nat) : ChordKeys :=
  ((chordKeys.take «end»).drop start).foldl (· ||| ·) 0

/-- The largest `end` for which the keys from `start` on are a chord. -/
def findSubChord (group : ChordsGroup (Action T)) (chordKeys : List ChordKeys) (start : Nat) :
    Nat → Option (Nat × ChordKeys × Action T)
  | 0 => none
  | n + 1 =>
    if start < n + 1 then
      match group.getChord (subChordMask chordKeys start (n + 1)) with
      | some action => some (n + 1, subChordMask chordKeys start (n + 1), action)
      | none => findSubChord group chordKeys start n
    else none

/-- The loop `while start < len`. Each iteration advances `start`, so the length
of the array is fuel enough. -/
def decomposeLoop (group : ChordsGroup (Action T)) (coordFor : ChordKeys → KCoord) (delay : Nat)
    (chordKeys : List ChordKeys) : Nat → Nat → List (QueuedAction T)
  | 0, _ => []
  | fuel + 1, start =>
    if start < chordKeys.length then
      match findSubChord group chordKeys start chordKeys.length with
      | some («end», mask, action) =>
        ⟨coordFor mask, delay, action, []⟩ ::
          decomposeLoop group coordFor delay chordKeys fuel «end»
      | none => decomposeLoop group coordFor delay chordKeys fuel (start + 1)
    else []

def decomposeChordIntoActionQueue (overflowChecks : Bool) (w : WaitingState T)
    (group : ChordsGroup (Action T)) (queued : List Queued) : Rust (List (QueuedAction T)) := do
  let startingMask := (group.getKeys w.coord).getD 0
  let order := w.foldOrder group queued ⟨startingMask, [startingMask], w.coord⟩
  let delay ← addU16 overflowChecks w.delay w.ticks
  pure (decomposeLoop group (w.getCoordForChord group queued order.defaultAssociatedCoord) delay
    order.chordKeyOrder order.chordKeyOrder.length 0)

/-- `queued.retain` at the end of `handle_chord`: the presses that were handled
leave the queue for the pressed queue. -/
def takeHandled (w : WaitingState T) (group : ChordsGroup (Action T)) :
    Nat → List Queued → PressedQueue → List Queued × PressedQueue
  | _, [], pq => ([], pq)
  | handled, s :: queued, pq =>
    if !w.isLate s && s.event.isPress && (group.getKeys s.event.coord).isSome && 0 < handled then
      w.takeHandled group (handled - 1) queued (pq.pushIgnore s.event.coord)
    else
      let (rest, pq) := w.takeHandled group handled queued pq
      (s :: rest, pq)

theorem takeHandled_sublist (w : WaitingState T) (group : ChordsGroup (Action T)) :
    ∀ (handled : Nat) (queued : List Queued) (pq : PressedQueue),
      (w.takeHandled group handled queued pq).1.Sublist queued
  | _, [], _ => List.Sublist.refl _
  | handled, s :: queued, pq => by
    unfold takeHandled
    split
    · exact (w.takeHandled_sublist group (handled - 1) queued _).cons s
    · exact (w.takeHandled_sublist group handled queued pq).cons_cons s

/-- What `handle_chord` gives when it decides. -/
structure ChordDecision (T : Type) where
  decision : WaitingAction
  action : Action T
  coord : KCoord
  queued : Queue
  pressed : PressedQueue
  actions : List (QueuedAction T)

/-- The end of `handle_chord`, with the outcome of the fold. -/
def finishChord (w : WaitingState T) (group : ChordsGroup (Action T)) (queued : Queue)
    (fold : ChordFold) (decision : WaitingAction) (action : Action T)
    (actions : List (QueuedAction T)) : ChordDecision T :=
  let taken := w.takeHandled group fold.handledPressEvents queued.items (.ofTake _ [w.coord])
  { decision, action, actions
    coord := if decision = .noOp then w.coord else fold.releasedCoord.getD w.coord
    queued := ⟨taken.1, Nat.le_trans (w.takeHandled_sublist group _ _ _).length_le queued.length_le⟩
    pressed := taken.2 }

/-- `handle_chord` past its fast path. -/
def handleChord (overflowChecks : Bool) (w : WaitingState T) (group : ChordsGroup (Action T))
    (queued : Queue) : Rust (Option (ChordDecision T)) :=
  let fold := w.foldChord group queued.items ⟨false, (group.getKeys w.coord).getD 0, 0, none⟩
  if fold.ended = false ∧ w.timeout - w.delay > 0 then
    -- chording mode still active, only trigger the action if it is unambiguous
    match group.getChordIfUnambiguous fold.active with
    | some action => pure (some (w.finishChord group queued fold .tap action []))
    | none => pure none
  else
    -- abort chording mode, trigger a chord action if there is one
    match group.getChord fold.active with
    | some action => pure (some (w.finishChord group queued fold .tap action []))
    | none => do
      let actions ← w.decomposeChordIntoActionQueue overflowChecks group queued.items
      pure (some (w.finishChord group queued fold .noOp .noOp actions))

/-! ## The tick -/

/-- `xs[i]`. -/
def indexInto {α : Type} (xs : List α) (i : Nat) (msg : String) : Rust α :=
  match xs[i]? with
  | some x => pure x
  | none => panicWith msg

/-- The tap action once the tap-dance is decided. -/
def decidedTap (w : WaitingState T) (tds : TapDanceState T) (numTaps : Nat)
    (ret : Option WaitingAction) : Rust (Action T) :=
  match ret with
  | some _ =>
    indexInto tds.actions (min numTaps tds.actions.length - 1)
      "index out of bounds: tap-dance actions"
  | none => pure w.tap

def tickTapDance (w : WaitingState T) (tds : TapDanceState T) (queued : Queue) :
    Rust (Ticked T) := do
  let (ret, numTaps, queued) := w.handleTapDance tds.numTaps tds.actions.length queued
  let tap ← w.decidedTap tds numTaps ret
  pure {
    waiting := { w with
      prevQueueLen := queued.items.length
      tap
      timeout := if numTaps > tds.numTaps then tds.timeout else w.timeout
      config := .tapDance { tds with numTaps } }
    queued
    actions := []
    decision := ret.map fun a => (a, none) }

def tickChord (overflowChecks : Bool) (w : WaitingState T) (group : ChordsGroup (Action T))
    (queued : Queue) : Rust (Ticked T) :=
  if queued.items.length = w.prevQueueLen ∧ w.timeout - w.delay > 0 then
    pure ⟨w, queued, [], none⟩
  else do
    let w := { w with prevQueueLen := queued.items.length }
    match ← w.handleChord overflowChecks group queued with
    | none => pure ⟨w, queued, [], none⟩
    | some d =>
      pure ⟨{ w with coord := d.coord, tap := d.action }, d.queued, d.actions,
        some (d.decision, some d.pressed)⟩

/-- `tick_wt`. -/
def tickWt (overflowChecks : Bool) (w : WaitingState T) (queued : Queue) : Rust (Ticked T) :=
  let w := { w with timeout := w.timeout - 1, ticks := satAdd w.ticks 1 }
  match w.config with
  | .holdTap htc =>
    let (w, decision) := w.handleHoldTap htc queued.items
    pure ⟨w, queued, [], decision.map fun a => (a, none)⟩
  | .tapDance tds => w.tickTapDance tds queued
  | .chord group => w.tickChord overflowChecks group queued

end WaitingState

/-! ## Keys that are never dropped -/

/-- The decision function of a hold-tap does not drop the press. -/
def HoldTapConfig.NeverDrops (cfg : HoldTapConfig) : Prop :=
  ∀ func, cfg = .custom func → ∀ (qs : List Queued) (coord : KCoord), (func qs coord).1 ≠ some .noOp

/-- At a press the rule may decide to drop the key. -/
def PressRule.drops : PressRule → Bool
  | .now .noOp => true
  | .onRelease .noOp => true
  | _ => false

/-- The loop decides only for what the presses decide for. -/
theorem scanPresses_ne_noOp {rule : Queued → PressRule} (hrule : ∀ q, (rule q).drops = false) :
    ∀ queued : List Queued, (scanPresses rule queued).action ≠ some .noOp
  | [], h => by cases h
  | q :: queued, h => by
    have ih := scanPresses_ne_noOp hrule queued
    have hq := hrule q
    unfold scanPresses at h
    split at h
    · exact ih h
    · split at h
      · exact ih h
      · rename_i hnow
        cases h
        rw [hnow] at hq
        cases hq
      · rename_i honRelease
        split at h
        · cases h
          rw [honRelease] at hq
          cases hq
        · exact ih h
      · cases h

namespace WaitingState

variable {w : WaitingState T}

theorem modeDecision_ne_noOp {cfg : HoldTapConfig} {queued : List Queued}
    (hdrops : cfg.NeverDrops) : (w.modeDecision cfg queued).1 ≠ some .noOp := by
  cases cfg with
  | default => simp [modeDecision]
  | holdOnOtherKeyPress =>
    unfold modeDecision
    dsimp only
    split
    · simp
    · simp
  | order buffer =>
    refine scanPresses_ne_noOp (fun q => ?_) queued
    split <;> rfl
  | permissiveHold => exact scanPresses_ne_noOp (fun _ => rfl) queued
  | custom func => exact hdrops func rfl queued w.coord

theorem releaseOrTimeout_ne_noOp (queued : List Queued) (skipTimeout : Bool) :
    w.releaseOrTimeout queued skipTimeout ≠ some .noOp := by
  unfold releaseOrTimeout
  split
  · split <;> simp
  · split <;> simp

theorem handleHoldTap_ne_noOp {cfg : HoldTapConfig} {queued : List Queued}
    (hdrops : cfg.NeverDrops) : (w.handleHoldTap cfg queued).2 ≠ some .noOp := by
  unfold handleHoldTap
  split
  · simp
  · dsimp only
    generalize ({ w.resetTimeout queued with prevQueueLen := queued.length } : WaitingState T) = w'
    have hmode : (w'.modeDecision cfg queued).1 ≠ some .noOp := modeDecision_ne_noOp hdrops
    split
    · rename_i a skip hdecision
      rw [hdecision] at hmode
      exact hmode
    · exact releaseOrTimeout_ne_noOp queued _

end WaitingState

end Kanata
