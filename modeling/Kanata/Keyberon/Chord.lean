import Kanata.Keyberon.Event

/-!
# Kanata.Keyberon.Chord — chords v2

The code of `keyberon/src/chord.rs`: events of real keys wait in a queue while
they can still become a chord. `tickChv2` ages the queue, decides, and returns
the events that leave; `getActionChv2` hands out the action of an activated
chord.

The part of `ChordsV2` that never changes is `ChordsConfig`. `debug_assert!` is
compiled into some builds only, which the configuration records.
-/

namespace Kanata.Chord

/-- `TRIGGER_TAPHOLD_COORD`. -/
def triggerTapholdCoord : KCoord := (0, 0)

inductive ReleaseBehaviour where
  | onFirstRelease
  | onLastRelease
deriving DecidableEq, Repr

/-- A chord, as the parser accepts it. `A` is the type of actions. -/
structure ChordV2 (A : Type) where
  action : A
  participatingKeys : List Nat
  pendingDuration : Nat
  disabledLayers : List Nat
  releaseBehaviour : ReleaseBehaviour
  two_le : 2 ≤ participatingKeys.length
  pending_le : pendingDuration ≤ u16Max
deriving DecidableEq, Repr

/-- A chord of two keys on all layers. -/
def ChordV2.pair {A : Type} (action : A) (key₁ key₂ pendingDuration : Nat) : ChordV2 A where
  action := action
  participatingKeys := [key₁, key₂]
  pendingDuration := min pendingDuration u16Max
  disabledLayers := []
  releaseBehaviour := .onFirstRelease
  two_le := Nat.le_refl 2
  pending_le := Nat.min_le_right pendingDuration u16Max

structure ChordsForKeys (A : Type) where
  mapping : Nat → Option (List (ChordV2 A))

/-- `SMOL_Q_LEN`. -/
def smolQLen : Nat := 16

abbrev SmolQueue := Bounded smolQLen Queued

inductive ActiveChordStatus where
  | unread
  | unreadReleased
  | releasable
  | released
deriving DecidableEq, Repr

/-- A press with the time it has waited, the element of the scan's vectors. -/
structure PressWithTime where
  key : Nat
  since : Nat
  /-- History variable: the number of the arrival. -/
  origin : Option Nat
deriving DecidableEq, Repr

/-- What happened to a chord since its activation. These are history variables:
every function carries them along and none reads them. -/
structure ChordHistory where
  /-- The presses that completed the chord. -/
  presses : List PressWithTime
  /-- The releases of participating keys that were counted. -/
  releases : List Queued
  /-- How often the action was handed out. -/
  handedOut : Nat
  /-- The release behaviour of the chord. -/
  releaseBehaviour : ReleaseBehaviour
deriving DecidableEq, Repr

structure ActiveChord (A : Type) where
  coordinate : Nat
  remainingKeysToRelease : Bounded smolQLen Nat
  participatingKeys : List Nat
  action : A
  status : ActiveChordStatus
  delay : Nat
  history : ChordHistory
deriving DecidableEq, Repr

/-- `tick_ach`. -/
def tickAch {A : Type} (acc : ActiveChord A) : ActiveChord A :=
  { acc with delay := satAdd acc.delay 1 }

/-- The capacity of `active_chords`. -/
def activeChordsLen : Nat := 10

/-- The least `configured_ticks_to_ignore_chord` that the parser accepts. -/
def minTicksToIgnoreChord : Nat := 5

theorem five_le_minTicks : 5 ≤ minTicksToIgnoreChord := Nat.le_refl 5

structure ChordsConfig (A : Type) where
  chords : ChordsForKeys A
  configuredTicksToIgnoreChord : Nat
  debugAssertions : Bool
  ticks_ge : 5 ≤ configuredTicksToIgnoreChord

structure ChordsV2 (A : Type) where
  queue : Queue
  activeChords : Bounded activeChordsLen (ActiveChord A)
  ticksToIgnoreChord : Nat
  ticksUntilNextStateChange : Nat
  prevActiveLayer : Nat
  prevQueueLen : Nat
  nextCoord : Nat
deriving DecidableEq, Repr

variable {A : Type}

/-- `debug_assert!(c, msg)`. -/
def debugAssert (cfg : ChordsConfig A) (c : Bool) (msg : String) : Rust Unit :=
  assertThat (!cfg.debugAssertions || c) msg

namespace ChordsV2

def new : ChordsV2 A where
  queue := .empty
  activeChords := .empty
  ticksToIgnoreChord := 0
  ticksUntilNextStateChange := 0
  prevActiveLayer := u16Max
  prevQueueLen := 255
  nextCoord := keyMax + 1

def isIdleChv2 (s : ChordsV2 A) : Bool := s.queue.items.isEmpty && s.activeChords.items.isEmpty

def pushBackChv2 (s : ChordsV2 A) (item : Queued) : ChordsV2 A × Option Queued :=
  let (queue, overflow) := s.queue.pushBack item
  ({ s with queue }, overflow)

/-! ## Handing out actions -/

/-- `QueuedAction` without its layer stack, which is always the default here. -/
abbrev QueuedAction (A : Type) := Option (KCoord × Nat × A)

/-- The status of a chord once its action is handed out, if it is due. -/
def ActiveChordStatus.read : ActiveChordStatus → Option ActiveChordStatus
  | .unread => some .releasable
  | .unreadReleased => some .released
  | .releasable => none
  | .released => none

def handOut (ach : ActiveChord A) (status : ActiveChordStatus) : ActiveChord A :=
  { ach with
    status
    history := { ach.history with handedOut := ach.history.handedOut + 1 } }

/-- The search of `get_action_chv2` for the first chord that is due. -/
def findUnread : List (ActiveChord A) → List (ActiveChord A) × QueuedAction A
  | [] => ([], none)
  | ach :: achs =>
    match ActiveChordStatus.read ach.status with
    | some status => (handOut ach status :: achs, some ((0, ach.coordinate), ach.delay, ach.action))
    | none =>
      let (achs', action) := findUnread achs
      (ach :: achs', action)

theorem findUnread_length (achs : List (ActiveChord A)) :
    (findUnread achs).1.length = achs.length := by
  induction achs with
  | nil => rfl
  | cons ach achs ih =>
    simp only [findUnread]
    split <;> simp [ih]

def getActionChv2 (s : ChordsV2 A) : ChordsV2 A × QueuedAction A :=
  let found := findUnread s.activeChords.items
  ({ s with activeChords := ⟨found.1, by
      rw [findUnread_length]; exact s.activeChords.length_le⟩ }, found.2)

/-! ## Draining -/

/-- The next value of `next_coord`: the virtual coordinates wrap after fifty. -/
def coordAfter (coord : Nat) : Nat := if coord + 1 > keyMax + 50 then keyMax + 1 else coord + 1

/-- The status of a chord whose keys are released. -/
def ActiveChordStatus.release : ActiveChordStatus → ActiveChordStatus
  | .unread => .unreadReleased
  | .unreadReleased => .unreadReleased
  | .releasable => .released
  | .released => .released

/-- Release the key `j` of an event from an active chord. -/
def releaseKey (qd : Queued) (j : Nat) (ach : ActiveChord A) : ActiveChord A :=
  if !ach.participatingKeys.contains j then ach
  else
    let remaining := ach.remainingKeysToRelease.retain (· != j)
    { ach with
      remainingKeysToRelease := remaining
      status := if remaining.items.isEmpty then ActiveChordStatus.release ach.status
        else ach.status
      history := { ach.history with releases := ach.history.releases ++ [qd] } }

/-- The loop of `drain_without_new_activations`. -/
def drainAll : List Queued → Bounded activeChordsLen (ActiveChord A) → SmolQueue →
    Bounded activeChordsLen (ActiveChord A) × SmolQueue
  | [], achs, drainq => (achs, drainq)
  | qd :: qds, achs, drainq =>
    let achs := match qd.event with
      | .release _ j => achs.map (releaseKey qd j)
      | .press _ _ => achs
    drainAll qds achs (drainq.pushBack qd).1

def drainWithoutNewActivations (s : ChordsV2 A) (drainq : SmolQueue) : ChordsV2 A × SmolQueue :=
  let (activeChords, drainq) := drainAll s.queue.items s.activeChords drainq
  ({ s with activeChords, queue := .empty }, drainq)

/-- Only row 0 is real inputs. -/
def isReal (qd : Queued) : Bool := qd.event.coord.1 == 0

/-- The pushes of `drain_virtual_keys`. -/
def drainVirtual : List Queued → SmolQueue → Rust SmolQueue
  | [], drainq => pure drainq
  | qd :: qds, drainq =>
    if isReal qd then drainVirtual qds drainq
    else do
      let (drainq, overflow) := drainq.pushBack qd
      assertThat overflow.isNone "oops overflowed drain queue"
      drainVirtual qds drainq

def drainVirtualKeys (s : ChordsV2 A) (drainq : SmolQueue) : Rust (ChordsV2 A × SmolQueue) := do
  let drainq ← drainVirtual s.queue.items drainq
  pure ({ s with queue := s.queue.retain isReal }, drainq)

/-- What the loop of `drain_releases` works on; `kept` is the part of the queue
that stays. -/
structure DrainReleases (A : Type) where
  presses : Bounded smolQLen Nat
  achs : Bounded activeChordsLen (ActiveChord A)
  drainq : SmolQueue
  kept : List Queued

def drainRelease (cfg : ChordsConfig A) (st : DrainReleases A) (qd : Queued) :
    Rust (DrainReleases A) :=
  match qd.event with
  | .press _ j => do
    debugAssert cfg (st.presses.push j).isSome "assertion failed: overflow.is_ok()"
    pure { st with presses := st.presses.pushIgnore j, kept := st.kept ++ [qd] }
  | .release _ j =>
    if st.presses.items.isEmpty then
      pure { st with
        achs := st.achs.map (releaseKey qd j)
        drainq := (st.drainq.pushBack qd).1 }
    else pure { st with kept := st.kept ++ [qd] }

def drainReleases (cfg : ChordsConfig A) (s : ChordsV2 A) (drainq : SmolQueue) :
    Rust (ChordsV2 A × SmolQueue) := do
  let st ← s.queue.items.foldlM (drainRelease cfg) ⟨.empty, s.activeChords, drainq, []⟩
  pure ({ s with queue := .ofTake queueSize st.kept, activeChords := st.achs }, st.drainq)

/-! ## Deciding -/

/-- The first loop of `process_presses`: the presses up to the first release of
one of them, and whether there is such a release. The source keeps the keys in a
second vector that is pushed to together with this one. -/
def gatherPresses (cfg : ChordsConfig A) :
    List Queued → Bounded smolQLen PressWithTime → Rust (Bounded smolQLen PressWithTime × Bool)
  | [], presses => pure (presses, false)
  | qd :: qds, presses =>
    match qd.event with
    | .press _ j => do
      let press : PressWithTime := ⟨j, qd.since, qd.origin⟩
      debugAssert cfg (presses.push press).isSome "too many presses in queue"
      gatherPresses cfg qds (presses.pushIgnore press)
    | .release _ j =>
      if presses.items.any (·.key == j) then pure (presses, true)
      else gatherPresses cfg qds presses

/-- `get_active_chord`. The presses are for the history only. -/
def getActiveChord (cch : ChordV2 A) (since coord : Nat) (releaseFound : Bool)
    (presses : List PressWithTime) : Rust (ActiveChord A) := do
  let remaining ←
    if cch.releaseBehaviour = .onLastRelease then
      if h : cch.participatingKeys.length ≤ smolQLen then
        pure (⟨cch.participatingKeys, h⟩ : Bounded smolQLen Nat)
      else panicWith "extend: vector is full"
    else pure .empty
  pure {
    coordinate := coord
    remainingKeysToRelease := remaining
    participatingKeys := cch.participatingKeys
    action := cch.action
    status := if releaseFound && cch.releaseBehaviour == .onFirstRelease then .unreadReleased
      else .unread
    delay := since
    history := ⟨presses, [], 0, cch.releaseBehaviour⟩ }

/-- Draw a coordinate and push the chord. -/
def activate (cch : ChordV2 A) (since : Nat) (releaseFound : Bool)
    (presses : List PressWithTime) (s : ChordsV2 A) : Rust (ChordsV2 A) := do
  let ach ← getActiveChord cch since s.nextCoord releaseFound presses
  match s.activeChords.push ach with
  | some activeChords => pure { s with activeChords, nextCoord := coordAfter s.nextCoord }
  | none => panicWith "active chords has room"

/-- `no_chord_activations!`. -/
def noChordActivations (cfg : ChordsConfig A) (s : ChordsV2 A) : ChordsV2 A :=
  { s with ticksToIgnoreChord := cfg.configuredTicksToIgnoreChord }

def isEnabled (activeLayer : Nat) (pch : ChordV2 A) : Bool :=
  !pch.disabledLayers.contains activeLayer

/-- All accumulated presses are of participating keys. -/
def coversPresses (presses : List PressWithTime) (pch : ChordV2 A) : Bool :=
  presses.all fun acp => pch.participatingKeys.contains acp.key

/-- All participating keys are accumulated presses. -/
def allPressed (presses : List PressWithTime) (pch : ChordV2 A) : Bool :=
  pch.participatingKeys.all fun pk => presses.any fun ap => ap.key == pk

/-- The two lists have the same set of keys. -/
def sameKeys (presses : List PressWithTime) (pch : ChordV2 A) : Bool :=
  coversPresses presses pch && allPressed presses pch

/-- The last accumulated press came within the pending duration of the first. -/
def inTime (presses : List PressWithTime) (press : PressWithTime) (pch : ChordV2 A) : Bool :=
  match presses with
  | first :: _ => first.since - press.since ≤ pch.pendingDuration
  | [] => true

/-- `min_timeout` after a pass over some chords. -/
def minTimeout (since : Nat) (chords : List (ChordV2 A)) : Nat :=
  chords.foldl
    (fun t chc => if chc.pendingDuration > since then min t chc.pendingDuration else t) u16Max

/-- The variables of the main loop of `process_presses`. `prevCount` is `none`
for the initial `usize::MAX`. -/
structure PressLoop (A : Type) where
  accumulatedPresses : Bounded smolQLen PressWithTime
  chordCandidates : Bounded smolQLen (ChordV2 A)
  prevCount : Option Nat
  self : ChordsV2 A

/-- The candidates for the presses accumulated: the count, the vector of the
first sixteen of them and the least timeout. -/
def countPossible (possibleChords : List (ChordV2 A)) (activeLayer since : Nat)
    (press : PressWithTime) (accumulated : List PressWithTime) (st : PressLoop A) :
    Nat × Bounded smolQLen (ChordV2 A) × Nat :=
  if st.prevCount = some st.chordCandidates.items.length then
    -- no longer need to check the whole list
    let candidates := st.chordCandidates.retain fun chc =>
      chc.participatingKeys.contains press.key && inTime accumulated press chc
    (candidates.items.length, candidates, minTimeout since candidates.items)
  else
    let possible := (possibleChords.filter (isEnabled activeLayer)).filter fun pch =>
      coversPresses accumulated pch && inTime accumulated press pch
    (possible.length, .ofTake smolQLen possible, minTimeout since possible)

/-- `chords.iter().filter(enabled).find(same keys)`. -/
def findCompleted (activeLayer : Nat) (presses : List PressWithTime)
    (chords : List (ChordV2 A)) : Option (ChordV2 A) :=
  (chords.filter (isEnabled activeLayer)).find? (sameKeys presses)

/-- One iteration of the main loop; the flag says whether it breaks. -/
def pressIteration (cfg : ChordsConfig A) (possibleChords : List (ChordV2 A))
    (activeLayer since : Nat) (relevantReleaseFound : Bool) (st : PressLoop A)
    (press : PressWithTime) : Rust (PressLoop A × Bool) := do
  let accumulated := st.accumulatedPresses.pushIgnore press
  let (count, candidates, timeout) :=
    countPossible possibleChords activeLayer since press accumulated.items st
  let next (self : ChordsV2 A) : PressLoop A × Bool :=
    (⟨accumulated, candidates, some count, { self with
        ticksUntilNextStateChange := if timeout = u16Max then 0 else timeout - since }⟩, false)
  match count with
  | 1 =>
    match candidates.items with
    | [] => panicWith "index out of bounds"
    | cch :: _ =>
      if allPressed accumulated.items cch then do
        let self ← activate cch since relevantReleaseFound accumulated.items st.self
        pure (⟨accumulated, candidates, st.prevCount, self⟩, true)
      else
        -- the coordinate was drawn before the check
        pure (next { st.self with nextCoord := coordAfter st.self.nextCoord })
  | 0 =>
    match findCompleted activeLayer st.accumulatedPresses.items possibleChords with
    | some cch => do
      let self ← activate cch since relevantReleaseFound st.accumulatedPresses.items st.self
      pure (⟨st.accumulatedPresses, .empty, st.prevCount, self⟩, true)
    | none =>
      pure (⟨st.accumulatedPresses, .empty, st.prevCount, noChordActivations cfg st.self⟩, true)
  | _ => pure (next st.self)

def pressLoop (cfg : ChordsConfig A) (possibleChords : List (ChordV2 A))
    (activeLayer since : Nat) (relevantReleaseFound : Bool) :
    PressLoop A → List PressWithTime → Rust (PressLoop A)
  | st, [] => pure st
  | st, press :: rest => do
    let (st, broke) ← pressIteration cfg possibleChords activeLayer since relevantReleaseFound
      st press
    if broke then pure st
    else pressLoop cfg possibleChords activeLayer since relevantReleaseFound st rest

/-- The block after the loop: a timeout or a release decides. -/
def afterLoop (cfg : ChordsConfig A) (possibleChords : List (ChordV2 A))
    (activeLayer since : Nat) (relevantReleaseFound : Bool) (st : PressLoop A) :
    Rust (ChordsV2 A) :=
  if st.self.ticksUntilNextStateChange == 0 || relevantReleaseFound then
    let completedChord :=
      findCompleted activeLayer st.accumulatedPresses.items
        (if st.chordCandidates.isFull then possibleChords else st.chordCandidates.items)
    match completedChord with
    | some cch => activate cch since relevantReleaseFound st.accumulatedPresses.items st.self
    | none => pure (noChordActivations cfg st.self)
  else pure st.self

/-- Whether the final `retain` keeps an event: presses of accumulated keys go. -/
def keepsEvent (accumulated : List PressWithTime) (qd : Queued) : Bool :=
  match qd.event with
  | .press _ j => !accumulated.any (·.key == j)
  | .release _ _ => true

def processPresses (cfg : ChordsConfig A) (activeLayer : Nat) (s : ChordsV2 A) :
    Rust (ChordsV2 A) := do
  let (presses, relevantReleaseFound) ← gatherPresses cfg s.queue.items .empty
  match presses.items with
  | [] => pure s
  | startingPress :: _ =>
    match cfg.chords.mapping startingPress.key with
    | none => pure (noChordActivations cfg s)
    | some possibleChords =>
      match s.queue.items.head? with
      | none => panicWith "called `Option::unwrap()` on a `None` value"
      | some qd => do
        let st ← pressLoop cfg possibleChords activeLayer qd.since relevantReleaseFound
          ⟨.empty, .empty, none, s⟩ presses.items
        let self ← afterLoop cfg possibleChords activeLayer qd.since relevantReleaseFound st
        if self.activeChords.items.length > s.activeChords.items.length then
          pure { self with queue := self.queue.retain (keepsEvent st.accumulatedPresses.items) }
        else pure self

/-! ## The tick -/

/-- The work that `drain_inputs` does when it does not return early. -/
def processInputs (cfg : ChordsConfig A) (activeLayer : Nat) (s : ChordsV2 A)
    (drainq : SmolQueue) : Rust (ChordsV2 A × SmolQueue) := do
  let s := { s with
    ticksUntilNextStateChange := 0
    prevActiveLayer := activeLayer
    prevQueueLen := s.queue.items.length }
  let (s, drainq) ← drainVirtualKeys s drainq
  let (s, drainq) ← drainReleases cfg s drainq
  let s ← processPresses cfg activeLayer s
  pure (s, drainq)

/-- The condition of the early return. -/
def canSkip (activeLayer : Nat) (s : ChordsV2 A) : Bool :=
  s.ticksUntilNextStateChange > 0 && s.prevActiveLayer == activeLayer &&
    s.prevQueueLen == s.queue.items.length

def drainInputs (cfg : ChordsConfig A) (activeLayer : Nat) (s : ChordsV2 A)
    (drainq : SmolQueue) : Rust (ChordsV2 A × SmolQueue) :=
  if s.ticksToIgnoreChord > 0 then pure (drainWithoutNewActivations s drainq)
  else if canSkip activeLayer s then
    pure ({ s with ticksUntilNextStateChange := s.ticksUntilNextStateChange - 1 }, drainq)
  else processInputs cfg activeLayer s drainq

/-- The pushes of `clear_released_chords`. -/
def pushReleased : List (ActiveChord A) → SmolQueue → Rust SmolQueue
  | [], drainq => pure drainq
  | ach :: achs, drainq =>
    if ach.status == .released then do
      let (drainq, overflow) := drainq.pushBack (.newRelease 0 ach.coordinate)
      assertThat overflow.isNone "oops overflowed drain queue"
      pushReleased achs drainq
    else pushReleased achs drainq

def clearReleasedChords (s : ChordsV2 A) (drainq : SmolQueue) : Rust (ChordsV2 A × SmolQueue) := do
  let drainq ← pushReleased s.activeChords.items drainq
  pure ({ s with activeChords := s.activeChords.retain (·.status != .released) }, drainq)

/-- The no-op events that may trigger a tap-hold. -/
def pushTriggers (prevActiveChordLen : Nat) (s : ChordsV2 A) (q : SmolQueue) : SmolQueue :=
  let q := if s.activeChords.items.length != prevActiveChordLen then
      (q.pushBack (.newPress triggerTapholdCoord.1 triggerTapholdCoord.2)).1
    else q
  if s.activeChords.items.any (fun ach => ach.status == .unreadReleased || ach.status == .released)
  then (q.pushBack (.newRelease triggerTapholdCoord.1 triggerTapholdCoord.2)).1
  else q

/-- The ageing at the start of a tick. -/
def age (s : ChordsV2 A) : ChordsV2 A :=
  { s with queue := s.queue.map Queued.tickQd, activeChords := s.activeChords.map tickAch }

/-- `tick_chv2`, with the draining as a parameter. -/
def tickWith (drain : ChordsV2 A → SmolQueue → Rust (ChordsV2 A × SmolQueue)) (s : ChordsV2 A) :
    Rust (ChordsV2 A × SmolQueue) := do
  let prevActiveChordLen := s.activeChords.items.length
  let (s, q) ← drain s.age .empty
  let q := pushTriggers prevActiveChordLen s q
  let (s, q) ← clearReleasedChords s q
  pure ({ s with ticksToIgnoreChord := s.ticksToIgnoreChord - 1 }, q)

def tickChv2 (cfg : ChordsConfig A) (activeLayer : Nat) : ChordsV2 A →
    Rust (ChordsV2 A × SmolQueue) :=
  tickWith (drainInputs cfg activeLayer)

end ChordsV2

end Kanata.Chord
