import Mathlib.Logic.Function.Iterate
import Kanata.Keyberon.Chord
import Kanata.Lib.Fallible

/-!
# Kanata.Chord.Decision — what the scan of the presses decides

The abstract side of `process_presses`. The candidates for some accumulated
presses are the enabled chords that contain them all and whose pending duration
covers the time between the first and the last. `scan` eliminates candidates
press by press, without the vectors, the cached count and the counters of the
source; `decision` says what follows from where it stops.

`processPresses_eq` connects the two: on a queue whose events are in order of
age the code performs the decision.
-/

namespace Kanata.Chord

open Fallible ChordsV2

variable {A : Type}

/-! ## Candidates -/

/-- The time between the first and the last of some presses. -/
def spread : List PressWithTime → Nat
  | [] => 0
  | first :: rest => first.since - (rest.getLastD first).since

/-- The chords that can still come of the presses. -/
def candidates (possibleChords : List (ChordV2 A)) (activeLayer : Nat)
    (presses : List PressWithTime) : List (ChordV2 A) :=
  (possibleChords.filter (isEnabled activeLayer)).filter fun pch =>
    coversPresses presses pch && decide (spread presses ≤ pch.pendingDuration)

/-- The ticks until some candidate times out, 0 if none will. -/
def timer (since : Nat) (chords : List (ChordV2 A)) : Nat :=
  if minTimeout since chords = u16Max then 0 else minTimeout since chords - since

/-- Where the scan stops. -/
inductive Stop (A : Type) where
  /-- All presses are accumulated. -/
  | exhausted
  /-- One candidate was left and its keys are all pressed. -/
  | completed (cch : ChordV2 A)
  /-- No candidate was left; a chord may match the presses before. -/
  | backtracked (cch : Option (ChordV2 A))

structure Scan (A : Type) where
  taken : List PressWithTime
  left : List (ChordV2 A)
  stop : Stop A
  ticksUntil : Nat
  /-- The coordinates drawn for a single candidate that was not complete. -/
  burned : Nat

/-- The chords of the first press. -/
def possibleFor (cfg : ChordsConfig A) (presses : List PressWithTime) :
    Option (List (ChordV2 A)) :=
  presses.head?.bind fun startingPress => cfg.chords.mapping startingPress.key

/-- Eliminate candidates press by press. -/
def scan (possibleChords : List (ChordV2 A)) (activeLayer since : Nat) :
    List PressWithTime → List (ChordV2 A) → Nat → List PressWithTime → Scan A
  | taken, left, ticks, [] => ⟨taken, left, .exhausted, ticks, 0⟩
  | taken, _, ticks, press :: rest =>
    let left := candidates possibleChords activeLayer (taken ++ [press])
    match left with
    | [] => ⟨taken, [], .backtracked (findCompleted activeLayer taken possibleChords), ticks, 0⟩
    | [cch] =>
      if allPressed (taken ++ [press]) cch then
        ⟨taken ++ [press], left, .completed cch, ticks, 0⟩
      else
        let v := scan possibleChords activeLayer since (taken ++ [press]) left
          (timer since left) rest
        { v with burned := v.burned + 1 }
    | _ => scan possibleChords activeLayer since (taken ++ [press]) left (timer since left) rest

/-! ## Decisions -/

/-- The chord that the loop activates. -/
def Scan.inLoop (v : Scan A) : Option (ChordV2 A) :=
  match v.stop with
  | .exhausted => none
  | .completed cch => some cch
  | .backtracked cch => cch

/-- The chord that the block after the loop finds. -/
def Scan.after (possibleChords : List (ChordV2 A)) (activeLayer : Nat) (v : Scan A) :
    Option (ChordV2 A) :=
  findCompleted activeLayer v.taken
    (if smolQLen ≤ v.left.length then possibleChords else v.left)

/-- A timeout or a release decides. -/
def Scan.forced (v : Scan A) (releaseFound : Bool) : Bool := v.ticksUntil == 0 || releaseFound

def Scan.isBacktrackedNone (v : Scan A) : Bool :=
  match v.stop with
  | .backtracked none => true
  | _ => false

structure Decision (A : Type) where
  /-- The chords to activate, in order. -/
  activations : List (ChordV2 A)
  taken : List PressWithTime
  burned : Nat
  ticksUntil : Nat
  /-- Whether chords are ignored for a while. -/
  ignore : Bool

def Scan.decision (possibleChords : List (ChordV2 A)) (activeLayer : Nat) (releaseFound : Bool)
    (v : Scan A) : Decision A where
  activations := v.inLoop.toList ++
    if v.forced releaseFound then (v.after possibleChords activeLayer).toList else []
  taken := v.taken
  burned := v.burned
  ticksUntil := v.ticksUntil
  ignore := v.isBacktrackedNone ||
    (v.forced releaseFound && (v.after possibleChords activeLayer).isNone)

/-- The decision on some presses; `since` is the age of the first queued event
and `ticks` the timer before the call. -/
def decision (cfg : ChordsConfig A) (activeLayer since ticks : Nat) (releaseFound : Bool)
    (presses : List PressWithTime) : Decision A :=
  match presses with
  | [] => ⟨[], [], 0, ticks, false⟩
  | startingPress :: _ =>
    match cfg.chords.mapping startingPress.key with
    | none => ⟨[], [], 0, ticks, true⟩
    | some possibleChords =>
      (scan possibleChords activeLayer since [] [] ticks presses).decision possibleChords
        activeLayer releaseFound

/-! ## Performing a decision -/

/-- The active chord that `get_active_chord` builds when the keys fit. -/
def spawn (cch : ChordV2 A) (since coord : Nat) (releaseFound : Bool)
    (presses : List PressWithTime) : ActiveChord A where
  coordinate := coord
  remainingKeysToRelease :=
    if cch.releaseBehaviour = .onLastRelease then .ofTake smolQLen cch.participatingKeys else .empty
  participatingKeys := cch.participatingKeys
  action := cch.action
  status := if releaseFound && cch.releaseBehaviour == .onFirstRelease then .unreadReleased
    else .unread
  delay := since
  history := ⟨presses, [], 0, cch.releaseBehaviour⟩

/-- The keys of a chord fit in the vector of keys to release. -/
def KeysFit (cch : ChordV2 A) : Prop :=
  cch.releaseBehaviour = .onLastRelease → cch.participatingKeys.length ≤ smolQLen

instance (cch : ChordV2 A) : Decidable (KeysFit cch) := by
  unfold KeysFit; infer_instance

/-- The active chords of some activations, with consecutive coordinates. -/
def spawnAll (since : Nat) (releaseFound : Bool) (presses : List PressWithTime) :
    Nat → List (ChordV2 A) → List (ActiveChord A)
  | _, [] => []
  | coord, cch :: cchs =>
    spawn cch since coord releaseFound presses ::
      spawnAll since releaseFound presses (coordAfter coord) cchs

def activateAll (since : Nat) (releaseFound : Bool) (presses : List PressWithTime) :
    List (ChordV2 A) → ChordsV2 A → Rust (ChordsV2 A)
  | [], s => pure s
  | cch :: cchs, s => do
    let s ← activate cch since releaseFound presses s
    activateAll since releaseFound presses cchs s

def perform (cfg : ChordsConfig A) (since : Nat) (releaseFound : Bool) (d : Decision A)
    (s : ChordsV2 A) : Rust (ChordsV2 A) := do
  let s ← activateAll since releaseFound d.taken d.activations { s with
    nextCoord := coordAfter^[d.burned] s.nextCoord
    ticksUntilNextStateChange := d.ticksUntil }
  let s := if d.ignore then noChordActivations cfg s else s
  pure (if d.activations.isEmpty then s
    else { s with queue := s.queue.retain (keepsEvent d.taken) })

/-! ## The scan of the source -/

/-- The presses are in order of age, oldest first. -/
def InOrder (presses : List PressWithTime) : Prop :=
  presses.Pairwise fun p p' => p'.since ≤ p.since

theorem spread_snoc (first press : PressWithTime) (rest : List PressWithTime) :
    spread (first :: (rest ++ [press])) = first.since - press.since := by
  simp [spread]

theorem inTime_snoc (taken : List PressWithTime) (press : PressWithTime) (pch : ChordV2 A) :
    inTime (taken ++ [press]) press pch =
      decide (spread (taken ++ [press]) ≤ pch.pendingDuration) := by
  cases taken with
  | nil => simp [inTime, spread]
  | cons first rest => rw [List.cons_append, spread_snoc, inTime]

/-- A later press only adds to the time between the first and the last. -/
theorem spread_le_snoc {taken : List PressWithTime} {press : PressWithTime}
    (h : InOrder (taken ++ [press])) : spread taken ≤ spread (taken ++ [press]) := by
  cases taken with
  | nil => simp [spread]
  | cons first rest =>
    have hle : press.since ≤ (rest.getLastD first).since :=
      (List.pairwise_append.mp h).2.2 _ List.getLastD_mem_cons press (by simp)
    rw [List.cons_append, spread_snoc, spread]
    omega

/-- Candidates only ever drop out: the cached vector may be filtered further. -/
theorem candidates_snoc {possibleChords : List (ChordV2 A)} {activeLayer : Nat}
    {taken : List PressWithTime} {press : PressWithTime} (h : InOrder (taken ++ [press])) :
    candidates possibleChords activeLayer (taken ++ [press]) =
      (candidates possibleChords activeLayer taken).filter fun chc =>
        chc.participatingKeys.contains press.key && inTime (taken ++ [press]) press chc := by
  have hle := spread_le_snoc h
  simp only [candidates, List.filter_filter]
  refine List.filter_congr fun chc _ => ?_
  rw [inTime_snoc]
  simp only [coversPresses, List.all_append, List.all_cons, List.all_nil, Bool.and_true]
  by_cases hin : spread (taken ++ [press]) ≤ chc.pendingDuration
  · have : spread taken ≤ chc.pendingDuration := Nat.le_trans hle hin
    simp [hin, this, Bool.and_comm, Bool.and_left_comm]
  · simp [hin]

theorem candidates_filter_snoc (possibleChords : List (ChordV2 A)) (activeLayer : Nat)
    (taken : List PressWithTime) (press : PressWithTime) :
    ((possibleChords.filter (isEnabled activeLayer)).filter fun pch =>
      coversPresses (taken ++ [press]) pch && inTime (taken ++ [press]) press pch) =
      candidates possibleChords activeLayer (taken ++ [press]) := by
  simp only [candidates, inTime_snoc]

/-- The loop variables hold what the scan knows. -/
structure Tracks (possibleChords : List (ChordV2 A)) (activeLayer : Nat) (st : PressLoop A)
    (taken : List PressWithTime) (left : List (ChordV2 A)) : Prop where
  accumulated : st.accumulatedPresses.items = taken
  vector : st.chordCandidates.items = left.take smolQLen
  count : st.prevCount = none ∨
    st.prevCount = some left.length ∧ left = candidates possibleChords activeLayer taken

theorem countPossible_eq {possibleChords : List (ChordV2 A)} {activeLayer : Nat} (since : Nat)
    {press : PressWithTime} {st : PressLoop A} {taken : List PressWithTime}
    {left : List (ChordV2 A)} (htr : Tracks possibleChords activeLayer st taken left)
    (hord : InOrder (taken ++ [press])) :
    countPossible possibleChords activeLayer since press (taken ++ [press]) st =
      ((candidates possibleChords activeLayer (taken ++ [press])).length,
        .ofTake smolQLen (candidates possibleChords activeLayer (taken ++ [press])),
        minTimeout since (candidates possibleChords activeLayer (taken ++ [press]))) := by
  unfold countPossible
  split
  · -- the vector is complete, so filtering it gives the candidates
    rename_i hcount
    rcases htr.count with hnone | ⟨hsome, hleft⟩
    · simp [hnone] at hcount
    · have hlen : left.length ≤ smolQLen := by
        rw [hsome, Option.some.injEq, htr.vector, List.length_take] at hcount
        omega
      have hitems : st.chordCandidates.items = candidates possibleChords activeLayer taken := by
        rw [htr.vector, List.take_of_length_le hlen, hleft]
      have hret : (st.chordCandidates.retain fun chc =>
          chc.participatingKeys.contains press.key && inTime (taken ++ [press]) press chc) =
          .ofTake smolQLen (candidates possibleChords activeLayer (taken ++ [press])) := by
        apply Bounded.ext
        rw [Bounded.retain_items, hitems, ← candidates_snoc hord, Bounded.ofTake_items,
          List.take_of_length_le]
        rw [candidates_snoc hord, ← hleft]
        exact Nat.le_trans (List.length_filter_le _ _) hlen
      have hfull : (candidates possibleChords activeLayer (taken ++ [press])).take smolQLen =
          candidates possibleChords activeLayer (taken ++ [press]) := by
        rw [← Bounded.ofTake_items, ← hret, Bounded.retain_items, hitems, ← candidates_snoc hord]
      simp only [hret, Bounded.ofTake_items, hfull]
  · simp only [candidates_filter_snoc]

/-- What the loop does to the state once it knows where it stops. -/
def Scan.finish (cfg : ChordsConfig A) (since : Nat) (releaseFound : Bool) (v : Scan A)
    (s : ChordsV2 A) : Rust (ChordsV2 A) :=
  let s := { s with
    nextCoord := coordAfter^[v.burned] s.nextCoord
    ticksUntilNextStateChange := v.ticksUntil }
  match v.inLoop with
  | some cch => activate cch since releaseFound v.taken s
  | none => pure (if v.isBacktrackedNone then noChordActivations cfg s else s)

/-- The loop is the scan. By induction on the presses that are left. -/
theorem pressLoop_eq (cfg : ChordsConfig A) {possibleChords : List (ChordV2 A)}
    {activeLayer : Nat} (since : Nat) (releaseFound : Bool) {rest : List PressWithTime}
    {st : PressLoop A} {taken : List PressWithTime} {left : List (ChordV2 A)}
    (htr : Tracks possibleChords activeLayer st taken left)
    (hord : InOrder (taken ++ rest)) (hlen : (taken ++ rest).length ≤ smolQLen) :
    ∃ (acc : Bounded smolQLen PressWithTime) (vec : Bounded smolQLen (ChordV2 A))
      (prev : Option Nat),
      let v := scan possibleChords activeLayer since taken left
        st.self.ticksUntilNextStateChange rest
      acc.items = v.taken ∧ vec.items = v.left.take smolQLen ∧
      pressLoop cfg possibleChords activeLayer since releaseFound st rest =
        (v.finish cfg since releaseFound st.self >>= fun self => pure ⟨acc, vec, prev, self⟩) := by
  induction rest generalizing st taken left with
  | nil => exact ⟨st.accumulatedPresses, st.chordCandidates, st.prevCount, htr.accumulated,
      htr.vector, rfl⟩
  | cons press rest ih =>
    have hord' : InOrder (taken ++ [press]) := by
      rw [List.append_cons] at hord
      exact (List.pairwise_append.mp hord).1
    have hacc : (st.accumulatedPresses.pushIgnore press).items = taken ++ [press] := by
      rw [Bounded.pushIgnore_items, htr.accumulated, List.take_of_length_le]
      simp only [List.length_append, List.length_cons, List.length_nil] at hlen ⊢
      omega
    have hcount := countPossible_eq since htr hord'
    rw [List.append_cons] at hord hlen
    -- the next iteration starts from what the scan knows after this press
    have hnext : ∀ self : ChordsV2 A, Tracks possibleChords activeLayer
        ⟨st.accumulatedPresses.pushIgnore press,
          .ofTake smolQLen (candidates possibleChords activeLayer (taken ++ [press])),
          some (candidates possibleChords activeLayer (taken ++ [press])).length, self⟩
        (taken ++ [press]) (candidates possibleChords activeLayer (taken ++ [press])) :=
      fun self => ⟨hacc, rfl, Or.inr ⟨rfl, rfl⟩⟩
    simp only [pressLoop, pressIteration, hacc, hcount, scan]
    generalize hleft : candidates possibleChords activeLayer (taken ++ [press]) = left' at *
    match left' with
    | [] =>
      refine ⟨st.accumulatedPresses, .empty, st.prevCount, htr.accumulated, rfl, ?_⟩
      simp only [List.length_nil, htr.accumulated, Scan.finish, Scan.inLoop,
        Scan.isBacktrackedNone]
      cases findCompleted activeLayer taken possibleChords <;> simp
    | [cch] =>
      have hvec : (Bounded.ofTake smolQLen [cch]).items = [cch] := rfl
      simp only [List.length_singleton, hvec]
      by_cases hall : allPressed (taken ++ [press]) cch = true
      · refine ⟨st.accumulatedPresses.pushIgnore press, .ofTake smolQLen [cch], st.prevCount, ?_⟩
        simpa [hall, Scan.finish, Scan.inLoop, smolQLen] using hacc
      · obtain ⟨acc, vec, prev, hacc', hvec', heq⟩ := ih (hnext
          { st.self with
            nextCoord := coordAfter st.self.nextCoord
            ticksUntilNextStateChange := timer since [cch] }) hord hlen
        refine ⟨acc, vec, prev, ?_⟩
        simp only [hall, Bool.false_eq_true, if_false]
        exact ⟨hacc', hvec', heq⟩
    | c₁ :: c₂ :: cs =>
      obtain ⟨acc, vec, prev, hacc', hvec', heq⟩ := ih (hnext
        { st.self with ticksUntilNextStateChange := timer since (c₁ :: c₂ :: cs) }) hord hlen
      exact ⟨acc, vec, prev, hacc', hvec', heq⟩

/-! ## The presses of a queue -/

/-- `gatherPresses` without its debug assertion. -/
def gather : List Queued → Bounded smolQLen PressWithTime →
    Bounded smolQLen PressWithTime × Bool
  | [], presses => (presses, false)
  | qd :: qds, presses =>
    match qd.event with
    | .press _ j => gather qds (presses.pushIgnore ⟨j, qd.since, qd.origin⟩)
    | .release _ j =>
      if presses.items.any (·.key == j) then (presses, true) else gather qds presses

/-- The presses that the decision is about. -/
def pressesOf (queue : List Queued) : List PressWithTime := (gather queue .empty).1.items

/-- Whether one of the presses is released again in the queue. -/
def releaseFound (queue : List Queued) : Bool := (gather queue .empty).2

def isPress (qd : Queued) : Bool :=
  match qd.event with
  | .press _ _ => true
  | .release _ _ => false

/-- The events are in order of age, oldest first. -/
def Aged (queue : List Queued) : Prop := queue.Pairwise fun a b => b.since ≤ a.since

theorem gatherPresses_eq_ok {cfg : ChordsConfig A} {queue : List Queued}
    {presses : Bounded smolQLen PressWithTime} {r : Bounded smolQLen PressWithTime × Bool}
    (h : gatherPresses cfg queue presses = .ok r) : gather queue presses = r := by
  induction queue generalizing presses with
  | nil => simpa [gatherPresses, gather, pure_eq_ok] using h
  | cons qd qds ih =>
    rcases hev : qd.event with ⟨i, j⟩ | ⟨i, j⟩
    · simp only [gatherPresses, hev, bind_eq_ok] at h
      obtain ⟨_, _, h⟩ := h
      simpa only [gather, hev] using ih h
    · simp only [gatherPresses, hev] at h
      simp only [gather, hev]
      split at h
      · rename_i hany
        rw [pure_eq_ok] at h
        simp [hany, h]
      · rename_i hany
        simp only [hany, Bool.false_eq_true, if_false]
        exact ih h

/-- The vector of presses has room for `count` presses, where it is checked. -/
def PressesFit (cfg : ChordsConfig A) (count : Nat) : Prop :=
  cfg.debugAssertions = true → count ≤ smolQLen

instance (cfg : ChordsConfig A) (count : Nat) : Decidable (PressesFit cfg count) := by
  unfold PressesFit
  infer_instance

theorem debugAssert_eq_ok {cfg : ChordsConfig A} {c : Bool} {msg : String} {u : Unit} :
    debugAssert cfg c msg = .ok u ↔ (cfg.debugAssertions = true → c = true) := by
  simp only [debugAssert, assertThat_eq_ok]
  cases cfg.debugAssertions <;> simp

/-- With at most sixteen presses the assertion holds. -/
theorem gatherPresses_of_fit {cfg : ChordsConfig A} {queue : List Queued}
    {presses : Bounded smolQLen PressWithTime}
    (h : PressesFit cfg (presses.items.length + queue.countP isPress)) :
    gatherPresses cfg queue presses = .ok (gather queue presses) := by
  induction queue generalizing presses with
  | nil => rfl
  | cons qd qds ih =>
    rcases hev : qd.event with ⟨i, j⟩ | ⟨i, j⟩
    · rw [List.countP_cons_of_pos (by simp [isPress, hev])] at h
      have hassert : debugAssert cfg (presses.push ⟨j, qd.since, qd.origin⟩).isSome
          "too many presses in queue" = .ok () := by
        rw [debugAssert_eq_ok, Bounded.push_isSome_iff]
        intro hd
        have := h hd
        omega
      simp only [gatherPresses, gather, hev, hassert, ok_bind]
      apply ih
      intro hd
      have := h hd
      simp only [Bounded.pushIgnore_items, List.length_take, List.length_append,
        List.length_singleton]
      omega
    · rw [List.countP_cons_of_neg (by simp [isPress, hev])] at h
      simp only [gatherPresses, gather, hev]
      split
      · rfl
      · exact ih h

/-- The presses of a queue, with the row left out. -/
def pressEvents (queue : List Queued) : List PressWithTime :=
  queue.filterMap fun qd =>
    match qd.event with
    | .press _ j => some ⟨j, qd.since, qd.origin⟩
    | .release _ _ => none

@[simp] theorem pressEvents_nil : pressEvents [] = [] := rfl

theorem pressEvents_press {qd : Queued} {i j : Nat} (h : qd.event = .press i j)
    (queue : List Queued) :
    pressEvents (qd :: queue) = ⟨j, qd.since, qd.origin⟩ :: pressEvents queue := by
  simp [pressEvents, h]

theorem pressEvents_release {qd : Queued} {i j : Nat} (h : qd.event = .release i j)
    (queue : List Queued) : pressEvents (qd :: queue) = pressEvents queue := by
  simp [pressEvents, h]

theorem pressEvents_inOrder {queue : List Queued} (h : Aged queue) :
    InOrder (pressEvents queue) := by
  refine (List.pairwise_filterMap.mpr (h.imp ?_))
  rintro a b hab p hp p' hp'
  cases ha : a.event <;> cases hb : b.event <;> simp [ha, hb] at hp hp'
  rw [← hp, ← hp']
  exact hab

theorem take_take_append (n : Nat) (xs ys : List A) :
    (xs.take n ++ ys).take n = (xs ++ ys).take n := by
  rw [List.take_append, List.take_append, List.take_take, List.length_take, Nat.min_self]
  congr 2
  omega

/-- The gathered presses are the first presses of the queue, sixteen at most. -/
theorem gather_items (queue : List Queued) (presses : Bounded smolQLen PressWithTime) :
    ∃ k, (gather queue presses).1.items =
      (presses.items ++ (pressEvents queue).take k).take smolQLen := by
  induction queue generalizing presses with
  | nil => exact ⟨0, by simp [gather, List.take_of_length_le presses.length_le]⟩
  | cons qd qds ih =>
    rcases hev : qd.event with ⟨i, j⟩ | ⟨i, j⟩
    · obtain ⟨k, hk⟩ := ih (presses.pushIgnore ⟨j, qd.since, qd.origin⟩)
      refine ⟨k + 1, ?_⟩
      simp only [gather, hev, pressEvents_press hev, hk, Bounded.pushIgnore_items,
        List.take_succ_cons]
      rw [take_take_append, List.append_assoc, List.singleton_append]
    · simp only [gather, hev, pressEvents_release hev]
      split
      · exact ⟨0, by simp [List.take_of_length_le presses.length_le]⟩
      · exact ih presses

theorem pressesOf_initial (queue : List Queued) : pressesOf queue <+: pressEvents queue := by
  obtain ⟨k, hk⟩ := gather_items queue .empty
  rw [pressesOf, hk]
  exact (List.take_prefix _ _).trans (by simpa using List.take_prefix k _)

/-! ## The code performs the decision -/

theorem getActiveChord_eq {cch : ChordV2 A} {since coord : Nat} {rel : Bool}
    {presses : List PressWithTime} (h : KeysFit cch) :
    getActiveChord cch since coord rel presses = .ok (spawn cch since coord rel presses) := by
  unfold getActiveChord spawn
  by_cases hb : cch.releaseBehaviour = .onLastRelease
  · have hlen := h hb
    have htake : (⟨cch.participatingKeys, hlen⟩ : Bounded smolQLen Nat) =
        .ofTake smolQLen cch.participatingKeys := by
      apply Bounded.ext
      simp [List.take_of_length_le hlen]
    simp only [hb, if_true, dif_pos hlen, htake]
    rfl
  · simp only [hb, if_false]
    rfl

theorem getActiveChord_eq_ok {cch : ChordV2 A} {since coord : Nat} {rel : Bool}
    {presses : List PressWithTime} {ach : ActiveChord A}
    (h : getActiveChord cch since coord rel presses = .ok ach) :
    KeysFit cch ∧ ach = spawn cch since coord rel presses := by
  have hfit : KeysFit cch := by
    intro hb
    by_contra hlen
    simp [getActiveChord, hb, hlen, panicWith] at h
  rw [getActiveChord_eq hfit, Except.ok.injEq] at h
  exact ⟨hfit, h.symm⟩

/-- An activation only touches the active chords and the coordinate. -/
theorem activate_eq_ok {cch : ChordV2 A} {since : Nat} {rel : Bool}
    {presses : List PressWithTime} {s s' : ChordsV2 A} :
    activate cch since rel presses s = .ok s' ↔
      KeysFit cch ∧ s.activeChords.items.length < activeChordsLen ∧
      ∃ achs, achs.items = s.activeChords.items ++ [spawn cch since s.nextCoord rel presses] ∧
        s' = { s with activeChords := achs, nextCoord := coordAfter s.nextCoord } := by
  constructor
  · intro h
    simp only [activate, bind_eq_ok] at h
    obtain ⟨ach, hach, h⟩ := h
    obtain ⟨hfit, rfl⟩ := getActiveChord_eq_ok hach
    split at h
    · rename_i achs hpush
      obtain ⟨hlt, hitems⟩ := Bounded.push_eq_some.mp hpush
      rw [pure_eq_ok] at h
      exact ⟨hfit, hlt, achs, hitems, h.symm⟩
    · simp [panicWith] at h
  · rintro ⟨hfit, hlt, achs, hitems, rfl⟩
    have hpush := Bounded.push_eq_some.mpr ⟨hlt, hitems⟩
    simp only [activate, getActiveChord_eq hfit, ok_bind, hpush]
    rfl

theorem activateAll_eq_ok {cs : List (ChordV2 A)} {since : Nat} {rel : Bool}
    {presses : List PressWithTime} {s s' : ChordsV2 A} :
    activateAll since rel presses cs s = .ok s' ↔
      (∀ c ∈ cs, KeysFit c) ∧ s.activeChords.items.length + cs.length ≤ activeChordsLen ∧
      ∃ achs, achs.items = s.activeChords.items ++ spawnAll since rel presses s.nextCoord cs ∧
        s' = { s with activeChords := achs, nextCoord := coordAfter^[cs.length] s.nextCoord } := by
  induction cs generalizing s with
  | nil =>
    simp only [activateAll, pure_eq_ok, spawnAll, List.append_nil, List.length_nil]
    constructor
    · rintro rfl
      exact ⟨by simp, s.activeChords.length_le, s.activeChords, rfl, rfl⟩
    · rintro ⟨_, _, achs, hitems, rfl⟩
      cases Bounded.ext hitems
      rfl
  | cons c cs ih =>
    simp only [activateAll, bind_eq_ok, activate_eq_ok, List.forall_mem_cons, List.length_cons]
    constructor
    · rintro ⟨s₁, ⟨hfit, hlt, achs, hitems, rfl⟩, h⟩
      obtain ⟨hfits, hle, achs', hitems', rfl⟩ := ih.mp h
      simp only [hitems, List.length_append, List.length_singleton] at hle hitems'
      refine ⟨⟨hfit, hfits⟩, by omega, achs', ?_, by simp [Function.iterate_succ_apply]⟩
      simp [hitems', spawnAll]
    · rintro ⟨⟨hfit, hfits⟩, hle, achs, hitems, rfl⟩
      have hlt : s.activeChords.items.length < activeChordsLen := by omega
      let mid : Bounded activeChordsLen (ActiveChord A) :=
        ⟨s.activeChords.items ++ [spawn c since s.nextCoord rel presses], by
          simp only [List.length_append, List.length_singleton]
          omega⟩
      refine ⟨{ s with activeChords := mid, nextCoord := coordAfter s.nextCoord },
        ⟨hfit, hlt, mid, rfl, rfl⟩, ih.mpr ⟨hfits, ?_, achs, ?_, ?_⟩⟩
      · simp only [mid, List.length_append, List.length_singleton]
        omega
      · simp [mid, hitems, spawnAll]
      · simp [Function.iterate_succ_apply]

theorem spawnAll_length (since : Nat) (rel : Bool) (presses : List PressWithTime) (coord : Nat)
    (cs : List (ChordV2 A)) : (spawnAll since rel presses coord cs).length = cs.length := by
  induction cs generalizing coord with
  | nil => rfl
  | cons c cs ih => simp [spawnAll, ih]

/-- The age of the first event. -/
def headSince (queue : List Queued) : Nat :=
  match queue.head? with
  | some qd => qd.since
  | none => 0

theorem possibleFor_eq_some {cfg : ChordsConfig A} {presses : List PressWithTime}
    {possibleChords : List (ChordV2 A)} :
    possibleFor cfg presses = some possibleChords ↔
      ∃ first rest, presses = first :: rest ∧
        cfg.chords.mapping first.key = some possibleChords := by
  cases presses <;> simp [possibleFor]

theorem decision_cons {cfg : ChordsConfig A} {activeLayer since ticks : Nat} {rel : Bool}
    {first : PressWithTime} {rest : List PressWithTime} {possibleChords : List (ChordV2 A)}
    (h : cfg.chords.mapping first.key = some possibleChords) :
    decision cfg activeLayer since ticks rel (first :: rest) =
      (scan possibleChords activeLayer since [] [] ticks (first :: rest)).decision possibleChords
        activeLayer rel := by
  simp [decision, h]

/-- Loop and block after it perform the activations of the decision. -/
theorem loop_then_after (cfg : ChordsConfig A) (possibleChords : List (ChordV2 A))
    (activeLayer since : Nat) (rel : Bool) {v : Scan A} (s : ChordsV2 A)
    {acc : Bounded smolQLen PressWithTime} {vec : Bounded smolQLen (ChordV2 A)}
    (prev : Option Nat) (hacc : acc.items = v.taken)
    (hvec : vec.items = v.left.take smolQLen)
    (hstop : ∀ c, v.stop = .backtracked c → v.left = []) :
    (v.finish cfg since rel s >>= fun self =>
      afterLoop cfg possibleChords activeLayer since rel ⟨acc, vec, prev, self⟩) =
    (activateAll since rel v.taken (v.decision possibleChords activeLayer rel).activations
      { s with
        nextCoord := coordAfter^[v.burned] s.nextCoord
        ticksUntilNextStateChange := v.ticksUntil } >>= fun self =>
      pure (if (v.decision possibleChords activeLayer rel).ignore then noChordActivations cfg self
        else self)) := by
  have hfull : vec.isFull = decide (smolQLen ≤ v.left.length) := by
    rw [Bool.eq_iff_iff, Bounded.isFull_iff, decide_eq_true_eq, hvec, List.length_take]
    omega
  have hafter : ∀ self : ChordsV2 A, self.ticksUntilNextStateChange = v.ticksUntil →
      afterLoop cfg possibleChords activeLayer since rel ⟨acc, vec, prev, self⟩ =
        if v.forced rel then
          match v.after possibleChords activeLayer with
          | some cch => activate cch since rel v.taken self
          | none => pure (noChordActivations cfg self)
        else pure self := by
    intro self hticks
    have hlist : (if vec.isFull = true then possibleChords else vec.items) =
        if smolQLen ≤ v.left.length then possibleChords else v.left := by
      rw [hfull, hvec]
      by_cases hlen : smolQLen ≤ v.left.length
      · simp [hlen]
      · simp [hlen, List.take_of_length_le (Nat.le_of_not_le hlen)]
    simp only [afterLoop, hticks, hacc, hlist, Scan.forced, Scan.after]
    rfl
  have hnone : ∀ c, v.stop = .backtracked c → v.after possibleChords activeLayer = none := by
    intro c hc
    simp [Scan.after, hstop c hc, findCompleted, smolQLen]
  unfold Scan.finish
  rcases hloop : v.inLoop with _ | cch
  · -- the loop activates nothing
    simp only [Scan.decision, hloop, Option.toList_none, List.nil_append, pure_bind]
    rcases hback : v.isBacktrackedNone with _ | _
    · simp only [Bool.false_eq_true, if_false, Bool.false_or]
      rw [hafter _ rfl]
      cases hforced : v.forced rel <;>
        cases hchord : v.after possibleChords activeLayer <;> simp [activateAll]
    · have hafterNone : v.after possibleChords activeLayer = none := by
        rcases hst : v.stop with _ | c | c <;> simp [Scan.isBacktrackedNone, hst] at hback
        exact hnone c hst
      simp only [if_true, Bool.true_or]
      rw [hafter _ rfl]
      cases hforced : v.forced rel <;> simp [hafterNone, activateAll, noChordActivations]
  · -- the loop activates a chord; the block after it may activate another
    have hback : v.isBacktrackedNone = false := by
      rcases hst : v.stop with _ | c | _ | c <;>
        simp [Scan.inLoop, Scan.isBacktrackedNone, hst] at hloop ⊢
    simp only [Scan.decision, hloop, Option.toList_some, hback, Bool.false_or,
      List.singleton_append, activateAll, bind_assoc]
    refine bind_congr_ok fun self hself => ?_
    obtain ⟨_, _, achs, _, rfl⟩ := activate_eq_ok.mp hself
    rw [hafter _ rfl]
    cases hforced : v.forced rel <;>
      cases hchord : v.after possibleChords activeLayer <;> simp [activateAll]

theorem scan_left_of_backtracked {possibleChords : List (ChordV2 A)} {activeLayer since : Nat}
    {rest taken : List PressWithTime} {left : List (ChordV2 A)} {ticks : Nat}
    {c : Option (ChordV2 A)}
    (h : (scan possibleChords activeLayer since taken left ticks rest).stop = .backtracked c) :
    (scan possibleChords activeLayer since taken left ticks rest).left = [] := by
  induction rest generalizing taken left ticks with
  | nil => simp [scan] at h
  | cons press rest ih =>
    unfold scan at h ⊢
    dsimp only at h ⊢
    split at h
    · rfl
    · split at h
      · simp at h
      · rename_i hall
        simp only [hall]
        exact ih h
    · exact ih h

/-- `process_presses` performs the decision on the presses of the queue. -/
theorem processPresses_eq {cfg : ChordsConfig A} {activeLayer : Nat} {s : ChordsV2 A}
    (haged : Aged s.queue.items) :
    processPresses cfg activeLayer s =
      (gatherPresses cfg s.queue.items .empty >>= fun g =>
        perform cfg (headSince s.queue.items) g.2
          (decision cfg activeLayer (headSince s.queue.items) s.ticksUntilNextStateChange g.2
            g.1.items) s) := by
  unfold processPresses
  refine bind_congr_ok fun g hg => ?_
  have hgather := gatherPresses_eq_ok hg
  have hinitial : g.1.items <+: pressEvents s.queue.items :=
    hgather ▸ pressesOf_initial s.queue.items
  obtain ⟨presses, rel⟩ := g
  rcases hpresses : presses.items with _ | ⟨first, rest⟩
  · simp [hpresses, decision, perform, activateAll]
  · rw [hpresses] at hinitial
    rcases hmap : cfg.chords.mapping first.key with _ | possibleChords
    · simp [hmap, hpresses, decision, perform, activateAll, noChordActivations]
    · obtain ⟨qd, hqd⟩ : ∃ qd, s.queue.items.head? = some qd := by
        rcases hq : s.queue.items with _ | ⟨qd, qds⟩
        · simp [hq, pressEvents] at hinitial
        · exact ⟨qd, rfl⟩
      have hord : InOrder (first :: rest) :=
        (pressEvents_inOrder haged).sublist hinitial.sublist
      have hlen : (first :: rest).length ≤ smolQLen := hpresses ▸ presses.length_le
      obtain ⟨acc, vec, prev, hacc, hvec, hloop⟩ := pressLoop_eq cfg qd.since rel
        (show Tracks possibleChords activeLayer ⟨.empty, .empty, none, s⟩ [] [] from
          ⟨rfl, rfl, Or.inl rfl⟩) hord hlen
      simp only [hpresses, hmap, hqd, headSince, decision_cons hmap, hloop, bind_assoc, pure_bind,
        hacc]
      have hboth := loop_then_after cfg possibleChords activeLayer qd.since rel s prev hacc hvec
        fun c hc => scan_left_of_backtracked hc
      simp only at hboth
      rw [← bind_assoc, hboth, bind_assoc, perform]
      refine bind_congr_ok fun self hself => ?_
      obtain ⟨_, _, achs, hitems, rfl⟩ := activateAll_eq_ok.mp hself
      generalize hv : scan possibleChords activeLayer qd.since [] [] s.ticksUntilNextStateChange
        (first :: rest) = v at hitems ⊢
      have hcount : achs.items.length = s.activeChords.items.length +
          (v.decision possibleChords activeLayer rel).activations.length := by
        rw [hitems, List.length_append, spawnAll_length]
      have htaken : (v.decision possibleChords activeLayer rel).taken = v.taken := rfl
      rcases hact : (v.decision possibleChords activeLayer rel).activations with _ | ⟨c, cs⟩ <;>
        rcases hig : (v.decision possibleChords activeLayer rel).ignore with _ | _ <;>
        simp [hact, hcount, htaken, noChordActivations]

/-- The state after a decision, given the active chords. -/
def performed (cfg : ChordsConfig A) (d : Decision A)
    (achs : Bounded activeChordsLen (ActiveChord A)) (s : ChordsV2 A) : ChordsV2 A :=
  { s with
    queue := if d.activations.isEmpty then s.queue else s.queue.retain (keepsEvent d.taken)
    activeChords := achs
    ticksToIgnoreChord :=
      if d.ignore then cfg.configuredTicksToIgnoreChord else s.ticksToIgnoreChord
    ticksUntilNextStateChange := d.ticksUntil
    nextCoord := coordAfter^[d.burned + d.activations.length] s.nextCoord }

theorem perform_eq_ok {cfg : ChordsConfig A} {since : Nat} {rel : Bool} {d : Decision A}
    {s s' : ChordsV2 A} :
    perform cfg since rel d s = .ok s' ↔
      (∀ c ∈ d.activations, KeysFit c) ∧
      s.activeChords.items.length + d.activations.length ≤ activeChordsLen ∧
      ∃ achs, achs.items = s.activeChords.items ++
          spawnAll since rel d.taken (coordAfter^[d.burned] s.nextCoord) d.activations ∧
        s' = performed cfg d achs s := by
  simp only [perform, bind_eq_ok, activateAll_eq_ok, pure_eq_ok]
  have hcoord : coordAfter^[d.activations.length] (coordAfter^[d.burned] s.nextCoord) =
      coordAfter^[d.burned + d.activations.length] s.nextCoord := by
    rw [Nat.add_comm, Function.iterate_add_apply]
  constructor
  · rintro ⟨_, ⟨hfit, hlen, achs, hitems, rfl⟩, rfl⟩
    refine ⟨hfit, hlen, achs, hitems, ?_⟩
    rcases hact : d.activations.isEmpty with _ | _ <;> rcases hig : d.ignore with _ | _ <;>
      simp [performed, noChordActivations, hact, hig, hcoord]
  · rintro ⟨hfit, hlen, achs, hitems, rfl⟩
    refine ⟨_, ⟨hfit, hlen, achs, hitems, rfl⟩, ?_⟩
    rcases hact : d.activations.isEmpty with _ | _ <;> rcases hig : d.ignore with _ | _ <;>
      simp [performed, noChordActivations, hact, hig, hcoord]

/-- The decision that the code performs on a queue. -/
def queueDecision (cfg : ChordsConfig A) (activeLayer ticks : Nat) (queue : List Queued) :
    Decision A :=
  decision cfg activeLayer (headSince queue) ticks (releaseFound queue) (pressesOf queue)

theorem processPresses_ok {cfg : ChordsConfig A} {activeLayer : Nat} {s s' : ChordsV2 A}
    (haged : Aged s.queue.items) (h : processPresses cfg activeLayer s = .ok s') :
    perform cfg (headSince s.queue.items) (releaseFound s.queue.items)
      (queueDecision cfg activeLayer s.ticksUntilNextStateChange s.queue.items) s = .ok s' := by
  rw [processPresses_eq haged, bind_eq_ok] at h
  obtain ⟨g, hg, h⟩ := h
  rw [← gatherPresses_eq_ok hg] at h
  exact h

theorem processPresses_of_fit {cfg : ChordsConfig A} {activeLayer : Nat} {s : ChordsV2 A}
    (haged : Aged s.queue.items) (hfit : PressesFit cfg (s.queue.items.countP isPress)) :
    processPresses cfg activeLayer s =
      perform cfg (headSince s.queue.items) (releaseFound s.queue.items)
        (queueDecision cfg activeLayer s.ticksUntilNextStateChange s.queue.items) s := by
  rw [processPresses_eq haged, gatherPresses_of_fit (by simpa using hfit)]
  rfl

end Kanata.Chord
