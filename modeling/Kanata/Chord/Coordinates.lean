import Mathlib.Data.List.Nodup
import Kanata.Chord.Session

/-!
# Kanata.Chord.Coordinates — when virtual coordinates are unique

The coordinates of activated chords go round through fifty values. They are
drawn for every activation, and also for every single candidate that turns out
incomplete, so a chord that is held long enough sees its coordinate come round
again (`coordinates_unique_fails`).

`Fresh` is the invariant: active chords have different coordinates. It holds as
long as no draw of a tick reaches the coordinate of an active chord, which is
`coordinatesUntil` draws away.
-/

namespace Kanata.Chord

open Fallible ChordsV2 Machine Session

variable {A : Type}

/-! ## Going round -/

/-- A value that `next_coord` can take. -/
def IsCoord (coord : Nat) : Prop := keyMax < coord ∧ coord ≤ keyMax + 50

theorem coordAfter_isCoord {coord : Nat} (h : IsCoord coord) : IsCoord (coordAfter coord) := by
  unfold IsCoord coordAfter keyMax at *
  split <;> omega

/-- The coordinate that is drawn after `n` others. -/
theorem coordAfter_iterate {coord : Nat} (h : IsCoord coord) (n : Nat) :
    coordAfter^[n] coord = keyMax + 1 + (coord - (keyMax + 1) + n) % 50 := by
  induction n with
  | zero =>
    unfold IsCoord keyMax at h
    show coord = _
    unfold keyMax
    omega
  | succ n ih =>
    rw [Function.iterate_succ_apply', ih]
    unfold coordAfter keyMax
    split <;> omega

theorem coordAfter_iterate_isCoord {coord : Nat} (h : IsCoord coord) (n : Nat) :
    IsCoord (coordAfter^[n] coord) := by
  rw [coordAfter_iterate h]
  unfold IsCoord keyMax
  omega

/-- The draws before `coord` comes round, when `next` is the next draw. -/
def coordinatesUntil (next coord : Nat) : Nat := (coord + 50 - next) % 50

/-- Earlier draws give other coordinates. -/
theorem iterate_ne_of_lt {next coord n : Nat} (hnext : IsCoord next)
    (h : n < coordinatesUntil next coord) : coordAfter^[n] next ≠ coord := by
  rw [coordAfter_iterate hnext]
  unfold coordinatesUntil at h
  unfold IsCoord keyMax at *
  intro heq
  omega

/-- Fewer than fifty draws give different coordinates. -/
theorem iterate_ne {next m n : Nat} (hnext : IsCoord next) (hm : m < 50) (hn : n < 50)
    (hne : m ≠ n) : coordAfter^[m] next ≠ coordAfter^[n] next := by
  rw [coordAfter_iterate hnext, coordAfter_iterate hnext]
  intro heq
  omega

/-! ## Activations -/

theorem spawnAll_coordinates (since : Nat) (rel : Bool) (presses : List PressWithTime)
    (coord : Nat) (cs : List (ChordV2 A)) :
    (spawnAll since rel presses coord cs).map (·.coordinate) =
      (List.range cs.length).map fun n => coordAfter^[n] coord := by
  induction cs generalizing coord with
  | nil => rfl
  | cons c cs ih =>
    rw [List.length_cons, List.range_succ_eq_map, List.map_cons, List.map_map]
    simp only [spawnAll, List.map_cons, ih]
    rfl

/-- The coordinates of a few activations differ. -/
theorem spawnAll_nodup (since : Nat) (rel : Bool) (presses : List PressWithTime)
    {coord : Nat} {cs : List (ChordV2 A)} (h : IsCoord coord) (hlen : cs.length ≤ 50) :
    ((spawnAll since rel presses coord cs).map (·.coordinate)).Nodup := by
  rw [spawnAll_coordinates]
  refine List.Nodup.map_on ?_ List.nodup_range
  intro m hm n hn heq
  by_contra hne
  have hm := List.mem_range.mp hm
  have hn := List.mem_range.mp hn
  exact iterate_ne h (by omega) (by omega) hne heq

/-- The coordinates that a tick draws. -/
def drawsOf (cfg : ChordsConfig A) (activeLayer : Nat) (s : ChordsV2 A) : Nat :=
  if s.ticksToIgnoreChord = 0 ∧ canSkip activeLayer s = false then
    let d := queueDecision cfg activeLayer 0 (pendingOf s.queue.items)
    d.burned + d.activations.length
  else 0

/-- The draws of the tick do not come round to an active chord. -/
def StopsShort (cfg : ChordsConfig A) (activeLayer : Nat) (s : ChordsV2 A) : Prop :=
  ∀ ach ∈ s.activeChords.items,
    drawsOf cfg activeLayer s ≤ coordinatesUntil s.nextCoord ach.coordinate

/-- The coordinates of active chords differ. -/
structure Fresh (s : ChordsV2 A) : Prop where
  next : IsCoord s.nextCoord
  nodup : (s.activeChords.items.map (·.coordinate)).Nodup

/-- Draining keeps the coordinates and adds those of the activated chords. -/
theorem Drained.fresh {cfg : ChordsConfig A} {activeLayer : Nat} {s s₁ : ChordsV2 A}
    (haged : Aged s.queue.items) (hs : Fresh s) (hstops : StopsShort cfg activeLayer s)
    (h : Drained cfg activeLayer s s₁) :
    Fresh s₁ ∧ (s₁.activeChords.items.map (·.coordinate)).take s.activeChords.items.length =
      s.activeChords.items.map (·.coordinate) := by
  have hkeep : ∀ qds, (s.activeChords.map (releaseBy qds)).items.map (·.coordinate) =
      s.activeChords.items.map (·.coordinate) := by
    intro qds
    simp [Function.comp_def]
  cases h with
  | ignoring _ =>
    refine ⟨⟨hs.next, ?_⟩, ?_⟩
    · rw [hkeep]
      exact hs.nodup
    · rw [hkeep, List.take_of_length_le (by simp)]
  | skipped _ _ => exact ⟨⟨hs.next, hs.nodup⟩, List.take_of_length_le (by simp)⟩
  | processed hignore hskip _ _ hpresses =>
    have hsub : (settled activeLayer s).queue.items.Sublist s.queue.items := by
      rw [settled_queue]
      exact pendingOf_sublist _
    have hperform := processPresses_ok (haged.sublist hsub) hpresses
    rw [settled_queue] at hperform
    rcases perform_eq_ok.mp hperform with ⟨_, hlen, achs, hachs, rfl⟩
    have hdraws : drawsOf cfg activeLayer s =
        (queueDecision cfg activeLayer 0 (pendingOf s.queue.items)).burned +
          (queueDecision cfg activeLayer 0 (pendingOf s.queue.items)).activations.length := by
      simp [drawsOf, hignore, hskip]
    have hticks : (settled activeLayer s).ticksUntilNextStateChange = 0 := rfl
    rw [hticks] at hlen hachs ⊢
    generalize queueDecision cfg activeLayer 0 (pendingOf s.queue.items) = d at *
    have hburned := coordAfter_iterate_isCoord hs.next d.burned
    have hcount : d.activations.length ≤ 50 := by
      simp only [activeChordsLen] at hlen
      omega
    have hold : (settled activeLayer s).activeChords.items.map (·.coordinate) =
        s.activeChords.items.map (·.coordinate) := hkeep _
    refine ⟨⟨coordAfter_iterate_isCoord hs.next _, ?_⟩, ?_⟩
    · simp only [performed, hachs, List.map_append, hold]
      refine List.nodup_append.mpr ⟨hs.nodup, spawnAll_nodup _ _ _ hburned hcount, ?_⟩
      -- a new coordinate is drawn before that of an active chord comes round
      intro a ha b hb
      rw [spawnAll_coordinates] at hb
      rcases List.mem_map.mp hb with ⟨n, hn, rfl⟩
      rcases List.mem_map.mp ha with ⟨ach, hach, rfl⟩
      have hn := List.mem_range.mp hn
      have hstop := hstops ach hach
      rw [hdraws] at hstop
      have hne : coordAfter^[n + d.burned] s.nextCoord ≠ ach.coordinate :=
        iterate_ne_of_lt hs.next (by omega)
      rw [Function.iterate_add_apply] at hne
      exact hne.symm
    · simp only [performed, hachs, List.map_append, hold]
      rw [List.take_left' (by simp)]

/-! ## Runs -/

/-- In every tick the draws stop short of the active chords. -/
def DrawsStopShort (cfg : ChordsConfig A) (s : Session A) : Op → Prop
  | .tick activeLayer => StopsShort cfg activeLayer s.chv2.age
  | _ => True

instance (cfg : ChordsConfig A) (s : Session A) (op : Op) :
    Decidable (DrawsStopShort cfg s op) :=
  match op with
  | .push _ => .isTrue trivial
  | .tick activeLayer =>
    inferInstanceAs (Decidable (∀ ach ∈ s.chv2.age.activeChords.items,
      drawsOf cfg activeLayer s.chv2.age ≤ coordinatesUntil s.chv2.age.nextCoord ach.coordinate))
  | .getAction => .isTrue trivial

/-- The chords active before a step and those it activates have different
coordinates: none is given again before its release is emitted. -/
def CoordinatesUnique (cfg : ChordsConfig A) (s : Session A) (op : Op) : Prop :=
  ∀ s' l, stepLogged cfg s op = .ok (s', l) →
    ((s.chv2.activeChords.items ++ l.activated).map (·.coordinate)).Nodup ∧
      (s'.chv2.activeChords.items.map (·.coordinate)).Nodup

/-- The invariant of a session. -/
structure FreshSession (s : Session A) : Prop where
  ordered : s.Ordered
  fresh : Fresh s.chv2

theorem findUnread_coordinates (achs : List (ActiveChord A)) :
    (findUnread achs).1.map (·.coordinate) = achs.map (·.coordinate) := by
  induction achs with
  | nil => rfl
  | cons ach achs ih =>
    simp only [findUnread]
    split
    · rfl
    · simp [ih]

theorem FreshSession.step {cfg : ChordsConfig A} {s s' : Session A} {op : Op} {l : Log A}
    (hs : FreshSession s) (hcond : DrawsStopShort cfg s op)
    (hstep : stepLogged cfg s op = .ok (s', l)) :
    FreshSession s' ∧ ((s.chv2.activeChords.items ++ l.activated).map (·.coordinate)).Nodup := by
  have hord : s'.Ordered := step_ordered hs.ordered (stepLogged_eq_ok.mp hstep).1
  cases op with
  | push event =>
    rcases stepLogged_eq_ok.mp hstep with ⟨hpush, hact, _⟩
    simp only [Session.step, stepWith, pure_eq_ok, Prod.mk.injEq] at hpush
    rcases hpush with ⟨rfl, _⟩
    simp only [activatedBy] at hact
    rw [hact, List.append_nil]
    exact ⟨⟨hord, hs.fresh.next, hs.fresh.nodup⟩, hs.fresh.nodup⟩
  | getAction =>
    rcases stepLogged_eq_ok.mp hstep with ⟨haction, hact, _⟩
    simp only [Session.step, stepWith, pure_eq_ok, Prod.mk.injEq] at haction
    rcases haction with ⟨rfl, _⟩
    simp only [activatedBy] at hact
    rw [hact, List.append_nil]
    refine ⟨⟨hord, hs.fresh.next, ?_⟩, hs.fresh.nodup⟩
    show ((findUnread s.chv2.activeChords.items).1.map (·.coordinate)).Nodup
    rw [findUnread_coordinates]
    exact hs.fresh.nodup
  | tick activeLayer =>
    rcases stepLogged_tick hstep with ⟨s₁, hdrained, _, rfl, _, hact, _⟩
    have hage : Fresh s.chv2.age := by
      refine ⟨hs.fresh.next, ?_⟩
      have := hs.fresh.nodup
      simpa [age, tickAch, Function.comp_def] using this
    have haged : Aged s.chv2.age.queue.items := hs.ordered.aged.tick
    rcases hdrained.fresh haged hage hcond with ⟨hfresh, htake⟩
    refine ⟨⟨hord, hfresh.next, ?_⟩, ?_⟩
    · refine hfresh.nodup.sublist ?_
      exact List.filter_sublist.map _
    · have hlen : s.chv2.age.activeChords.items.length = s.chv2.activeChords.items.length := by
        simp [age]
      have hsame : s.chv2.age.activeChords.items.map (·.coordinate) =
          s.chv2.activeChords.items.map (·.coordinate) := by
        simp [age, tickAch, Function.comp_def]
      rw [hlen, hsame] at htake
      rw [List.map_append, hact, ← htake, List.map_drop, List.take_append_drop]
      exact hfresh.nodup

/-- As long as no chord outlives the draws up to its own coordinate, coordinates
are unique. -/
theorem coordinates_unique (cfg : ChordsConfig A) (ops : List Op)
    (h : Along (Session.step cfg) (DrawsStopShort cfg) Session.new ops) :
    Along (Session.step cfg) (CoordinatesUnique cfg) Session.new ops := by
  have hnew : FreshSession (Session.new : Session A) :=
    ⟨new_ordered, (show IsCoord (keyMax + 1) by unfold IsCoord keyMax; omega), List.Pairwise.nil⟩
  refine along_of_invariant (fun s op s' o hs hP hstep => ?_) (fun s op hs hP => ?_) hnew h
  · have hlog : stepLogged cfg s op =
        .ok (s', ⟨o, activatedBy cfg s op, removedBy cfg s op⟩) :=
      stepLogged_eq_ok.mpr ⟨hstep, rfl, rfl⟩
    exact (FreshSession.step hs hP hlog).1
  · intro s' l hstep
    rcases FreshSession.step hs hP hstep with ⟨hs', hnodup⟩
    exact ⟨hnodup, hs'.fresh.nodup⟩

/-! ## A coordinate given twice -/

/-- Two chords without common keys: `a` (30) and `b` (48), `c` (46) and `d` (32). -/
def apartChords : ChordsConfig Nat where
  chords := ⟨fun key =>
    if key = 30 ∨ key = 48 then some [.pair 1 30 48 5]
    else if key = 46 ∨ key = 32 then some [.pair 2 46 32 5]
    else none⟩
  configuredTicksToIgnoreChord := minTicksToIgnoreChord
  debugAssertions := true
  ticks_ge := five_le_minTicks

/-- `a` is tapped: two coordinates are drawn, for its press and for its release. -/
def tapA : List Op :=
  [.push (.press 0 30), .tick 0, .push (.release 0 30), .tick 0, .tick 0, .tick 0, .tick 0, .tick 0]

/-- The second chord is held while `a` is tapped 24 times, then comes the first,
on another layer. -/
def heldWhileTapping : List Op :=
  [.push (.press 0 46), .push (.press 0 32), .tick 0] ++ (List.replicate 24 tapA).flatten ++
    [.push (.press 0 30), .push (.press 0 48), .tick 1]

/-- Both chords are active with one coordinate. -/
theorem coordinates_heldWhileTapping :
    (run (Session.step apartChords) Session.new heldWhileTapping).map (fun r =>
      r.1.chv2.activeChords.items.map fun ach => (ach.action, ach.coordinate)) =
        .ok [(2, 852), (1, 852)] := by
  decide +kernel

theorem coordinates_unique_fails :
    ¬ ∀ s os, run (Session.step apartChords) Session.new heldWhileTapping = .ok (s, os) →
      (s.chv2.activeChords.items.map (·.coordinate)).Nodup := by
  intro h
  have hrun := coordinates_heldWhileTapping
  rcases hr : run (Session.step apartChords) Session.new heldWhileTapping with e | ⟨s, os⟩
  · simp [hr, Except.map] at hrun
  · simp only [hr, Except.map, Except.ok.injEq] at hrun
    have hcoords : s.chv2.activeChords.items.map (·.coordinate) = [852, 852] := by
      have := congrArg (List.map Prod.snd) hrun
      simpa [List.map_map, Function.comp_def] using this
    have := h s os hr
    rw [hcoords] at this
    exact absurd this (by decide)

/-- After one tap the held chord is far from its coordinate. -/
theorem coordinates_unique_tap :
    Along (Session.step apartChords) (CoordinatesUnique apartChords) Session.new
      ([.push (.press 0 46), .push (.press 0 32), .tick 0] ++ tapA) :=
  coordinates_unique apartChords _ (by decide +kernel)

end Kanata.Chord
