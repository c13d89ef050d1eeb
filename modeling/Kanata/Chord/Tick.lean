import Kanata.Chord.Decision

/-!
# Kanata.Chord.Tick — what a tick can do

One inversion lemma for each stage of `tick_chv2`. All later proofs about runs
cite these and never unfold the stages.

* `releaseBy`: the releases of a list of events counted for an active chord;
* `pushAll`: pushes onto the drain queue, where the oldest events are lost;
* `pendingOf`, `leadingReleases`, `virtualEvents`: how a processing tick splits
  the queue;
* `tick_eq_ok`: the stages of a tick that does not panic.
-/

namespace Kanata.Chord

open Fallible ChordsV2

variable {A : Type}

/-! ## Pushes onto the drain queue -/

/-- Push some events one after the other. -/
def pushAll (q : SmolQueue) (qds : List Queued) : SmolQueue :=
  qds.foldl (fun q qd => (q.pushBack qd).1) q

@[simp] theorem pushAll_nil (q : SmolQueue) : pushAll q [] = q := rfl

theorem pushAll_cons (q : SmolQueue) (qd : Queued) (qds : List Queued) :
    pushAll q (qd :: qds) = pushAll (q.pushBack qd).1 qds := rfl

theorem pushAll_append (q : SmolQueue) (qds qds' : List Queued) :
    pushAll q (qds ++ qds') = pushAll (pushAll q qds) qds' := by
  simp [pushAll, List.foldl_append]

/-- As long as there is room nothing is lost. -/
theorem pushAll_items {q : SmolQueue} {qds : List Queued}
    (h : q.items.length + qds.length ≤ smolQLen) : (pushAll q qds).items = q.items ++ qds := by
  induction qds generalizing q with
  | nil => simp
  | cons qd qds ih =>
    rw [List.length_cons] at h
    have hpush := (Bounded.pushBack_of_lt (q := q) (by omega) qd).1
    rw [pushAll_cons, ih, hpush, List.append_assoc, List.singleton_append]
    rw [hpush, List.length_append, List.length_singleton]
    omega

/-! ## Releases -/

/-- Count the releases among some events for an active chord. -/
def releaseBy (qds : List Queued) (ach : ActiveChord A) : ActiveChord A :=
  qds.foldl (fun ach qd =>
    match qd.event with
    | .release _ j => releaseKey qd j ach
    | .press _ _ => ach) ach

@[simp] theorem releaseBy_nil (ach : ActiveChord A) : releaseBy [] ach = ach := rfl

@[simp] theorem map_releaseBy_nil (achs : List (ActiveChord A)) : achs.map (releaseBy []) = achs :=
  List.map_id _

theorem releaseBy_release {qd : Queued} {i j : Nat} (h : qd.event = .release i j)
    (qds : List Queued) (ach : ActiveChord A) :
    releaseBy (qd :: qds) ach = releaseBy qds (releaseKey qd j ach) := by
  simp [releaseBy, h]

theorem releaseBy_press {qd : Queued} {i j : Nat} (h : qd.event = .press i j)
    (qds : List Queued) (ach : ActiveChord A) : releaseBy (qd :: qds) ach = releaseBy qds ach := by
  simp [releaseBy, h]

@[simp] theorem releaseKey_coordinate (qd : Queued) (j : Nat) (ach : ActiveChord A) :
    (releaseKey qd j ach).coordinate = ach.coordinate := by
  unfold releaseKey
  split <;> rfl

/-- What holds of a chord however its keys are released. -/
theorem releaseBy_induct {P : ActiveChord A → Prop}
    (hkey : ∀ qd i j ach, qd.event = .release i j → P ach → P (releaseKey qd j ach))
    {qds : List Queued} {ach : ActiveChord A} (h : P ach) : P (releaseBy qds ach) := by
  induction qds generalizing ach with
  | nil => exact h
  | cons qd qds ih =>
    rcases hev : qd.event with ⟨i, j⟩ | ⟨i, j⟩
    · rw [releaseBy_press hev]
      exact ih h
    · rw [releaseBy_release hev]
      exact ih (hkey qd i j ach hev h)

@[simp] theorem releaseBy_coordinate (qds : List Queued) (ach : ActiveChord A) :
    (releaseBy qds ach).coordinate = ach.coordinate :=
  releaseBy_induct (P := fun a => a.coordinate = ach.coordinate)
    (fun qd _ j a _ h => by rw [releaseKey_coordinate, h]) rfl

theorem drainAll_eq (qds : List Queued) (achs : Bounded activeChordsLen (ActiveChord A))
    (drainq : SmolQueue) :
    drainAll qds achs drainq = (achs.map (releaseBy qds), pushAll drainq qds) := by
  induction qds generalizing achs drainq with
  | nil =>
    refine Prod.ext (Bounded.ext ?_) rfl
    simp [drainAll]
  | cons qd qds ih =>
    rw [drainAll, ih, pushAll_cons]
    refine Prod.ext (Bounded.ext ?_) rfl
    rcases hev : qd.event with ⟨i, j⟩ | ⟨i, j⟩
    · simp [releaseBy_press hev]
    · simp [releaseBy_release hev]

theorem drainWithoutNewActivations_eq (s : ChordsV2 A) (drainq : SmolQueue) :
    drainWithoutNewActivations s drainq =
      ({ s with activeChords := s.activeChords.map (releaseBy s.queue.items), queue := .empty },
        pushAll drainq s.queue.items) := by
  simp [drainWithoutNewActivations, drainAll_eq]

/-! ## Virtual keys -/

def virtualEvents (queue : List Queued) : List Queued := queue.filter fun qd => !isReal qd

theorem drainVirtual_eq_ok {qds : List Queued} {drainq q : SmolQueue} :
    drainVirtual qds drainq = .ok q ↔
      drainq.items.length + (virtualEvents qds).length ≤ smolQLen ∧
        q = pushAll drainq (virtualEvents qds) := by
  induction qds generalizing drainq with
  | nil =>
    have := drainq.length_le
    simp only [drainVirtual, pure_eq_ok, virtualEvents, List.filter_nil, List.length_nil,
      Nat.add_zero, this, true_and, pushAll_nil]
    exact eq_comm
  | cons qd qds ih =>
    rcases hreal : isReal qd with _ | _
    · have hvirtual : virtualEvents (qd :: qds) = qd :: virtualEvents qds := by
        simp [virtualEvents, hreal]
      simp only [drainVirtual, hreal, Bool.false_eq_true, if_false, bind_eq_ok, assertThat_eq_ok,
        Option.isNone_iff_eq_none, Bounded.pushBack_eq_none, hvirtual, pushAll_cons, ih,
        List.length_cons]
      constructor
      · rintro ⟨_, hlt, hle, rfl⟩
        rw [(Bounded.pushBack_of_lt hlt qd).1, List.length_append, List.length_singleton] at hle
        exact ⟨by omega, rfl⟩
      · rintro ⟨hle, rfl⟩
        have hlt : drainq.items.length < smolQLen := by omega
        refine ⟨(), hlt, ?_, rfl⟩
        rw [(Bounded.pushBack_of_lt hlt qd).1, List.length_append, List.length_singleton]
        omega
    · have hvirtual : virtualEvents (qd :: qds) = virtualEvents qds := by
        simp [virtualEvents, hreal]
      simp only [drainVirtual, hreal, if_true, hvirtual, ih]

/-! ## Leading releases -/

/-- The releases before the first press. -/
def leadingReleases (queue : List Queued) : List Queued := queue.takeWhile fun qd => !isPress qd

def fromFirstPress (queue : List Queued) : List Queued := queue.dropWhile fun qd => !isPress qd

theorem isPress_of_press {qd : Queued} {i j : Nat} (h : qd.event = .press i j) :
    isPress qd = true := by
  simp [isPress, h]

theorem isPress_of_release {qd : Queued} {i j : Nat} (h : qd.event = .release i j) :
    isPress qd = false := by
  simp [isPress, h]

/-- After a press everything is kept. -/
theorem drainRelease_foldlM_ok {cfg : ChordsConfig A} {qds : List Queued} (st : DrainReleases A)
    (hne : st.presses.items ≠ [])
    (hfit : PressesFit cfg (st.presses.items.length + qds.countP isPress)) :
    ∃ presses, qds.foldlM (drainRelease cfg) st =
      .ok ⟨presses, st.achs, st.drainq, st.kept ++ qds⟩ := by
  induction qds generalizing st with
  | nil => exact ⟨st.presses, by simp [pure, Except.pure]⟩
  | cons qd qds ih =>
    rcases hev : qd.event with ⟨i, j⟩ | ⟨i, j⟩
    · rw [List.countP_cons_of_pos (isPress_of_press hev)] at hfit
      have hassert : debugAssert cfg (st.presses.push j).isSome
          "assertion failed: overflow.is_ok()" = .ok () := by
        rw [debugAssert_eq_ok, Bounded.push_isSome_iff]
        intro hd
        have := hfit hd
        omega
      have hitems := Bounded.pushIgnore_items st.presses j
      have hne' : (st.presses.pushIgnore j).items ≠ [] := by
        rw [hitems]
        cases hp : st.presses.items <;> simp [smolQLen]
      obtain ⟨presses, h⟩ := ih { st with
        presses := st.presses.pushIgnore j, kept := st.kept ++ [qd] } hne' (by
          intro hd
          have := hfit hd
          simp only [hitems, List.length_take, List.length_append, List.length_singleton]
          omega)
      refine ⟨presses, ?_⟩
      simp only [List.foldlM_cons, drainRelease, hev, hassert, ok_bind, pure_bind, h,
        List.append_assoc, List.singleton_append]
    · rw [List.countP_cons_of_neg (by simp [isPress_of_release hev])] at hfit
      obtain ⟨presses, h⟩ := ih { st with kept := st.kept ++ [qd] } hne hfit
      refine ⟨presses, ?_⟩
      have hempty : st.presses.items.isEmpty = false := by simpa using hne
      simp only [List.foldlM_cons, drainRelease, hev, hempty, Bool.false_eq_true, if_false,
        pure_bind, h, List.append_assoc, List.singleton_append]

theorem pressesFit_of_foldlM {cfg : ChordsConfig A} {qds : List Queued}
    {st st' : DrainReleases A} (h : qds.foldlM (drainRelease cfg) st = .ok st') :
    PressesFit cfg (st.presses.items.length + qds.countP isPress) := by
  intro hd
  induction qds generalizing st with
  | nil => simpa using st.presses.length_le
  | cons qd qds ih =>
    rw [List.foldlM_cons, bind_eq_ok] at h
    obtain ⟨st₁, h₁, h⟩ := h
    have hle := ih h
    rcases hev : qd.event with ⟨i, j⟩ | ⟨i, j⟩
    · simp only [drainRelease, hev, bind_eq_ok, pure_eq_ok, debugAssert_eq_ok,
        Bounded.push_isSome_iff] at h₁
      obtain ⟨_, hlt, rfl⟩ := h₁
      have hlt := hlt hd
      simp only [Bounded.pushIgnore_items, List.length_take, List.length_append,
        List.length_singleton] at hle
      rw [List.countP_cons_of_pos (isPress_of_press hev)]
      omega
    · have hpresses : st₁.presses = st.presses := by
        simp only [drainRelease, hev] at h₁
        split at h₁ <;> rw [pure_eq_ok] at h₁ <;> rw [← h₁]
      rw [hpresses] at hle
      rwa [List.countP_cons_of_neg (by simp [isPress_of_release hev])]

/-- Up to the first press everything is drained. -/
theorem drainRelease_foldlM_leading {cfg : ChordsConfig A} {qds : List Queued}
    (achs : Bounded activeChordsLen (ActiveChord A)) (drainq : SmolQueue)
    (hfit : PressesFit cfg (qds.countP isPress)) :
    ∃ presses, qds.foldlM (drainRelease cfg) ⟨.empty, achs, drainq, []⟩ =
      .ok ⟨presses, achs.map (releaseBy (leadingReleases qds)),
        pushAll drainq (leadingReleases qds), fromFirstPress qds⟩ := by
  induction qds generalizing achs drainq with
  | nil =>
    have hmap : achs.map (releaseBy []) = achs := Bounded.ext (by simp)
    exact ⟨.empty, by simp [leadingReleases, fromFirstPress, hmap, pure, Except.pure]⟩
  | cons qd qds ih =>
    rcases hev : qd.event with ⟨i, j⟩ | ⟨i, j⟩
    · have hpress := isPress_of_press hev
      rw [List.countP_cons_of_pos hpress] at hfit
      have hpush : ((Bounded.empty : Bounded smolQLen Nat).pushIgnore j).items = [j] := by
        simp [Bounded.pushIgnore_items, smolQLen]
      have hassert : debugAssert cfg ((Bounded.empty : Bounded smolQLen Nat).push j).isSome
          "assertion failed: overflow.is_ok()" = .ok () := by
        rw [debugAssert_eq_ok, Bounded.push_isSome_iff]
        intro _
        simp [smolQLen]
      obtain ⟨presses, h⟩ := drainRelease_foldlM_ok
        ⟨Bounded.empty.pushIgnore j, achs, drainq, [qd]⟩ (by simp [hpush])
        (show PressesFit cfg _ by simpa [hpush, Nat.add_comm] using hfit)
      refine ⟨presses, ?_⟩
      have hmap : achs.map (releaseBy []) = achs := Bounded.ext (by simp)
      simp only [List.foldlM_cons, drainRelease, hev, hassert, ok_bind, pure_bind, h,
        leadingReleases, fromFirstPress, List.takeWhile_cons, List.dropWhile_cons, hpress,
        Bool.not_true, Bool.false_eq_true, if_false, pushAll_nil, hmap, List.nil_append,
        List.singleton_append]
    · have hpress := isPress_of_release hev
      rw [List.countP_cons_of_neg (by simp [hpress])] at hfit
      obtain ⟨presses, h⟩ := ih (achs.map (releaseKey qd j))
        (drainq.pushBack qd).1 hfit
      refine ⟨presses, ?_⟩
      have hmap : (achs.map (releaseKey qd j)).map (releaseBy (leadingReleases qds)) =
          achs.map (releaseBy (qd :: leadingReleases qds)) := by
        apply Bounded.ext
        simp [releaseBy_release hev]
      have hempty : (Bounded.empty : Bounded smolQLen Nat).items.isEmpty = true := rfl
      simp only [List.foldlM_cons, drainRelease, hev, hempty, if_true, pure_bind, h, hmap]
      simp only [leadingReleases, fromFirstPress, List.takeWhile_cons, List.dropWhile_cons, hpress,
        Bool.not_false, if_true, pushAll_cons]

theorem drainReleases_eq_ok {cfg : ChordsConfig A} {s : ChordsV2 A} {drainq : SmolQueue}
    {r : ChordsV2 A × SmolQueue} :
    drainReleases cfg s drainq = .ok r ↔
      PressesFit cfg (s.queue.items.countP isPress) ∧
      r = ({ s with
        queue := .ofTake queueSize (fromFirstPress s.queue.items)
        activeChords := s.activeChords.map (releaseBy (leadingReleases s.queue.items)) },
        pushAll drainq (leadingReleases s.queue.items)) := by
  constructor
  · intro h
    simp only [drainReleases, bind_eq_ok] at h
    obtain ⟨st, hst, h⟩ := h
    have hfit := pressesFit_of_foldlM hst
    simp only [Bounded.empty_items, List.length_nil, Nat.zero_add] at hfit
    obtain ⟨presses, heq⟩ := drainRelease_foldlM_leading s.activeChords drainq hfit
    rw [heq, Except.ok.injEq] at hst
    subst hst
    rw [pure_eq_ok] at h
    exact ⟨hfit, h.symm⟩
  · rintro ⟨hfit, rfl⟩
    obtain ⟨presses, heq⟩ := drainRelease_foldlM_leading s.activeChords drainq hfit
    simp only [drainReleases, heq, ok_bind]
    rfl

/-! ## Processing -/

/-- The real events from the first press on. -/
def pendingOf (queue : List Queued) : List Queued := fromFirstPress (queue.filter isReal)

/-- The state in which a processing tick looks at the presses. -/
def settled (activeLayer : Nat) (s : ChordsV2 A) : ChordsV2 A :=
  { s with
    queue := .ofTake queueSize (pendingOf s.queue.items)
    activeChords := s.activeChords.map (releaseBy (leadingReleases (s.queue.items.filter isReal)))
    ticksUntilNextStateChange := 0
    prevActiveLayer := activeLayer
    prevQueueLen := s.queue.items.length }

/-- The events that leave the queue of a processing tick without a decision. -/
def processedEvents (queue : List Queued) : List Queued :=
  virtualEvents queue ++ leadingReleases (queue.filter isReal)

theorem pendingOf_sublist (queue : List Queued) : (pendingOf queue).Sublist queue :=
  (List.dropWhile_sublist _).trans List.filter_sublist

theorem settled_queue (activeLayer : Nat) (s : ChordsV2 A) :
    (settled activeLayer s).queue.items = pendingOf s.queue.items := by
  have hlen := (pendingOf_sublist s.queue.items).length_le
  simp only [settled, Bounded.ofTake_items]
  exact List.take_of_length_le (Nat.le_trans hlen s.queue.length_le)

theorem processInputs_eq_ok {cfg : ChordsConfig A} {activeLayer : Nat} {s : ChordsV2 A}
    {drainq : SmolQueue} {r : ChordsV2 A × SmolQueue} :
    processInputs cfg activeLayer s drainq = .ok r ↔
      drainq.items.length + (virtualEvents s.queue.items).length ≤ smolQLen ∧
      PressesFit cfg ((s.queue.items.filter isReal).countP isPress) ∧
      processPresses cfg activeLayer (settled activeLayer s) = .ok r.1 ∧
      r.2 = pushAll drainq (processedEvents s.queue.items) := by
  obtain ⟨s', q⟩ := r
  simp only [processInputs, drainVirtualKeys, bind_eq_ok, drainVirtual_eq_ok, pure_eq_ok,
    drainReleases_eq_ok, processedEvents, pushAll_append]
  constructor
  · rintro ⟨_, ⟨_, ⟨hroom, rfl⟩, rfl⟩, _, ⟨hfit, rfl⟩, s₁, hs₁, heq⟩
    cases heq
    exact ⟨hroom, hfit, hs₁, rfl⟩
  · rintro ⟨hroom, hfit, hs', rfl⟩
    exact ⟨_, ⟨_, ⟨hroom, rfl⟩, rfl⟩, _, ⟨hfit, rfl⟩, s', hs', rfl⟩

/-! ## Draining -/

/-- What `drain_inputs` does to the state. -/
inductive Drained (cfg : ChordsConfig A) (activeLayer : Nat) (s : ChordsV2 A) :
    ChordsV2 A → Prop where
  /-- Chords are ignored: all events leave. -/
  | ignoring (h : 0 < s.ticksToIgnoreChord) :
      Drained cfg activeLayer s
        { s with activeChords := s.activeChords.map (releaseBy s.queue.items), queue := .empty }
  /-- The processing is skipped. -/
  | skipped (h : s.ticksToIgnoreChord = 0) (hskip : canSkip activeLayer s = true) :
      Drained cfg activeLayer s
        { s with ticksUntilNextStateChange := s.ticksUntilNextStateChange - 1 }
  /-- The presses are looked at. -/
  | processed {s' : ChordsV2 A} (h : s.ticksToIgnoreChord = 0)
      (hskip : canSkip activeLayer s = false)
      (hroom : (virtualEvents s.queue.items).length ≤ smolQLen)
      (hfit : PressesFit cfg ((s.queue.items.filter isReal).countP isPress))
      (hpresses : processPresses cfg activeLayer (settled activeLayer s) = .ok s') :
      Drained cfg activeLayer s s'

/-- The events that leave the queue for the drain queue. -/
def drainedEvents (activeLayer : Nat) (s : ChordsV2 A) : List Queued :=
  if 0 < s.ticksToIgnoreChord then s.queue.items
  else if canSkip activeLayer s then []
  else processedEvents s.queue.items

theorem drainInputs_eq_ok {cfg : ChordsConfig A} {activeLayer : Nat} {s : ChordsV2 A}
    {r : ChordsV2 A × SmolQueue} :
    drainInputs cfg activeLayer s .empty = .ok r ↔
      Drained cfg activeLayer s r.1 ∧ r.2 = pushAll .empty (drainedEvents activeLayer s) := by
  obtain ⟨s', q⟩ := r
  unfold drainInputs drainedEvents
  by_cases hignore : 0 < s.ticksToIgnoreChord
  · simp only [gt_iff_lt, hignore, if_true, pure_eq_ok, drainWithoutNewActivations_eq,
      Prod.mk.injEq]
    constructor
    · rintro ⟨rfl, rfl⟩
      exact ⟨.ignoring hignore, rfl⟩
    · rintro ⟨hdrained, rfl⟩
      cases hdrained with
      | ignoring h => exact ⟨rfl, rfl⟩
      | skipped h => omega
      | processed h => omega
  · have hzero : s.ticksToIgnoreChord = 0 := by omega
    simp only [gt_iff_lt, hignore, if_false]
    by_cases hskip : canSkip activeLayer s = true
    · simp only [hskip, if_true, pure_eq_ok, Prod.mk.injEq, pushAll_nil]
      constructor
      · rintro ⟨rfl, rfl⟩
        exact ⟨.skipped hzero hskip, rfl⟩
      · rintro ⟨hdrained, rfl⟩
        cases hdrained with
        | ignoring h => omega
        | skipped h _ => exact ⟨rfl, rfl⟩
        | processed h hskip' => simp [hskip] at hskip'
    · have hskip := Bool.eq_false_iff.mpr hskip
      simp only [hskip, Bool.false_eq_true, if_false, processInputs_eq_ok, Bounded.empty_items,
        List.length_nil, Nat.zero_add]
      constructor
      · rintro ⟨hroom, hfit, hpresses, rfl⟩
        exact ⟨.processed hzero hskip hroom hfit hpresses, rfl⟩
      · rintro ⟨hdrained, rfl⟩
        cases hdrained with
        | ignoring h => omega
        | skipped h hskip' => simp [hskip] at hskip'
        | processed h _ hroom hfit hpresses => exact ⟨hroom, hfit, hpresses, rfl⟩

/-! ## The tick -/

/-- The no-op events of a tick. -/
def triggerEvents (prevActiveChordLen : Nat) (s : ChordsV2 A) : List Queued :=
  (if s.activeChords.items.length != prevActiveChordLen then
    [.newPress triggerTapholdCoord.1 triggerTapholdCoord.2] else []) ++
  if s.activeChords.items.any fun ach =>
    ach.status == .unreadReleased || ach.status == .released then
    [.newRelease triggerTapholdCoord.1 triggerTapholdCoord.2] else []

theorem pushTriggers_eq (prevActiveChordLen : Nat) (s : ChordsV2 A) (q : SmolQueue) :
    pushTriggers prevActiveChordLen s q = pushAll q (triggerEvents prevActiveChordLen s) := by
  unfold pushTriggers triggerEvents
  rw [pushAll_append]
  split <;> split <;> rfl

/-- The chords that are removed at the end of a tick. -/
def releasedChords (s : ChordsV2 A) : List (ActiveChord A) :=
  s.activeChords.items.filter (·.status == .released)

def chordReleases (achs : List (ActiveChord A)) : List Queued :=
  achs.map fun ach => .newRelease 0 ach.coordinate

theorem pushReleased_eq_ok {achs : List (ActiveChord A)} {drainq q : SmolQueue} :
    pushReleased achs drainq = .ok q ↔
      drainq.items.length + (achs.filter (·.status == .released)).length ≤ smolQLen ∧
        q = pushAll drainq (chordReleases (achs.filter (·.status == .released))) := by
  induction achs generalizing drainq with
  | nil =>
    have := drainq.length_le
    simp only [pushReleased, pure_eq_ok, List.filter_nil, List.length_nil, Nat.add_zero, this,
      true_and, chordReleases, List.map_nil, pushAll_nil]
    exact eq_comm
  | cons ach achs ih =>
    rcases hst : (ach.status == ActiveChordStatus.released) with _ | _
    · simp only [pushReleased, hst, Bool.false_eq_true, if_false, ih, List.filter_cons]
    · simp only [pushReleased, hst, if_true, List.filter_cons, bind_eq_ok, assertThat_eq_ok,
        Option.isNone_iff_eq_none, Bounded.pushBack_eq_none, chordReleases, List.map_cons,
        pushAll_cons, ih, List.length_cons]
      constructor
      · rintro ⟨_, hlt, hle, rfl⟩
        rw [(Bounded.pushBack_of_lt hlt _).1, List.length_append, List.length_singleton] at hle
        exact ⟨by omega, rfl⟩
      · rintro ⟨hle, rfl⟩
        have hlt : drainq.items.length < smolQLen := by omega
        refine ⟨(), hlt, ?_, rfl⟩
        rw [(Bounded.pushBack_of_lt hlt _).1, List.length_append, List.length_singleton]
        omega

/-- The end of a tick: released chords go, the ignore timer runs. -/
def closeTick (s : ChordsV2 A) : ChordsV2 A :=
  { s with
    activeChords := s.activeChords.retain (·.status != .released)
    ticksToIgnoreChord := s.ticksToIgnoreChord - 1 }

/-- The events of a tick before the chord releases. -/
def announced (activeLayer : Nat) (s s₁ : ChordsV2 A) : List Queued :=
  drainedEvents activeLayer s.age ++ triggerEvents s.activeChords.items.length s₁

/-- The stages of a tick. -/
theorem tick_eq_ok {cfg : ChordsConfig A} {activeLayer : Nat} {s : ChordsV2 A}
    {r : ChordsV2 A × SmolQueue} :
    tickChv2 cfg activeLayer s = .ok r ↔
      ∃ s₁, Drained cfg activeLayer s.age s₁ ∧
        (pushAll .empty (announced activeLayer s s₁)).items.length + (releasedChords s₁).length ≤
          smolQLen ∧
        r = (closeTick s₁, pushAll .empty
          (announced activeLayer s s₁ ++ chordReleases (releasedChords s₁))) := by
  simp only [tickChv2, tickWith, clearReleasedChords, bind_eq_ok, drainInputs_eq_ok, pure_eq_ok,
    pushTriggers_eq, pushReleased_eq_ok, pushAll_append, announced, releasedChords]
  constructor
  · rintro ⟨⟨s₁, _⟩, ⟨hdrained, rfl⟩, _, ⟨_, ⟨hroom, rfl⟩, rfl⟩, rfl⟩
    exact ⟨s₁, hdrained, hroom, rfl⟩
  · rintro ⟨s₁, hdrained, hroom, rfl⟩
    exact ⟨⟨s₁, _⟩, ⟨hdrained, rfl⟩, _, ⟨_, ⟨hroom, rfl⟩, rfl⟩, rfl⟩

end Kanata.Chord
