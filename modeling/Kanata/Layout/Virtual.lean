import Kanata.Layout.Decided

/-!
# Kanata.Layout.Virtual — what chords v2 bring in

The actions that chords v2 hand out are those of the configured chords, at
virtual coordinates, and the events that they emit are events that were pushed,
presses of the trigger coordinate or releases. `Virtual` is the invariant.
-/

namespace Kanata

open Fallible Chord ChordsV2

variable {C R : Nat} {T : Type} {cfg : LayoutConfig C R T} {E : Panic → Prop}

/-- Chords v2 hold only chords and events that the discipline allows. -/
structure Virtual (D : Discipline cfg E) (s : ChordsV2 (Action T)) : Prop where
  queue : ∀ q ∈ s.queue.items, q.Obeys D
  activeChords : ∀ ach ∈ s.activeChords.items, D.performs ach.action (0, ach.coordinate)
  nextCoord : IsCoord s.nextCoord

section Virtual

variable {D : Discipline cfg E} {s : ChordsV2 (Action T)}

/-- A change of the active chords that keeps their actions and coordinates. -/
theorem Virtual.mapChords (h : Virtual D s) (f : ActiveChord (Action T) → ActiveChord (Action T))
    (hf : ∀ ach, (f ach).action = ach.action ∧ (f ach).coordinate = ach.coordinate) :
    Virtual D { s with activeChords := s.activeChords.map f } where
  queue := h.queue
  activeChords := by
    intro ach hach
    rcases List.mem_map.mp hach with ⟨ach', hach', rfl⟩
    rw [(hf ach').1, (hf ach').2]
    exact h.activeChords ach' hach'
  nextCoord := h.nextCoord

/-- A release of one of its keys leaves the action and the coordinate of a chord. -/
theorem releaseKey_same (qd : Queued) (j : Nat) (ach : ActiveChord (Action T)) :
    (releaseKey qd j ach).action = ach.action ∧
      (releaseKey qd j ach).coordinate = ach.coordinate := by
  unfold releaseKey
  split
  · exact ⟨rfl, rfl⟩
  · exact ⟨rfl, rfl⟩

/-- Ageing changes no action, no coordinate and no event. -/
theorem Virtual.age (h : Virtual D s) : Virtual D s.age := by
  have haged := h.mapChords tickAch fun _ => ⟨rfl, rfl⟩
  refine { haged with queue := ?_ }
  intro q hq
  rcases List.mem_map.mp hq with ⟨q', hq', rfl⟩
  exact h.queue q' hq'

/-- The action that is handed out is that of an active chord, at the coordinate of that chord.
-/
theorem Virtual.getAction (h : Virtual D s) :
    Virtual D s.getActionChv2.1 ∧
      ∀ coord delay action, s.getActionChv2.2 = some (coord, delay, action) →
        D.performs action coord := by
  -- the search for a chord that was not handed out yet, by induction on the active chords
  have hfind : ∀ achs : List (ActiveChord (Action T)),
      (∀ ach ∈ achs, D.performs ach.action (0, ach.coordinate)) →
      (∀ ach ∈ (findUnread achs).1, D.performs ach.action (0, ach.coordinate)) ∧
        ∀ coord delay action, (findUnread achs).2 = some (coord, delay, action) →
          D.performs action coord := by
    intro achs
    induction achs with
    | nil => exact fun h => ⟨h, fun _ _ _ h => by cases h⟩
    | cons ach achs ih =>
      intro hachs
      have hhead := hachs ach List.mem_cons_self
      have htail := ih fun ach' hach' => hachs ach' (List.mem_cons_of_mem _ hach')
      unfold findUnread
      split
      · constructor
        · intro ach' hach'
          rcases List.mem_cons.mp hach' with rfl | hach'
          · exact hhead
          · exact hachs ach' (List.mem_cons_of_mem _ hach')
        · intro coord delay action h
          cases h
          exact hhead
      · refine ⟨?_, htail.2⟩
        intro ach' hach'
        rcases List.mem_cons.mp hach' with rfl | hach'
        · exact hhead
        · exact htail.1 ach' hach'
  have hfound := hfind s.activeChords.items h.activeChords
  exact ⟨⟨h.queue, hfound.1, h.nextCoord⟩, hfound.2⟩

/-! ## Draining -/

/-- An event that is pushed onto the queue of outgoing events. -/
theorem pushBack_obeys {q : SmolQueue} {qd : Queued} (h : ∀ q' ∈ q.items, q'.Obeys D)
    (hqd : qd.Obeys D) : ∀ q' ∈ (q.pushBack qd).1.items, q'.Obeys D := by
  intro q' hq'
  rcases Bounded.mem_pushBack hq' with hq' | rfl
  · exact h q' hq'
  · exact hqd

/-- While no chord may begin, all events go out, and releases reach the active chords. By
induction on the events. -/
theorem drainAll_obeys :
    ∀ (qds : List Queued) (s : ChordsV2 (Action T)) (drainq : SmolQueue),
      (∀ q ∈ qds, q.Obeys D) → Virtual D s → (∀ q ∈ drainq.items, q.Obeys D) →
      Virtual D { s with activeChords := (drainAll qds s.activeChords drainq).1 } ∧
        ∀ q ∈ (drainAll qds s.activeChords drainq).2.items, q.Obeys D := by
  intro qds
  induction qds with
  | nil => exact fun _ _ _ hs hdrainq => ⟨hs, hdrainq⟩
  | cons qd qds ih =>
    intro s drainq hqds hs hdrainq
    have hpushed := pushBack_obeys hdrainq (hqds qd List.mem_cons_self)
    have hrest : ∀ q ∈ qds, q.Obeys D := fun q hq => hqds q (List.mem_cons_of_mem _ hq)
    unfold drainAll
    dsimp only
    split
    · rename_i j _
      exact ih _ _ hrest (hs.mapChords _ (releaseKey_same qd j)) hpushed
    · exact ih s _ hrest hs hpushed

/-- Events that are not of real keys go out at once. -/
theorem drainVirtual_ensures :
    ∀ (qds : List Queued) (drainq : SmolQueue), (∀ q ∈ qds, q.Obeys D) →
      (∀ q ∈ drainq.items, q.Obeys D) →
      Ensures (drainVirtual qds drainq) (fun q => ∀ q' ∈ q.items, q'.Obeys D) E := by
  intro qds
  induction qds with
  | nil => exact fun _ _ h => h
  | cons qd qds ih =>
    intro drainq hqds h
    have hrest : ∀ q ∈ qds, q.Obeys D := fun q hq => hqds q (List.mem_cons_of_mem _ hq)
    unfold drainVirtual
    split
    · exact ih drainq hrest h
    · refine Ensures.bind ((D.assertOther (by decide)).mono ?_ fun _ hp => hp)
      intro _ _
      exact ih _ hrest (pushBack_obeys h (hqds qd List.mem_cons_self))

/-- A debug assertion is not among the failed lookups. -/
theorem debugAssert_panics (D : Discipline cfg E) (chords : ChordsConfig (Action T)) (c : Bool)
    {msg : String} (h : msg ∉ lookupPanics) :
    Ensures (debugAssert chords c msg) (fun _ => True) E := by
  unfold debugAssert
  exact (D.assertOther h).mono (fun _ _ => trivial) fun _ hp => hp

/-- What the loop of `drain_releases` works on, within the discipline. -/
structure DrainObeys (D : Discipline cfg E) (s : ChordsV2 (Action T))
    (st : DrainReleases (Action T)) : Prop where
  achs : Virtual D { s with activeChords := st.achs }
  drainq : ∀ q ∈ st.drainq.items, q.Obeys D
  kept : ∀ q ∈ st.kept, q.Obeys D

/-- Releases go out as long as no press stands before them. The loop invariant is
`DrainObeys`. -/
theorem drainReleases_ensures (chords : ChordsConfig (Action T)) {s : ChordsV2 (Action T)}
    (hs : Virtual D s) {drainq : SmolQueue} (hdrainq : ∀ q ∈ drainq.items, q.Obeys D) :
    Ensures (drainReleases chords s drainq)
      (fun r => Virtual D r.1 ∧ ∀ q ∈ r.2.items, q.Obeys D) E := by
  -- the loop, by induction on the events that are left
  have hloop : ∀ (qds : List Queued) (st : DrainReleases (Action T)),
      (∀ q ∈ qds, q.Obeys D) → DrainObeys D s st →
      Ensures (qds.foldlM (drainRelease chords) st) (DrainObeys D s) E := by
    intro qds
    induction qds with
    | nil => exact fun _ _ h => h
    | cons qd qds ih =>
      intro st hqds h
      have hrest : ∀ q ∈ qds, q.Obeys D := fun q hq => hqds q (List.mem_cons_of_mem _ hq)
      have hkept : ∀ q ∈ st.kept ++ [qd], q.Obeys D := by
        intro q hq
        rcases List.mem_append.mp hq with hq | hq
        · exact h.kept q hq
        · rw [List.mem_singleton.mp hq]
          exact hqds qd List.mem_cons_self
      rw [List.foldlM_cons]
      refine Ensures.bind
        (Ensures.mono (Q := DrainObeys D s) (E := E) ?_ (fun st' h' => ih st' hrest h')
        fun _ hp => hp)
      unfold drainRelease
      split
      · exact Ensures.bind ((debugAssert_panics D chords _ (by decide)).mono
          (fun _ _ => ⟨h.achs, h.drainq, hkept⟩) fun _ hp => hp)
      · rename_i j _
        split
        · exact ⟨h.achs.mapChords _ (releaseKey_same qd j),
            pushBack_obeys h.drainq (hqds qd List.mem_cons_self), h.kept⟩
        · exact ⟨h.achs, h.drainq, hkept⟩
  unfold drainReleases
  refine Ensures.bind ((hloop s.queue.items ⟨.empty, s.activeChords, drainq, []⟩ hs.queue
    ⟨hs, hdrainq, by simp⟩).mono ?_ fun _ hp => hp)
  intro st hst
  rw [ensures_pure]
  exact ⟨{ hst.achs with queue := fun q hq => hst.kept q (Bounded.mem_ofTake hq) }, hst.drainq⟩

/-! ## Deciding -/

variable {chords : ChordsConfig (Action T)}

/-- The chord that is activated is one of the candidates, at the next virtual coordinate. -/
theorem activate_ensures {cch : ChordV2 (Action T)}
    (hcch : ∀ coord, IsCoord coord → D.performs cch.action (0, coord)) (since : Nat) (rel : Bool)
    (presses : List PressWithTime) (hs : Virtual D s) :
    Ensures (activate cch since rel presses s) (Virtual D) E := by
  unfold activate
  have hactive : Ensures (getActiveChord cch since s.nextCoord rel presses)
      (fun ach => ach.action = cch.action ∧ ach.coordinate = s.nextCoord) E := by
    -- a chord that waits for its last release has to keep all of its keys
    by_cases hfit : KeysFit cch
    · rw [getActiveChord_eq hfit]
      exact ⟨rfl, rfl⟩
    · have hlast : cch.releaseBehaviour = .onLastRelease := by
        by_contra hne
        exact hfit fun h => absurd h hne
      have hlen : ¬ cch.participatingKeys.length ≤ smolQLen := fun h => hfit fun _ => h
      simp only [getActiveChord, hlast, hlen, if_true, dif_neg, not_false_eq_true]
      exact D.otherPanic (by decide)
  refine Ensures.bind (hactive.mono ?_ fun _ hp => hp)
  intro ach hach
  split
  · rename_i achs hpush
    refine ⟨hs.queue, ?_, coordAfter_isCoord hs.nextCoord⟩
    intro ach' hach'
    -- the new chord is put behind the active ones
    have hitems := (Bounded.push_eq_some.mp hpush).2
    have hmem : ach' ∈ s.activeChords.items ++ [ach] := hitems ▸ hach'
    rcases List.mem_append.mp hmem with hmem | hmem
    · exact hs.activeChords ach' hmem
    · rw [List.mem_singleton.mp hmem, hach.1, hach.2]
      exact hcch _ hs.nextCoord
  · exact D.otherPanic (by decide)

/-- A completed chord is one of those that are looked at. -/
theorem findCompleted_mem {activeLayer : Nat} {presses : List PressWithTime}
    {cs : List (ChordV2 (Action T))} {c : ChordV2 (Action T)}
    (h : findCompleted activeLayer presses cs = some c) : c ∈ cs :=
  (List.mem_filter.mp (List.mem_of_find?_eq_some h)).1

/-- Gathering the presses stops at the release of one of them. -/
theorem gatherPresses_panics (D : Discipline cfg E) (chords : ChordsConfig (Action T)) :
    ∀ (qds : List Queued) (presses : Bounded smolQLen PressWithTime),
      Ensures (gatherPresses chords qds presses) (fun _ => True) E := by
  intro qds
  induction qds with
  | nil => exact fun _ => trivial
  | cons qd qds ih =>
    intro presses
    unfold gatherPresses
    split
    · exact Ensures.bind ((debugAssert_panics D chords _ (by decide)).mono (fun _ _ => ih _)
        fun _ hp => hp)
    · split
      · trivial
      · exact ih presses

section Loop

variable {possible : List (ChordV2 (Action T))}
  (hpossible : ∀ c ∈ possible, ∀ coord, IsCoord coord → D.performs c.action (0, coord))

/-- The variables of the main loop, within the discipline. -/
structure LoopObeys (D : Discipline cfg E) (possible : List (ChordV2 (Action T)))
    (st : PressLoop (Action T)) : Prop where
  candidates : ∀ c ∈ st.chordCandidates.items, c ∈ possible
  self : Virtual D st.self

/-- Counting the possible chords only ever drops candidates. -/
theorem countPossible_mem (activeLayer since : Nat) (press : PressWithTime)
    (accumulated : List PressWithTime) {st : PressLoop (Action T)} (hst : LoopObeys D possible st) :
    ∀ c ∈ (countPossible possible activeLayer since press accumulated st).2.1.items,
      c ∈ possible := by
  unfold countPossible
  split
  · exact fun c hc => hst.candidates c (List.mem_filter.mp hc).1
  · intro c hc
    exact (List.mem_filter.mp (List.mem_filter.mp (Bounded.mem_ofTake hc)).1).1

include hpossible

/-- One round of the main loop: a chord is activated, or the candidates get fewer. -/
theorem pressIteration_ensures {activeLayer since : Nat} {rel : Bool} {st : PressLoop (Action T)}
    (hst : LoopObeys D possible st) (press : PressWithTime) :
    Ensures (pressIteration chords possible activeLayer since rel st press)
      (fun r => LoopObeys D possible r.1) E := by
  have hnone : ∀ c ∈ (Bounded.empty : Bounded smolQLen (ChordV2 (Action T))).items,
    c ∈ possible := by
    simp
  unfold pressIteration
  dsimp only
  have hmem := countPossible_mem activeLayer since press
    (st.accumulatedPresses.pushIgnore press).items hst
  generalize countPossible possible activeLayer since press
    (st.accumulatedPresses.pushIgnore press).items st = counted at hmem ⊢
  split
  · split
    · exact D.otherPanic (by decide)
    · rename_i cch _ hcands
      split
      · have hcch := hpossible cch (hmem cch (by rw [hcands]; exact List.mem_cons_self))
        exact Ensures.bind ((activate_ensures hcch _ _ _ hst.self).mono
          (fun _ hself => ⟨hmem, hself⟩) fun _ hp => hp)
      · exact ⟨hmem, { hst.self with nextCoord := coordAfter_isCoord hst.self.nextCoord }⟩
  · split
    · rename_i cch hfound
      have hcch := hpossible cch (findCompleted_mem hfound)
      exact Ensures.bind ((activate_ensures hcch _ _ _ hst.self).mono
        (fun _ hself => ⟨hnone, hself⟩) fun _ hp => hp)
    · exact ⟨hnone, { hst.self with }⟩
  · exact ⟨hmem, { hst.self with }⟩

/-- The main loop, by induction on the presses. -/
theorem pressLoop_ensures {activeLayer since : Nat} {rel : Bool} :
    ∀ (presses : List PressWithTime) (st : PressLoop (Action T)), LoopObeys D possible st →
      Ensures (pressLoop chords possible activeLayer since rel st presses)
        (LoopObeys D possible) E := by
  intro presses
  induction presses with
  | nil => exact fun _ hst => hst
  | cons press presses ih =>
    intro st hst
    unfold pressLoop
    refine Ensures.bind ((pressIteration_ensures hpossible hst press).mono ?_ fun _ hp => hp)
    rintro ⟨st', broke⟩ hst'
    dsimp only
    split
    · exact hst'
    · exact ih st' hst'

/-- After the loop a chord may be activated whose keys were all pressed. -/
theorem afterLoop_ensures {activeLayer since : Nat} {rel : Bool} {st : PressLoop (Action T)}
    (hst : LoopObeys D possible st) :
    Ensures (afterLoop chords possible activeLayer since rel st) (Virtual D) E := by
  unfold afterLoop
  split
  · dsimp only
    split
    · rename_i cch hfound
      have hmem : cch ∈ possible := by
        have hmem := findCompleted_mem hfound
        split at hmem
        · exact hmem
        · exact hst.candidates cch hmem
      exact activate_ensures (hpossible cch hmem) _ _ _ hst.self
    · exact { hst.self with }
  · exact hst.self

end Loop

/-- The presses of the queue, with the chords of the first key. -/
theorem processPresses_ensures (hchords : cfg.chordsV2 = some chords) (activeLayer : Nat)
    (hs : Virtual D s) : Ensures (processPresses chords activeLayer s) (Virtual D) E := by
  unfold processPresses
  refine Ensures.bind ((gatherPresses_panics D chords _ _).mono ?_ fun _ hp => hp)
  rintro ⟨presses, rel⟩ _
  dsimp only
  split
  · exact hs
  · split
    · exact { hs with }
    · rename_i possible hmapping
      have hpossible := D.chordsV2 hchords hmapping
      split
      · exact D.otherPanic (by decide)
      · refine Ensures.bind ((pressLoop_ensures hpossible _ _ ⟨by simp, hs⟩).mono ?_ fun _ hp => hp)
        intro st hst
        refine Ensures.bind ((afterLoop_ensures hpossible hst).mono ?_ fun _ hp => hp)
        intro self hself
        split
        · exact { hself with queue := fun q hq => hself.queue q (List.mem_filter.mp hq).1 }
        · exact hself

/-! ## The tick -/

/-- All that a tick of chords v2 takes out of its queue. -/
theorem drainInputs_ensures (hchords : cfg.chordsV2 = some chords) (activeLayer : Nat)
    (hs : Virtual D s) :
    Ensures (drainInputs chords activeLayer s .empty)
      (fun r => Virtual D r.1 ∧ ∀ q ∈ r.2.items, q.Obeys D) E := by
  have hempty : ∀ q ∈ (Bounded.empty : SmolQueue).items, q.Obeys D := by simp
  unfold drainInputs
  split
  · have hdrained := drainAll_obeys s.queue.items s .empty hs.queue hs hempty
    exact ⟨{ hdrained.1 with queue := by simp [drainWithoutNewActivations] }, hdrained.2⟩
  · split
    · exact ⟨{ hs with }, hempty⟩
    · unfold processInputs drainVirtualKeys
      dsimp only
      refine Ensures.bind (Ensures.bind ((drainVirtual_ensures _ _ hs.queue hempty).mono ?_
        fun _ hp => hp))
      intro drainq hdrainq
      rw [ensures_pure]
      -- the events of real keys stay in the queue
      have hreal : Virtual D { s with
          ticksUntilNextStateChange := 0
          prevActiveLayer := activeLayer
          prevQueueLen := s.queue.items.length
          queue := s.queue.retain isReal } :=
        { hs with queue := fun q hq => hs.queue q (List.mem_filter.mp hq).1 }
      refine Ensures.bind ((drainReleases_ensures chords hreal hdrainq).mono ?_ fun _ hp => hp)
      rintro ⟨s₁, q₁⟩ ⟨hs₁, hq₁⟩
      exact Ensures.bind ((processPresses_ensures hchords activeLayer hs₁).mono
        (fun _ hs₂ => ⟨hs₂, hq₁⟩) fun _ hp => hp)

/-- The virtual release of a chord that is over. Nothing is asked of releases. -/
theorem pushReleased_ensures :
    ∀ (achs : List (ActiveChord (Action T))) (drainq : SmolQueue),
      (∀ q ∈ drainq.items, q.Obeys D) →
      Ensures (pushReleased achs drainq) (fun q => ∀ q' ∈ q.items, q'.Obeys D) E := by
  intro achs
  induction achs with
  | nil => exact fun _ h => h
  | cons ach achs ih =>
    intro drainq h
    unfold pushReleased
    split
    · refine Ensures.bind ((D.assertOther (by decide)).mono ?_ fun _ hp => hp)
      intro _ _
      exact ih _ (pushBack_obeys h trivial)
    · exact ih drainq h

/-- The two events that tell a hold-tap of the layout that a chord came or went. -/
theorem pushTriggers_obeys {q : SmolQueue} (h : ∀ q' ∈ q.items, q'.Obeys D) (prevLen : Nat)
    (s : ChordsV2 (Action T)) : ∀ q' ∈ (pushTriggers prevLen s q).items, q'.Obeys D := by
  have hpress : ∀ q' ∈ (if s.activeChords.items.length != prevLen then
      (q.pushBack (.newPress triggerTapholdCoord.1 triggerTapholdCoord.2)).1 else q).items,
      q'.Obeys D := by
    split
    · exact pushBack_obeys h D.triggers
    · exact h
  unfold pushTriggers
  dsimp only
  split
  · exact pushBack_obeys hpress trivial
  · exact hpress

/-- A tick of chords v2 keeps to the discipline. -/
theorem tickChv2_ensures (hchords : cfg.chordsV2 = some chords) (activeLayer : Nat)
    (hs : Virtual D s) :
    Ensures (tickChv2 chords activeLayer s)
      (fun r => Virtual D r.1 ∧ ∀ q ∈ r.2.items, q.Obeys D) E := by
  unfold tickChv2 tickWith
  dsimp only
  refine Ensures.bind ((drainInputs_ensures hchords activeLayer hs.age).mono ?_ fun _ hp => hp)
  rintro ⟨s₁, q₁⟩ ⟨hs₁, hq₁⟩
  unfold clearReleasedChords
  refine Ensures.bind (Ensures.bind ((pushReleased_ensures _ _
    (pushTriggers_obeys hq₁ _ s₁)).mono ?_ fun _ hp => hp))
  intro q₂ hq₂
  exact ⟨{ hs₁ with
    activeChords := fun ach hach => hs₁.activeChords ach (List.mem_filter.mp hach).1 }, hq₂⟩

end Virtual

end Kanata
