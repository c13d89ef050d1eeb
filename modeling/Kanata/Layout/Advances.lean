import Kanata.Layout.Frame

/-!
# Kanata.Layout.Advances — every step of a run

`step_advances`: each step of the layout, from a layout that keeps to a
discipline and with an input that does, is made of the parts that `Advances`
lists. `Advances.obeys` carries the discipline along, so that it holds in every
reachable layout.
-/

namespace Kanata

open Fallible Machine

variable {C R : Nat} {T : Type} {cfg : LayoutConfig C R T} {E : Panic → Prop}
  {D : Discipline cfg E} {s s' : Layout T} {e : CustomEvent T}

/-! ## The discipline is kept -/

namespace Layout.Obeys

/-- What the discipline asks of the chords v2 of a layout. -/
theorem virtual (h : s.Obeys D) : Virtual D s.chordsV2 :=
  ⟨h.chordsQueue, h.activeChords, h.nextCoord⟩

/-- Chords v2 that keep to the discipline may take the place of those of the layout. -/
theorem setChords (h : s.Obeys D) {chordsV2 : Chord.ChordsV2 (Action T)} (hv : Virtual D chordsV2) :
    { s with chordsV2 }.Obeys D :=
  { h with chordsQueue := hv.queue, activeChords := hv.activeChords, nextCoord := hv.nextCoord }

/-- An event that the queue takes in. The one that may fall out is only noted. -/
theorem pushQueue (h : s.Obeys D) {q : Queued} (hq : q.Obeys D) : (s.pushQueue q).Obeys D := by
  have hpushed : { s with queue := (s.queue.pushBack q).1 }.Obeys D :=
    { h with
      queue := by
        intro q' hmem
        rcases Bounded.mem_pushBack hmem with hmem | rfl
        · exact h.queue q' hmem
        · exact hq }
  exact hpushed.noteLost _ _

/-- Actions that a chord group leaves behind when it is taken apart. -/
theorem pushActions {qas : List (QueuedAction T)} (hqas : ∀ qa ∈ qas, qa.Obeys D) :
    ∀ {s : Layout T}, s.Obeys D → (qas.foldl Layout.pushAction s).Obeys D := by
  induction qas with
  | nil => exact fun h => h
  | cons qa qas ih =>
    intro s h
    exact ih (fun qa' hmem => hqas qa' (List.mem_cons_of_mem _ hmem))
      (h.pushAction (hqas qa List.mem_cons_self))

/-- Events get older, and an eager tap-dance may end. -/
theorem ageInputs (h : s.Obeys D) : s.ageInputs.Obeys D :=
  { h with
    queue := by
      intro q hq
      rcases List.mem_map.mp hq with ⟨q', hq', rfl⟩
      exact h.queue q' hq'
    tapDanceEager := by
      intro tde htde
      unfold Layout.ageInputs Layout.note at htde
      dsimp only at htde
      split at htde
      · rename_i tde' heq
        split at htde
        · cases htde
        · cases htde
          exact h.tapDanceEager tde' heq
      · cases htde }

/-- A tick of a macro puts no layer into the states. -/
theorem processSequence (h : s.Obeys D) (seq : SequenceState T) :
    (Layout.processSequence s seq).1.Obeys D := by
  have hretain : ∀ p, { s with states := s.states.retain p }.Obeys D := fun p =>
    h.subStates fun st hst => (List.mem_filter.mp hst).1
  have hkey : ∀ kc, ((((s.pushState (.fakeKey kc)).pushHistoricalKey kc).oneshotHandlePress
      (.other (0, 0))).1).Obeys D := fun kc => by
    have hfake : State.Obeys D (.fakeKey kc) := trivial
    have hpushed : (s.pushState (.fakeKey kc)).Obeys D := h.pushState hfake
    have hhist : ((s.pushState (.fakeKey kc)).pushHistoricalKey kc).Obeys D := by
      unfold Layout.pushHistoricalKey
      split
      · exact hpushed
      · exact { hpushed with }
    exact { hhist with }
  unfold Layout.processSequence
  split
  · exact h
  · split
    · exact hretain _
    · dsimp only
      split
      all_goals split
      all_goals first
        | exact h
        | exact hkey _
        | exact { hretain _ with }
        | exact h.pushState trivial

/-- The macro at the front moves on, and goes to the back unless it is done. -/
theorem advanceSequence (h : s.Obeys D) : s.advanceSequence.Obeys D := by
  unfold Layout.advanceSequence
  rcases s.activeSequences.popFront with ⟨_ | seq, activeSequences⟩
  · exact h
  · have htaken : { s with activeSequences }.Obeys D := { h with }
    have hprocessed := htaken.processSequence seq
    dsimp only
    split
    · exact hprocessed
    · exact { hprocessed with }

theorem setExtraWaiting (h : s.Obeys D) (i : Nat) {w : WaitingState T} (hw : w.Obeys D) :
    (s.setExtraWaiting i w).Obeys D :=
  { h with
    extraWaiting := by
      intro w' hw'
      rcases List.mem_or_eq_of_mem_set hw' with hw' | rfl
      · exact h.extraWaiting w' hw'
      · exact hw }

/-- A waiting state that looks at the queue takes events out of it and puts none in. -/
theorem afterTickWt (h : s.Obeys D) {w : WaitingState T} {t : Ticked T}
    (ht : t.Obeys D w s.queue) : (s.afterTickWt t).Obeys D := by
  have hqueue : ({ s with queue := t.queued }.noteWait
      (.ticked t.waiting (t.decision.map Prod.fst))).Obeys D :=
    { h with queue := fun q hq => h.queue q (ht.queued.subset hq) }
  exact pushActions ht.actions hqueue

/-- Custom actions of macros go from pending to active and from active to gone. -/
theorem advanceCustom (h : s.Obeys D) (custom : CustomEvent T) :
    (s.processSequenceCustom custom).1.Obeys D := by
  have hadvance : ∀ states : List (State T), (∀ st ∈ states, st.Obeys D) →
      ∀ st ∈ (Layout.advanceSeqCustom states).1, st.Obeys D := by
    intro states
    induction states with
    | nil => exact fun h => h
    | cons st states ih =>
      intro hstates
      have hrest : ∀ st ∈ states, st.Obeys D := fun st' hmem =>
        hstates st' (List.mem_cons_of_mem _ hmem)
      unfold Layout.advanceSeqCustom
      split
      · simp at *
      · rename_i heq
        cases heq
        intro st' hmem
        rcases List.mem_cons.mp hmem with rfl | hmem
        · trivial
        · exact hrest st' hmem
      · rename_i heq
        cases heq
        intro st' hmem
        rcases List.mem_cons.mp hmem with rfl | hmem
        · trivial
        · exact hrest st' hmem
      · rename_i heq
        cases heq
        intro st' hmem
        rcases List.mem_cons.mp hmem with rfl | hmem
        · exact hstates _ List.mem_cons_self
        · exact ih hrest st' hmem
  unfold Layout.processSequenceCustom
  split
  · exact h
  · dsimp only
    have hstates : ∀ states : List (State T), (∀ st ∈ states, st.Obeys D) →
        { s with states := .ofTake _ (Layout.advanceSeqCustom states).1 }.Obeys D := by
      intro states hall
      exact { h with states := fun st hst => hadvance states hall st (Bounded.mem_ofTake hst) }
    have hfiltered := fun p : State T → Bool => hstates (s.states.items.filter p) fun st hst =>
      h.states st (List.mem_filter.mp hst).1
    split
    · exact (hfiltered _).note _
    · exact (hfiltered _).note _
    · exact hfiltered _
  · exact h

/-- The rest of the queue was in the queue. -/
theorem takeEvent (h : s.Obeys D) : s.takeEvent.Obeys D := by
  rw [Layout.takeEvent_eq]
  exact { h with queue := fun q hq => h.queue q (List.mem_of_mem_tail hq) }

theorem takeAction (h : s.Obeys D) : s.takeAction.Obeys D := by
  rw [Layout.takeAction_eq]
  exact { h with actionQueue := fun qa hqa => h.actionQueue qa (List.mem_of_mem_tail hqa) }

/-- What passes in a step keeps to the discipline. -/
theorem pass (h : s.Obeys D) {u : Passing T} (hu : u.Allowed D s) : (u.apply s).Obeys D := by
  cases u with
  | takeRelease => exact { h with }
  | tickChords chordsV2 => exact h.setChords hu
  | receive q => exact h.pushQueue hu.1
  | queueChord qa => exact h.pushAction hu
  | clearSuppressed => exact { h with }
  | ageInputs => exact h.ageInputs
  | advanceSequence => exact h.advanceSequence
  | restartSequence events => exact h.startSequence events
  | ageHistories => exact { h with }
  | tickOneshot => exact { h with }
  | takeEvent => exact h.takeEvent
  | tickWaiting t =>
    rcases hu with ⟨w, _, _, ht⟩
    have hset : { s with waiting := some t.waiting }.Obeys D :=
      { h with waiting := fun w' hw' => by cases hw'; exact ht.waiting }
    exact hset.afterTickWt ht
  | tickExtraWaiting i t =>
    rcases hu with ⟨w, _, _, ht⟩
    exact (h.setExtraWaiting i ht.waiting).afterTickWt ht
  | loseWaiting =>
    simp only [Passing.apply, Layout.loseWaiting]
    split
    · have hnone : { s with waiting := none }.Obeys D :=
        { h with waiting := fun _ hw => by cases hw }
      exact hnone.note _
    · exact h
  | advanceCustom => exact h.advanceCustom _
  | enqueueFront q =>
    refine { h with queue := ?_ }
    intro q' hmem
    rcases Bounded.mem_pushFront hmem with hmem | rfl
    · exact h.queue q' hmem
    · exact hu.1
  | cancelMacros =>
    have hcleared : { s with activeSequences := .empty }.Obeys D := { h with }
    exact hcleared.subStates fun st hst => (List.mem_filter.mp hst).1
  | markOverridden kc =>
    refine { h with states := ?_ }
    intro st hst
    rcases List.mem_map.mp hst with ⟨st', hst', rfl⟩
    have hst' := h.states st' hst'
    unfold State.markOverridden
    split
    · split
      · trivial
      · trivial
    · exact hst'
  | removeNormalKey kc => exact h.subStates fun st hst => (List.mem_filter.mp hst).1
  | pushDevice id => exact { h with }

end Layout.Obeys

/-- Whatever a step is made of, the layout keeps to the discipline. -/
theorem Advances.obeys (h : Advances D s s' e) (hs : s.Obeys D) : s'.Obeys D := by
  induction h with
  -- parts in which actions are performed were gone through before
  | performs h => exact h.obeys hs
  | pass u hu => exact hs.pass hu
  | takes hqa hact h => exact h.obeys hs.takeAction
  | merge h₁ h₂ ih₁ ih₂ => exact (ih₂ (ih₁ hs)).discard _

theorem Proceeds.obeys (h : Proceeds D s s' e) (hs : s.Obeys D) : s'.Obeys D :=
  h.advances.obeys hs

/-! ## The parts of a tick -/

/-- Every macro that is active moves on once. -/
theorem processActive_proceeds :
    ∀ (n : Nat) (s : Layout T), Proceeds D s (Layout.processActive n s) .noEvent := by
  intro n
  induction n with
  | zero => exact fun s => .refl s
  | succ n ih =>
    intro s
    rw [Layout.processActive_succ]
    exact .after .advanceSequence trivial rfl rfl (ih _)

/-- A macro that repeats is held by some key. -/
theorem mem_of_latestRepeating {states : List (State T)} {events : List (SequenceEvent T)}
    (h : Layout.latestRepeating states = some events) :
    ∃ c, State.repeatingSequence events c ∈ states := by
  unfold Layout.latestRepeating at h
  rcases List.exists_of_findSome?_eq_some h with ⟨st, hst, hevents⟩
  split at hevents
  · rename_i events' c
    cases hevents
    exact ⟨c, List.mem_reverse.mp hst⟩
  · cases hevents

/-- When no macro is active, the one that repeats may start again. -/
theorem processSequences_proceeds (s : Layout T) : Proceeds D s s.processSequences .noEvent := by
  have hactive := processActive_proceeds (D := D) s.activeSequences.items.length s
  unfold Layout.processSequences
  dsimp only
  split
  · rename_i hempty
    split
    · rename_i events hlatest
      exact hactive.andThen (.restartSequence events)
        ⟨List.isEmpty_iff.mp hempty, mem_of_latestRepeating hlatest⟩ rfl
    · exact hactive
  · exact hactive

/-- The timers: something that does not age the histories, then they get older. -/
theorem tickTimers_eq (s : Layout T) :
    s.tickTimers = s.ageInputs.processSequences.ageHistories := rfl

/-- What a tick does before the histories get older. -/
theorem ageInputs_proceeds (s : Layout T) :
    Proceeds D s s.ageInputs.processSequences .noEvent :=
  .after .ageInputs trivial rfl rfl (processSequences_proceeds _)

/-- Chords v2 hand over several events in one tick. -/
theorem pushQueues_proceeds (hchords : cfg.chordsV2.isSome = true) :
    ∀ (qs : List Queued) (s : Layout T), (∀ q ∈ qs, q.Obeys D) →
      Proceeds D s (qs.foldl Layout.pushQueue s) .noEvent := by
  intro qs
  induction qs with
  | nil => exact fun s _ => .refl s
  | cons q qs ih =>
    intro s hqs
    exact .after (.receive q) ⟨hqs q List.mem_cons_self, hchords⟩ rfl rfl
      (ih _ fun q' hmem => hqs q' (List.mem_cons_of_mem _ hmem))

/-- Chords v2 add events to the queue, and one action at most. -/
theorem tickChordsV2_ensures (hs : s.Obeys D) :
    Ensures (s.tickChordsV2 cfg) (fun s' => Proceeds D s s' .noEvent) E := by
  unfold Layout.tickChordsV2
  split
  · exact .refl s
  · rename_i chords hchords
    refine Ensures.bind ((tickChv2_ensures hchords _ hs.virtual).mono ?_ fun _ hp => hp)
    rintro ⟨chordsV2, drained⟩ ⟨hvirtual, hdrained⟩
    dsimp only
    have hgot := hvirtual.getAction
    have hpushed : Proceeds D s _ .noEvent :=
      .after (.tickChords chordsV2.getActionChv2.1) hgot.1 rfl rfl
      (pushQueues_proceeds (by rw [hchords]; rfl) drained.items _ hdrained)
    split
    · rename_i coord delay action haction
      have hqa : QueuedAction.Obeys D ⟨coord, delay, action, []⟩ :=
        ⟨hgot.2 coord delay action haction, by simp⟩
      exact (hpushed.andThen (.queueChord ⟨coord, delay, action, []⟩) hqa rfl).performing
        (.update .pauseInputProcessing trivial)
    · exact hpushed

/-- The one-shot keys that end are released one after the other, and their custom events are
merged. -/
theorem releaseOneshots_ensures {s₀ : Layout T} (hs : s₀.Obeys D) :
    ∀ (keys : List KCoord) (custom : CustomEvent T) (s : Layout T), Proceeds D s₀ s custom →
      Ensures (Layout.releaseOneshots cfg keys custom s) (fun r => Proceeds D s₀ r.1 r.2) E := by
  intro keys
  induction keys with
  | nil => exact fun _ _ h => h
  | cons key keys ih =>
    intro custom s h
    unfold Layout.releaseOneshots
    have hrelease : (Queued.newRelease key.1 key.2).Obeys D := trivial
    refine Ensures.bind ((dequeue_ensures (act_actsWithin D) (h.obeys hs) hrelease).mono ?_
      fun _ hp => hp)
    rintro ⟨s', e⟩ h'
    exact ih _ _ (h.merge (.performs h'))

/-- A release queues no action. -/
theorem releaseOneshots_actionQueue :
    ∀ {keys : List KCoord} {custom : CustomEvent T} {s : Layout T} {r : Layout T × CustomEvent T},
      Layout.releaseOneshots cfg keys custom s = .ok r → r.1.actionQueue = s.actionQueue := by
  intro keys
  induction keys with
  | nil =>
    intro custom s r h
    simp only [Layout.releaseOneshots, pure_eq_ok] at h
    rw [← h]
  | cons key keys ih =>
    intro custom s r h
    unfold Layout.releaseOneshots at h
    rcases bind_eq_ok.mp h with ⟨⟨s₁, e⟩, hrelease, h⟩
    rcases dequeueRelease_eq_ok hrelease with ⟨states, rel, _, _, rfl⟩
    rw [ih h]
    show (Layout.discard _ _).actionQueue = s.actionQueue
    rw [Layout.discard_eq]
    rfl

/-- A decision about a waiting state that is at its index. -/
theorem decide_ensures (hdecides : ∀ outcome, D.resolves outcome) (hs : s.Obeys D)
    (idx : Option Nat)
    {decision : Option (WaitingAction × Option PressedQueue)}
    (hpressed : ∀ a pq, decision = some (a, some pq) → ∀ w, s.waitingAt idx = some w →
      ∀ c ∈ pq.items, D.performs w.tap c)
    (hdrops : ∀ i pq, idx = some i → decision = some (.noOp, pq) →
      ∃ w ∈ s.extraWaiting.items, ¬ w.KeepsPress) :
    Ensures (Layout.decide cfg idx decision s) (fun r => Proceeds D s r.1 r.2) E := by
  unfold Layout.decide
  split
  · exact (waitingIntoHold_ensures (act_actsWithin D) hs idx).mono (fun _ h => .performs h)
      fun _ hp => hp
  · rename_i pq
    have hpq : ∀ w, s.waitingAt idx = some w → ∀ q ∈ pq, ∀ c ∈ q.items, D.performs w.tap c := by
      intro w hw q hq
      cases hq
      exact hpressed _ q rfl w hw
    exact (waitingIntoTap_ensures (act_actsWithin D) hs (hdecides _) hpq).mono
      (fun _ h => .performs h)
      fun _ hp => hp
  · exact (waitingIntoTimeout_ensures (act_actsWithin D) hs (hdecides _) idx).mono
      (fun _ h => .performs h)
      fun _ hp => hp
  · split
    · unfold Layout.dropWaiting
      split
      · rename_i w hw
        exact .performs (.update (.takeWaiting w .noOp none) ⟨hw, hdecides _⟩)
      · exact .refl s
    -- `drop_waiting` takes out what waits, though another state was decided
    · have hlose : Proceeds D s s.loseWaiting .noEvent :=
        .pass .loseWaiting (hdrops _ _ rfl rfl) rfl
      exact hlose
  · exact .refl s

/-- The other waiting states are not touched when one of them looks at the queue. -/
theorem afterTickWt_waiting (t : Ticked T) (s : Layout T) :
    (s.afterTickWt t).waiting = s.waiting ∧ (s.afterTickWt t).extraWaiting = s.extraWaiting := by
  have hpush : ∀ (qas : List (QueuedAction T)) (s : Layout T),
      (qas.foldl Layout.pushAction s).waiting = s.waiting ∧
        (qas.foldl Layout.pushAction s).extraWaiting = s.extraWaiting := by
    intro qas
    induction qas with
    | nil => exact fun s => ⟨rfl, rfl⟩
    | cons qa qas ih =>
      intro s
      have hone : (s.pushAction qa).waiting = s.waiting ∧
          (s.pushAction qa).extraWaiting = s.extraWaiting := by
        unfold Layout.pushAction Layout.noteLost
        split
        · exact ⟨rfl, rfl⟩
        · exact ⟨rfl, rfl⟩
      have hrest := ih (s.pushAction qa)
      rw [hone.1, hone.2] at hrest
      exact hrest
  exact hpush t.actions _

/-- The first decision, or an event from the queue when nothing waits. -/
theorem tickWaiting_ensures (hdecides : ∀ outcome, D.resolves outcome) (hs : s.Obeys D)
    (hempty : s.actionQueue.items = []) :
    Ensures (s.tickWaiting cfg) (fun r => Proceeds D s r.1 r.2) E := by
  unfold Layout.tickWaiting
  split
  · rename_i w hw
    refine Ensures.bind ((tickWt_ensures D (hs.waiting w hw) _ _).mono_ok ?_ fun _ hp => hp)
    intro t htick ht
    have hallowed : (Passing.tickWaiting t).Allowed D s := ⟨w, hw, htick, ht⟩
    have hpass : Proceeds D s ({ s with waiting := some t.waiting }.afterTickWt t) .noEvent :=
      .pass (.tickWaiting t) hallowed rfl
    refine (decide_ensures hdecides (hpass.obeys hs) none ?_ (fun _ _ h => by cases h)).mono
      (fun _ h => hpass.trans h) fun _ hp => hp
    intro a pq hdecision w' hw'
    -- the state that is decided is the one that looked
    have hsame : some t.waiting = some w' := by
      rw [← hw']
      exact (afterTickWt_waiting t { s with waiting := some t.waiting }).1.symm
    cases hsame
    exact ht.pressed a pq hdecision
  · split
    · split
      · exact .performs (.update .passPause trivial)
      · split
        · rename_i q queue hpop
          have hq : q ∈ s.queue.items := List.mem_of_mem_head? (by
            have h := congrArg Prod.fst hpop
            exact h)
          have htaken : Proceeds D s ({ s with queue }.note (.eventTaken q)) .noEvent := by
            have h : Proceeds D s s.takeEvent .noEvent := .pass .takeEvent hempty rfl
            unfold Layout.takeEvent at h
            rwa [hpop] at h
          exact (dequeue_ensures (act_actsWithin D) (htaken.obeys hs) (hs.queue q hq)).mono
            (fun _ h => htaken.performing h) fun _ hp => hp
        · exact .refl s
    · exact .refl s

/-- The loop over the other decisions ends at the first one that falls. What it tells of the
decision is what `decide` needs to know. -/
theorem tickExtraWaitings_ensures {s₀ : Layout T} (hs : s₀.Obeys D) :
    ∀ (n i : Nat) (s : Layout T), Proceeds D s₀ s .noEvent →
      Ensures (Layout.tickExtraWaitings cfg n i s)
        (fun r => Proceeds D s₀ r.1 .noEvent ∧
          (∀ j a pq, r.2 = some (j, a, some pq) → ∀ w, r.1.waitingAt (some j) = some w →
            ∀ c ∈ pq.items, D.performs w.tap c) ∧
          ∀ j pq, r.2 = some (j, .noOp, pq) → ∃ w ∈ r.1.extraWaiting.items, ¬ w.KeepsPress) E := by
  intro n
  induction n with
  | zero => exact fun _ _ h => ⟨h, (fun _ _ _ h => by cases h), fun _ _ h => by cases h⟩
  | succ n ih =>
    intro i s h
    unfold Layout.tickExtraWaitings
    split
    · exact ⟨h, (fun _ _ _ h => by cases h), fun _ _ h => by cases h⟩
    · rename_i w hw
      have hobeys := (h.obeys hs).extraWaiting w (List.mem_of_getElem? hw)
      refine Ensures.bind ((tickWt_ensures D hobeys _ _).mono_ok ?_ fun _ hp => hp)
      intro t htick ht
      have hallowed : (Passing.tickExtraWaiting i t).Allowed D s := ⟨w, hw, htick, ht⟩
      have hpass : Proceeds D s₀ ((s.setExtraWaiting i t.waiting).afterTickWt t) .noEvent :=
        h.andThen (.tickExtraWaiting i t) hallowed rfl
      dsimp only
      split
      · rename_i wa pq hdecision
        have hlt : i < s.extraWaiting.items.length := (List.getElem?_eq_some_iff.mp hw).1
        -- the index still points to the state that was decided
        have hset : ((s.setExtraWaiting i t.waiting).afterTickWt t).extraWaiting.items[i]? =
            some t.waiting := by
          rw [(afterTickWt_waiting t _).2]
          exact List.getElem?_set_self hlt
        refine ⟨hpass, ?_, ?_⟩
        · intro j a pq' heq w' hw'
          cases heq
          cases Option.some.inj (hset.symm.trans hw')
          exact ht.pressed _ _ hdecision
        · intro j pq' heq
          cases heq
          refine ⟨t.waiting, List.mem_of_getElem? hset, fun hkeeps => ?_⟩
          exact ht.drops (ht.keepsPress.mp hkeeps) _ hdecision
      · exact ih (i + 1) _ hpass

/-- The other decisions are looked at only while nothing happened in the tick. -/
theorem processExtraWaitings_ensures (hdecides : ∀ outcome, D.resolves outcome) (hs : s.Obeys D)
    (custom : CustomEvent T) {s₀ : Layout T}
    (h : Proceeds D s₀ s custom) :
    Ensures (s.processExtraWaitings cfg custom) (fun r => Proceeds D s₀ r.1 r.2) E := by
  unfold Layout.processExtraWaitings
  split
  · refine Ensures.bind ((tickExtraWaitings_ensures hs _ 0 s (.refl s)).mono ?_ fun _ hp => hp)
    rintro ⟨s₁, decided⟩ ⟨h₁, hpressed, hdrops⟩
    dsimp only
    split
    · rename_i i wa pq
      refine (decide_ensures hdecides (h₁.obeys hs) (some i) ?_ ?_).mono
        (fun _ h₂ => h.trans (h₁.trans h₂)) fun _ hp => hp
      · intro a pq' heq
        cases heq
        exact hpressed i wa pq' rfl
      · intro j pq' hidx heq
        cases hidx
        cases heq
        exact hdrops i pq rfl
    · exact h.trans h₁
  · exact h

/-- Custom actions of macros wait for a tick without another custom event. -/
theorem processSequenceCustom_proceeds {s₀ : Layout T} {custom : CustomEvent T}
    (h : Proceeds D s₀ s custom) :
    Proceeds D s₀ (s.processSequenceCustom custom).1 (s.processSequenceCustom custom).2 := by
  by_cases hnone : custom = .noEvent
  · subst hnone
    exact h.andThen .advanceCustom trivial rfl
  · rw [Layout.processSequenceCustom_busy s hnone]
    exact h

/-- The part of a tick past the action queue, after the histories got older. -/
theorem tickMain_proceeds (hdecides : ∀ outcome, D.resolves outcome) (hs : s.Obeys D)
    (hempty : s.actionQueue.items = []) :
    Ensures (s.tickMain cfg) (fun r => Proceeds D s.tickTimers r.1 r.2) E := by
  unfold Layout.tickMain
  have htimers : s.tickTimers.Obeys D := by
    have haged : Advances D s s.tickTimers .noEvent :=
      (ageInputs_proceeds s).advances.andThen .ageHistories trivial
    exact haged.obeys hs
  have hosh : Proceeds D s.tickTimers
      { s.tickTimers with oneshot := s.tickTimers.oneshot.tickOsh.1 } .noEvent :=
    .pass .tickOneshot trivial rfl
  dsimp only
  refine Ensures.bind ((releaseOneshots_ensures htimers _ _ _ hosh).mono_ok ?_ fun _ hp => hp)
  rintro ⟨s₁, custom₁⟩ hreleased h₁
  -- an event may be taken from the queue, since no action is queued
  have hempty₁ : s₁.actionQueue.items = [] := by
    rw [releaseOneshots_actionQueue hreleased]
    show s.tickTimers.actionQueue.items = []
    rw [Layout.tickTimers_actionQueue, hempty]
  refine Ensures.bind ((tickWaiting_ensures hdecides (h₁.obeys htimers) hempty₁).mono ?_
    fun _ hp => hp)
  rintro ⟨s₂, e₂⟩ h₂
  have h₃ := h₁.merge h₂
  refine Ensures.bind ((processExtraWaitings_ensures hdecides (h₃.obeys htimers) _ h₃).mono ?_
    fun _ hp => hp)
  rintro ⟨s₄, custom₄⟩ h₄
  exact processSequenceCustom_proceeds h₄

/-- The same with the timers. -/
theorem tickMain_ensures (hdecides : ∀ outcome, D.resolves outcome) (hs : s.Obeys D)
    (hempty : s.actionQueue.items = []) :
    Ensures (s.tickMain cfg) (fun r => Advances D s r.1 r.2) E := by
  have htimers : Advances D s s.tickTimers .noEvent :=
    (ageInputs_proceeds s).advances.andThen .ageHistories trivial
  exact (tickMain_proceeds hdecides hs hempty).mono (fun _ h => htimers.trans h.advances)
    fun _ hp => hp

theorem ne_nil_of_head? {α : Type} {xs : List α} {x : α} (h : xs.head? = some x) : xs ≠ [] := by
  intro hnil
  rw [hnil] at h
  cases h

/-- Neither a release nor an action is queued when the tick looks for them. -/
def Layout.agesHistories (cfg : LayoutConfig C R T) (s : Layout T) : Bool :=
  s.customEventReleaseQueue.items.isEmpty &&
    match s.tickChordsV2 cfg with
    | .ok s₁ => s₁.actionQueue.items.isEmpty
    | .error _ => false

/-- A tick that ages the histories does so once, and the others do not. -/
structure TickAges (D : Discipline cfg E) (s s' : Layout T) (e : CustomEvent T) : Prop where
  once : s.agesHistories cfg = true →
    ∃ s₁, Proceeds D s s₁ .noEvent ∧ Proceeds D s₁.ageHistories s' e
  never : s.agesHistories cfg = false → Proceeds D s s' e

/-- A tick that goes through. -/
theorem TickAges.aged {s₁ : Layout T} (hages : s.agesHistories cfg = true)
    (h₁ : Proceeds D s s₁ .noEvent) (h₂ : Proceeds D s₁.ageHistories s' e) : TickAges D s s' e where
  once _ := ⟨s₁, h₁, h₂⟩
  never h := by
    rw [hages] at h
    cases h

/-- A tick that returns early. -/
theorem TickAges.unaged (hages : s.agesHistories cfg = false) (h : Proceeds D s s' e) :
    TickAges D s s' e where
  once h := by
    rw [hages] at h
    cases h
  never _ := h

/-- The ageing is one of the parts of a step. -/
theorem TickAges.advances (h : TickAges D s s' e) : Advances D s s' e := by
  cases hages : s.agesHistories cfg with
  | true =>
    rcases h.once hages with ⟨s₁, h₁, h₂⟩
    exact (h₁.advances.andThen .ageHistories trivial).trans h₂.advances
  | false => exact (h.never hages).advances

/-- The three ways through a tick: a custom action that is released, an action of the queue, or
everything else. -/
theorem tick_ages (hdecides : ∀ outcome, D.resolves outcome) (hs : s.Obeys D) :
    Ensures (s.tick cfg) (fun r => TickAges D s r.1 r.2) E := by
  unfold Layout.tick
  split
  · -- a release was queued
    rename_i released queue hpop
    have hhead : s.customEventReleaseQueue.items.head? = some released := congrArg Prod.fst hpop
    have hne : s.customEventReleaseQueue.items ≠ [] := ne_nil_of_head? hhead
    have hages : s.agesHistories cfg = false := by
      simp [Layout.agesHistories, List.isEmpty_eq_false_iff.mpr hne]
    have h : Proceeds D s _ _ := .pass .takeRelease hne rfl
    simp only [Passing.apply, Passing.output, hpop] at h
    exact .unaged hages h
  · rename_i hpop
    have hnone : s.customEventReleaseQueue.items = [] :=
      List.head?_eq_none_iff.mp (congrArg Prod.fst hpop)
    refine Ensures.bind ((tickChordsV2_ensures hs).mono_ok ?_ fun _ hp => hp)
    intro s₁ hchords h₁
    have hages : s.agesHistories cfg = s₁.actionQueue.items.isEmpty := by
      simp [Layout.agesHistories, hnone, hchords]
    have h₂ : Proceeds D s { s₁ with keysToSuppressForOneCycle := .empty } .noEvent :=
      h₁.andThen .clearSuppressed trivial rfl
    dsimp only
    split
    · -- an action was queued
      rename_i qa actionQueue hpop
      have hhead : s₁.actionQueue.items.head? = some qa := congrArg Prod.fst hpop
      have hqa := (h₂.obeys hs).actionQueue qa (List.mem_of_mem_head? hhead)
      have hcall : Call.Obeys D ⟨qa.action, qa.coord, qa.delay, false, qa.layerStack⟩ :=
        ⟨hqa.action, hqa.layerStack⟩
      have htaken :
        ({ s₁ with keysToSuppressForOneCycle := .empty, actionQueue := actionQueue }.note
          (.actionTaken qa)) = { s₁ with keysToSuppressForOneCycle := .empty }.takeAction := by
        unfold Layout.takeAction
        rw [hpop]
      rw [htaken]
      refine Ensures.bind ((act_actsWithin D _ 0 _ hcall (h₂.obeys hs).takeAction).mono_ok ?_
        fun _ hp => hp)
      rintro ⟨s₄, custom, count⟩ hact h₄
      rw [List.isEmpty_eq_false_iff.mpr (ne_nil_of_head? hhead)] at hages
      exact .unaged hages (h₂.trans (.takes hhead hact h₄))
    · rename_i hpop
      have hempty : s₁.actionQueue.items = [] := List.head?_eq_none_iff.mp (congrArg Prod.fst hpop)
      refine (tickMain_proceeds hdecides (h₂.obeys hs) hempty).mono ?_ fun _ hp => hp
      intro r h
      rw [hempty] at hages
      exact .aged hages (h₂.trans (ageInputs_proceeds _)) h

theorem tick_ensures (hdecides : ∀ outcome, D.resolves outcome) (hs : s.Obeys D) :
    Ensures (s.tick cfg) (fun r => Advances D s r.1 r.2) E :=
  (tick_ages hdecides hs).mono (fun _ h => h.advances) fun _ hp => hp

/-! ## Steps -/

/-- Only keys that may be pressed are pressed, and only where they may come in. -/
def LayoutOp.Obeys (D : Discipline cfg E) : LayoutOp → Prop
  | .event (.press i j) => D.presses (i, j)
  | .eventToFront (.press i j) => D.presses (i, j) ∧ D.fronts
  | .eventToFront (.release _ _) => D.fronts
  | _ => True

/-- What `event_to_front` does once the event is in the histories. -/
theorem eventToFront_arrived (hs : s.Obeys D) {event : Event}
    (hfronts : D.fronts) (hevent : Queued.Obeys D ⟨event, 0, some s.arrivals⟩) :
    Ensures (s.eventToFront cfg event) (fun s' => Proceeds D (s.arrive event) s' .noEvent) E := by
  have harrive : Performs D s (s.arrive event) .noEvent := .update (.arrive event) trivial
  have hobeys : (s.arrive event).Obeys D := harrive.obeys hs
  have hfront : Proceeds D (s.arrive event) { s.arrive event with
      queue := ((s.arrive event).queue.pushFront ⟨event, 0, some s.arrivals⟩).1 } .noEvent :=
    .pass (.enqueueFront _) ⟨hevent, hfronts⟩ rfl
  unfold Layout.eventToFront Layout.eventToFrontWith
  dsimp only
  split
  · exact hfront
  · rename_i overflow heq
    have hoverflow : overflow.Obeys D := by
      unfold Bounded.pushFront at heq
      split at heq
      · cases heq
      · split at heq
        · cases heq
          exact hevent
        · rename_i q qs hqueue
          -- the newest event falls out at the back
          have hlast : (q :: qs).getLast? = some overflow := heq
          have hmem := List.mem_of_getLast? hlast
          rw [← hqueue] at hmem
          exact hobeys.queue _ hmem
    exact (overflowed_ensures (act_actsWithin D) (hfront.obeys hobeys) hoverflow (.refl _)).mono
      (fun _ h => hfront.performing h) fun _ hp => hp

/-- An event that comes in at the front. -/
theorem eventToFront_ensures (hs : s.Obeys D) {event : Event}
    (hfronts : D.fronts) (hevent : Queued.Obeys D ⟨event, 0, some s.arrivals⟩) :
    Ensures (s.eventToFront cfg event) (fun s' => Advances D s s' .noEvent) E := by
  have harrive : Performs D s (s.arrive event) .noEvent := .update (.arrive event) trivial
  exact (eventToFront_arrived hs hfronts hevent).mono
    (fun _ h => (Advances.performs harrive).trans h.advances) fun _ hp => hp

/-- Every step is made of parts that keep to the discipline. -/
theorem step_advances (hdecides : ∀ outcome, D.resolves outcome) (hs : s.Obeys D) {op : LayoutOp}
    (hop : op.Obeys D) :
    Ensures (s.step cfg op) (fun r => Advances D s r.1 r.2) E := by
  have hqueued : ∀ (event : Event) (n : Nat), LayoutOp.Obeys D (.event event) →
      Queued.Obeys D ⟨event, 0, some n⟩ := by
    intro event n h
    cases event with
    | press i j => exact h
    | release i j => trivial
  cases op with
  | event ev =>
    exact Ensures.bind ((eventWith_ensures (act_actsWithin D) hs (hqueued ev _ hop)).mono
      (fun _ h => Advances.performs h) fun _ hp => hp)
  | eventToFront ev =>
    have hev : LayoutOp.Obeys D (.event ev) ∧ D.fronts := by
      cases ev with
      | press i j => exact hop
      | release i j => exact ⟨trivial, hop⟩
    exact Ensures.bind ((eventToFront_ensures hs hev.2 (hqueued ev _ hev.1)).mono (fun _ h => h)
      fun _ hp => hp)
  | tick => exact tick_ensures hdecides hs
  | cancelMacros => exact .pass .cancelMacros trivial
  | releaseState rs => exact .performs (.update (.releaseState rs) trivial)
  | markOverridden kc => exact .pass (.markOverridden kc) trivial
  | removeNormalKey kc => exact .pass (.removeNormalKey kc) trivial
  | setDefaultLayer value => exact .performs (.update (.setDefaultLayer value) trivial)
  | pushDevice id => exact .pass (.pushDevice id) trivial

/-- A new layout holds nothing. -/
theorem new_obeys (D : Discipline cfg E) (delay : Nat) : (Layout.new delay : Layout T).Obeys D where
  defaultLayer := D.layers_zero
  states := by simp [Layout.new]
  waiting := by simp [Layout.new]
  extraWaiting := by simp [Layout.new]
  tapDanceEager := by simp [Layout.new]
  queue := by simp [Layout.new]
  chordsQueue := by simp [Layout.new, Chord.ChordsV2.new]
  actionQueue := by simp [Layout.new]
  rptAction := by simp [Layout.new]
  activeChords := by simp [Layout.new, Chord.ChordsV2.new]
  nextCoord := by
    show Chord.IsCoord (keyMax + 1)
    unfold Chord.IsCoord
    omega

end Kanata
