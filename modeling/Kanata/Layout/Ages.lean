import Kanata.Layout.Told
import Kanata.Lib.Timeline
import Mathlib.Data.List.InsertIdx

/-!
# Kanata.Layout.Ages — how old the events in the histories are

The layout keeps the last keys, the last inputs and the last inputs without those that
were held or timed out, each in two queues side by side: the events and their ages. The
trace notes each event that is recorded or taken out again where the layout does so, and
each time that all three get older.

Main result:
* `ages_since_recorded` — in every run each age is the number of ageings that were noted
  since its event was recorded, one for each tick, but for the ticks that only hand out a
  queued release or only perform a queued action: they end before the histories get older.
-/

namespace Kanata

open Fallible Machine Timeline

variable {C R : Nat} {T : Type}

/-! ## One history -/

namespace History

variable {α : Type}

/-- The history after an operation. -/
def apply [BEq α] (h : History α) : Op α → History α
  | .record x => h.pushFront x
  | .exclude x => h.exclude x
  | .age => h.tickHist

/-- The history holds these entries, with their ages up to `u16::MAX`. -/
structure Shows (h : History α) (es : List (Entry α)) : Prop where
  events : h.events.items = es.map Entry.event
  ages : h.ticksSinceOccurrences.items = es.map fun e => min e.age u16Max

/-- Each event has its own age, the latest event the smallest, and it is the number of
ticks in the log since the event was recorded. -/
structure AgesRight (h : History α) (log : List (Op α)) : Prop where
  paired : h.events.items.length = h.ticksSinceOccurrences.items.length
  sorted : h.ticksSinceOccurrences.items.Pairwise (· ≤ ·)
  since : ∃ es, Dated log es ∧ h.iterHevents = es.map fun e => ⟨e.event, min e.age u16Max⟩

variable {h : History α} {es : List (Entry α)} {log : List (Op α)}

theorem Shows.pushFront (hs : h.Shows es) (x : α) (n : Nat) :
    (h.pushFront x).Shows ((⟨x, n, 0⟩ :: es).take historicalEventLen) where
  events := by
    show (h.events.pushFront x).1.items = _
    rw [Bounded.pushFront_items, hs.events, List.map_take]
    rfl
  ages := by
    show (h.ticksSinceOccurrences.pushFront 0).1.items = _
    rw [Bounded.pushFront_items, hs.ages, List.map_take]
    rfl

theorem Shows.tickHist (hs : h.Shows es) : h.tickHist.Shows (es.map Entry.older) where
  events := by
    show h.events.items = _
    rw [hs.events, List.map_map]
    rfl
  ages := by
    show h.ticksSinceOccurrences.items.map (satAdd · 1) = _
    rw [hs.ages, List.map_map, List.map_map]
    refine List.map_congr_left fun e _ => ?_
    show min (min e.age u16Max + 1) u16Max = min (e.age + 1) u16Max
    omega

/-- The event and its age go together. -/
theorem Shows.exclude [BEq α] (hs : h.Shows es) (x : α) :
    ∃ es', es'.Sublist es ∧ (h.exclude x).Shows es' := by
  unfold History.exclude
  split
  · rename_i i _
    refine ⟨es.eraseIdx i, List.eraseIdx_sublist es i, ?_, ?_⟩
    · show h.events.items.eraseIdx i = _
      rw [hs.events, List.eraseIdx_map]
    · show h.ticksSinceOccurrences.items.eraseIdx i = _
      rw [hs.ages, List.eraseIdx_map]
  · exact ⟨es, List.Sublist.refl es, hs⟩

/-- What an operation does to the entries. -/
theorem Shows.apply [BEq α] (hs : h.Shows es) (ht : Dated log es) (op : Op α) :
    ∃ es', Dated (log ++ [op]) es' ∧ (h.apply op).Shows es' := by
  cases op with
  | record x => exact ⟨_, (ht.record x).forget (List.take_sublist _ _), hs.pushFront x log.length⟩
  | exclude x =>
    rcases hs.exclude x with ⟨es', hsub, hs'⟩
    exact ⟨es', (ht.pass rfl).forget hsub, hs'⟩
  | age => exact ⟨_, ht.age, hs.tickHist⟩

/-- By induction on what follows: the history is that of the whole log. -/
theorem Shows.applyAll [BEq α] :
    ∀ (log' : List (Op α)) {log : List (Op α)} {h : History α} {es : List (Entry α)},
      h.Shows es → Dated log es →
        ∃ es', Dated (log ++ log') es' ∧ (log'.foldl History.apply h).Shows es'
  | [], log, h, es, hs, ht => by
    rw [List.append_nil]
    exact ⟨es, ht, hs⟩
  | op :: log', log, h, es, hs, ht => by
    rcases hs.apply ht op with ⟨es₁, ht₁, hs₁⟩
    rcases hs₁.applyAll log' ht₁ with ⟨es', ht', hs'⟩
    rw [List.append_assoc] at ht'
    exact ⟨es', ht', hs'⟩

theorem Shows.agesRight (hs : h.Shows es) (ht : Dated log es) : h.AgesRight log where
  paired := by rw [hs.events, hs.ages, List.length_map, List.length_map]
  sorted := by
    rw [hs.ages, List.pairwise_map]
    exact ht.younger.imp fun hle => by omega
  since := by
    refine ⟨es, ht, ?_⟩
    unfold iterHevents
    rw [hs.events, hs.ages, List.zip_map', List.map_map]
    rfl

/-- From an empty history, every log makes the ages right. -/
theorem agesRight_of_log [BEq α] (log : List (Op α)) :
    (log.foldl History.apply (new : History α)).AgesRight log := by
  have hnew : (new : History α).Shows [] := ⟨rfl, rfl⟩
  rcases hnew.applyAll log Dated.nil with ⟨es, ht, hs⟩
  exact hs.agesRight ht

end History

/-! ## What the notes say about the histories -/

namespace Occurrence

/-- What a note says about the history of keys. -/
def onKeys : Occurrence T → Option (Op KeyCode)
  | .keyRecorded kc => some (.record kc)
  | .historiesAged => some .age
  | _ => none

/-- What a note says about the history of inputs. -/
def onInputs : Occurrence T → Option (Op KCoord)
  | .inputRecorded c => some (.record c)
  | .historiesAged => some .age
  | _ => none

/-- What a note says about the history of inputs without those that were held or timed out. -/
def onSansHoldsOrTimeouts : Occurrence T → Option (Op KCoord)
  | .inputRecorded c => some (.record c)
  | .inputExcluded c => some (.exclude c)
  | .historiesAged => some .age
  | _ => none

/-- The histories get older. -/
def isAgeing : Occurrence T → Bool
  | .historiesAged => true
  | _ => false

end Occurrence

/-- A history that each note changes as `op` says is what the notes make of it. -/
theorem Told.replay_history {α : Type} [BEq α] (history : Told T → History α)
    (op : Occurrence T → Option (Op α))
    (hnext : ∀ v o, history (v.next o) = (op o).toList.foldl History.apply (history v)) :
    ∀ (os : List (Occurrence T)) (v : Told T), history (os.foldl Told.next v) =
      (os.filterMap op).foldl History.apply (history v)
  | [], _ => rfl
  | o :: os, v => by
    rw [List.foldl_cons, replay_history history op hnext os, hnext]
    cases hop : op o with
    | none => rw [List.filterMap_cons_none hop]; rfl
    | some x => rw [List.filterMap_cons_some hop]; rfl

/-! ## The ageing in a step -/

/-- The trace goes on without an ageing. -/
def Young (s s' : Layout T) : Prop :=
  ∃ os, s'.trace = s.trace ++ os ∧ os.countP Occurrence.isAgeing = 0

section Young

variable {cfg : LayoutConfig C R T} {E : Panic → Prop} {D : Discipline cfg E}
  {s s₁ s' : Layout T} {e : CustomEvent T}

theorem Young.same (h : s'.trace = s.trace) : Young s s' := ⟨[], by rw [h, List.append_nil], rfl⟩

theorem Young.trans (h : Young s s₁) (h' : Young s₁ s') : Young s s' := by
  rcases h with ⟨os, htrace, hos⟩
  rcases h' with ⟨os', htrace', hos'⟩
  refine ⟨os ++ os', ?_, ?_⟩
  · rw [htrace', htrace, List.append_assoc]
  · rw [List.countP_append, hos, hos']

theorem isAgeing_topic (o : Occurrence T) (h : o.isAgeing = true) : o.topic = .history := by
  cases o <;> first | rfl | cases h

theorem About.young {topic : Topic} {os : List (Occurrence T)} (h : About topic os)
    (hne : topic ≠ .history) : os.countP Occurrence.isAgeing = 0 :=
  h.countP hne isAgeing_topic

theorem keyNotes_young (s : Layout T) (kc : KeyCode) :
    (s.keyNotes kc).countP Occurrence.isAgeing = 0 := by
  unfold Layout.keyNotes
  split <;> rfl

theorem arriveNotes_young (event : Event) :
    (Layout.arriveNotes event : List (Occurrence T)).countP Occurrence.isAgeing = 0 := by
  cases event <;> rfl

theorem Update.notes_young (u : Update T) (s : Layout T) :
    (u.notes s).countP Occurrence.isAgeing = 0 := by
  cases u with
  | pushHistoricalKey kc => exact keyNotes_young s kc
  | excludeFromHistory coord => rfl
  | arrive event => exact arriveNotes_young event
  | _ => exact (notes_about s _).young (by intro h; cases h)

theorem discard_young (s : Layout T) (e : CustomEvent T) : Young s (s.discard e) := by
  refine ⟨Layout.discardNotes e, Layout.discard_trace s e, ?_⟩
  cases e <;> rfl

theorem Performs.young (h : Performs D s s' e) : Young s s' := by
  induction h with
  | refl s => exact .same rfl
  | @update s u _ => exact ⟨u.notes s, u.apply_trace s, u.notes_young s⟩
  | custom s value coord =>
    refine ⟨_, pushCustom_trace s value coord, ?_⟩
    split <;> rfl
  | release h =>
    rcases dequeueRelease_trace h with ⟨removed, htrace⟩
    have habout : About .custom (removed.map (Occurrence.customReleased (T := T))) :=
      .map (by intro _; rfl) _
    exact ⟨_, htrace, habout.young (by intro h; cases h)⟩
  | merge _ _ ih₁ ih₂ => exact (ih₁.trans ih₂).trans (discard_young _ _)
  | discard _ ih => exact ih.trans (discard_young _ _)

theorem advanceNotes_young (s : Layout T) : s.advanceNotes.countP Occurrence.isAgeing = 0 := by
  unfold Layout.advanceNotes
  split
  · unfold Layout.sequenceKeyNotes
    split
    · rfl
    · split
      · exact keyNotes_young _ _
      · exact keyNotes_young _ _
      · rfl
  · rfl

/-- Only one part of a step ages the histories. -/
theorem Passing.notes_young {u : Passing T} (hu : u.ages = false) (s : Layout T) :
    (u.notes s).countP Occurrence.isAgeing = 0 := by
  cases u with
  | ageHistories => cases hu
  | advanceSequence => exact advanceNotes_young s
  | _ => exact (notes_about s _).young (by intro h; cases h)

theorem Proceeds.young (h : Proceeds D s s' e) : Young s s' := by
  induction h with
  | performs h => exact h.young
  | @pass s u _ hyoung => exact ⟨u.notes s, u.apply_trace s, u.notes_young hyoung s⟩
  | @takes s s' e qa count _ _ h =>
    have habout : About .action (s.actionQueue.items.head?.toList.map Occurrence.actionTaken) :=
      .map (by intro _; rfl) _
    have htaken : Young s s.takeAction :=
      ⟨_, s.takeAction_trace, habout.young (by intro h; cases h)⟩
    exact htaken.trans h.young
  | merge _ _ ih₁ ih₂ => exact (ih₁.trans ih₂).trans (discard_young _ _)

end Young

/-! ## Runs -/

/-- The step is a tick that comes to the histories. -/
def agesIn (cfg : LayoutConfig C R T) (s : Layout T) : LayoutOp → Bool
  | .tick => s.agesHistories cfg
  | _ => false

/-- What a step records first. -/
def arrivesIn : LayoutOp → List (Occurrence T)
  | .event ev => Layout.arriveNotes ev
  | .eventToFront ev => Layout.arriveNotes ev
  | _ => []

/-- What a step adds to the trace: a press that arrives is recorded before all else, and the
histories get older once in a tick that comes to them and never in another step. -/
structure StepNotes (cfg : LayoutConfig C R T) (s : Layout T) (op : LayoutOp)
    (os : List (Occurrence T)) : Prop where
  arrives : arrivesIn op <+: os
  ages : os.countP Occurrence.isAgeing = if agesIn cfg s op then 1 else 0

/-- The step keeps the trace, and adds what `StepNotes` says. -/
def NotesAges (cfg : LayoutConfig C R T) (s : Layout T) (op : LayoutOp) : Prop :=
  ∀ s₁ e, s.step cfg op = .ok (s₁, e) → ∃ os, s₁.trace = s.trace ++ os ∧ StepNotes cfg s op os

section Runs

variable {cfg : LayoutConfig C R T} {s s₁ s' : Layout T} {op : LayoutOp} {e : CustomEvent T}

/-- A step that is no tick and in which nothing arrives. -/
theorem Young.stepNotes (h : Young s s') (harrives : arrivesIn (T := T) op = [])
    (hages : agesIn cfg s op = false) : ∃ os, s'.trace = s.trace ++ os ∧ StepNotes cfg s op os := by
  rcases h with ⟨os, htrace, hos⟩
  refine ⟨os, htrace, ?_, ?_⟩
  · rw [harrives]
    exact List.nil_prefix
  · rw [hos, hages]
    rfl

/-- A step in which an event arrives. -/
theorem Young.arrived {ev : Event} (h : Young (s.arrive ev) s')
    (harrives : arrivesIn (T := T) op = Layout.arriveNotes ev) (hages : agesIn cfg s op = false) :
    ∃ os, s'.trace = s.trace ++ os ∧ StepNotes cfg s op os := by
  rcases h with ⟨os, htrace, hos⟩
  refine ⟨Layout.arriveNotes ev ++ os, ?_, ?_, ?_⟩
  · rw [htrace, Layout.arrive_trace, List.append_assoc]
  · rw [harrives]
    exact List.prefix_append _ _
  · rw [List.countP_append, arriveNotes_young, hos, hages]
    rfl

/-- A tick that comes to the histories. -/
theorem Young.aged (h : Young s s₁) (h' : Young s₁.ageHistories s')
    (harrives : arrivesIn (T := T) op = []) (hages : agesIn cfg s op = true) :
    ∃ os, s'.trace = s.trace ++ os ∧ StepNotes cfg s op os := by
  rcases h with ⟨os, htrace, hos⟩
  rcases h' with ⟨os', htrace', hos'⟩
  refine ⟨os ++ .historiesAged :: os', ?_, ?_, ?_⟩
  · rw [htrace']
    show (s₁.trace ++ [.historiesAged]) ++ os' = _
    rw [htrace, List.append_assoc, List.append_assoc]
    rfl
  · rw [harrives]
    exact List.nil_prefix
  · rw [List.countP_append, hos, List.countP_cons_of_pos rfl, hos', hages]
    rfl

theorem step_notesAges (hs : s.Obeys (Discipline.free cfg)) : NotesAges cfg s op := by
  intro s₁ e h
  have hqueued : ∀ (ev : Event) (n : Nat), Queued.Obeys (Discipline.free cfg) ⟨ev, 0, some n⟩ := by
    intro ev n
    cases ev <;> trivial
  cases op with
  | event ev =>
    rcases bind_eq_ok.mp h with ⟨s₂, hevent, heq⟩
    obtain ⟨rfl, _⟩ := Prod.mk.inj (pure_eq_ok.mp heq)
    have harrived := (eventWith_arrived (act_actsWithin _) hs (hqueued ev _)).of_ok hevent
    exact harrived.young.arrived rfl rfl
  | eventToFront ev =>
    rcases bind_eq_ok.mp h with ⟨s₂, hevent, heq⟩
    obtain ⟨rfl, _⟩ := Prod.mk.inj (pure_eq_ok.mp heq)
    have harrived := (eventToFront_arrived hs trivial (hqueued ev _)).of_ok hevent
    exact harrived.young.arrived rfl rfl
  | tick =>
    have htick := (tick_ages (fun _ => trivial) hs).of_ok h
    cases hages : s.agesHistories cfg with
    | true =>
      rcases htick.once hages with ⟨s₁, h₁, h₂⟩
      exact h₁.young.aged h₂.young rfl hages
    | false => exact (htick.never hages).young.stepNotes rfl hages
  | setDefaultLayer value =>
    obtain ⟨rfl, _⟩ := Prod.mk.inj (pure_eq_ok.mp h)
    have hsame : (s.setDefaultLayer cfg value).trace = s.trace := by rw [Layout.setDefaultLayer_eq]
    exact (Young.same hsame).stepNotes rfl rfl
  | _ =>
    obtain ⟨rfl, _⟩ := Prod.mk.inj (pure_eq_ok.mp h)
    exact Young.stepNotes (.same rfl) rfl rfl

/-- In every run, each of the three histories pairs each event with its own age, the ages
grow from the latest event on, and each is the number of ageings that the run noted since
it noted that the event was recorded. Each tick that comes to the histories notes one
ageing, and the other steps note none. -/
theorem ages_since_recorded {delay : Nat} {ops : List LayoutOp} {os : List (CustomEvent T)}
    (h : run (Layout.step cfg) (.new delay) ops = .ok (s', os)) :
    s'.historicalKeys.AgesRight (s'.trace.filterMap Occurrence.onKeys) ∧
      s'.historicalInputs.AgesRight (s'.trace.filterMap Occurrence.onInputs) ∧
      s'.historicalInputsSansHoldsOrTimeouts.AgesRight
        (s'.trace.filterMap Occurrence.onSansHoldsOrTimeouts) ∧
      Along (Layout.step cfg) (NotesAges cfg) (.new delay) ops := by
  have htold := run_told h
  refine ⟨?_, ?_, ?_, ?_⟩
  · have hkeys : s'.historicalKeys = _ := congrArg Told.historicalKeys htold
    rw [hkeys, Told.of, Told.replay_history Told.historicalKeys Occurrence.onKeys
      (by intro v o; cases o <;> rfl)]
    exact History.agesRight_of_log _
  · have hinputs : s'.historicalInputs = _ := congrArg Told.historicalInputs htold
    rw [hinputs, Told.of, Told.replay_history Told.historicalInputs Occurrence.onInputs
      (by intro v o; cases o <;> rfl)]
    exact History.agesRight_of_log _
  · have hsans : s'.historicalInputsSansHoldsOrTimeouts = _ :=
      congrArg Told.historicalInputsSansHoldsOrTimeouts htold
    rw [hsans, Told.of, Told.replay_history Told.historicalInputsSansHoldsOrTimeouts
      Occurrence.onSansHoldsOrTimeouts (by intro v o; cases o <;> rfl)]
    exact History.agesRight_of_log _
  · exact @along_of_invariant _ _ _ _ (Layout.step cfg) (fun _ _ => True) (NotesAges cfg)
      (fun s => s.Obeys (Discipline.free cfg))
      (fun _ _ _ _ hs _ hstep => step_keeps_obeys hs hstep) (fun _ _ hs _ => step_notesAges hs)
      _ _ (new_obeys _ delay) (along_trivial _ _)

end Runs

/-- A key of two custom actions: the second is queued and performed in the next tick. -/
def queuesCustom : LayoutConfig 16 2 Nat := oneLayer [.multipleActions [.custom 1, .custom 2]]

/-- `ages_since_recorded` for the press of a key and its release. The second of the three
ticks only performs the queued action: the trace has two ageings after the press. -/
theorem ages_since_recorded_custom :
    ∃ s os, run (Layout.step queuesCustom) (.new 0) [press 1, .tick, .tick, release 1, .tick] =
        .ok (s, os) ∧ s.historicalInputs.ticksSinceOccurrences.items = [2] ∧
      s.trace.filterMap Occurrence.onInputs = [.record (0, 1), .age, .age] ∧
      s.historicalInputs.AgesRight [.record (0, 1), .age, .age] := by
  rcases @of_endsWith_decide _ _ _ _ (Layout.step queuesCustom)
    (fun s => s.historicalInputs.ticksSinceOccurrences.items = [2] ∧
      s.trace.filterMap Occurrence.onInputs = [.record (0, 1), .age, .age]) _ (.new 0)
    [press 1, .tick, .tick, release 1, .tick] (by decide) with ⟨s, os, hrun, hages, htrace⟩
  have hright := (ages_since_recorded hrun).2.1
  rw [htrace] at hright
  exact ⟨s, os, hrun, hages, htrace, hright⟩

/-- Two ticks after the press its age is one: the second only performs the queued action. -/
theorem ages_since_recorded_fails :
    ∃ s os, run (Layout.step queuesCustom) (.new 0) [press 1, .tick, .tick] = .ok (s, os) ∧
      s.historicalInputs.iterHevents.map HistoricalEvent.event = [(0, 1)] ∧
      s.historicalInputs.iterHevents.map HistoricalEvent.ticksSinceOccurrence = [1] :=
  @of_endsWith_decide _ _ _ _ (Layout.step queuesCustom)
    (fun s => s.historicalInputs.iterHevents.map HistoricalEvent.event = [(0, 1)] ∧
      s.historicalInputs.iterHevents.map HistoricalEvent.ticksSinceOccurrence = [1]) _ (.new 0)
    [press 1, .tick, .tick] (by decide)

end Kanata
