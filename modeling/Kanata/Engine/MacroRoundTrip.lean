import Kanata.Engine.MacroRecording
import Kanata.Engine.MacroReplay

/-!
# Kanata.Engine.MacroRoundTrip — a macro replays what was recorded

A recording and a replay are both heard as a sequence of ticks and key events. With the
recorded delays a replay takes up each event one tick at least after the one before, so that
it gives a recording back with the events of one tick spread out (`macro_round_trip`).

* `spread`: a tick at least after each event;
* `beatsOf`: what saved items sound like;
* `toReplay`: what a replay is still to give.
-/

namespace Kanata

open Fallible Machine

/-! ## What is heard -/

inductive Beat where
  | tick
  | key (event : Event)
deriving DecidableEq, Repr

def RecordOp.beat : RecordOp → Option Beat
  | .recordPress osc _ => some (.key (.press 0 osc.code))
  | .recordRelease osc => some (.key (.release 0 osc.code))
  | .tickRecordState => some .tick
  | _ => none

def Obs.beat : Obs → Option Beat
  | .tick => some .tick
  | .event replayed => some (.key replayed.keyEvent)
  | _ => none

/-- The events that come in one tick get one each. -/
def spread : List Beat → List Beat
  | [] => []
  | .tick :: beats => .tick :: spread beats
  | .key event :: beats =>
    .key event :: if beats.head? = some .tick then spread beats else .tick :: spread beats

/-- A recording, from its first event on. -/
def heard (ops : List RecordOp) : List Beat :=
  (ops.filterMap RecordOp.beat).dropWhile fun beat => beat = .tick

/-- An item and its delay, a tick at least. -/
def DynamicMacroItem.beats : DynamicMacroItem → List Beat
  | .press osc delay => .key (.press 0 osc.code) :: List.replicate (max 1 delay) .tick
  | .release osc delay => .key (.release 0 osc.code) :: List.replicate (max 1 delay) .tick
  | .endMacro _ => []

def beatsOf (items : List DynamicMacroItem) : List Beat := items.flatMap DynamicMacroItem.beats

/-! ## Recordings -/

/-- At most as many ticks in a row as a delay can count. -/
def DelaysFit (ops : List RecordOp) : Prop :=
  ∀ n, List.replicate n .tick <:+: ops.filterMap RecordOp.beat → n ≤ u16Max

section Recordings

variable {op : RecordOp} {ops : List RecordOp}

theorem DelaysFit.tail (h : DelaysFit (op :: ops)) : DelaysFit ops := by
  intro n hn
  refine h n (hn.trans ?_)
  rw [List.filterMap_cons]
  split
  · exact List.infix_rfl
  · exact (List.suffix_cons _ _).isInfix

theorem initial_ticksBefore : ∀ ops : List RecordOp,
    List.replicate (ticksBefore ops) .tick <+: ops.filterMap RecordOp.beat
  | .tickRecordState :: ops => List.cons_prefix_cons.mpr ⟨rfl, initial_ticksBefore ops⟩
  | [] | .recordPress _ _ :: _ | .recordRelease _ :: _ | .beginRecordMacro _ :: _ |
    .stopMacro _ :: _ => List.nil_prefix

theorem DelaysFit.ticksBefore_le (h : DelaysFit ops) : ticksBefore ops ≤ u16Max :=
  h _ (initial_ticksBefore ops).isInfix

/-- The beats begin with a tick exactly when there are ticks before the first event. -/
theorem head_beats (hrecords : ∀ op ∈ ops, op.records = true) :
    (ops.filterMap RecordOp.beat).head? = some .tick ↔ ticksBefore ops ≠ 0 := by
  cases ops with
  | nil => simp [ticksBefore]
  | cons op ops =>
    have hop := hrecords op List.mem_cons_self
    cases op <;> simp [RecordOp.beat, ticksBefore] <;> cases hop

/-- A recording sounds like the ticks before its first event and its timed items. -/
theorem spread_beats (hrecords : ∀ op ∈ ops, op.records = true) (hfit : DelaysFit ops) :
    spread (ops.filterMap RecordOp.beat) =
      List.replicate (ticksBefore ops) .tick ++ beatsOf (timed ops) := by
  induction ops with
  | nil => rfl
  | cons op ops ih =>
    have hrest : ∀ op ∈ ops, op.records = true := fun op' hop =>
      hrecords op' (List.mem_cons_of_mem _ hop)
    have ih := ih hrest hfit.tail
    have hle := hfit.tail.ticksBefore_le
    -- an event gives way to its own ticks, one at least
    have hevent : ∀ event : Event, spread (.key event :: ops.filterMap RecordOp.beat) =
        .key event :: List.replicate (max 1 (min (ticksBefore ops) u16Max)) .tick ++
          beatsOf (timed ops) := by
      intro event
      rw [spread, Nat.min_eq_left hle, List.cons_append]
      congr 1
      split
      · rename_i hhead
        have hne := (head_beats hrest).mp hhead
        rw [ih, Nat.max_eq_right (Nat.one_le_iff_ne_zero.mpr hne)]
      · rename_i hhead
        have hzero : ticksBefore ops = 0 := not_not.mp fun hne => hhead ((head_beats hrest).mpr hne)
        rw [ih, hzero]
        rfl
    cases op with
    | recordPress osc maxPresses => exact hevent _
    | recordRelease osc => exact hevent _
    | tickRecordState => exact congrArg (List.cons Beat.tick) ih
    | beginRecordMacro => cases hrecords _ List.mem_cons_self
    | stopMacro => cases hrecords _ List.mem_cons_self

theorem spread_heard (hrecords : ∀ op ∈ ops, op.records = true) (hfit : DelaysFit ops) :
    spread (heard ops) = beatsOf (timed ops) := by
  induction ops with
  | nil => rfl
  | cons op ops ih =>
    have hspread := spread_beats hrecords hfit
    cases op with
    | recordPress osc maxPresses => exact hspread
    | recordRelease osc => exact hspread
    | tickRecordState =>
      exact ih (fun op' hop => hrecords op' (List.mem_cons_of_mem _ hop)) hfit.tail
    | beginRecordMacro => cases hrecords _ List.mem_cons_self
    | stopMacro => cases hrecords _ List.mem_cons_self

/-- Ticks at the end are no items. -/
theorem timed_ticks {ticks : List RecordOp} (h : ∀ op ∈ ticks, op = .tickRecordState) :
    timed ticks = [] := by
  induction ticks with
  | nil => rfl
  | cons op ticks ih =>
    rw [h op List.mem_cons_self]
    exact ih fun op' hop => h op' (List.mem_cons_of_mem _ hop)

theorem ticksBefore_append_event {key : RecordOp} (hkey : key.isEvent = true)
    (rest : List RecordOp) : ∀ ops : List RecordOp,
    ticksBefore (ops ++ key :: rest) = ticksBefore ops
  | [] => by cases key <;> first | rfl | cases hkey
  | .tickRecordState :: ops => congrArg (· + 1) (ticksBefore_append_event hkey rest ops)
  | .recordPress _ _ :: _ | .recordRelease _ :: _ | .beginRecordMacro _ :: _ | .stopMacro _ :: _ =>
    rfl

/-- The last event of a recording is the last item. -/
theorem timed_append_event {key : RecordOp} (hkey : key.isEvent = true) {ticks : List RecordOp}
    (hticks : ∀ op ∈ ticks, op = .tickRecordState) :
    ∃ item, ∀ ops : List RecordOp, timed (ops ++ key :: ticks) = timed ops ++ [item] := by
  have hlast : ∃ item, timed (key :: ticks) = [item] := by
    cases key with
    | recordPress osc maxPresses => exact ⟨_, by rw [timed, timed_ticks hticks]⟩
    | recordRelease osc => exact ⟨_, by rw [timed, timed_ticks hticks]⟩
    | _ => cases hkey
  rcases hlast with ⟨item, hitem⟩
  refine ⟨item, fun ops => ?_⟩
  induction ops with
  | nil => exact hitem
  | cons op ops ih =>
    cases op <;> simp only [List.cons_append, timed, ih, ticksBefore_append_event hkey]

end Recordings

/-! ## Replays -/

/-- What a replay is still to give. -/
def toReplay : Option DynamicMacroReplayState → List Beat
  | some state => List.replicate (max 1 state.delayRemaining) .tick ++ beatsOf state.macroItems
  | none => []

/-- The items of a replay that plays one macro. -/
def PlaysEvents (replay : Option DynamicMacroReplayState) : Prop :=
  ∀ state ∈ replay, ∀ item ∈ state.macroItems, item.isEvent = true

/-- The program plays no macro by itself. -/
def ReplayEngine.Quiet {σ ε : Type} (engine : ReplayEngine σ ε) : Prop :=
  ∀ s s' calls, engine.tickStates s = .ok (s', calls) → calls = []

theorem beats_of_replayEvent {item : DynamicMacroItem} {event : ReplayEvent}
    (h : item.replayEvent = some event) :
    item.beats = .key event.keyEvent :: List.replicate (max 1 event.delay) .tick := by
  cases item <;> cases h <;> rfl

section Replays

variable {σ ε : Type} {engine : ReplayEngine σ ε} {st st' : σ × Option DynamicMacroReplayState}
  {obs trace : List Obs}

/-- What is popped is not heard, but for the event. -/
theorem beats_ticked {replay replay' : Option DynamicMacroReplayState} {pop : List Obs}
    {event : Option ReplayEvent} (h : ReplayTicked replay replay' pop event) :
    (.tick :: (pop ++ event.toList.map Obs.event)).filterMap Obs.beat =
      .tick :: event.toList.map fun event => .key event.keyEvent := by
  cases h <;> rfl

/-- A tick gives the next beats of what was ahead. A replay that is over gives nothing. -/
theorem toReplay_ticked {replay replay' : Option DynamicMacroReplayState} {pop : List Obs}
    {event : Option ReplayEvent} (hevents : PlaysEvents replay)
    (h : ReplayTicked replay replay' pop event) :
    PlaysEvents replay' ∧
      (replay ≠ none → .tick :: event.toList.map (fun event => .key event.keyEvent) ++
        toReplay replay' = toReplay replay) ∧
      (replay = none → replay' = none ∧ event = none) := by
  cases h with
  | idle => exact ⟨hevents, fun hne => absurd rfl hne, fun _ => ⟨rfl, rfl⟩⟩
  | @wait state hdelay =>
    refine ⟨fun s hs => ?_, fun _ => ?_, nofun⟩
    · cases hs
      exact hevents state rfl
    · have hmax : max 1 state.delayRemaining = max 1 (state.delayRemaining - 1) + 1 := by omega
      simp only [toReplay]
      rw [hmax, List.replicate_succ]
      rfl
  | @finish state hdelay hitems =>
    refine ⟨nofun, fun _ => ?_, nofun⟩
    simp only [toReplay]
    rw [hitems, Nat.max_eq_left hdelay]
    rfl
  | @event state item rest event hdelay hitems hitem =>
    refine ⟨fun s hs => ?_, fun _ => ?_, nofun⟩
    · cases hs
      exact fun item' hitem' => hevents state rfl item' (hitems ▸ List.mem_cons_of_mem _ hitem')
    · have hbeats : beatsOf state.macroItems = .key event.keyEvent ::
          (List.replicate (max 1 event.delay) .tick ++ beatsOf rest) := by
        rw [hitems, beatsOf, List.flatMap_cons, beats_of_replayEvent hitem]
        rfl
      simp only [toReplay]
      rw [hbeats, Nat.max_eq_left hdelay]
      rfl
  | @endMacro state macroId rest hdelay hitems =>
    have hend := hevents state rfl (.endMacro macroId) (hitems ▸ List.mem_cons_self)
    cases hend

/-- A tick of a program that plays nothing by itself. -/
theorem deliverTick_quiet (hquiet : engine.Quiet)
    (h : deliverTick engine .recorded st = .ok (st', obs)) :
    ∃ pop event, ReplayTicked st.2 st'.2 pop event ∧
      obs = .tick :: (pop ++ event.toList.map Obs.event) := by
  unfold deliverTick at h
  rcases bind_eq_ok.mp h with ⟨⟨st₁, obs₁, event⟩, htick, hrest⟩
  unfold replayTick at htick
  rcases bind_eq_ok.mp htick with ⟨⟨s, calls⟩, hstates, htick⟩
  have hcalls : calls = [] := hquiet _ _ _ hstates
  subst hcalls
  have htick := Except.ok.inj htick
  have hticked : ReplayTicked st.2 st₁.2 (popped st.2) event ∧ obs₁ = .tick :: popped st.2 := by
    cases htick
    exact ⟨tickReplayState_cases st.2, rfl⟩
  rcases hticked with ⟨hticked, rfl⟩
  rcases event with _ | event
  · cases hrest
    exact ⟨_, _, hticked, by simp⟩
  · cases hrest
    exact ⟨_, _, hticked, by simp⟩

/-- Ticks give what is ahead, and more ticks once the replay is over. -/
theorem toReplay_deliverTicks (hquiet : engine.Quiet) : ∀ {n : Nat}
    {st st' : σ × Option DynamicMacroReplayState} {trace : List Obs}, PlaysEvents st.2 →
    deliverTicks engine .recorded n st = .ok (st', trace) →
    ∃ k, trace.filterMap Obs.beat ++ toReplay st'.2 = toReplay st.2 ++ List.replicate k .tick ∧
      (st'.2 ≠ none → k = 0 ∧ st.2 ≠ none) ∧ (trace.filterMap Obs.beat).count .tick = n
  | 0, st, st', trace, _, h => by
    cases h
    exact ⟨0, (List.append_nil _).symm, fun hon => ⟨rfl, hon⟩, rfl⟩
  | n + 1, st, st', trace, hevents, h => by
    rcases andThen_eq_ok.mp h with ⟨st₁, obs₁, obs₂, hfirst, hrest, rfl⟩
    rcases deliverTick_quiet hquiet hfirst with ⟨pop, event, hticked, rfl⟩
    rcases toReplay_ticked hevents hticked with ⟨hevents₁, hon, hoff⟩
    rcases toReplay_deliverTicks hquiet hevents₁ hrest with ⟨k, hleft, hover, hcount⟩
    have hkeys : (event.toList.map fun event => Beat.key event.keyEvent).count .tick = 0 := by
      cases event <;> rfl
    rw [List.filterMap_append, beats_ticked hticked, List.count_append, hcount,
      List.count_cons_self, hkeys, Nat.zero_add, Nat.add_comm 1 n]
    by_cases hnone : st.2 = none
    · rcases hoff hnone with ⟨hnone₁, rfl⟩
      refine ⟨k + 1, ?_, fun hon' => absurd hnone₁ (hover hon').2, rfl⟩
      rw [hnone₁] at hleft
      rw [List.append_assoc, hleft, hnone]
      rfl
    · refine ⟨k, ?_, fun hon' => ⟨(hover hon').1, hnone⟩, rfl⟩
      rw [List.append_assoc, hleft, ← List.append_assoc, hon hnone]

end Replays

/-! ## Round trips -/

/-- What a replay gives back: the recording, and the releases of the keys that it left
pressed. -/
def replayed (recorded : List RecordOp) (oscs : List OsCode) : List Beat :=
  .tick :: (spread (heard recorded) ++
    oscs.flatMap fun osc => [.key (.release 0 osc.code), .tick])

/-- The calls of a recording, with the event that ends it and ticks until it is taken. -/
structure RecordsUntil (recorded : List RecordOp) (key : RecordOp) (ticks : List RecordOp)
    (op : RecordOp) : Prop where
  records : ∀ op ∈ recorded, op.records = true
  isEvent : key.isEvent = true
  areTicks : ∀ op ∈ ticks, op = .tickRecordState
  limit : WithinLimit 0 (recorded ++ key :: ticks)
  delays : DelaysFit recorded
  ends : op = .stopMacro 0 ∨ ∃ macroId, op = .beginRecordMacro macroId

/-- With any split of the time into calls, playing the items gives the recording back, in
whole when there is time enough, and then nothing. -/
def GivesBack (macroId : Nat) (saved : List DynamicMacroItem) (recorded : List RecordOp)
    (oscs : List OsCode) : Prop :=
  ∀ (σ ε : Type) (engine : ReplayEngine σ ε), engine.Quiet →
    ∀ macros : Nat → Option (List DynamicMacroItem), macros macroId = some saved →
    ∀ (s : σ) (chunks : List Nat), (∀ ms ∈ chunks, ms ≤ u16Max) → ∀ st trace,
      tickChunks engine .recorded chunks (s, playMacro macroId macros none) = .ok (st, trace) →
      ∃ k, trace.filterMap Obs.beat <+: replayed recorded oscs ++ List.replicate k .tick ∧
        ((replayed recorded oscs).count .tick ≤ chunks.sum →
          trace.filterMap Obs.beat = replayed recorded oscs ++ List.replicate k .tick ∧
            st.2 = none)

section RoundTrips

variable {recorded ticks : List RecordOp} {key op : RecordOp}

theorem timed_isEvent : ∀ {ops : List RecordOp}, ∀ item ∈ timed ops, item.isEvent = true
  | op :: ops, item, hitem => by
    have ih := @timed_isEvent ops
    cases op with
    | recordPress osc maxPresses =>
      rcases List.mem_cons.mp hitem with rfl | hitem
      · rfl
      · exact ih item hitem
    | recordRelease osc =>
      rcases List.mem_cons.mp hitem with rfl | hitem
      · rfl
      · exact ih item hitem
    | _ => exact ih item hitem

/-- The event that ends the recording is not kept. -/
theorem RecordsUntil.kept_eq (h : RecordsUntil recorded key ticks op) :
    kept op (timed (recorded ++ key :: ticks)) = timed recorded := by
  rcases timed_append_event h.isEvent h.areTicks with ⟨item, hitem⟩
  rw [hitem]
  rcases h.ends with rfl | ⟨macroId, rfl⟩
  · show (timed recorded ++ [item]).dropLast.take _ = _
    rw [List.dropLast_concat, Nat.sub_zero, List.take_length]
  · exact List.dropLast_concat

/-- The saved items: those of the recording, and a release for each key left pressed. -/
theorem RecordsUntil.saves (h : RecordsUntil recorded key ticks op) (iter : HashSetOrder)
    (macroId : Nat) :
    ∃ oscs : List OsCode, oscs.Nodup ∧ (∀ osc, osc ∈ oscs ↔ EndsPressed (timed recorded) osc) ∧
      run (recordStep iter) (some (.new macroId)) (recorded ++ key :: ticks ++ [op]) =
        .ok (nextRecording macroId op, List.replicate (recorded ++ key :: ticks).length none ++
          [some (macroId, timed recorded ++ oscs.map fun osc => .release osc 0)]) := by
  have hrecords : ∀ op ∈ recorded ++ key :: ticks, op.records = true := by
    intro op hop
    rcases List.mem_append.mp hop with hop | hop
    · exact h.records op hop
    rcases List.mem_cons.mp hop with rfl | hop
    · have hkey := h.isEvent
      cases op <;> first | rfl | cases hkey
    · rw [h.areTicks op hop]
      rfl
  have hevent : timed (recorded ++ key :: ticks) ≠ [] := by
    rcases timed_append_event h.isEvent h.areTicks with ⟨item, hitem⟩
    rw [hitem]
    exact List.append_ne_nil_of_right_ne_nil _ (List.cons_ne_nil _ _)
  have hends : Ends (timed (recorded ++ key :: ticks)).length op := by
    rcases h.ends with rfl | ⟨macroId, rfl⟩ <;> trivial
  rcases run_records iter hrecords (Nat.zero_le u16Max) (holdsBack_new macroId) h.limit with
    ⟨state, hrun, hstate⟩
  rcases hstate.ends hevent hends with ⟨saved, hstep, oscs, hsaved, hnodup, hmem⟩
  rw [h.kept_eq] at hsaved hmem
  refine ⟨oscs, hnodup, hmem, run_append_eq_ok.mpr ⟨_, _, _, hrun, ?_, rfl⟩⟩
  exact run_cons_eq_ok.mpr ⟨_, _, [], hsaved ▸ hstep, rfl, rfl⟩

/-- Saved items sound like the recording. -/
theorem RecordsUntil.beatsOf_saved (h : RecordsUntil recorded key ticks op) (oscs : List OsCode) :
    .tick :: beatsOf (timed recorded ++ oscs.map fun osc => .release osc 0) =
      replayed recorded oscs := by
  unfold replayed beatsOf
  rw [spread_heard h.records h.delays, List.flatMap_append, List.flatMap_map]
  rfl

/-- A recording that ends with its own key is saved, and playing it gives it back: the events
come in order, as many ticks apart as they were recorded, one at least, and the keys that were
left pressed are released. -/
theorem macro_round_trip (iter : HashSetOrder) (macroId : Nat)
    (h : RecordsUntil recorded key ticks op) :
    ∃ (oscs : List OsCode) (saved : List DynamicMacroItem), oscs.Nodup ∧
      (∀ osc, osc ∈ oscs ↔ EndsPressed (timed recorded) osc) ∧
      run (recordStep iter) (some (.new macroId)) (recorded ++ key :: ticks ++ [op]) =
        .ok (nextRecording macroId op,
          List.replicate (recorded ++ key :: ticks).length none ++ [some (macroId, saved)]) ∧
      GivesBack macroId saved recorded oscs := by
  rcases h.saves iter macroId with ⟨oscs, hnodup, hmem, hrun⟩
  refine ⟨oscs, _, hnodup, hmem, hrun, ?_⟩
  intro σ ε engine hquiet macros hmacros s chunks hchunks st trace hticks
  have hplay : playMacro macroId macros none = some
      ⟨[macroId], 0, timed recorded ++ oscs.map fun osc => .release osc 0⟩ := by
    unfold playMacro
    rw [hmacros]
    rfl
  have hleft : toReplay (playMacro macroId macros none) = replayed recorded oscs := by
    rw [hplay, ← h.beatsOf_saved oscs]
    rfl
  have hevents : PlaysEvents (playMacro macroId macros none) := by
    rw [hplay]
    rintro _ ⟨⟩ item hitem
    rcases List.mem_append.mp hitem with hitem | hitem
    · exact timed_isEvent item hitem
    · rcases List.mem_map.mp hitem with ⟨osc, -, rfl⟩
      rfl
  rcases @tickChunks_eq _ _ engine _ hchunks (s, playMacro macroId macros none) with ⟨n, hn, heq⟩
  rw [heq] at hticks
  rcases toReplay_deliverTicks hquiet hevents hticks with ⟨k, hsum, hover, hcount⟩
  rw [hleft] at hsum
  refine ⟨k, ⟨_, hsum⟩, fun hlong => ?_⟩
  by_cases hnone : st.2 = none
  · rw [hnone, toReplay, List.append_nil] at hsum
    exact ⟨hsum, hnone⟩
  · -- a replay that goes on has a tick ahead
    rcases Option.ne_none_iff_exists'.mp hnone with ⟨state, hstate⟩
    have hcounts := congrArg (List.count Beat.tick) hsum
    rw [(hover hnone).1, hstate, List.count_append, hcount, List.replicate_zero, List.append_nil,
      toReplay, List.count_append, List.count_replicate_self] at hcounts
    omega

end RoundTrips

/-- A tap within a hold, recorded until the press of the key that ends it. -/
def recordedTap : List RecordOp :=
  [.tickRecordState, .recordPress keyA 128, .recordPress keyB 128, .tickRecordState,
    .tickRecordState, .recordRelease keyB]

theorem recordedTap_until :
    RecordsUntil recordedTap (.recordPress keyLeftCtrl 128) [.tickRecordState] (.stopMacro 0) where
  records := by decide
  isEvent := rfl
  areTicks := by simp
  limit := by simp [recordedTap, WithinLimit]
  delays := fun n hn => by
    have hle := hn.length_le
    rw [List.length_replicate] at hle
    exact Nat.le_trans hle (by decide)
  ends := .inl rfl

theorem macro_round_trip_tap :
    ∃ (oscs : List OsCode) (saved : List DynamicMacroItem), oscs.Nodup ∧
      (∀ osc, osc ∈ oscs ↔ EndsPressed (timed recordedTap) osc) ∧
      run (recordStep ⟨id, fun _ => .rfl⟩) (some (.new 1))
          (recordedTap ++ .recordPress keyLeftCtrl 128 :: [.tickRecordState] ++ [.stopMacro 0]) =
        .ok (nextRecording 1 (.stopMacro 0), List.replicate 8 none ++ [some (1, saved)]) ∧
      GivesBack 1 saved recordedTap oscs :=
  macro_round_trip ⟨id, fun _ => .rfl⟩ 1 recordedTap_until

end Kanata
