import Kanata.Engine.DynamicMacro
import Kanata.Lib.Machine
import Mathlib.Data.List.Induction
import Mathlib.Data.List.Nodup

/-!
# Kanata.Engine.MacroRecording — what recordings save

A recording is followed from its start. `timed` says what the calls of a recording
record: the events in order, each with the ticks until the next one.

* `Pending`: the state after some calls, in terms of `timed`;
* `recording_panics_iff`: a run of calls panics exactly when it ends a recording of no
  event;
* `saved_macro_iff`: what a recording saves, whichever way it ends.
-/

namespace Kanata

open Fallible Machine

namespace DynamicMacroItem

/-- The item is an event of a key. -/
def isAbout (osc : OsCode) : DynamicMacroItem → Bool
  | .press osc' _ => osc' = osc
  | .release osc' _ => osc' = osc
  | .endMacro _ => false

def isPress : DynamicMacroItem → Bool
  | .press _ _ => true
  | _ => false

end DynamicMacroItem

/-! ## The closing releases -/

/-- The last event of the key among the items is a press. -/
def EndsPressed (items : List DynamicMacroItem) (osc : OsCode) : Prop :=
  ∃ delay, (items.filter (·.isAbout osc)).getLast? = some (.press osc delay)

theorem pressedOscs_concat (items : List DynamicMacroItem) (item : DynamicMacroItem) :
    pressedOscs (items ++ [item]) =
      match item with
      | .press osc _ => if osc ∈ pressedOscs items then pressedOscs items
        else pressedOscs items ++ [osc]
      | .release osc _ => (pressedOscs items).filter (· ≠ osc)
      | .endMacro _ => pressedOscs items := by
  unfold pressedOscs
  rw [List.foldl_append]
  rfl

theorem endsPressed_concat (items : List DynamicMacroItem) (item : DynamicMacroItem)
    (osc : OsCode) :
    EndsPressed (items ++ [item]) osc ↔
      if item.isAbout osc then item.isPress = true else EndsPressed items osc := by
  unfold EndsPressed
  rw [List.filter_append]
  split
  · next h =>
    rw [List.filter_cons_of_pos h, List.filter_nil, List.getLast?_concat]
    cases item with
    | press osc' delay =>
      have : osc' = osc := by simpa [DynamicMacroItem.isAbout] using h
      simp [this, DynamicMacroItem.isPress]
    | release => simp [DynamicMacroItem.isPress]
    | endMacro => cases h
  · next h => simp [h]

/-- The set of pressed keys has each of its keys once. -/
theorem pressedOscs_nodup (items : List DynamicMacroItem) : (pressedOscs items).Nodup := by
  induction items using List.reverseRecOn with
  | nil => exact List.nodup_nil
  | append_singleton items item ih =>
    rw [pressedOscs_concat]
    cases item with
    | press osc delay =>
      dsimp only
      split
      · exact ih
      · next hmem =>
        rw [← List.concat_eq_append]
        exact ih.concat hmem
    | release osc delay => exact ih.filter _
    | endMacro => exact ih

/-- The set of pressed keys is the set of keys that end pressed. -/
theorem mem_pressedOscs {items : List DynamicMacroItem} {osc : OsCode} :
    osc ∈ pressedOscs items ↔ EndsPressed items osc := by
  induction items using List.reverseRecOn with
  | nil => simp [pressedOscs, EndsPressed]
  | append_singleton items item ih =>
    rw [pressedOscs_concat, endsPressed_concat, ← ih]
    cases item with
    | press osc' delay =>
      simp only [DynamicMacroItem.isAbout, DynamicMacroItem.isPress, decide_eq_true_eq]
      by_cases hosc : osc' = osc
      · subst hosc
        rw [if_pos rfl]
        split <;> simp_all
      · rw [if_neg hosc]
        split <;> simp [Ne.symm hosc]
    | release osc' delay =>
      simp only [DynamicMacroItem.isAbout, DynamicMacroItem.isPress, decide_eq_true_eq]
      by_cases hosc : osc' = osc
      · simp [hosc]
      · simp [hosc, Ne.symm hosc]
    | endMacro => rfl

/-- Saved items are the kept ones, then a release for each key that ends pressed and
for no other. -/
def Closed (kept saved : List DynamicMacroItem) : Prop :=
  ∃ oscs : List OsCode, saved = kept ++ oscs.map (fun osc => .release osc 0) ∧ oscs.Nodup ∧
    ∀ osc, osc ∈ oscs ↔ EndsPressed kept osc

theorem closed_addRelease (iter : HashSetOrder) (state : DynamicMacroRecordState) :
    Closed state.macroItems (state.addReleaseForAllUnreleasedPresses iter).macroItems := by
  have hperm := iter.perm (pressedOscs state.macroItems)
  refine ⟨_, rfl, hperm.nodup_iff.mpr (pressedOscs_nodup _), fun osc => ?_⟩
  rw [hperm.mem_iff, mem_pressedOscs]

/-! ## When calls panic -/

/-- A call that ends a recording finds an event recorded in it. -/
def EventRecorded (recordState : Option DynamicMacroRecordState) : RecordOp → Prop
  | .beginRecordMacro _ | .stopMacro _ =>
    ∀ state, recordState = some state → state.waitingEvent.isSome = true
  | _ => True

/-- Items are pushed only when the next event takes their place. -/
def HoldsBack (recordState : Option DynamicMacroRecordState) : Prop :=
  ∀ state, recordState = some state → state.waitingEvent = none → state.macroItems = []

namespace DynamicMacroRecordState

theorem pushPendingEvent_eq_nil_iff {state : DynamicMacroRecordState}
    (h : state.waitingEvent = none → state.macroItems = []) :
    state.pushPendingEvent.macroItems = [] ↔ state.waitingEvent = none := by
  unfold pushPendingEvent
  split
  · next hwaiting => simp [hwaiting]
  · next hwaiting => simp [hwaiting]
  · next hwaiting => simp [hwaiting, h hwaiting]

theorem removeLast_eq_ok {state state' : DynamicMacroRecordState} :
    state.removeLast = .ok state' ↔
      state.macroItems ≠ [] ∧ state' = { state with macroItems := state.macroItems.dropLast } := by
  unfold removeLast
  split
  · next hnil => simp [hnil, panicWith]
  · next hcons =>
    simp only [hcons]
    constructor
    · intro h
      cases h
      simp
    · rintro ⟨_, rfl⟩
      rfl

end DynamicMacroRecordState

theorem holdsBack_none : HoldsBack none := by
  intro state h
  cases h

theorem holdsBack_new (macroId : Nat) : HoldsBack (some (.new macroId)) := by
  intro state h _
  cases h
  rfl

section Steps

variable {iter : HashSetOrder} {recordState recordState' : Option DynamicMacroRecordState}
  {saved : Option SavedMacro}

/-- The last item is there exactly when an event is held back. -/
theorem removeLast_ok_iff {state : DynamicMacroRecordState} (h : HoldsBack (some state)) :
    (∃ state', state.pushPendingEvent.removeLast = .ok state') ↔
      ∀ state', some state = some state' → state'.waitingEvent.isSome = true := by
  have hnil := state.pushPendingEvent_eq_nil_iff (h state rfl)
  simp only [DynamicMacroRecordState.removeLast_eq_ok, ne_eq, hnil, Option.isSome_iff_ne_none]
  constructor
  · rintro ⟨_, hwaiting, _⟩ state' heq
    cases heq
    exact hwaiting
  · intro hwaiting
    exact ⟨_, hwaiting state rfl, rfl⟩

theorem begin_ok_iff {macroId : Nat} (h : HoldsBack recordState) :
    (∃ r, beginRecordMacro iter macroId recordState = .ok r) ↔
      EventRecorded recordState (.beginRecordMacro macroId) := by
  cases recordState with
  | none =>
    constructor
    · rintro - state ⟨⟩
    · exact fun _ => ⟨_, rfl⟩
  | some state => exact exists_bind_pure_eq_ok.trans (removeLast_ok_iff h)

theorem stop_ok_iff {n : Nat} (h : HoldsBack recordState) :
    (∃ r, stopMacro iter recordState n = .ok r) ↔ EventRecorded recordState (.stopMacro n) := by
  cases recordState with
  | none =>
    constructor
    · rintro - state ⟨⟩
    · exact fun _ => ⟨_, rfl⟩
  | some state => exact exists_bind_pure_eq_ok.trans (removeLast_ok_iff h)

/-- A call does not panic exactly when it finds what it removes. -/
theorem recordStep_ok_iff {op : RecordOp} (h : HoldsBack recordState) :
    (∃ r, recordStep iter recordState op = .ok r) ↔ EventRecorded recordState op := by
  cases op with
  | beginRecordMacro macroId => exact begin_ok_iff h
  | stopMacro n => exact stop_ok_iff h
  | recordPress | recordRelease | tickRecordState => exact ⟨fun _ => trivial, fun _ => ⟨_, rfl⟩⟩

theorem holdsBack_addEvent (state : DynamicMacroRecordState) (osc : OsCode)
    (evtype : WaitingEventType) : HoldsBack (some (state.addEvent osc evtype)) := by
  rintro state ⟨⟩ ⟨⟩

/-- Each call leaves a recording that has just begun, or one with an event held back. -/
theorem recordStep_holdsBack {op : RecordOp} (h : HoldsBack recordState)
    (hstep : recordStep iter recordState op = .ok (recordState', saved)) :
    HoldsBack recordState' := by
  cases op with
  | beginRecordMacro macroId =>
    cases recordState with
    | none =>
      cases hstep
      exact holdsBack_new macroId
    | some state =>
      simp only [recordStep, beginRecordMacro, bind_eq_ok, pure_eq_ok, Prod.mk.injEq] at hstep
      rcases hstep with ⟨_, _, rfl, _⟩
      split
      · exact holdsBack_none
      · exact holdsBack_new macroId
  | recordPress osc maxPresses =>
    simp only [recordStep, pure_eq_ok, recordPress] at hstep
    split at hstep
    · cases hstep
      exact holdsBack_none
    · split at hstep
      · cases hstep
        exact holdsBack_none
      · cases hstep
        exact holdsBack_addEvent _ osc .press
  | recordRelease osc =>
    cases recordState with
    | none =>
      cases hstep
      exact holdsBack_none
    | some state =>
      cases hstep
      exact holdsBack_addEvent state osc .release
  | tickRecordState =>
    cases recordState with
    | none =>
      cases hstep
      exact holdsBack_none
    | some state =>
      cases hstep
      rintro state' ⟨⟩ hwaiting
      exact h state rfl hwaiting
  | stopMacro n =>
    cases recordState with
    | none =>
      cases hstep
      exact holdsBack_none
    | some state =>
      simp only [recordStep, stopMacro, bind_eq_ok, pure_eq_ok, Prod.mk.injEq] at hstep
      rcases hstep with ⟨_, _, rfl, _⟩
      exact holdsBack_none

end Steps

/-- A run of calls does not panic exactly when each recording that is ended by a begin
or a stop has recorded an event. -/
theorem recording_panics_iff (iter : HashSetOrder) (ops : List RecordOp) :
    (∃ r, Machine.run (recordStep iter) none ops = .ok r) ↔
      Along (recordStep iter) EventRecorded none ops := by
  refine run_ok_iff (fun _ _ _ _ h hstep => recordStep_holdsBack h hstep) ?_ holdsBack_none
  exact fun _ _ h => recordStep_ok_iff h

/-- A recording is stopped before a key is pressed. -/
theorem recording_panics :
    ¬∃ r, Machine.run (recordStep ⟨id, fun _ => .rfl⟩) none [.beginRecordMacro 1, .stopMacro 0] =
      .ok r := by
  rintro ⟨r, hrun⟩
  cases hrun

/-! ## What calls record -/

/-- The calls of a recording that goes on. -/
def RecordOp.records : RecordOp → Bool
  | .recordPress _ _ | .recordRelease _ | .tickRecordState => true
  | _ => false

/-- A call that records an event. -/
def RecordOp.isEvent : RecordOp → Bool
  | .recordPress _ _ | .recordRelease _ => true
  | _ => false

/-- The ticks before the next event or the end. -/
def ticksBefore : List RecordOp → Nat
  | .tickRecordState :: ops => ticksBefore ops + 1
  | _ => 0

/-- The events in order, each with the ticks until the next one, saturated. -/
def timed : List RecordOp → List DynamicMacroItem
  | [] => []
  | .recordPress osc _ :: ops => .press osc (min (ticksBefore ops) u16Max) :: timed ops
  | .recordRelease osc :: ops => .release osc (min (ticksBefore ops) u16Max) :: timed ops
  | _ :: ops => timed ops

/-- No press comes when more than twice its limit has been pushed; `n` events came
before. -/
def WithinLimit : Nat → List RecordOp → Prop
  | _, [] => True
  | n, .recordPress _ maxPresses :: ops => n - 1 ≤ maxPresses * 2 ∧ WithinLimit (n + 1) ops
  | n, .recordRelease _ :: ops => WithinLimit (n + 1) ops
  | n, _ :: ops => WithinLimit n ops

/-- The item of an event whose delay is known. -/
def eventItem : OsCode × WaitingEventType → Nat → DynamicMacroItem
  | (osc, .press), delay => .press osc delay
  | (osc, .release), delay => .release osc delay

namespace DynamicMacroRecordState

/-- The event held back, as it would be pushed. -/
def held (state : DynamicMacroRecordState) (delay : Nat) : List DynamicMacroItem :=
  state.waitingEvent.toList.map fun event => eventItem event (min delay u16Max)

theorem pushPendingEvent_items {state : DynamicMacroRecordState}
    (h : state.currentDelay ≤ u16Max) :
    state.pushPendingEvent.macroItems = state.macroItems ++ state.held state.currentDelay := by
  unfold pushPendingEvent held
  rw [Nat.min_eq_left h]
  split
  · next hwaiting => simp [hwaiting, eventItem]
  · next hwaiting => simp [hwaiting, eventItem]
  · next hwaiting => simp [hwaiting]

theorem pushPendingEvent_id (state : DynamicMacroRecordState) :
    state.pushPendingEvent.startingMacroId = state.startingMacroId := by
  unfold pushPendingEvent
  split <;> rfl

end DynamicMacroRecordState

/-- What the calls do to a recording: it stays the same recording, an event is held
back if there was or is one, and the items are the ones before, the event held back
before and the events of the calls. -/
structure Records (ops : List RecordOp) (state state' : DynamicMacroRecordState) : Prop where
  id : state'.startingMacroId = state.startingMacroId
  delay : state'.currentDelay ≤ u16Max
  waiting : state'.waitingEvent = none ↔ state.waitingEvent = none ∧ timed ops = []
  items : state'.macroItems ++ state'.held state'.currentDelay =
    state.macroItems ++ state.held (state.currentDelay + ticksBefore ops) ++ timed ops

section Records

variable {ops : List RecordOp} {op : RecordOp} {state state' : DynamicMacroRecordState}
  {osc : OsCode} {evtype : WaitingEventType}

theorem addEvent_items (hdelay : state.currentDelay ≤ u16Max) :
    (state.addEvent osc evtype).macroItems = state.macroItems ++ state.held state.currentDelay :=
  DynamicMacroRecordState.pushPendingEvent_items hdelay

/-- An event is recorded, and the calls after it give it its delay. -/
theorem Records.event (hdelay : state.currentDelay ≤ u16Max) (hticks : ticksBefore (op :: ops) = 0)
    (htimed : timed (op :: ops) =
      eventItem (osc, evtype) (min (ticksBefore ops) u16Max) :: timed ops)
    (h : Records ops (state.addEvent osc evtype) state') : Records (op :: ops) state state' := by
  constructor
  · rw [h.id]
    exact state.pushPendingEvent_id
  · exact h.delay
  · rw [h.waiting, htimed]
    simp [DynamicMacroRecordState.addEvent]
  · have hheld : (state.addEvent osc evtype).held
        ((state.addEvent osc evtype).currentDelay + ticksBefore ops) =
        [eventItem (osc, evtype) (min (ticksBefore ops) u16Max)] := by
      simp [DynamicMacroRecordState.held, DynamicMacroRecordState.addEvent]
    rw [h.items, addEvent_items hdelay, hheld, hticks, htimed]
    simp

/-- A tick is one more tick before the next event. -/
theorem Records.tick
    (h : Records ops { state with currentDelay := satAdd state.currentDelay 1 } state') :
    Records (.tickRecordState :: ops) state state' := by
  constructor
  · exact h.id
  · exact h.delay
  · exact h.waiting
  · have hsaturated : min (satAdd state.currentDelay 1 + ticksBefore ops) u16Max =
        min (state.currentDelay + (ticksBefore ops + 1)) u16Max := by
      simp only [satAdd]
      omega
    have hitems := h.items
    simp only [DynamicMacroRecordState.held] at hitems ⊢
    rw [hitems, hsaturated]
    rfl

end Records

/-- A recording goes on through calls within the limit. -/
theorem run_records (iter : HashSetOrder) :
    ∀ {ops : List RecordOp} {state : DynamicMacroRecordState},
      (∀ op ∈ ops, op.records = true) → state.currentDelay ≤ u16Max → HoldsBack (some state) →
      WithinLimit (state.macroItems.length + state.waitingEvent.toList.length) ops →
      ∃ state', Machine.run (recordStep iter) (some state) ops =
          .ok (some state', List.replicate ops.length none) ∧ Records ops state state'
  | [], state, _, hdelay, _, _ => by
    refine ⟨state, rfl, rfl, hdelay, ?_, ?_⟩
    · simp [timed]
    · simp [timed, ticksBefore]
  | op :: ops, state, hrecords, hdelay, hback, hlimit => by
    have hrest : ∀ op ∈ ops, op.records = true := fun op' hop =>
      hrecords op' (List.mem_cons_of_mem _ hop)
    have hop := hrecords op List.mem_cons_self
    have hpushed : ∀ osc evtype, (state.addEvent osc evtype).macroItems.length +
        (state.addEvent osc evtype).waitingEvent.toList.length =
          state.macroItems.length + state.waitingEvent.toList.length + 1 := by
      intro osc evtype
      rw [addEvent_items hdelay]
      simp [DynamicMacroRecordState.held, DynamicMacroRecordState.addEvent]
    cases op with
    | beginRecordMacro => cases hop
    | stopMacro => cases hop
    | tickRecordState =>
      have hback' :
          HoldsBack (some { state with currentDelay := satAdd state.currentDelay 1 }) := by
        rintro _ ⟨⟩ hwaiting
        exact hback state rfl hwaiting
      rcases @run_records iter ops { state with currentDelay := satAdd state.currentDelay 1 }
        hrest (satAdd_le state.currentDelay 1) hback' hlimit with ⟨state', hrun, h⟩
      exact ⟨state', run_cons_eq_ok.mpr ⟨_, _, _, rfl, hrun, rfl⟩, h.tick⟩
    | recordPress osc maxPresses =>
      rcases run_records iter hrest (Nat.zero_le u16Max) (holdsBack_addEvent state osc .press)
        (by rw [hpushed]; exact hlimit.2) with ⟨state', hrun, h⟩
      refine ⟨state', run_cons_eq_ok.mpr ⟨_, _, _, ?_, hrun, rfl⟩, h.event hdelay rfl rfl⟩
      -- what is pushed is all but the event held back
      have hlength : ¬state.macroItems.length > maxPresses * 2 := by
        have hle := hlimit.1
        cases hwaiting : state.waitingEvent with
        | none => simp [hback state rfl hwaiting]
        | some event =>
          rw [hwaiting, Option.toList_some, List.length_singleton] at hle
          omega
      simp only [recordStep, recordPress, if_neg hlength]
      rfl
    | recordRelease osc =>
      rcases run_records iter hrest (Nat.zero_le u16Max) (holdsBack_addEvent state osc .release)
        (by rw [hpushed]; exact hlimit) with ⟨state', hrun, h⟩
      exact ⟨state', run_cons_eq_ok.mpr ⟨_, _, _, rfl, hrun, rfl⟩, h.event hdelay rfl rfl⟩

/-! ## What recordings save -/

/-- A call that ends a recording after `n` events: a begin, a stop, or a press when more
than twice its limit has been pushed. -/
def Ends (n : Nat) : RecordOp → Prop
  | .beginRecordMacro _ | .stopMacro _ => True
  | .recordPress _ maxPresses => maxPresses * 2 < n - 1
  | _ => False

/-- The recorded items without the trailing ones that the ending drops. -/
def kept : RecordOp → List DynamicMacroItem → List DynamicMacroItem
  | .stopMacro numActionsToRemove, items =>
    items.dropLast.take (items.dropLast.length - numActionsToRemove)
  | _, items => items.dropLast

/-- The recording after one with the id has been ended. -/
def nextRecording (macroId : Nat) : RecordOp → Option DynamicMacroRecordState
  | .beginRecordMacro macroId' => if macroId = macroId' then none else some (.new macroId')
  | _ => none

/-- The calls of a recording save nothing, and the one that ends it saves the kept items
and their closing releases under its id. -/
def Saves (iter : HashSetOrder) (macroId : Nat) (ops : List RecordOp) (op : RecordOp) : Prop :=
  ∃ saved, Machine.run (recordStep iter) (some (.new macroId)) (ops ++ [op]) =
      .ok (nextRecording macroId op,
        List.replicate ops.length none ++ [some (macroId, saved)]) ∧
    Closed (kept op (timed ops)) saved

/-- A recording begins empty, whether another one was going on or not. -/
theorem begin_starts {iter : HashSetOrder} {macroId : Nat}
    {recordState recordState' : Option DynamicMacroRecordState} {saved : Option SavedMacro}
    (hother : ∀ state, recordState = some state → state.startingMacroId ≠ macroId)
    (h : beginRecordMacro iter macroId recordState = .ok (recordState', saved)) :
    recordState' = some (.new macroId) := by
  cases recordState with
  | none =>
    cases h
    rfl
  | some state =>
    have hid := hother state rfl
    simp only [beginRecordMacro, bind_eq_ok, pure_eq_ok, Prod.mk.injEq,
      DynamicMacroRecordState.removeLast_eq_ok] at h
    rcases h with ⟨_, ⟨_, rfl⟩, rfl, _⟩
    refine if_neg ?_
    rw [← state.pushPendingEvent_id] at hid
    exact hid

section Endings

variable {iter : HashSetOrder} {macroId : Nat} {ops : List RecordOp}
  {state : DynamicMacroRecordState} {op : RecordOp}

/-- The state after some calls of a recording. -/
theorem Records.pushed (h : Records ops (.new macroId) state) (hevent : timed ops ≠ []) :
    state.pushPendingEvent.macroItems = timed ops ∧ state.macroItems = (timed ops).dropLast := by
  have hitems : state.macroItems ++ state.held state.currentDelay = timed ops := h.items
  have hwaiting : state.waitingEvent ≠ none := fun hnone => hevent (h.waiting.mp hnone).2
  rcases Option.ne_none_iff_exists'.mp hwaiting with ⟨event, hsome⟩
  constructor
  · rw [DynamicMacroRecordState.pushPendingEvent_items h.delay, hitems]
  · rw [← hitems, DynamicMacroRecordState.held, hsome]
    exact List.dropLast_concat.symm

/-- A begin or a stop after no event finds nothing to remove. -/
theorem Records.panics (h : Records ops (.new macroId) state) (hnone : timed ops = [])
    (hends : Ends (timed ops).length op) : ¬∃ r, recordStep iter (some state) op = .ok r := by
  have hwaiting : state.waitingEvent = none := h.waiting.mpr ⟨rfl, hnone⟩
  have hback : HoldsBack (some state) := by
    rintro _ ⟨⟩ -
    have hitems : state.macroItems ++ state.held state.currentDelay = timed ops := h.items
    rw [hnone] at hitems
    exact (List.append_eq_nil_iff.mp hitems).1
  have hnot : ¬∀ state', some state = some state' → state'.waitingEvent.isSome = true := by
    intro hall
    have hsome := hall state rfl
    rw [hwaiting] at hsome
    cases hsome
  rw [recordStep_ok_iff hback]
  cases op with
  | beginRecordMacro => exact hnot
  | stopMacro => exact hnot
  | recordPress osc maxPresses =>
    rw [hnone] at hends
    exact absurd hends (Nat.not_lt_zero _)
  | recordRelease => cases hends
  | tickRecordState => cases hends

/-- The last call of a recording that recorded an event saves it. -/
theorem Records.ends (h : Records ops (.new macroId) state) (hevent : timed ops ≠ [])
    (hends : Ends (timed ops).length op) :
    ∃ saved,
      recordStep iter (some state) op = .ok (nextRecording macroId op, some (macroId, saved)) ∧
      Closed (kept op (timed ops)) saved := by
  rcases h.pushed hevent with ⟨hpushed, hitems⟩
  have hid : state.pushPendingEvent.startingMacroId = macroId :=
    state.pushPendingEvent_id.trans h.id
  have hremove : state.pushPendingEvent.removeLast =
      .ok { state.pushPendingEvent with macroItems := (timed ops).dropLast } := by
    rw [DynamicMacroRecordState.removeLast_eq_ok, hpushed]
    exact ⟨hevent, rfl⟩
  cases op with
  | beginRecordMacro macroId' =>
    refine ⟨_, ?_, closed_addRelease iter
      { state.pushPendingEvent with macroItems := (timed ops).dropLast }⟩
    simp only [recordStep, beginRecordMacro, hremove, ok_bind, nextRecording,
      DynamicMacroRecordState.addReleaseForAllUnreleasedPresses, hid]
    rfl
  | stopMacro numActionsToRemove =>
    refine ⟨_, ?_, closed_addRelease iter
      { state.pushPendingEvent with
        macroItems := (timed ops).dropLast.take
          ((timed ops).dropLast.length - numActionsToRemove) }⟩
    simp only [recordStep, stopMacro, hremove, ok_bind, nextRecording,
      DynamicMacroRecordState.addReleaseForAllUnreleasedPresses,
      DynamicMacroRecordState.truncate, hid]
    rfl
  | recordPress osc maxPresses =>
    -- the event held back and the press itself are dropped
    have hlength : state.macroItems.length > maxPresses * 2 := by
      rw [hitems, List.length_dropLast]
      exact hends
    have hclosed := closed_addRelease iter state
    rw [hitems] at hclosed
    refine ⟨_, ?_, hclosed⟩
    simp only [recordStep, recordPress, if_pos hlength, nextRecording,
      DynamicMacroRecordState.addReleaseForAllUnreleasedPresses, h.id]
    rfl
  | recordRelease => cases hends
  | tickRecordState => cases hends

end Endings

theorem timed_ne_nil_iff : ∀ {ops : List RecordOp},
    timed ops ≠ [] ↔ ∃ op ∈ ops, op.isEvent = true
  | [] => by simp [timed]
  | op :: ops => by
    have ih := @timed_ne_nil_iff ops
    cases op <;> simp [timed, RecordOp.isEvent, ih]

/-- A recording is saved as it should be, however it ends, exactly when it recorded an
event. -/
theorem saved_macro_iff (iter : HashSetOrder) (macroId : Nat) {ops : List RecordOp}
    {op : RecordOp} (hrecords : ∀ op ∈ ops, op.records = true) (hlimit : WithinLimit 0 ops)
    (hends : Ends (timed ops).length op) :
    Saves iter macroId ops op ↔ ∃ op ∈ ops, op.isEvent = true := by
  rw [← timed_ne_nil_iff]
  rcases run_records iter hrecords (Nat.zero_le u16Max) (holdsBack_new macroId) hlimit with
    ⟨state, hrun, h⟩
  constructor
  · rintro ⟨saved, hrun', _⟩ hnil
    rcases run_append_eq_ok.mp hrun' with ⟨_, _, _, hfirst, hlast, _⟩
    cases hrun.symm.trans hfirst
    rcases run_cons_eq_ok.mp hlast with ⟨_, _, _, hstep, _⟩
    exact h.panics hnil hends ⟨_, hstep⟩
  · intro hevent
    rcases h.ends hevent hends with ⟨saved, hstep, hclosed⟩
    refine ⟨saved, run_append_eq_ok.mpr ⟨_, _, _, hrun, ?_, rfl⟩, hclosed⟩
    exact run_cons_eq_ok.mpr ⟨_, _, [], hstep, rfl, rfl⟩

/-- A recording that ends at its own key: the press of the key is dropped, and the key
that was still down is released. -/
theorem saved_macro_iff_held :
    Saves ⟨id, fun _ => .rfl⟩ 1
        [.recordPress keyA 128, .tickRecordState, .recordRelease keyA, .recordPress keyB 128,
          .tickRecordState, .tickRecordState, .recordPress keyLeftCtrl 128]
        (.beginRecordMacro 1) ↔
      ∃ op ∈ [RecordOp.recordPress keyA 128, .tickRecordState, .recordRelease keyA,
        .recordPress keyB 128, .tickRecordState, .tickRecordState, .recordPress keyLeftCtrl 128],
        op.isEvent = true :=
  saved_macro_iff ⟨id, fun _ => .rfl⟩ 1 (by decide) (by simp [WithinLimit]) trivial

/-- A recording of no event is not saved. -/
theorem saved_macro_fails :
    (∀ op ∈ ([] : List RecordOp), op.records = true) ∧ WithinLimit 0 [] ∧
      Ends (timed []).length (.stopMacro 0) ∧
      ¬Saves ⟨id, fun _ => .rfl⟩ 1 [] (.stopMacro 0) := by
  refine ⟨by simp, trivial, trivial, ?_⟩
  rintro ⟨saved, hrun, _⟩
  cases hrun

end Kanata
