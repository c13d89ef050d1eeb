import Mathlib.Data.List.Perm.Basic
import Kanata.Layout.Trace

/-!
# Kanata.Layout.Pending — no pending decision is dropped

Every waiting state gets a number when it is created. In every run each number
is found once: in `waiting` or `extra_waiting`, among the resolved states or
among those that were lost (`run_settled`). A state is lost when a lazy tap-dance
or a chord is performed while another key is `waiting`, since only hold-taps look
whether the place is taken, and when a ninth state is put in `extra_waiting`.
`pending_kept_fails` loses one.
-/

namespace Kanata

open Fallible Machine

variable {C R : Nat} {T : Type}

namespace Occurrence

/-- The number of a state that is resolved. -/
def resolvedId : Occurrence T → Option Nat
  | .waitingResolved id _ => some id
  | _ => none

/-- The number of a state that is lost. -/
def lostId : Occurrence T → Option Nat
  | .waitingLost id => some id
  | _ => none

/-- Only notes about waiting states have such numbers. -/
theorem topic_of_resolvedId (o : Occurrence T) (h : o.resolvedId.isSome = true) :
    o.topic = .waiting := by
  cases o <;> first | rfl | cases h

/-- The same for lost states. -/
theorem topic_of_lostId (o : Occurrence T) (h : o.lostId.isSome = true) : o.topic = .waiting := by
  cases o <;> first | rfl | cases h

end Occurrence

namespace Layout

/-- The numbers of the states that wait. -/
def pendingIds (s : Layout T) : List Nat :=
  s.waiting.toList.map (·.id) ++ s.extraWaiting.items.map (·.id)

/-- The numbers of the states that were resolved. -/
def resolvedIds (s : Layout T) : List Nat := s.trace.filterMap Occurrence.resolvedId

/-- The numbers of the states that were lost. -/
def lostIds (s : Layout T) : List Nat := s.trace.filterMap Occurrence.lostId

end Layout

/-- Between two layouts the numbers that are pending, resolved or lost grow by
those that were given out. -/
def Settled (s s' : Layout T) : Prop :=
  ∀ id, s'.pendingIds.count id + s'.resolvedIds.count id + s'.lostIds.count id +
      (List.range s.created).count id =
    s.pendingIds.count id + s.resolvedIds.count id + s.lostIds.count id +
      (List.range s'.created).count id

section Settled

variable {s s₁ s₂ s' : Layout T}

/-- Nothing happens. -/
theorem Settled.refl (s : Layout T) : Settled s s := fun _ => rfl

/-- One part after the other. -/
theorem Settled.trans (h₁ : Settled s s₁) (h₂ : Settled s₁ s₂) : Settled s s₂ := by
  intro id
  have h₁ := h₁ id
  have h₂ := h₂ id
  omega

/-- A part that is not about waiting states. -/
theorem Settled.of_about {os : List (Occurrence T)} {topic : Topic}
    (htrace : s'.trace = s.trace ++ os) (hos : About topic os) (hne : topic ≠ .waiting)
    (hpending : s'.pendingIds = s.pendingIds) (hcreated : s'.created = s.created) :
    Settled s s' := by
  have hresolved := hos.filterMap hne Occurrence.topic_of_resolvedId
  have hlost := hos.filterMap hne Occurrence.topic_of_lostId
  intro id
  unfold Layout.resolvedIds Layout.lostIds
  rw [htrace, hpending, hcreated, List.filterMap_append, List.filterMap_append, hresolved, hlost,
    List.append_nil, List.append_nil]

/-- A number that waits was given out, and waits once. -/
theorem Settled.count_pending {delay : Nat} (h : Settled (.new delay) s) (id : Nat) :
    s.pendingIds.count id ≤ (List.range s.created).count id := by
  -- at first there is nothing to count
  have hid := h id
  have hnew : (List.range (Layout.new delay : Layout T).created).count id = 0 := rfl
  have hpending : (Layout.new delay : Layout T).pendingIds.count id = 0 := rfl
  have hresolved : (Layout.new delay : Layout T).resolvedIds.count id = 0 := rfl
  have hlost : (Layout.new delay : Layout T).lostIds.count id = 0 := rfl
  omega

/-- No number waits twice. -/
theorem Settled.nodup_pendingIds {delay : Nat} (h : Settled (.new delay) s) :
    s.pendingIds.Nodup := by
  rw [List.nodup_iff_count_le_one]
  exact fun id => Nat.le_trans (h.count_pending id)
    (List.nodup_iff_count_le_one.mp List.nodup_range id)

/-- The next number does not wait yet. -/
theorem Settled.created_notMem {delay : Nat} (h : Settled (.new delay) s) :
    s.created ∉ s.pendingIds := by
  intro hmem
  have hcount := h.count_pending s.created
  have hnone : (List.range s.created).count s.created = 0 :=
    List.count_eq_zero.mpr List.not_mem_range_self
  have hone := List.count_pos_iff.mpr hmem
  omega

/-- The numbers of some lost states. -/
theorem filterMap_lost (ws : List (WaitingState T)) :
    (ws.map fun w => (.waitingLost w.id : Occurrence T)).filterMap Occurrence.lostId =
      ws.map (·.id) := by
  have hcomp : (Occurrence.lostId ∘ fun w : WaitingState T => (.waitingLost w.id : Occurrence T)) =
      some ∘ (·.id) := rfl
  rw [List.filterMap_map, hcomp, List.filterMap_eq_map]

/-- None of them is resolved. -/
theorem filterMap_lost_resolved (ws : List (WaitingState T)) :
    (ws.map fun w => (.waitingLost w.id : Occurrence T)).filterMap Occurrence.resolvedId = [] := by
  rw [List.filterMap_map, List.filterMap_eq_nil_iff]
  exact fun _ _ => rfl

/-- A state takes the place of the one that waits. -/
theorem setWaiting_settled (s : Layout T) {w : Nat → WaitingState T} (hid : ∀ id, (w id).id = id) :
    Settled s (s.setWaiting w) := by
  intro id
  rw [Layout.setWaiting_eq]
  simp only [Layout.pendingIds, Layout.resolvedIds, Layout.lostIds, List.filterMap_append,
    filterMap_lost, filterMap_lost_resolved, List.filterMap_cons, List.filterMap_nil,
    Occurrence.resolvedId, Occurrence.lostId, List.count_append, List.range_succ,
    Option.toList_some, List.map_cons, List.map_nil, hid, List.append_nil]
  omega

/-- A state is put behind the one that waits. -/
theorem pushExtraWaiting_settled (s : Layout T) {w : Nat → WaitingState T}
    (hid : ∀ id, (w id).id = id) : Settled s (s.pushExtraWaiting w) := by
  intro id
  -- the state that drops out of the full queue is recorded as lost
  have hpush := congrArg (fun ws : List (WaitingState T) => (ws.map (·.id)).count id)
    (Bounded.pushBack_append s.extraWaiting (w s.created))
  simp only [List.map_append, List.count_append, List.map_cons, List.map_nil, hid] at hpush
  rw [Layout.pushExtraWaiting_eq]
  simp only [Layout.pendingIds, Layout.resolvedIds, Layout.lostIds, List.filterMap_append,
    filterMap_lost, filterMap_lost_resolved, List.filterMap_cons, List.filterMap_nil,
    Occurrence.resolvedId, Occurrence.lostId, List.count_append, List.range_succ, List.append_nil]
  omega

/-- A state is taken out to be resolved. -/
theorem takeWaiting_settled {w : WaitingState T} {idx : Option Nat} (outcome : WaitingAction)
    (hw : s.waitingAt idx = some w) : Settled s (s.takeWaiting w outcome idx) := by
  intro id
  cases idx with
  | none =>
    have hw : s.waiting = some w := hw
    simp only [Layout.takeWaiting, Layout.note, Layout.noteWait, Layout.pendingIds,
      Layout.resolvedIds,
      Layout.lostIds, List.filterMap_append, List.filterMap_cons, List.filterMap_nil,
      Occurrence.resolvedId, Occurrence.lostId, List.count_append, hw, Option.toList_some,
      Option.toList_none, List.map_cons, List.map_nil, List.append_nil, List.count_nil]
    omega
  | some i =>
    have hw : s.extraWaiting.items[i]? = some w := hw
    rcases List.getElem?_eq_some_iff.mp hw with ⟨hlt, hget⟩
    -- the others stay in `extra_waiting`
    have hperm := (List.getElem_cons_eraseIdx_perm hlt).map (·.id)
    have hcount := hperm.count_eq id
    rw [hget, List.map_cons, List.count_cons] at hcount
    simp only [Layout.takeWaiting, Layout.note, Layout.noteWait, Layout.pendingIds,
      Layout.resolvedIds,
      Layout.lostIds, List.filterMap_append, List.filterMap_cons, List.filterMap_nil,
      Occurrence.resolvedId, Occurrence.lostId, List.count_append, List.append_nil,
      Bounded.removeAt_items, List.count_cons, List.count_nil]
    omega

/-- The state that waits is dropped. -/
theorem loseWaiting_settled (s : Layout T) : Settled s s.loseWaiting := by
  intro id
  rw [Layout.loseWaiting_eq]
  simp only [Layout.pendingIds, Layout.resolvedIds, Layout.lostIds, List.filterMap_append,
    filterMap_lost, filterMap_lost_resolved, List.count_append, Option.toList_none, List.map_nil,
    List.append_nil, List.nil_append]
  omega

end Settled

/-! ## Steps -/

section Steps

variable {cfg : LayoutConfig C R T} {E : Panic → Prop} {D : Discipline cfg E} {s s' : Layout T}
  {e : CustomEvent T}

/-- What waits is left alone, and nothing is recorded about it. -/
structure LeavesWaiting (s s' : Layout T) (os : List (Occurrence T)) : Prop where
  waiting : s'.waiting = s.waiting
  extraWaiting : s'.extraWaiting = s.extraWaiting
  created : s'.created = s.created
  waits : s'.waits = s.waits
  notes : ∀ o ∈ os, o.topic ≠ .waiting

/-- The same numbers wait. -/
theorem LeavesWaiting.pendingIds {os : List (Occurrence T)} (h : LeavesWaiting s s' os) :
    s'.pendingIds = s.pendingIds := by
  unfold Layout.pendingIds
  rw [h.waiting, h.extraWaiting]

/-- Nothing about waiting states happens. -/
theorem LeavesWaiting.settled {os : List (Occurrence T)} (h : LeavesWaiting s s' os)
    (htrace : s'.trace = s.trace ++ os) : Settled s s' := by
  have hnone : ∀ f : Occurrence T → Option Nat, (∀ o, (f o).isSome = true → o.topic = .waiting) →
      os.filterMap f = [] := by
    intro f hf
    rw [List.filterMap_eq_nil_iff]
    intro o ho
    rw [← Option.not_isSome_iff_eq_none]
    exact fun hsome => h.notes o ho (hf o hsome)
  intro id
  unfold Layout.resolvedIds Layout.lostIds
  rw [htrace, h.pendingIds, h.created, List.filterMap_append, List.filterMap_append,
    hnone _ Occurrence.topic_of_resolvedId, hnone _ Occurrence.topic_of_lostId]
  simp

/-- A part whose notes are about something else. -/
theorem LeavesWaiting.of_about {os : List (Occurrence T)} {topic : Topic} (hos : About topic os)
    (hne : topic ≠ .waiting) (hwaiting : s'.waiting = s.waiting)
    (hextra : s'.extraWaiting = s.extraWaiting) (hcreated : s'.created = s.created)
    (hwaits : s'.waits = s.waits) : LeavesWaiting s s' os where
  waiting := hwaiting
  extraWaiting := hextra
  created := hcreated
  waits := hwaits
  notes o ho := by
    rw [hos o ho]
    exact hne

/-- Dropping a custom event. -/
theorem discard_leavesWaiting (s : Layout T) (e : CustomEvent T) :
    LeavesWaiting s (s.discard e) (Layout.discardNotes e) := by
  have habout : About .custom (Layout.discardNotes e) := by
    unfold Layout.discardNotes
    split
    · exact .nil _
    · exact .cons rfl (.nil _)
  rw [Layout.discard_eq]
  exact .of_about habout (by simp) rfl rfl rfl rfl

/-- Performing a custom action. -/
theorem pushCustom_leavesWaiting (s : Layout T) (value : T) (coord : KCoord) :
    LeavesWaiting s (s.pushCustom value coord)
      [if s.states.isFull then .customRefused value else .customAdded value coord] := by
  have habout : About .custom
      [if s.states.isFull then .customRefused value
        else (.customAdded value coord : Occurrence T)] := by
    split <;> exact .cons rfl (.nil _)
  rw [Layout.pushCustom_eq]
  exact .of_about habout (by simp) rfl rfl rfl rfl

/-- A release leaves what waits alone. -/
theorem dequeueRelease_leavesWaiting {c : KCoord} (h : s.dequeueRelease c = .ok (s', e)) :
    ∃ os, s'.trace = s.trace ++ os ∧ LeavesWaiting s s' os := by
  rcases dequeueRelease_eq_ok h with ⟨states, rel, _, _, rfl⟩
  have habout : About .custom (rel.removed.map (Occurrence.customReleased (T := T))) :=
    .map (by intro _; rfl) _
  exact ⟨_, rfl, .of_about habout (by simp) rfl rfl rfl rfl⟩

/-- The same, for the numbers. -/
theorem discard_settled (s : Layout T) (e : CustomEvent T) : Settled s (s.discard e) :=
  (discard_leavesWaiting s e).settled (Layout.discard_trace s e)

/-- The update may change what waits. -/
def Update.isAboutWaiting : Update T → Bool
  | .setWaiting _ => true
  | .pushExtraWaiting _ => true
  | .takeWaiting _ _ _ => true
  | _ => false

/-- All other updates leave what waits alone. -/
theorem Update.leavesWaiting {u : Update T} (hu : u.isAboutWaiting = false) :
    LeavesWaiting s (u.apply cfg s) (u.notes s) := by
  -- its notes are about what the update is about
  have hnotes : u.topic ≠ .waiting → ∀ o ∈ u.notes s, o.topic ≠ .waiting := by
    intro hne o ho
    rw [u.notes_about s o ho]
    exact hne
  have hnone : ∀ o ∈ ([] : List (Occurrence T)), o.topic ≠ .waiting := fun _ ho => by cases ho
  cases u with
  | setWaiting w => cases hu
  | pushExtraWaiting w => cases hu
  | takeWaiting w outcome idx => cases hu
  | pushHistoricalKey kc =>
    rw [Update.apply, Layout.pushHistoricalKey_eq]
    exact ⟨rfl, rfl, rfl, rfl, hnotes (by simp [Update.topic])⟩
  | startSequence events =>
    rw [Update.apply, Layout.startSequence_eq]
    exact ⟨rfl, rfl, rfl, rfl, hnotes (by simp [Update.topic])⟩
  | setDefaultLayer value =>
    rw [Update.apply, Layout.setDefaultLayer_eq]
    exact ⟨rfl, rfl, rfl, rfl, hnone⟩
  | deferAction qa =>
    rw [Update.apply, Layout.pushAction_eq]
    exact ⟨rfl, rfl, rfl, rfl, hnotes (by simp [Update.topic])⟩
  | loseAction qa => exact ⟨rfl, rfl, rfl, rfl, hnotes (by simp [Update.topic])⟩
  | perform action coord => exact ⟨rfl, rfl, rfl, rfl, hnotes (by simp [Update.topic])⟩
  | finish call => exact ⟨rfl, rfl, rfl, rfl, hnotes (by simp [Update.topic])⟩
  | process q => exact ⟨rfl, rfl, rfl, rfl, hnotes (by simp [Update.topic])⟩
  | arrive event =>
    rw [Update.apply, Layout.arrive_eq]
    exact ⟨rfl, rfl, rfl, rfl, hnotes (by simp [Update.topic])⟩
  | startTapDanceEager coord td =>
    rw [Update.apply, Layout.startTapDanceEager_eq]
    exact ⟨rfl, rfl, rfl, rfl, hnotes (by simp [Update.topic])⟩
  | takePress call =>
    rw [Update.apply, Layout.notePressed, Layout.takePress_eq]
    exact ⟨rfl, rfl, rfl, rfl, hnotes (by simp [Update.topic])⟩
  | setRptAction action => exact ⟨rfl, rfl, rfl, rfl, hnotes (by simp [Update.topic])⟩
  | setBuffer buffer => exact ⟨rfl, rfl, rfl, rfl, hnotes (by simp [Update.topic])⟩
  | excludeFromHistory coord => exact ⟨rfl, rfl, rfl, rfl, hnotes (by simp [Update.topic])⟩
  | enqueue q =>
    rw [Update.apply, Layout.enqueue_eq]
    exact ⟨rfl, rfl, rfl, rfl, hnone⟩
  | _ => exact ⟨rfl, rfl, rfl, rfl, hnone⟩

/-- Every update keeps the account. -/
theorem Update.settled {u : Update T} (hu : u.Allowed D s) : Settled s (u.apply cfg s) := by
  by_cases hwaiting : u.isAboutWaiting = true
  · cases u with
    | setWaiting w => exact setWaiting_settled s fun id => (hu.1 id).2
    | pushExtraWaiting w => exact pushExtraWaiting_settled s fun id => (hu.2.1 id).2
    | takeWaiting w outcome idx => exact takeWaiting_settled outcome hu.1
    | _ => cases hwaiting
  · have hleaves : LeavesWaiting s (u.apply cfg s) (u.notes s) :=
      Update.leavesWaiting (by simpa using hwaiting)
    exact hleaves.settled (u.apply_trace s)

/-- Everything an action does keeps it. -/
theorem Performs.settled (h : Performs D s s' e) : Settled s s' := by
  induction h with
  | refl s => exact .refl s
  | update u hu => exact Update.settled hu
  | custom s value coord =>
    exact (pushCustom_leavesWaiting s value coord).settled (pushCustom_trace s value coord)
  | release h =>
    rcases dequeueRelease_leavesWaiting h with ⟨os, htrace, hleaves⟩
    exact hleaves.settled htrace
  | merge h₁ h₂ ih₁ ih₂ => exact (ih₁.trans ih₂).trans (discard_settled _ _)
  | discard h ih => exact ih.trans (discard_settled _ _)

/-- A tick of a waiting state keeps its number. -/
theorem Passing.settled {u : Passing T} (hu : u.Allowed D s) : Settled s (u.apply s) := by
  have hother : u.topic ≠ .waiting → (u.apply s).pendingIds = s.pendingIds →
      (u.apply s).created = s.created → Settled s (u.apply s) := fun hne hpending hcreated =>
    .of_about (u.apply_trace s) (u.notes_about s) hne hpending hcreated
  cases u with
  | loseWaiting => exact loseWaiting_settled s
  | receive q =>
    apply hother (by simp [Passing.topic])
    · rw [Passing.apply, Layout.pushQueue_eq]
      rfl
    · rw [Passing.apply, Layout.pushQueue_eq]
  | queueChord qa =>
    apply hother (by simp [Passing.topic])
    · rw [Passing.apply, Layout.pushAction_eq]
      rfl
    · rw [Passing.apply, Layout.pushAction_eq]
  | takeEvent =>
    apply hother (by simp [Passing.topic])
    · rw [Passing.apply, Layout.takeEvent_eq]
      rfl
    · rw [Passing.apply, Layout.takeEvent_eq]
  | advanceSequence =>
    apply hother (by simp [Passing.topic])
    · rw [Passing.apply, Layout.advanceSequence_eq]
      rfl
    · rw [Passing.apply, Layout.advanceSequence_eq]
  | restartSequence events =>
    apply hother (by simp [Passing.topic])
    · rw [Passing.apply, Layout.startSequence_eq]
      rfl
    · rw [Passing.apply, Layout.startSequence_eq]
  | tickWaiting t =>
    rcases hu with ⟨w, hw, _, ht⟩
    apply hother (by simp [Passing.topic])
    · rw [Passing.apply, Layout.afterTickWt_eq]
      simp [Layout.pendingIds, hw, ht.sameId]
    · rw [Passing.apply, Layout.afterTickWt_eq]
  | tickExtraWaiting i t =>
    rcases hu with ⟨w, hw, _, ht⟩
    rcases List.getElem?_eq_some_iff.mp hw with ⟨hlt, hget⟩
    apply hother (by simp [Passing.topic])
    · rw [Passing.apply, Layout.afterTickWt_eq]
      -- the state that was ticked is in its place, with its number
      have hset : (s.extraWaiting.items.set i t.waiting).map (·.id) =
          s.extraWaiting.items.map (·.id) := by
        apply List.ext_getElem (by simp)
        intro n _ hn
        by_cases heq : i = n
        · subst heq
          simp [ht.sameId, hget]
        · simp [List.getElem_set_ne heq]
      simp [Layout.pendingIds, Layout.setExtraWaiting, hset]
    · rw [Passing.apply, Layout.afterTickWt_eq]
      rfl
  | advanceCustom =>
    apply hother (by simp [Passing.topic])
    · rw [Passing.apply, Layout.processSequenceCustom_eq]
      rfl
    · rw [Passing.apply, Layout.processSequenceCustom_eq]
  | _ => exact hother (by simp [Passing.topic]) rfl rfl

/-- Taking an action from the queue. -/
theorem takeAction_leavesWaiting (s : Layout T) :
    LeavesWaiting s s.takeAction (s.actionQueue.items.head?.toList.map .actionTaken) := by
  have hsame := s.takeAction_eq
  have habout : About .action (s.actionQueue.items.head?.toList.map .actionTaken) :=
    .map (by intro _; rfl) _
  exact .of_about habout (by simp) (by rw [hsame]) (by rw [hsame]) (by rw [hsame])
    (by rw [hsame])

/-- A whole step keeps it. -/
theorem Advances.settled (h : Advances D s s' e) : Settled s s' := by
  induction h with
  | performs h => exact h.settled
  | pass u hu => exact Passing.settled hu
  | takes hqa hact h =>
    exact ((takeAction_leavesWaiting _).settled (Layout.takeAction_trace _)).trans h.settled
  | merge h₁ h₂ ih₁ ih₂ => exact (ih₁.trans ih₂).trans (discard_settled _ _)

end Steps

/-! ## What discards a decision -/

/-- Performing the action discards no decision: a lazy tap-dance or a chord finds nothing in
`waiting`, a hold-tap finds room in `extra_waiting` when it finds something in `waiting`, and
its function does not drop presses. -/
def KeepsPending (action : Action T) (found : Found T) : Prop :=
  match action with
  | .holdTap ht =>
    (found.waiting = true → found.extraWaiting < extraWaitingLen) ∧ ht.config.NeverDrops
  | action => action.takesPlace = true → found.waiting = false

/-- Nothing is lost, and nothing in `extra_waiting` will drop a press. -/
structure Unlost (s : Layout T) : Prop where
  lostIds : s.lostIds = []
  extraWaiting : ∀ w ∈ s.extraWaiting.items, w.KeepsPress

/-- As long as every action is performed so, nothing is lost. -/
def LosesNothing (s : Layout T) : Prop := (∀ o ∈ s.trace, o.Meets KeepsPending) → Unlost s

section Kept

variable {cfg : LayoutConfig C R T} {E : Panic → Prop} {D : Discipline cfg E} {s s' : Layout T}
  {e : CustomEvent T} {os : List (Occurrence T)}

/-- A part that adds to the trace: what was performed before it was performed so as well. -/
theorem LosesNothing.part (h : LosesNothing s) (htrace : s'.trace = s.trace ++ os)
    (hpart : Unlost s → (∀ o ∈ s.trace, o.Meets KeepsPending) → Unlost s') : LosesNothing s' := by
  intro hmeets
  rw [htrace] at hmeets
  have hbefore : ∀ o ∈ s.trace, o.Meets KeepsPending := fun o ho =>
    hmeets o (List.mem_append_left _ ho)
  exact hpart (h hbefore) hbefore

/-- Notes without lost states. -/
theorem lostIds_append (htrace : s'.trace = s.trace ++ os)
    (hos : os.filterMap Occurrence.lostId = []) : s'.lostIds = s.lostIds := by
  unfold Layout.lostIds
  rw [htrace, List.filterMap_append, hos, List.append_nil]

/-- A part that records no lost state and puts nothing into `extra_waiting`. -/
theorem LosesNothing.calm (h : LosesNothing s) (htrace : s'.trace = s.trace ++ os)
    (hos : os.filterMap Occurrence.lostId = [])
    (hextra : ∀ w ∈ s'.extraWaiting.items, w ∈ s.extraWaiting.items) : LosesNothing s' :=
  h.part htrace fun hunlost _ =>
    ⟨(lostIds_append htrace hos).trans hunlost.lostIds,
      fun w hw => hunlost.extraWaiting w (hextra w hw)⟩

/-- A part that leaves what waits alone. -/
theorem LosesNothing.leaves (h : LosesNothing s) (htrace : s'.trace = s.trace ++ os)
    (hleaves : LeavesWaiting s s' os) : LosesNothing s' := by
  refine h.calm htrace ?_ fun w hw => hleaves.extraWaiting ▸ hw
  rw [List.filterMap_eq_nil_iff]
  intro o ho
  rw [← Option.not_isSome_iff_eq_none]
  exact fun hsome => hleaves.notes o ho (o.topic_of_lostId hsome)

/-- What the layout began to perform last was performed so. -/
theorem meets_of_isPerforming {action : Action T} (hmeets : ∀ o ∈ s.trace, o.Meets KeepsPending)
    (hperforming : s.IsPerforming action) : KeepsPending action s.found := by
  rcases hperforming with ⟨coord, hlast⟩
  exact hmeets _ (List.mem_of_getLast? hlast)

/-- No decision is in the way of one that starts. -/
theorem setWaiting_unlost {w : Nat → WaitingState T} (hunlost : Unlost s)
    (hmeets : ∀ o ∈ s.trace, o.Meets KeepsPending)
    (hplace : s.waiting = none ∨ ∃ a, a.takesPlace = true ∧ s.IsPerforming a) :
    Unlost (s.setWaiting w) := by
  have hnone : s.waiting = none := by
    rcases hplace with hnone | ⟨a, ha, hperforming⟩
    · exact hnone
    · have hkeeps := meets_of_isPerforming hmeets hperforming
      -- the action was noted with what it found: nothing
      have hfound : s.found.waiting = false := by
        cases a with
        | tapDance td => exact hkeeps ha
        | chords group => exact hkeeps ha
        | _ => cases ha
      exact Option.isSome_eq_false_iff.mp hfound |> Option.isNone_iff_eq_none.mp
  rw [Layout.setWaiting_eq]
  refine ⟨?_, hunlost.extraWaiting⟩
  have hlost := hunlost.lostIds
  simp only [Layout.lostIds, hnone, List.filterMap_append, Option.toList_none, List.map_nil,
    List.append_nil] at hlost ⊢
  rw [hlost]
  rfl

/-- There is room for a hold-tap behind the others. -/
theorem pushExtraWaiting_unlost {w : Nat → WaitingState T} {ht : HoldTapAction (Action T)}
    (hunlost : Unlost s) (hmeets : ∀ o ∈ s.trace, o.Meets KeepsPending)
    (hsome : s.waiting.isSome = true) (hperforming : s.IsPerforming (.holdTap ht))
    (hconfig : ∀ id, (w id).config = .holdTap ht.config) : Unlost (s.pushExtraWaiting w) := by
  have hkeeps := meets_of_isPerforming hmeets hperforming
  -- the hold-tap was noted with how many waited behind
  have hroom : s.extraWaiting.items.length < extraWaitingLen := hkeeps.1 hsome
  have hpush := Bounded.pushBack_of_lt hroom (w s.created)
  rw [Layout.pushExtraWaiting_eq]
  constructor
  · have hlost := hunlost.lostIds
    simp only [Layout.lostIds, hpush.2, List.filterMap_append, Option.toList_none, List.map_nil,
      List.append_nil] at hlost ⊢
    rw [hlost]
    rfl
  · intro w' hw'
    rcases Bounded.mem_pushBack hw' with hw' | rfl
    · exact hunlost.extraWaiting w' hw'
    · exact ⟨ht.config, hconfig _, hkeeps.2⟩

/-- Updates lose nothing, as long as actions are performed so. -/
theorem Update.losesNothing {u : Update T} (hu : u.Allowed D s) (h : LosesNothing s) :
    LosesNothing (u.apply cfg s) := by
  by_cases hwaiting : u.isAboutWaiting = true
  · cases u with
    | setWaiting w =>
      exact h.part (Update.apply_trace s (.setWaiting w)) fun hunlost hmeets =>
        setWaiting_unlost hunlost hmeets hu.2
    | pushExtraWaiting w =>
      rcases hu with ⟨hsome, _, ht, hperforming, hconfig⟩
      exact h.part (Update.apply_trace s (.pushExtraWaiting w)) fun hunlost hmeets =>
        pushExtraWaiting_unlost hunlost hmeets hsome hperforming hconfig
    | takeWaiting w outcome idx =>
      refine h.calm (Update.apply_trace s (.takeWaiting w outcome idx)) rfl fun w' hw' => ?_
      cases idx with
      | none => exact hw'
      | some i => exact List.mem_of_mem_eraseIdx hw'
    | _ => cases hwaiting
  · exact h.leaves (u.apply_trace s) (Update.leavesWaiting (by simpa using hwaiting))

/-- Nor does anything an action does. -/
theorem Performs.losesNothing (hperforms : Performs D s s' e) (h : LosesNothing s) :
    LosesNothing s' := by
  induction hperforms with
  | refl s => exact h
  | update u hu => exact Update.losesNothing hu h
  | custom s value coord =>
    exact h.leaves (pushCustom_trace s value coord) (pushCustom_leavesWaiting s value coord)
  | release hrelease =>
    rcases dequeueRelease_leavesWaiting hrelease with ⟨os, htrace, hleaves⟩
    exact h.leaves htrace hleaves
  | merge h₁ h₂ ih₁ ih₂ =>
    exact (ih₂ (ih₁ h)).leaves (Layout.discard_trace _ _) (discard_leavesWaiting _ _)
  | discard hperforms ih =>
    exact (ih h).leaves (Layout.discard_trace _ _) (discard_leavesWaiting _ _)

/-- A part of a step that is no action. Only a hold-tap that drops presses could lose what is
in `waiting`. -/
theorem Passing.losesNothing {u : Passing T} (hu : u.Allowed D s) (h : LosesNothing s) :
    LosesNothing (u.apply s) := by
  have hother : u.topic ≠ .waiting → (u.apply s).extraWaiting = s.extraWaiting →
      LosesNothing (u.apply s) := fun hne hextra =>
    h.calm (u.apply_trace s) ((u.notes_about s).filterMap hne Occurrence.topic_of_lostId)
      fun w hw => hextra ▸ hw
  cases u with
  | loseWaiting =>
    rcases hu with ⟨w, hw, hdrops⟩
    exact h.part (Passing.apply_trace s .loseWaiting) fun hunlost _ =>
      absurd (hunlost.extraWaiting w hw) hdrops
  | tickExtraWaiting i t =>
    rcases hu with ⟨w, hw, _, ht⟩
    have hne : (Passing.tickExtraWaiting i t : Passing T).topic ≠ .waiting := by
      simp [Passing.topic]
    have hnotes := ((Passing.tickExtraWaiting i t).notes_about s).filterMap hne
      Occurrence.topic_of_lostId
    refine h.part (Passing.apply_trace s _) fun hunlost _ =>
      ⟨(lostIds_append (Passing.apply_trace s _) hnotes).trans hunlost.lostIds, ?_⟩
    intro w' hw'
    rw [Passing.apply, (afterTickWt_waiting t _).2] at hw'
    rcases List.mem_or_eq_of_mem_set hw' with hw' | rfl
    · exact hunlost.extraWaiting w' hw'
    · exact ht.keepsPress.mpr (hunlost.extraWaiting w (List.mem_of_getElem? hw))
  | tickWaiting t =>
    exact hother (by simp [Passing.topic])
      (afterTickWt_waiting t { s with waiting := some t.waiting }).2
  | receive q => exact hother (by simp [Passing.topic]) (by rw [Passing.apply, Layout.pushQueue_eq])
  | queueChord qa =>
    exact hother (by simp [Passing.topic]) (by rw [Passing.apply, Layout.pushAction_eq])
  | takeEvent => exact hother (by simp [Passing.topic]) (by rw [Passing.apply, Layout.takeEvent_eq])
  | advanceSequence =>
    exact hother (by simp [Passing.topic]) (by rw [Passing.apply, Layout.advanceSequence_eq])
  | restartSequence events =>
    exact hother (by simp [Passing.topic]) (by rw [Passing.apply, Layout.startSequence_eq])
  | advanceCustom =>
    exact hother (by simp [Passing.topic]) (by rw [Passing.apply, Layout.processSequenceCustom_eq])
  | _ => exact hother (by simp [Passing.topic]) rfl

/-- Nor does a whole step. -/
theorem Advances.losesNothing (hadvances : Advances D s s' e) (h : LosesNothing s) :
    LosesNothing s' := by
  induction hadvances with
  | performs hperforms => exact hperforms.losesNothing h
  | pass u hu => exact Passing.losesNothing hu h
  | takes hqa hact hperforms =>
    exact hperforms.losesNothing (h.leaves (Layout.takeAction_trace _) (takeAction_leavesWaiting _))
  | merge h₁ h₂ ih₁ ih₂ =>
    exact (ih₂ (ih₁ h)).leaves (Layout.discard_trace _ _) (discard_leavesWaiting _ _)

end Kept

/-! ## Resolving is running -/

section Runs

variable {cfg : LayoutConfig C R T} {s s' : Layout T} {e : CustomEvent T}

/-- The state is resolved with the outcome, after what is recorded of the histories, and
the next thing that is performed is its action for that outcome. -/
def RunsOutcome (s s' : Layout T) (w : WaitingState T) (outcome : WaitingAction)
    (outcomeAction : Action T) : Prop :=
  ∃ excluded action found rest, About .history excluded ∧
    s'.trace = s.trace ++ excluded ++
      .waitingResolved w.id outcome :: .performed action w.coord found :: rest ∧
      (outcomeAction ≠ .trans → action = outcomeAction)

/-- Whichever way a waiting state is resolved, its action for that is run. -/
structure ResolvesByRunning (cfg : LayoutConfig C R T) (s : Layout T) : Prop where
  hold : ∀ idx w s' e, s.waitingAt idx = some w →
    Layout.waitingIntoHold (Layout.act cfg) cfg idx s = .ok (s', e) →
    RunsOutcome s s' w .hold w.hold
  tap : ∀ idx w pq s' e, s.waitingAt idx = some w →
    Layout.waitingIntoTap (Layout.act cfg) cfg pq idx s = .ok (s', e) →
    RunsOutcome s s' w .tap w.tap
  timeout : ∀ idx w s' e, s.waitingAt idx = some w →
    Layout.waitingIntoTimeout (Layout.act cfg) cfg idx s = .ok (s', e) →
    RunsOutcome s s' w .timeout w.timeoutAction

/-- What is noted when a state is resolved to hold or by its timeout. -/
theorem resolveSlowly_trace {w : WaitingState T} {outcome : WaitingAction} {idx : Option Nat}
    {r : Layout T × Nat} (h : s.resolveSlowly cfg w outcome idx = .ok r) :
    r.1.trace = s.trace ++ [.inputExcluded w.coord] ++ [.waitingResolved w.id outcome] := by
  unfold Layout.resolveSlowly at h
  rcases bind_eq_ok.mp h with ⟨delay, _, h⟩
  rw [pure_eq_ok] at h
  rw [← h]
  dsimp only
  split
  · show (Layout.takeWaiting _ w outcome idx).trace = _
    rw [Layout.takeWaiting_eq]
    rfl
  · rw [Layout.takeWaiting_eq]
    rfl

/-- The call for the outcome after the state was taken out. -/
theorem runsOutcome_of_act {s₁ : Layout T} {w : WaitingState T} {outcome : WaitingAction}
    {outcomeAction : Action T} {delay : Nat} {r : Layout T × CustomEvent T × Nat}
    {excluded : List (Occurrence T)} (habout : About .history excluded)
    (htrace : s₁.trace = s.trace ++ excluded ++ [.waitingResolved w.id outcome])
    (hs₁ : s₁.Obeys (Discipline.free cfg)) (hgrows : r.1.trace <+: s'.trace)
    (h : Layout.act cfg ⟨outcomeAction, w.coord, delay, false, w.layerStack⟩ 0 s₁ = .ok r) :
    RunsOutcome s s' w outcome outcomeAction := by
  rcases doAction_trace hs₁ h with ⟨call', found, rest, hcall', hrest⟩
  rcases hgrows with ⟨more, hmore⟩
  refine ⟨excluded, call'.action, found, rest ++ more, habout, ?_, (resolveTrans_coord hcall').2⟩
  rw [← hmore, hrest, htrace]
  simp

/-- Resolving is running, in every layout that a run reaches. -/
theorem resolvesByRunning (hs : s.Obeys (Discipline.free cfg)) : ResolvesByRunning cfg s where
  hold := by
    intro idx w s' e hw h
    unfold Layout.waitingIntoHold at h
    rw [hw] at h
    rcases bind_eq_ok.mp h with ⟨r₁, h₁, h⟩
    rcases bind_eq_ok.mp h with ⟨r₂, h₂, h⟩
    simp only [pure_eq_ok, Prod.mk.injEq] at h
    have hobeys := ((resolveSlowly_ensures (Discipline.free cfg) hw
      (Discipline.free cfg).resolves_hold).of_ok h₁).obeys hs
    have hpaused : r₁.1.pauseInputProcessing.Obeys (Discipline.free cfg) := { hobeys with }
    have htrace : r₁.1.pauseInputProcessing.trace =
        s.trace ++ [.inputExcluded w.coord] ++ [.waitingResolved w.id .hold] :=
      resolveSlowly_trace h₁
    refine runsOutcome_of_act (.cons rfl (.nil _)) htrace hpaused ?_ h₂
    exact h.1 ▸ List.prefix_rfl
  tap := by
    intro idx w pq s' e hw h
    unfold Layout.waitingIntoTap at h
    rw [hw] at h
    rcases bind_eq_ok.mp h with ⟨delay, _, h⟩
    rcases bind_eq_ok.mp h with ⟨r₂, h₂, h⟩
    rcases bind_eq_ok.mp h with ⟨s₃, h₃, h⟩
    simp only [pure_eq_ok, Prod.mk.injEq] at h
    have htaken := hs.takeWaiting w .tap idx
    have hcall : Call.Obeys (Discipline.free cfg) ⟨w.tap, w.coord, delay, false, w.layerStack⟩ :=
      ⟨trivial, fun _ _ => trivial⟩
    have hact := ((act_actsWithin (Discipline.free cfg)) _ 0 _ hcall htaken).of_ok h₂
    have hreplicated := (replicateForPressed_ensures (act_actsWithin (Discipline.free cfg))
      (hact.obeys htaken) (fun _ _ => trivial) (fun _ _ _ _ => trivial) delay (.refl r₂.1)).of_ok h₃
    have htrace : (s.takeWaiting w .tap idx).trace =
        s.trace ++ [] ++ [.waitingResolved w.id .tap] := by
      rw [Layout.takeWaiting_eq, List.append_nil]
    refine runsOutcome_of_act (.nil _) htrace htaken ?_ h₂
    rw [← h.1]
    exact hreplicated.trace_grows
  timeout := by
    intro idx w s' e hw h
    unfold Layout.waitingIntoTimeout at h
    rw [hw] at h
    rcases bind_eq_ok.mp h with ⟨r₁, h₁, h⟩
    rcases bind_eq_ok.mp h with ⟨r₂, h₂, h⟩
    simp only [pure_eq_ok, Prod.mk.injEq] at h
    have hobeys := ((resolveSlowly_ensures (Discipline.free cfg) hw trivial).of_ok h₁).obeys hs
    refine runsOutcome_of_act (.cons rfl (.nil _)) (resolveSlowly_trace h₁) hobeys ?_ h₂
    exact h.1 ▸ List.prefix_rfl

/-! ## Runs -/

/-- Every waiting state that was created is resolved once or still waits. -/
def KeptPending (s : Layout T) : Prop :=
  ∀ id < s.created, s.pendingIds.count id + s.resolvedIds.count id = 1

/-- In every run each number that was given out is found once. -/
theorem run_settled {delay : Nat} {ops : List LayoutOp} {os : List (CustomEvent T)}
    (h : run (Layout.step cfg) (.new delay) ops = .ok (s', os)) (id : Nat) :
    s'.pendingIds.count id + s'.resolvedIds.count id + s'.lostIds.count id =
      (List.range s'.created).count id := by
  have hrun := (@run_advances _ _ _ cfg delay ops s' os (fun _ s => Settled (.new delay) s)
    (.refl _) (fun _ _ _ _ hsettled hadv => hsettled.trans hadv.settled) h).2 id
  simpa [Layout.new, Layout.pendingIds, Layout.resolvedIds, Layout.lostIds] using hrun

/-- No waiting state is lost exactly when all are kept. -/
theorem keptPending_iff {delay : Nat} {ops : List LayoutOp} {os : List (CustomEvent T)}
    (h : run (Layout.step cfg) (.new delay) ops = .ok (s', os)) :
    KeptPending s' ↔ s'.lostIds = [] := by
  have hcount : ∀ id, (List.range s'.created).count id = if id < s'.created then 1 else 0 := by
    intro id
    by_cases hlt : id < s'.created
    · rw [if_pos hlt]
      exact List.count_eq_one_of_mem List.nodup_range (List.mem_range.mpr hlt)
    · rw [if_neg hlt]
      exact List.count_eq_zero.mpr fun hmem => hlt (List.mem_range.mp hmem)
  constructor
  · intro hkept
    rw [List.eq_nil_iff_forall_not_mem]
    intro id hmem
    -- a lost number would be counted twice
    have hpos := List.count_pos_iff.mpr hmem
    have hsettled := run_settled h id
    rw [hcount] at hsettled
    split at hsettled
    · rename_i hlt
      have hone := hkept id hlt
      omega
    · omega
  · intro hlost id hlt
    have hsettled := run_settled h id
    rw [hcount, if_pos hlt, hlost, List.count_nil] at hsettled
    omega

/-- In every run each waiting state is resolved once, by running its action, or still waits,
provided that every lazy tap-dance and chord that is performed finds nothing waiting, and every
hold-tap finds room behind what waits. -/
theorem pending_kept (cfg : LayoutConfig C R T) (delay : Nat) (ops : List LayoutOp)
    (s' : Layout T) (os : List (CustomEvent T))
    (h : run (Layout.step cfg) (.new delay) ops = .ok (s', os))
    (hwhere : Along (Layout.step cfg) (PerformsWhere cfg KeepsPending) (.new delay) ops) :
    KeptPending s' ∧ ResolvesByRunning cfg s' := by
  have hnew : LosesNothing (.new delay : Layout T) := fun _ => ⟨rfl, fun _ hw => by cases hw⟩
  have hrun := @run_advances _ _ _ cfg delay ops s' os (fun _ s => LosesNothing s) hnew
    (fun _ _ _ _ hlose hadv => hadv.losesNothing hlose) h
  have hunlost : Unlost s' := hrun.2 ((along_records_iff h).mp hwhere)
  exact ⟨(keptPending_iff h).mpr hunlost.lostIds, resolvesByRunning hrun.1⟩

end Runs

/-! ## A decision that is dropped -/

/-- A `switch` whose two cases are always true and are lazy tap-dances. -/
def twoTapDances : LayoutConfig 16 2 Nat :=
  oneLayer [.switch ⟨[⟨[], .tapDance ⟨[.custom 1, .custom 2], 200, .lazy⟩, .fallthrough⟩,
    ⟨[], .tapDance ⟨[.custom 3, .custom 4], 200, .lazy⟩, .break⟩], 0⟩]

/-- The first tap-dance is overwritten by the second before anything is decided. -/
theorem pending_kept_fails :
    ∃ s' os, run (Layout.step twoTapDances) (.new 0) [press 1, .tick] = .ok (s', os) ∧
      s'.created = 2 ∧ s'.pendingIds = [1] ∧ s'.resolvedIds = [] ∧ ¬ KeptPending s' := by
  have hends : endsWith (Layout.step twoTapDances)
      (fun s _ => decide (s.created = 2 ∧ s.pendingIds = [1] ∧ s.resolvedIds = [])) (.new 0)
      [press 1, .tick] = true := by
    decide
  rcases of_endsWith hends with ⟨s', os, hrun, hcheck⟩
  rcases of_decide_eq_true hcheck with ⟨hcreated, hpending, hresolved⟩
  refine ⟨s', os, hrun, hcreated, hpending, hresolved, ?_⟩
  intro hkept
  have hone := hkept 0 (by omega)
  rw [hpending, hresolved] at hone
  exact absurd hone (by decide)

/-- No hold-tap is performed, and nothing waits for what waits in any case. -/
def waitsAlone : Action Nat → Found Nat → Bool
  | .holdTap _, _ => false
  | action, found => decide (action.takesPlace = true → found.waiting = false)

/-- The check that is evaluated is enough for the condition. -/
theorem keepsPending_of_waitsAlone (action : Action Nat) (found : Found Nat)
    (h : waitsAlone action found = true) : KeepsPending action found := by
  cases action with
  | holdTap ht => cases h
  | _ =>
    unfold waitsAlone at h
    have hplace := of_decide_eq_true h
    exact hplace

/-- One lazy tap-dance. -/
def oneTapDance : LayoutConfig 16 2 Nat := oneLayer [.tapDance ⟨[.custom 1, .custom 2], 2, .lazy⟩]

/-- One tap-dance alone is kept, and decided after its timeout. -/
theorem pending_kept_single :
    ∃ s' os, run (Layout.step oneTapDance) (.new 0) [press 1, .tick, .tick, .tick] = .ok (s', os) ∧
      s'.resolvedIds = [0] ∧ KeptPending s' := by
  have hends : endsWith (Layout.step oneTapDance) (fun s _ => decide (s.resolvedIds = [0]))
      (.new 0) [press 1, .tick, .tick, .tick] = true := by
    decide
  have halong : Along (Layout.step oneTapDance)
      (PerformsWhere oneTapDance fun a f => waitsAlone a f = true) (.new 0)
      [press 1, .tick, .tick, .tick] := by
    decide
  rcases of_endsWith hends with ⟨s', os, hrun, hcheck⟩
  exact ⟨s', os, hrun, of_decide_eq_true hcheck, (pending_kept _ 0 _ s' os hrun
    (halong.mono fun _ _ => PerformsWhere.mono keepsPending_of_waitsAlone)).1⟩

end Kanata
