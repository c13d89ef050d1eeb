import Kanata.Layout.Heard

/-!
# Kanata.Layout.Customs — every custom event is accounted for

A custom action adds a state and hands a press to `tick`; a release removes the
state and hands a release to `tick` or to the queue of releases. The books
balance in every run when the events that the source drops are counted as well
(`run_booked`). So presses and releases match the states exactly as long as no
event is dropped, and `customs_accounted_fails` drops one: `rpt` performs the
remembered action and forgets its custom event.
-/

namespace Kanata

open Fallible Machine

variable {C R : Nat} {T : Type} [DecidableEq T]

/-! ## The books -/

namespace Occurrence

/-- A press of the value is to be handed over. -/
def presses (v : T) : Occurrence T → Bool
  | .customAdded v' _ => v' == v
  | .customRefused v' => v' == v
  | .sequencePressed v' => v' == v
  | _ => false

/-- A release of the value is to be handed over. -/
def releases (v : T) : Occurrence T → Bool
  | .customReleased v' => v' == v
  | .sequenceReleased v' => v' == v
  | _ => false

def discards (e : CustomEvent T) : Occurrence T → Bool
  | .customDiscarded e' => e' == e
  | _ => false

end Occurrence

namespace Layout

def pressed (s : Layout T) (v : T) : Nat := s.trace.countP (Occurrence.presses v)

def released (s : Layout T) (v : T) : Nat := s.trace.countP (Occurrence.releases v)

def discarded (s : Layout T) (e : CustomEvent T) : Nat := s.trace.countP (Occurrence.discards e)

/-- The releases that wait for a tick of their own. -/
def pendingReleases (s : Layout T) (v : T) : Nat := s.customEventReleaseQueue.items.count v

end Layout

/-- Between two layouts, what is to be handed over comes out, is dropped or waits
in the queue of releases. -/
structure Booked (v : T) (s s' : Layout T) (pressesOut releasesOut : Nat) : Prop where
  presses : s'.pressed v + s.discarded (.press v) =
    s.pressed v + s'.discarded (.press v) + pressesOut
  releases : s'.released v + s.discarded (.release v) + s.pendingReleases v =
    s.released v + s'.discarded (.release v) + s'.pendingReleases v + releasesOut

section Notes

variable {s : Layout T}

theorem topic_of_presses (v : T) (o : Occurrence T) (h : o.presses v = true) :
    o.topic = .custom := by
  cases o <;> first | rfl | cases h

theorem topic_of_releases (v : T) (o : Occurrence T) (h : o.releases v = true) :
    o.topic = .custom := by
  cases o <;> first | rfl | cases h

theorem topic_of_discards (e : CustomEvent T) (o : Occurrence T) (h : o.discards e = true) :
    o.topic = .custom := by
  cases o <;> first | rfl | cases h

/-- A part that is not about custom events and in which the queue of releases
stays. -/
theorem Booked.of_about (v : T) {s' : Layout T} {os : List (Occurrence T)} {topic : Topic}
    (htrace : s'.trace = s.trace ++ os) (hos : About topic os) (hne : topic ≠ .custom)
    (hqueue : s'.customEventReleaseQueue = s.customEventReleaseQueue) :
    Booked v s s' 0 0 := by
  have hpress := hos.countP hne (topic_of_presses v)
  have hrelease := hos.countP hne (topic_of_releases v)
  have hdiscard := fun e => hos.countP hne (topic_of_discards e)
  constructor
  · simp [Layout.pressed, Layout.discarded, htrace, hpress, hdiscard]
  · simp [Layout.released, Layout.discarded, Layout.pendingReleases, htrace, hqueue, hrelease,
      hdiscard]

omit [DecidableEq T] in
theorem Update.apply_releaseQueue {cfg : LayoutConfig C R T} (u : Update T) :
    (u.apply cfg s).customEventReleaseQueue = s.customEventReleaseQueue := by
  cases u with
  | pushHistoricalKey kc => rw [Update.apply, Layout.pushHistoricalKey_eq]
  | startSequence events => rw [Update.apply, Layout.startSequence_eq]
  | setDefaultLayer value => rw [Update.apply, Layout.setDefaultLayer_eq]
  | deferAction qa => rw [Update.apply, Layout.pushAction_eq]
  | setWaiting w => rw [Update.apply, Layout.setWaiting_eq]
  | pushExtraWaiting w => rw [Update.apply, Layout.pushExtraWaiting_eq]
  | takeWaiting w outcome idx => rw [Update.apply, Layout.takeWaiting_eq]
  | arrive event => rw [Update.apply, Layout.arrive_eq]
  | enqueue q => rw [Update.apply, Layout.enqueue_eq]
  | startTapDanceEager coord td => rw [Update.apply, Layout.startTapDanceEager_eq]
  | takePress call =>
    rw [Update.apply, Layout.notePressed, Layout.takePress_eq]
    rfl
  | _ => rfl

end Notes

/-! ## Releases -/

/-- What a pass over the states books: a removed state has its release. -/
structure RelBooked (v : T) (rel rel' : Released T) : Prop where
  releases : rel'.removed.count v + rel.queue.items.count v + [rel.custom].count (.release v) =
    rel.removed.count v + rel'.queue.items.count v + [rel'.custom].count (.release v)
  noPress : (∀ w, rel.custom ≠ .press w) → ∀ w, rel'.custom ≠ .press w

theorem RelBooked.trans {v : T} {rel rel' rel'' : Released T} (h : RelBooked v rel rel')
    (h' : RelBooked v rel' rel'') : RelBooked v rel rel'' := by
  constructor
  · have h₁ := h.releases
    have h₂ := h'.releases
    omega
  · exact fun hpress => h'.noPress (h.noPress hpress)

theorem release_booked (v : T) {c : KCoord} {rel rel' : Released T} {st : State T} {stays : Bool}
    (h : st.release c rel = .ok (stays, rel')) : RelBooked v rel rel' := by
  have hrefl : ∀ rel : Released T, RelBooked v rel rel := fun _ => ⟨rfl, fun h => h⟩
  cases st with
  | custom value coord =>
    unfold State.release at h
    dsimp only at h
    split at h
    · split at h
      · -- the first release comes out
        rename_i hcustom
        simp only [pure_eq_ok, Prod.mk.injEq] at h
        rw [← h.2, hcustom]
        constructor
        · by_cases heq : value = v
          · simp [hcustom, heq, CustomEvent.update]
            omega
          · simp [hcustom, heq, CustomEvent.update]
        · intro _ w
          simp [CustomEvent.update]
      · -- the others wait in the queue
        split at h
        · rename_i queue hpush
          simp only [pure_eq_ok, Prod.mk.injEq] at h
          have hnone : (rel.queue.pushBack value).2 = none := congrArg Prod.snd hpush
          have hitems := (Bounded.pushBack_of_lt (Bounded.pushBack_eq_none.mp hnone) value).1
          rw [hpush] at hitems
          have hitems : queue.items = rel.queue.items ++ [value] := hitems
          rw [← h.2]
          refine ⟨?_, fun h => h⟩
          simp only [hitems, List.count_append]
          omega
        · cases h
    · simp only [pure_eq_ok, Prod.mk.injEq] at h
      rw [← h.2]
      exact hrefl rel
  | _ =>
    simp only [State.release, pure_eq_ok, Prod.mk.injEq] at h
    rw [← h.2]
    exact hrefl rel

theorem retainStates_booked (v : T) {rule : State T → ReleaseRule} {c : KCoord} :
    ∀ {states states' : List (State T)} {rel rel' : Released T},
      retainStates rule c states rel = .ok (states', rel') → RelBooked v rel rel' := by
  intro states
  induction states with
  | nil =>
    intro states' rel rel' h
    simp only [retainStates, pure_eq_ok, Prod.mk.injEq] at h
    rw [← h.2]
    exact ⟨rfl, fun h => h⟩
  | cons st states ih =>
    intro states' rel rel' h
    unfold retainStates at h
    split at h
    · rcases bind_eq_ok.mp h with ⟨⟨rest, rel₁⟩, hrest, h⟩
      simp only [pure_eq_ok, Prod.mk.injEq] at h
      rw [← h.2]
      exact ih hrest
    · exact ih h
    · rcases bind_eq_ok.mp h with ⟨⟨stays, rel₁⟩, hrelease, h⟩
      rcases bind_eq_ok.mp h with ⟨⟨rest, rel₂⟩, hrest, h⟩
      simp only [pure_eq_ok, Prod.mk.injEq] at h
      rw [← h.2]
      exact (release_booked v hrelease).trans (ih hrest)

theorem dequeueRelease_booked (v : T) {s s' : Layout T} {c : KCoord} {e : CustomEvent T}
    (h : s.dequeueRelease c = .ok (s', e)) :
    Booked v s s' ([e].count (.press v)) ([e].count (.release v)) := by
  unfold Layout.dequeueRelease at h
  rcases hrel : s.oneshot.handleRelease c with ⟨oneshot, doRelease, overflowKey⟩
  rw [hrel] at h
  rcases bind_eq_ok.mp h with ⟨⟨states₁, rel₁⟩, h₁, h⟩
  rcases bind_eq_ok.mp h with ⟨⟨states₂, rel₂⟩, h₂, h⟩
  simp only [pure_eq_ok, Prod.mk.injEq] at h
  have hstart : ∀ w, (CustomEvent.noEvent : CustomEvent T) ≠ .press w := fun _ h => by cases h
  have hfirst := retainStates_booked v h₁
  have hboth : RelBooked v ⟨.noEvent, s.customEventReleaseQueue, []⟩ rel₂ := by
    unfold Layout.releaseOverflow at h₂
    split at h₂
    · exact hfirst.trans (retainStates_booked v h₂)
    · simp only [pure_eq_ok, Prod.mk.injEq] at h₂
      rw [← h₂.2]
      exact hfirst
  rcases h with ⟨rfl, rfl⟩
  have hreleases := hboth.releases
  have hnoPress : [rel₂.custom].count (.press v) = 0 := by
    rw [List.count_eq_zero]
    intro hmem
    exact hboth.noPress hstart v (List.mem_singleton.mp hmem).symm
  have hpresses :
      (rel₂.removed.map Occurrence.customReleased).countP (Occurrence.presses v) = 0 := by
    simp [List.countP_eq_zero, Occurrence.presses]
  have hdiscards : ∀ e : CustomEvent T,
      (rel₂.removed.map Occurrence.customReleased).countP (Occurrence.discards e) = 0 := fun e => by
    simp [List.countP_eq_zero, Occurrence.discards]
  have hremoved : (rel₂.removed.map Occurrence.customReleased).countP (Occurrence.releases v) =
      rel₂.removed.count v := by
    rw [List.countP_map]
    rfl
  constructor
  · simp [Layout.pressed, Layout.discarded, hpresses, hdiscards, hnoPress]
  · simp only [Layout.released, Layout.discarded, Layout.pendingReleases, List.countP_append,
      hdiscards, hremoved]
    simp at hreleases
    omega

/-! ## Steps -/

/-- Merging two events loses the one that is recorded as lost. -/
theorem count_update (e₁ e₂ x : CustomEvent T) (hx : x ≠ .noEvent) :
    [e₁].count x + [e₂].count x = [e₁.lost e₂].count x + [e₁.update e₂].count x := by
  have hnone : [CustomEvent.noEvent].count x = 0 := by
    rw [List.count_eq_zero]
    intro hmem
    exact hx (List.mem_singleton.mp hmem)
  cases e₁ <;> cases e₂ <;> simp only [CustomEvent.lost, CustomEvent.update, hnone] <;> omega

theorem discardNotes_count (e x : CustomEvent T) (hx : x ≠ .noEvent) :
    (Layout.discardNotes e).countP (Occurrence.discards x) = [e].count x := by
  cases e with
  | noEvent =>
    have hne : ¬ CustomEvent.noEvent = x := fun h => hx h.symm
    simp [Layout.discardNotes, hne]
  | press w =>
    simp [Layout.discardNotes, Occurrence.discards, List.count_singleton, List.countP_cons]
  | release w =>
    simp [Layout.discardNotes, Occurrence.discards, List.count_singleton, List.countP_cons]

omit [DecidableEq T] in
theorem discard_releaseQueue (s : Layout T) (e : CustomEvent T) :
    (s.discard e).customEventReleaseQueue = s.customEventReleaseQueue := by
  rw [Layout.discard_eq]

theorem Booked.trans {v : T} {s s₁ s₂ : Layout T} {p p' r r' : Nat} (h₁ : Booked v s s₁ p r)
    (h₂ : Booked v s₁ s₂ p' r') : Booked v s s₂ (p + p') (r + r') := by
  have hp₁ := h₁.presses
  have hp₂ := h₂.presses
  have hr₁ := h₁.releases
  have hr₂ := h₂.releases
  constructor <;> omega

/-- An event that is dropped does not come out. -/
theorem Booked.discard {v : T} {s s' : Layout T} {p r : Nat} (lost : CustomEvent T)
    (h : Booked v s s' (p + [lost].count (.press v)) (r + [lost].count (.release v))) :
    Booked v s (s'.discard lost) p r := by
  have hpressed : (Layout.discardNotes lost).countP (Occurrence.presses v) = 0 := by
    cases lost <;> simp [Layout.discardNotes, Occurrence.presses]
  have hreleased : (Layout.discardNotes lost).countP (Occurrence.releases v) = 0 := by
    cases lost <;> simp [Layout.discardNotes, Occurrence.releases]
  have hpress := discardNotes_count lost (.press v) (by simp)
  have hrelease := discardNotes_count lost (.release v) (by simp)
  have h₁ := h.presses
  have h₂ := h.releases
  constructor
  · simp only [Layout.pressed, Layout.discarded, Layout.discard_trace, List.countP_append] at *
    omega
  · simp only [Layout.released, Layout.discarded, Layout.pendingReleases, Layout.discard_trace,
      List.countP_append, discard_releaseQueue] at *
    omega

/-- The books of a part of a step out of which the event comes. -/
abbrev BookedOut (v : T) (s s' : Layout T) (e : CustomEvent T) : Prop :=
  Booked v s s' ([e].count (.press v)) ([e].count (.release v))

theorem BookedOut.merge {v : T} {s s₁ s₂ : Layout T} {e₁ e₂ : CustomEvent T}
    (h₁ : BookedOut v s s₁ e₁) (h₂ : BookedOut v s₁ s₂ e₂) :
    BookedOut v s (s₂.discard (e₁.lost e₂)) (e₁.update e₂) := by
  have hpress := count_update e₁ e₂ (.press v) (by simp)
  have hrelease := count_update e₁ e₂ (.release v) (by simp)
  have h := h₁.trans h₂
  rw [hpress, hrelease, Nat.add_comm _ ([e₁.update e₂].count _),
    Nat.add_comm _ ([e₁.update e₂].count _)] at h
  exact h.discard

theorem pushCustom_booked (v : T) (s : Layout T) (value : T) (coord : KCoord) :
    BookedOut v s (s.pushCustom value coord) (.press value) := by
  have htrace := pushCustom_trace s value coord
  have hqueue : (s.pushCustom value coord).customEventReleaseQueue = s.customEventReleaseQueue := by
    rw [Layout.pushCustom_eq]
  constructor
  · simp only [Layout.pressed, Layout.discarded, htrace, List.countP_append]
    by_cases heq : value = v
    · split <;> simp [Occurrence.presses, Occurrence.discards, heq] <;> omega
    · split <;> simp [Occurrence.presses, Occurrence.discards, heq]
  · simp only [Layout.released, Layout.discarded, Layout.pendingReleases, htrace, hqueue,
      List.countP_append]
    split <;> simp [Occurrence.releases, Occurrence.discards]

section Steps

variable {cfg : LayoutConfig C R T} {E : Panic → Prop} {D : Discipline cfg E} {s s' : Layout T}
  {e : CustomEvent T}

theorem Performs.booked (v : T) (h : Performs D s s' e) : BookedOut v s s' e := by
  induction h with
  | refl s => exact ⟨rfl, rfl⟩
  | @update s u hu =>
    have hne : u.topic ≠ .custom := by cases u <;> simp [Update.topic]
    exact .of_about v (u.apply_trace s) (u.notes_about s) hne u.apply_releaseQueue
  | custom s value coord => exact pushCustom_booked v s value coord
  | release h => exact dequeueRelease_booked v h
  | merge h₁ h₂ ih₁ ih₂ => exact ih₁.merge ih₂
  | @discard s s' e h ih =>
    have hzero : BookedOut v s s' e = Booked v s s' (0 + [e].count (.press v))
        (0 + [e].count (.release v)) := by simp
    rw [hzero] at ih
    exact ih.discard

omit [DecidableEq T] in
theorem Passing.apply_releaseQueue (u : Passing T) (hu : u ≠ .takeRelease) :
    (u.apply s).customEventReleaseQueue = s.customEventReleaseQueue := by
  cases u with
  | takeRelease => exact absurd rfl hu
  | receive q => rw [Passing.apply, Layout.pushQueue_eq]
  | queueChord qa => rw [Passing.apply, Layout.pushAction_eq]
  | takeEvent => rw [Passing.apply, Layout.takeEvent_eq]
  | advanceSequence => rw [Passing.apply, Layout.advanceSequence_eq]
  | restartSequence events => rw [Passing.apply, Layout.startSequence_eq]
  | tickWaiting t => rw [Passing.apply, Layout.afterTickWt_eq]
  | tickExtraWaiting i t =>
    rw [Passing.apply, Layout.afterTickWt_eq]
    rfl
  | loseWaiting => rw [Passing.apply, Layout.loseWaiting_eq]
  | advanceCustom => rw [Passing.apply, Layout.processSequenceCustom_eq]
  | _ => rfl

omit [DecidableEq T] in
/-- Only two parts of a step hand an event out themselves. -/
theorem Passing.output_noEvent (u : Passing T) (h₁ : u ≠ .takeRelease) (h₂ : u ≠ .advanceCustom) :
    u.output s = .noEvent := by
  cases u with
  | takeRelease => exact absurd rfl h₁
  | advanceCustom => exact absurd rfl h₂
  | _ => rfl

theorem Passing.booked (v : T) (u : Passing T) (hu : u.Allowed D s) :
    BookedOut v s (u.apply s) (u.output s) := by
  by_cases htake : u = .takeRelease
  · subst htake
    -- the release that comes out has waited in the queue
    have hne : s.customEventReleaseQueue.items ≠ [] := hu
    rcases hitems : s.customEventReleaseQueue.items with _ | ⟨w, ws⟩
    · exact absurd hitems hne
    · have hout : (Passing.takeRelease : Passing T).output s = .release w := by
        simp [Passing.output, hitems]
      rw [hout]
      constructor
      · simp [Layout.pressed, Layout.discarded, Passing.apply]
      · simp only [Layout.released, Layout.discarded, Layout.pendingReleases, Passing.apply,
          Bounded.popFront_snd_items, hitems, List.tail_cons, List.count_cons]
        by_cases heq : w = v
        · simp [heq]
          omega
        · simp [heq]
  · by_cases hcustom : u = .advanceCustom
    · subst hcustom
      have htrace := Passing.apply_trace s (.advanceCustom : Passing T)
      have hqueue := Passing.apply_releaseQueue (s := s) (.advanceCustom : Passing T) htake
      have hout : (Passing.advanceCustom : Passing T).output s =
        (s.processSequenceCustom .noEvent).2 :=
        rfl
      simp only [Passing.notes, ← hout] at htrace
      generalize (Passing.advanceCustom : Passing T).output s = e at htrace ⊢
      constructor
      · simp only [Layout.pressed, Layout.discarded, htrace, List.countP_append]
        cases e with
        | noEvent => simp [Layout.customNotes]
        | press w =>
          by_cases heq : w = v
          · simp [Layout.customNotes, Occurrence.presses, Occurrence.discards, heq]
            omega
          · simp [Layout.customNotes, Occurrence.presses, Occurrence.discards, heq]
        | release w => simp [Layout.customNotes, Occurrence.presses, Occurrence.discards]
      · simp only [Layout.released, Layout.discarded, Layout.pendingReleases, htrace, hqueue,
          List.countP_append]
        cases e with
        | noEvent => simp [Layout.customNotes]
        | press w => simp [Layout.customNotes, Occurrence.releases, Occurrence.discards]
        | release w =>
          by_cases heq : w = v
          · simp [Layout.customNotes, Occurrence.releases, Occurrence.discards, heq]
            omega
          · simp [Layout.customNotes, Occurrence.releases, Occurrence.discards, heq]
    · rw [u.output_noEvent htake hcustom]
      have hne : u.topic ≠ .custom := by
        cases u with
        | advanceCustom => exact absurd rfl hcustom
        | _ => simp [Passing.topic]
      exact .of_about v (u.apply_trace s) (u.notes_about s) hne (u.apply_releaseQueue htake)

theorem Advances.booked (v : T) (h : Advances D s s' e) : BookedOut v s s' e := by
  induction h with
  | performs h => exact h.booked v
  | pass u hu => exact u.booked v hu
  | @takes s s' e qa count hqa hact h =>
    have htaken : Booked v s s.takeAction 0 0 := by
      refine .of_about v s.takeAction_trace (.map (by intro _; rfl) _) (by simp) ?_
      rw [Layout.takeAction_eq]
    have hboth := htaken.trans (h.booked v)
    rwa [Nat.zero_add, Nat.zero_add] at hboth
  | merge h₁ h₂ ih₁ ih₂ => exact ih₁.merge ih₂

end Steps

/-! ## Runs -/

/-- What has come out of `tick` matches the states: one press for each custom
action that was performed, one release for each state that was removed, apart
from the releases that still wait for their tick. -/
def Accounted (os : List (CustomEvent T)) (s : Layout T) : Prop :=
  ∀ v, os.count (.press v) = s.pressed v ∧
    os.count (.release v) + s.pendingReleases v = s.released v

/-- The step throws no custom event away: its input does not, and each action that it performs
does not, given what it finds. -/
def KeepsCustoms (cfg : LayoutConfig C R T) (s : Layout T) (op : LayoutOp) : Prop :=
  op.KeepsCustom cfg s ∧ PerformsWhere cfg (KeepsCustom cfg) s op

section Runs

variable {cfg : LayoutConfig C R T}

/-- The books of a whole run. -/
theorem run_booked {delay : Nat} {ops : List LayoutOp} {s' : Layout T} {os : List (CustomEvent T)}
    (h : run (Layout.step cfg) (.new delay) ops = .ok (s', os)) (v : T) :
    Booked v (.new delay) s' (os.count (.press v)) (os.count (.release v)) := by
  refine (@run_advances _ _ _ cfg delay ops s' os (fun os s =>
    Booked v (.new delay) s (os.count (.press v)) (os.count (.release v))) ⟨rfl, rfl⟩ ?_ h).2
  intro os s s₁ e hbooked hadv
  rw [List.count_append, List.count_append]
  exact hbooked.trans (hadv.booked v)

omit [DecidableEq T] in
/-- In a run whose steps throw no custom event away, none is dropped. -/
theorem run_drops_nothing {delay : Nat} {ops : List LayoutOp} {s' : Layout T}
    {os : List (CustomEvent T)} (h : run (Layout.step cfg) (.new delay) ops = .ok (s', os))
    (hkeeps : Along (Layout.step cfg) (KeepsCustoms cfg) (.new delay) ops) :
    ∀ o ∈ s'.trace, o.isDropped = false := by
  refine @run_invariant _ _ _ _ (Layout.step cfg) (KeepsCustoms cfg)
    (fun s => ∀ o ∈ s.trace, o.isDropped = false) ?_ ops (.new delay) s' os
    (by simp [Layout.new]) hkeeps h
  rintro s op s₁ e hclean ⟨hop, hperforms⟩ hstep
  rcases step_heard hop hstep with ⟨added, htrace, hheard⟩
  have htrace : s₁.trace = s.trace ++ added := htrace
  unfold PerformsWhere RecordsOnly at hperforms
  rw [hstep] at hperforms
  dsimp only at hperforms
  rw [htrace, List.drop_left] at hperforms
  rw [htrace]
  intro o ho
  rcases List.mem_append.mp ho with ho | ho
  · exact hclean o ho
  · exact (hheard trivial hperforms).1 o ho

/-- No event of a clean trace is counted as dropped. -/
theorem discarded_of_clean {s : Layout T} (h : ∀ o ∈ s.trace, o.isDropped = false) (v : T) :
    s.discarded (.press v) = 0 ∧ s.discarded (.release v) = 0 := by
  constructor
  · rw [Layout.discarded, List.countP_eq_zero]
    intro o ho hdiscards
    have hkept := h o ho
    cases o with
    | customDiscarded e =>
      have heq : e = .press v := by simpa [Occurrence.discards] using hdiscards
      rw [heq] at hkept
      cases hkept
    | _ => cases hdiscards
  · rw [Layout.discarded, List.countP_eq_zero]
    intro o ho hdiscards
    have hkept := h o ho
    cases o with
    | customDiscarded e =>
      have heq : e = .release v := by simpa [Occurrence.discards] using hdiscards
      rw [heq] at hkept
      cases hkept
    | _ => cases hdiscards

/-- In every run whose steps throw no custom event away, presses and releases of custom actions
match the states exactly. -/
theorem customs_accounted (cfg : LayoutConfig C R T) (delay : Nat) (ops : List LayoutOp)
    (s' : Layout T) (os : List (CustomEvent T))
    (h : run (Layout.step cfg) (.new delay) ops = .ok (s', os))
    (hkeeps : Along (Layout.step cfg) (KeepsCustoms cfg) (.new delay) ops) :
    Accounted os s' := by
  have hclean := run_drops_nothing h hkeeps
  intro v
  have hpresses := (run_booked h v).presses
  have hreleases := (run_booked h v).releases
  have hdropped := discarded_of_clean hclean v
  simp only [Layout.pressed, Layout.released, Layout.discarded, Layout.pendingReleases, Layout.new,
    Bounded.empty_items, List.countP_nil, List.count_nil] at hpresses hreleases
  unfold Layout.pressed Layout.released Layout.pendingReleases
  unfold Layout.discarded at hdropped
  omega

end Runs

/-! ## A press that is swallowed -/

/-- A custom action, `rpt` and a key. -/
def customAndRepeat : LayoutConfig 16 2 Nat :=
  oneLayer [.custom 7, .repeat, .keyCode keyA]

/-- The custom key is tapped, then `rpt` is pressed. -/
def tapThenRepeat : List LayoutOp := [press 1, .tick, release 1, .tick, press 2, .tick]

/-- The state of the repeated custom action is added and its press is not handed
over. -/
theorem customs_accounted_fails :
    ∃ s' os, run (Layout.step customAndRepeat) (.new 0) tapThenRepeat = .ok (s', os) ∧
      os = [.noEvent, .press 7, .noEvent, .release 7, .noEvent, .noEvent] ∧
      s'.states.items = [.custom 7 (0, 2)] ∧ ¬ Accounted os s' := by
  have hends : endsWith (Layout.step customAndRepeat)
      (fun s os => decide (os = [.noEvent, .press 7, .noEvent, .release 7, .noEvent, .noEvent] ∧
        s.states.items = [.custom 7 (0, 2)] ∧ s.pressed 7 = 2)) (.new 0) tapThenRepeat = true := by
    decide
  rcases of_endsWith hends with ⟨s', os, hrun, hcheck⟩
  rcases of_decide_eq_true hcheck with ⟨hos, hstates, hpressed⟩
  refine ⟨s', os, hrun, hos, hstates, ?_⟩
  intro haccounted
  have hcount := (haccounted 7).1
  rw [hpressed, hos] at hcount
  exact absurd hcount (by decide)

/-- No one-shot key is performed, and `rpt` repeats at most a key. -/
def repeatsKeys : Action Nat → Found Nat → Bool
  | .oneShot _, _ => false
  | .repeat, found =>
    match found.rptAction with
    | none => true
    | some (.keyCode _) => true
    | some _ => false
  | _, _ => true

theorem keepsCustom_of_repeatsKeys (cfg : LayoutConfig 16 2 Nat) (action : Action Nat)
    (found : Found Nat) (h : repeatsKeys action found = true) : KeepsCustom cfg action found := by
  cases action with
  | oneShot os => cases h
  | «repeat» =>
    intro a ha
    have hrpt : found.rptAction = some a := ha
    simp only [repeatsKeys, hrpt] at h
    cases a with
    | keyCode kc => exact .leaf (fun _ heq => by cases heq) rfl
    | _ => cases h
  | _ => trivial

/-- A key is repeated, then the custom action is tapped: both its events come out. -/
theorem customs_accounted_tap :
    ∃ s' os, run (Layout.step customAndRepeat) (.new 0) (press 3 :: .tick :: press 2 :: .tick ::
        tapThenRepeat.take 4) = .ok (s', os) ∧
      os = [.noEvent, .noEvent, .noEvent, .noEvent, .noEvent, .press 7, .noEvent, .release 7] ∧
      Accounted os s' := by
  have hends : endsWith (Layout.step customAndRepeat) (fun _ os => decide (os =
      [.noEvent, .noEvent, .noEvent, .noEvent, .noEvent, .press 7, .noEvent, .release 7]))
      (.new 0) (press 3 :: .tick :: press 2 :: .tick :: tapThenRepeat.take 4) = true := by
    decide
  have halong : Along (Layout.step customAndRepeat) (fun s op => op.KeepsCustom customAndRepeat s ∧
      PerformsWhere customAndRepeat (fun a f => repeatsKeys a f = true) s op) (.new 0)
      (press 3 :: .tick :: press 2 :: .tick :: tapThenRepeat.take 4) := by
    decide
  rcases of_endsWith hends with ⟨s', os, hrun, hcheck⟩
  exact ⟨s', os, hrun, of_decide_eq_true hcheck, customs_accounted customAndRepeat 0 _ s' os hrun
    (halong.mono fun _ _ h =>
      ⟨h.1, PerformsWhere.mono (keepsCustom_of_repeatsKeys customAndRepeat) h.2⟩)⟩

end Kanata
