import Kanata.Layout.Trace

/-!
# Kanata.Layout.Composed — the actions inside an action

`multi` and `switch` perform their actions one after the other, at the coordinate
of the press. Only one custom action of an activation starts at once, the others
go into the action queue. `Serves` says how the queue is served: first in, first
out, one action in a tick, and no event is taken from the event queue as long as
an action is queued.

Both queues of actions hold `ACTION_QUEUE_LEN` actions and drop the oldest one
when they are full (`composed_actions_lost`).
-/

namespace Kanata

open Fallible Machine

variable {C R : Nat} {T : Type}

/-! ## The action queue -/

namespace Occurrence

/-- It tells something about the action queue. -/
def bears : Occurrence T → Bool
  | .actionQueued _ => true
  | .actionTaken _ => true
  | .actionLost _ => true
  | .eventTaken _ => true
  | _ => false

def isActionLost : Occurrence T → Bool
  | .actionLost _ => true
  | _ => false

end Occurrence

/-- No action is dropped. -/
def NoneLost (os : List (Occurrence T)) : Prop := ∀ o ∈ os, o.isActionLost = false

instance (os : List (Occurrence T)) : Decidable (NoneLost os) :=
  inferInstanceAs (Decidable (∀ o ∈ os, o.isActionLost = false))

/-- The first queue of actions becomes the second one. An action that is taken is
the oldest one and is performed at once, where it was queued for; an event is taken
only when no action is queued. -/
inductive Serves : List (QueuedAction T) → List (Occurrence T) → List (QueuedAction T) → Prop where
  | nil (queue : List (QueuedAction T)) : Serves queue [] queue
  | queued {queue queue' : List (QueuedAction T)} {os : List (Occurrence T)}
    (qa : QueuedAction T) (h : Serves (queue ++ [qa]) os queue') :
    Serves queue (.actionQueued qa :: os) queue'
  | taken {queue queue' : List (QueuedAction T)} {os : List (Occurrence T)}
    (qa : QueuedAction T) {action : Action T} {found : Found T}
    (haction : qa.action ≠ .trans → action = qa.action) (h : Serves queue os queue') :
    Serves (qa :: queue) (.actionTaken qa :: .performed action qa.coord found :: os) queue'
  | event {queue' : List (QueuedAction T)} {os : List (Occurrence T)} (q : Queued)
    (h : Serves [] os queue') : Serves [] (.eventTaken q :: os) queue'
  | other {queue queue' : List (QueuedAction T)} {o : Occurrence T} {os : List (Occurrence T)}
    (ho : o.bears = false) (h : Serves queue os queue') : Serves queue (o :: os) queue'

namespace Serves

variable {queue queue' queue'' : List (QueuedAction T)} {os os' : List (Occurrence T)}

theorem append (h : Serves queue os queue') (h' : Serves queue' os' queue'') :
    Serves queue (os ++ os') queue'' := by
  induction h with
  | nil queue => exact h'
  | queued qa h ih => exact .queued qa (ih h')
  | taken qa haction h ih => exact .taken qa haction (ih h')
  | event q h ih => exact .event q (ih h')
  | other ho h ih => exact .other ho (ih h')

/-- What tells nothing about the queue leaves it alone. -/
theorem others (queue : List (QueuedAction T)) :
    ∀ {os : List (Occurrence T)}, (∀ o ∈ os, o.bears = false) → Serves queue os queue := by
  intro os
  induction os with
  | nil =>
    intro _
    exact .nil queue
  | cons o os ih =>
    intro h
    exact .other (h o List.mem_cons_self) (ih fun o' ho' => h o' (List.mem_cons_of_mem _ ho'))

theorem of_about {topic : Topic} (hos : About topic os) (haction : topic ≠ .action)
    (hevent : topic ≠ .event) : Serves queue os queue := by
  refine others queue ?_
  intro o ho
  have htopic := hos o ho
  cases o <;> first | rfl | (simp_all [Occurrence.topic])

theorem of_performed {action : Action T} {c : KCoord} {found : Found T}
    (h : Serves queue (.performed action c found :: os) queue') : Serves queue os queue' := by
  cases h with
  | other ho h => exact h

end Serves

theorem NoneLost.left {os os' : List (Occurrence T)} (h : NoneLost (os ++ os')) : NoneLost os :=
  fun o ho => h o (List.mem_append_left _ ho)

theorem NoneLost.right {os os' : List (Occurrence T)} (h : NoneLost (os ++ os')) : NoneLost os' :=
  fun o ho => h o (List.mem_append_right _ ho)

theorem NoneLost.of_cons {o : Occurrence T} {os : List (Occurrence T)} (h : NoneLost (o :: os)) :
    NoneLost os :=
  fun o' ho' => h o' (List.mem_cons_of_mem _ ho')

/-- The queue between two layouts was served as it should, provided that it dropped
nothing. -/
def Served (s s' : Layout T) : Prop :=
  ∃ os, s'.trace = s.trace ++ os ∧
    (NoneLost os → Serves s.actionQueue.items os s'.actionQueue.items)

namespace Served

variable {s s₁ s₂ s' : Layout T}

theorem refl (s : Layout T) : Served s s := ⟨[], by simp, fun _ => .nil _⟩

theorem trans (h₁ : Served s s₁) (h₂ : Served s₁ s₂) : Served s s₂ := by
  rcases h₁ with ⟨os₁, htrace₁, hserves₁⟩
  rcases h₂ with ⟨os₂, htrace₂, hserves₂⟩
  refine ⟨os₁ ++ os₂, ?_, ?_⟩
  · rw [htrace₂, htrace₁, List.append_assoc]
  · intro hnone
    exact (hserves₁ hnone.left).append (hserves₂ hnone.right)

theorem of_about {os : List (Occurrence T)} {topic : Topic} (htrace : s'.trace = s.trace ++ os)
    (hos : About topic os) (haction : topic ≠ .action) (hevent : topic ≠ .event)
    (hqueue : s'.actionQueue = s.actionQueue) : Served s s' := by
  refine ⟨os, htrace, ?_⟩
  intro _
  rw [hqueue]
  exact .of_about hos haction hevent

theorem discard (s : Layout T) (e : CustomEvent T) : Served s (s.discard e) := by
  have habout : About .custom (Layout.discardNotes e) := by
    unfold Layout.discardNotes
    split
    · exact .nil _
    · exact .cons rfl (.nil _)
  refine .of_about (Layout.discard_trace s e) habout (by simp) (by simp) ?_
  rw [Layout.discard_eq]

end Served

section Parts

variable {cfg : LayoutConfig C R T} {E : Panic → Prop} {D : Discipline cfg E} {s s' : Layout T}
  {e : CustomEvent T}

/-- A push that drops nothing is at the end of the queue. -/
theorem pushBack_of_noneLost {queue : Bounded actionQueueLen (QueuedAction T)}
    {qa : QueuedAction T} (h : NoneLost (Layout.actionNotes queue qa)) :
    (queue.pushBack qa).2 = none ∧ (queue.pushBack qa).1.items = queue.items ++ [qa] := by
  cases hlost : (queue.pushBack qa).2 with
  | none =>
    have happend := Bounded.pushBack_append queue qa
    rw [hlost] at happend
    exact ⟨rfl, happend⟩
  | some lost =>
    have hmem : Occurrence.actionLost lost ∈ Layout.actionNotes queue qa := by
      simp [Layout.actionNotes, lostNotes, hlost]
    cases h _ hmem

theorem actionNotes_serve {queue : Bounded actionQueueLen (QueuedAction T)} {qa : QueuedAction T}
    (h : NoneLost (Layout.actionNotes queue qa)) :
    Serves queue.items (Layout.actionNotes queue qa) (queue.pushBack qa).1.items := by
  rcases pushBack_of_noneLost h with ⟨hnone, hitems⟩
  rw [hitems]
  unfold Layout.actionNotes lostNotes
  rw [hnone]
  exact .queued qa (.nil _)

theorem pushAction_served (s : Layout T) (qa : QueuedAction T) : Served s (s.pushAction qa) := by
  refine ⟨_, Layout.pushAction_trace s qa, ?_⟩
  intro hnone
  rw [Layout.pushAction_actionQueue]
  exact actionNotes_serve hnone

theorem pushActions_served : ∀ (qas : List (QueuedAction T)) (s : Layout T),
    Served s (qas.foldl Layout.pushAction s) := by
  intro qas
  induction qas with
  | nil => exact fun s => .refl s
  | cons qa qas ih =>
    intro s
    exact (pushAction_served s qa).trans (ih _)

/-- Updates other than a push leave the action queue alone. -/
theorem Update.apply_actionQueue {u : Update T} (hu : u.topic ≠ .action) :
    (u.apply cfg s).actionQueue = s.actionQueue := by
  cases u with
  | pushHistoricalKey kc => rw [Update.apply, Layout.pushHistoricalKey_eq]
  | startSequence events => rw [Update.apply, Layout.startSequence_eq]
  | setDefaultLayer value => rw [Update.apply, Layout.setDefaultLayer_eq]
  | deferAction qa => exact absurd rfl hu
  | setWaiting w => rw [Update.apply, Layout.setWaiting_eq]
  | pushExtraWaiting w => rw [Update.apply, Layout.pushExtraWaiting_eq]
  | takeWaiting w outcome idx => rw [Update.apply, Layout.takeWaiting_eq]
  | arrive event => rw [Update.apply, Layout.arrive_eq]
  | enqueue q => rw [Update.apply, Layout.enqueue_eq]
  | startTapDanceEager coord td => rw [Update.apply, Layout.startTapDanceEager_eq]
  | takePress call =>
    show (s.takePress call.coord).actionQueue = s.actionQueue
    rw [Layout.takePress_eq]
  | _ => rfl

theorem Update.served (s : Layout T) (u : Update T) : Served s (u.apply cfg s) := by
  by_cases haction : u.topic = .action
  · cases u with
    | deferAction qa => exact pushAction_served s qa
    | loseAction qa =>
      -- an action that a switch drops is lost
      refine ⟨[.actionLost qa], rfl, ?_⟩
      intro hnone
      cases hnone (.actionLost qa) List.mem_cons_self
    | _ => cases haction
  · by_cases hevent : u.topic = .event
    · cases u with
      | process q => exact ⟨[.eventProcessed q], rfl, fun _ => .other rfl (.nil _)⟩
      | _ => cases hevent
    · exact .of_about (u.apply_trace s) (u.notes_about s) haction hevent
        (Update.apply_actionQueue haction)

theorem pushCustom_served (s : Layout T) (value : T) (coord : KCoord) :
    Served s (s.pushCustom value coord) := by
  have habout : About .custom [if s.states.isFull then (.customRefused value : Occurrence T)
      else .customAdded value coord] := by
    refine .cons ?_ (.nil _)
    split <;> rfl
  refine .of_about (pushCustom_trace s value coord) habout (by simp) (by simp) ?_
  rw [Layout.pushCustom_eq]

theorem dequeueRelease_served {c : KCoord} (h : s.dequeueRelease c = .ok (s', e)) :
    Served s s' := by
  rcases dequeueRelease_eq_ok h with ⟨states, rel, _, _, rfl⟩
  have habout : About .custom (rel.removed.map (Occurrence.customReleased (T := T))) :=
    .map (by intro _; rfl) _
  exact .of_about rfl habout (by simp) (by simp) rfl

theorem Performs.served (h : Performs D s s' e) : Served s s' := by
  induction h with
  | refl s => exact .refl s
  | update u hu => exact Update.served _ u
  | custom s value coord => exact pushCustom_served s value coord
  | release h => exact dequeueRelease_served h
  | merge h₁ h₂ ih₁ ih₂ => exact (ih₁.trans ih₂).trans (.discard _ _)
  | discard h ih => exact ih.trans (.discard _ _)

/-- What passes in a step and records nothing leaves the action queue alone. -/
theorem Served.silent (htrace : s'.trace = s.trace) (hqueue : s'.actionQueue = s.actionQueue) :
    Served s s' := by
  refine ⟨[], by rw [htrace, List.append_nil], ?_⟩
  intro _
  rw [hqueue]
  exact .nil _

theorem Passing.served {u : Passing T} (hu : u.Allowed D s) : Served s (u.apply s) := by
  cases u with
  | queueChord qa => exact pushAction_served s qa
  | tickWaiting t =>
    exact pushActions_served t.actions ({ s with waiting := _, queue := t.queued }.noteWait _)
  | tickExtraWaiting i t =>
    exact pushActions_served t.actions
      ({ s.setExtraWaiting i t.waiting with queue := t.queued }.noteWait _)
  | takeEvent =>
    -- no action is queued when an event is taken
    have hempty : s.actionQueue.items = [] := hu
    refine ⟨_, Passing.apply_trace s .takeEvent, ?_⟩
    intro _
    show Serves _ (s.queue.items.head?.toList.map .eventTaken) s.takeEvent.actionQueue.items
    rw [Layout.takeEvent_eq, hempty]
    cases s.queue.items.head? with
    | none => exact .nil _
    | some q => exact .event q (.nil _)
  | receive q =>
    refine ⟨_, Passing.apply_trace s (.receive q), ?_⟩
    intro _
    rw [Passing.apply, Layout.pushQueue_eq]
    refine .others _ ?_
    intro o ho
    rcases List.mem_map.mp ho with ⟨lost, _, rfl⟩
    rfl
  | restartSequence events =>
    refine .of_about (Passing.apply_trace s _) (Passing.notes_about s _) (by simp [Passing.topic])
      (by simp [Passing.topic]) ?_
    rw [Passing.apply, Layout.startSequence_eq]
  | loseWaiting =>
    refine .of_about (Passing.apply_trace s _) (Passing.notes_about s _) (by simp [Passing.topic])
      (by simp [Passing.topic]) ?_
    rw [Passing.apply, Layout.loseWaiting_eq]
  | advanceCustom =>
    refine .of_about (Passing.apply_trace s _) (Passing.notes_about s _) (by simp [Passing.topic])
      (by simp [Passing.topic]) ?_
    rw [Passing.apply, Layout.processSequenceCustom_eq]
  | advanceSequence =>
    refine .of_about (Passing.apply_trace s _) (Passing.notes_about s _) (by simp [Passing.topic])
      (by simp [Passing.topic]) ?_
    rw [Passing.apply, Layout.advanceSequence_eq]
  | ageInputs =>
    exact .of_about (Passing.apply_trace s _) (Passing.notes_about s _) (by simp [Passing.topic])
      (by simp [Passing.topic]) rfl
  | ageHistories =>
    exact .of_about (Passing.apply_trace s _) (Passing.notes_about s _) (by simp [Passing.topic])
      (by simp [Passing.topic]) rfl
  | _ => exact .silent rfl rfl

end Parts

/-! ## Runs -/

section Runs

variable {cfg : LayoutConfig C R T} {s s' : Layout T} {e : CustomEvent T}

/-- An action that is taken from the queue is performed at once. -/
theorem takes_served {qa : QueuedAction T} {count : Nat} (hs : s.Obeys (Discipline.free cfg))
    (hqa : s.actionQueue.items.head? = some qa)
    (hact : Layout.act cfg ⟨qa.action, qa.coord, qa.delay, false, qa.layerStack⟩ 0 s.takeAction =
      .ok (s', e, count))
    (h : Performs (Discipline.free cfg) s.takeAction s' e) : Served s s' := by
  rcases h.served with ⟨os, htrace, hserves⟩
  rcases doAction_trace hs.takeAction hact with ⟨call', found, rest, hcall', hfirst⟩
  have hos : os = .performed call'.action qa.coord found :: rest :=
    List.append_cancel_left (htrace.symm.trans hfirst)
  rcases List.head?_eq_some_iff.mp hqa with ⟨tail, hitems⟩
  have htaken : s.takeAction.trace = s.trace ++ [.actionTaken qa] := by
    rw [Layout.takeAction_trace, hqa]
    rfl
  have htail : s.takeAction.actionQueue.items = tail := by
    rw [Layout.takeAction_eq, Bounded.popFront_snd_items, hitems]
    rfl
  refine ⟨.actionTaken qa :: os, ?_, ?_⟩
  · rw [htrace, htaken, List.append_assoc]
    rfl
  · intro hnone
    have hserved := hserves hnone.of_cons
    rw [htail, hos] at hserved
    rw [hitems, hos]
    exact .taken qa (resolveTrans_coord hcall').2 hserved.of_performed

theorem Advances.served (hs : s.Obeys (Discipline.free cfg))
    (h : Advances (Discipline.free cfg) s s' e) : Served s s' := by
  induction h with
  | performs h => exact h.served
  | pass u hu => exact Passing.served hu
  | takes hqa hact h => exact takes_served hs hqa hact h
  | merge h₁ h₂ ih₁ ih₂ => exact ((ih₁ hs).trans (ih₂ (h₁.obeys hs))).trans (.discard _ _)

/-- In a run that drops no action the action queue is served as it should. -/
theorem run_serves {delay : Nat} {ops : List LayoutOp} {os : List (CustomEvent T)}
    (h : run (Layout.step cfg) (.new delay) ops = .ok (s, os)) (hnone : NoneLost s.trace) :
    Serves [] s.trace s.actionQueue.items := by
  have hinv : s.Obeys (Discipline.free cfg) ∧
      (NoneLost s.trace → Serves [] s.trace s.actionQueue.items) := by
    refine @run_within _ _ _ cfg _ _ (fun _ => trivial) trivial (fun _ => trivial) delay ops s os
      (fun _ s => NoneLost s.trace → Serves [] s.trace s.actionQueue.items) ?_ ?_ h
    · intro _
      exact .nil []
    · intro _ s s' e hs hserves hadvances hnone
      rcases hadvances.served hs with ⟨notes, htrace, hstep⟩
      rw [htrace] at hnone ⊢
      exact (hserves hnone.left).append (hstep hnone.right)
  exact hinv.2 hnone

theorem pushQueues_actionQueue :
    ∀ (qs : List Queued) (s : Layout T),
      (qs.foldl Layout.pushQueue s).actionQueue = s.actionQueue := by
  intro qs
  induction qs with
  | nil => exact fun _ => rfl
  | cons q qs ih =>
    intro s
    rw [List.foldl_cons, ih, Layout.pushQueue_eq]

/-- Chords v2 queue their action behind the others. -/
theorem tickChordsV2_head {qa : QueuedAction T} (h : s.tickChordsV2 cfg = .ok s')
    (hnone : NoneLost s'.trace) (hqa : s.actionQueue.items.head? = some qa) :
    s'.actionQueue.items.head? = some qa := by
  unfold Layout.tickChordsV2 at h
  split at h
  · rw [pure_eq_ok] at h
    rw [← h]
    exact hqa
  · rcases bind_eq_ok.mp h with ⟨⟨chordsV2, drained⟩, _, h⟩
    rw [pure_eq_ok] at h
    rw [← h] at hnone ⊢
    have hsame : (drained.items.foldl Layout.pushQueue
        { s with chordsV2 := chordsV2.getActionChv2.1 }).actionQueue = s.actionQueue :=
      pushQueues_actionQueue _ _
    split
    · rename_i coord delay action haction
      rw [haction] at hnone
      have hpushed := Layout.pushAction_trace (drained.items.foldl Layout.pushQueue
        { s with chordsV2 := chordsV2.getActionChv2.1 }) ⟨coord, delay, action, []⟩
      have hnotes : NoneLost (Layout.actionNotes s.actionQueue ⟨coord, delay, action, []⟩) := by
        rw [← hsame]
        intro o ho
        refine hnone o ?_
        show o ∈ (Layout.pushAction _ _).trace
        rw [hpushed]
        exact List.mem_append_right _ ho
      show (Layout.pushAction _ _).actionQueue.items.head? = some qa
      rw [Layout.pushAction_actionQueue, hsame, (pushBack_of_noneLost hnotes).2,
        List.head?_append, hqa]
      rfl
    · rw [hsame]
      exact hqa

/-- A tick that has no release to hand out takes the oldest action. -/
theorem tick_takes {qa : QueuedAction T} (hs : s.Obeys (Discipline.free cfg))
    (hrelease : s.customEventReleaseQueue.items = []) (hqa : s.actionQueue.items.head? = some qa)
    (h : s.tick cfg = .ok (s', e)) (hnone : NoneLost s'.trace) :
    ∃ before after, s'.trace = s.trace ++ before ++ .actionTaken qa :: after := by
  unfold Layout.tick at h
  split at h
  · rename_i released _ hpop
    have hhead : s.customEventReleaseQueue.items.head? = some released := congrArg Prod.fst hpop
    rw [hrelease] at hhead
    cases hhead
  · rcases bind_eq_ok.mp h with ⟨s₁, hchords, h⟩
    have hadvances := ((tickChordsV2_ensures hs).of_ok hchords).advances
    rcases hadvances.trace_grows with ⟨before, hbefore⟩
    have hs₁ : ({ s₁ with keysToSuppressForOneCycle := .empty } : Layout T).Obeys
        (Discipline.free cfg) := { hadvances.obeys hs with }
    dsimp only at h
    split at h
    · rename_i qa' actionQueue hpop
      rcases bind_eq_ok.mp h with ⟨⟨s₂, custom, count⟩, hact, h⟩
      simp only [pure_eq_ok, Prod.mk.injEq] at h
      rw [← h.1] at hnone ⊢
      have hobeys : ({ s₁ with
          keysToSuppressForOneCycle := .empty
          actionQueue := actionQueue }.note (.actionTaken qa')).Obeys (Discipline.free cfg) := by
        have htaken := hs₁.takeAction
        unfold Layout.takeAction at htaken
        rwa [hpop] at htaken
      rcases doAction_trace hobeys hact with ⟨call', found, after, _, htrace⟩
      have htrace : s₂.trace = s.trace ++ before ++
          .actionTaken qa' :: .performed call'.action qa'.coord found :: after := by
        rw [htrace, hbefore]
        simp
      have hnone₁ : NoneLost s₁.trace := by
        rw [htrace] at hnone
        rw [← hbefore]
        exact hnone.left
      have hsame : s₁.actionQueue.items.head? = some qa' := congrArg Prod.fst hpop
      rw [tickChordsV2_head hchords hnone₁ hqa] at hsame
      cases hsame
      exact ⟨before, _, htrace⟩
    · rename_i hpop
      -- the oldest action is still there, so the queue is not empty
      have hhead : s₁.actionQueue.items.head? = none := congrArg Prod.fst hpop
      have hempty : s₁.actionQueue.items = [] := List.head?_eq_none_iff.mp hhead
      have hmain := (tickMain_ensures (fun _ => trivial) hs₁ hempty).of_ok h
      rcases hmain.trace_grows with ⟨after, hafter⟩
      have hnone₁ : NoneLost s₁.trace := by
        rw [← hafter] at hnone
        exact hnone.left
      rw [tickChordsV2_head hchords hnone₁ hqa] at hhead
      cases hhead

end Runs

/-! ## The actions of a multi and of a switch -/

/-- The actions are performed one after the other, each by one call of `act` that is
`call` but for its action, and this is what is recorded. -/
inductive InTurn (act : DoAction T) (call : Call T) :
    List (Action T) → Layout T → Layout T → List (Occurrence T) → Prop where
  | nil (s : Layout T) : InTurn act call [] s s []
  | cons {action action' : Action T} {actions : List (Action T)} {s s₁ s' : Layout T}
    {e lost : CustomEvent T} {count count' : Nat} {found : Found T}
    {inside os : List (Occurrence T)}
    (hact : act { call with action } count s = .ok (s₁, e, count'))
    (haction : action ≠ .trans → action' = action)
    (htrace : s₁.trace = s.trace ++ .performed action' call.coord found :: inside)
    (hrest : InTurn act call actions (s₁.discard lost) s' os) :
    InTurn act call (action :: actions) s s'
      (.performed action' call.coord found :: inside ++ Layout.discardNotes lost ++ os)

/-- The cases of a switch that activate: those that are true, up to and including
the first one that breaks. -/
def activeCases (isTrue : SwitchCase (Action T) → Bool) (cases : List (SwitchCase (Action T))) :
    List (SwitchCase (Action T)) :=
  let trueCases := cases.filter isTrue
  let falls := fun case : SwitchCase (Action T) => case.breakOrFallthrough == .fallthrough
  trueCases.takeWhile falls ++ (trueCases.dropWhile falls).take 1

/-- The case is true. -/
def SwitchCase.isTrue (env : Switch.SwitchEnv) (case : SwitchCase (Action T)) : Bool :=
  match Switch.evaluateBoolean case.boolExpr env with
  | .ok b => b
  | .error _ => false

/-- How the actions inside an action are performed. -/
structure PerformsParts (cfg : LayoutConfig C R T) (act : DoAction T) (call : Call T) (count : Nat)
    (s s' : Layout T) : Prop where
  multi : ∀ actions, call.action = .multipleActions actions →
    ∃ s₁ os, InTurn act call actions (s.updateCoord call.coord) s₁ os ∧
      s₁.trace = s.trace ++ os ∧ s' = s₁.setRptAction call.action
  switch : ∀ sw env, call.action = .switch sw → s.switchEnv cfg sw.callbacks = .ok env →
    (activeCases (SwitchCase.isTrue env) sw.cases).length ≤ actionQueueLen →
    ∃ s₁ os, InTurn act call ((activeCases (SwitchCase.isTrue env) sw.cases).map (·.action))
        { s with activations := s.activations + 1 } s₁ os ∧
      s₁.trace = s.trace ++ os ∧ s' = s₁.setRptAction call.action
  /-- The first custom action starts at once, the next ones are queued. -/
  custom : ∀ value, call.action = .custom value →
    s'.trace = s.trace ++ .remembered call.action ::
      if count = 0 then
        [if s.states.isFull then .customRefused value else .customAdded value call.coord]
      else
        Layout.actionNotes s.actionQueue ⟨call.coord, call.delay, call.action, call.layerStack⟩

section Composed

variable {cfg : LayoutConfig C R T} {s s' : Layout T} {e : CustomEvent T} {call : Call T}
  {count : Nat}

theorem InTurn.trace {act : DoAction T} {actions : List (Action T)} {os : List (Occurrence T)}
    (h : InTurn act call actions s s' os) : s'.trace = s.trace ++ os := by
  induction h with
  | nil s => simp
  | cons hact haction htrace hrest ih =>
    rw [ih, Layout.discard_trace, htrace]
    simp

/-- `actAll` performs the actions in turn. -/
theorem actAll_inTurn {depth : Nat} :
    ∀ {actions : List (Action T)} {custom : CustomEvent T} {count : Nat} {s : Layout T}
      {r : Layout T × CustomEvent T × Nat}, s.Obeys (Discipline.free cfg) →
      Layout.actAll (Layout.doAction cfg depth) call actions custom count s = .ok r →
      ∃ os, InTurn (Layout.doAction cfg depth) call actions s r.1 os := by
  intro actions
  induction actions with
  | nil =>
    intro custom count s r _ h
    simp only [Layout.actAll, pure_eq_ok] at h
    rw [← h]
    exact ⟨[], .nil s⟩
  | cons action actions ih =>
    intro custom count s r hs h
    unfold Layout.actAll at h
    rcases bind_eq_ok.mp h with ⟨⟨s₁, e, count'⟩, hact, h⟩
    rcases doAction_trace hs hact with ⟨call', found, inside, hcall', htrace⟩
    have hperforms := (doAction_actsWithin (Discipline.free cfg) depth { call with action } count s
      ⟨trivial, fun _ _ => trivial⟩ hs).of_ok hact
    have hobeys : (s₁.discard (custom.lost e)).Obeys (Discipline.free cfg) :=
      (hperforms.obeys hs).discard _
    rcases ih hobeys h with ⟨os, hrest⟩
    exact ⟨_, .cons hact (resolveTrans_coord hcall').2 htrace hrest⟩

theorem activeCases_cons_false {isTrue : SwitchCase (Action T) → Bool}
    {case : SwitchCase (Action T)} {cases : List (SwitchCase (Action T))}
    (h : isTrue case = false) : activeCases isTrue (case :: cases) = activeCases isTrue cases := by
  simp [activeCases, h]

theorem activeCases_cons_break {isTrue : SwitchCase (Action T) → Bool}
    {case : SwitchCase (Action T)} {cases : List (SwitchCase (Action T))}
    (h : isTrue case = true) (hbreak : case.breakOrFallthrough = .break) :
    activeCases isTrue (case :: cases) = [case] := by
  simp [activeCases, h, hbreak]

theorem activeCases_cons_fallthrough {isTrue : SwitchCase (Action T) → Bool}
    {case : SwitchCase (Action T)} {cases : List (SwitchCase (Action T))}
    (h : isTrue case = true) (hfalls : case.breakOrFallthrough = .fallthrough) :
    activeCases isTrue (case :: cases) = case :: activeCases isTrue cases := by
  simp [activeCases, h, hfalls]

/-- `Switch::actions` gives the actions of the active cases. -/
theorem switchActions_eq {env : Switch.SwitchEnv} :
    ∀ {cases : List (SwitchCase (Action T))} {actions : List (Action T)},
      Layout.switchActions env cases = .ok actions →
      actions = (activeCases (SwitchCase.isTrue env) cases).map (·.action) := by
  intro cases
  induction cases with
  | nil =>
    intro actions h
    simp only [Layout.switchActions, pure_eq_ok] at h
    rw [← h]
    rfl
  | cons case cases ih =>
    intro actions h
    unfold Layout.switchActions at h
    rcases bind_eq_ok.mp h with ⟨b, hb, h⟩
    have htrue : case.isTrue env = b := by
      unfold SwitchCase.isTrue
      rw [hb]
    cases b with
    | false =>
      rw [activeCases_cons_false htrue]
      exact ih h
    | true =>
      simp only [if_true] at h
      cases hkind : case.breakOrFallthrough with
      | «break» =>
        rw [hkind, pure_eq_ok] at h
        rw [activeCases_cons_break htrue hkind, ← h]
        rfl
      | «fallthrough» =>
        rw [hkind] at h
        rcases bind_eq_ok.mp h with ⟨rest, hrest, h⟩
        rw [pure_eq_ok] at h
        rw [activeCases_cons_fallthrough htrue hkind, ← h, ih hrest]
        rfl

/-- The queue of a switch has room for as many actions as it holds. -/
theorem fillSwitchQueue_eq :
    ∀ {actions : List (Action T)} {queue : Bounded actionQueueLen (Action T)} {s : Layout T},
      queue.items.length + actions.length ≤ actionQueueLen →
      (Layout.fillSwitchQueue call actions queue s).1.items = queue.items ++ actions ∧
        (Layout.fillSwitchQueue call actions queue s).2 = s := by
  intro actions
  induction actions with
  | nil =>
    intro queue s _
    simp [Layout.fillSwitchQueue]
  | cons action actions ih =>
    intro queue s hroom
    rw [List.length_cons] at hroom
    have hlt : queue.items.length < actionQueueLen := by omega
    rcases Bounded.pushBack_of_lt hlt action with ⟨hitems, hnone⟩
    have hpushed : queue.pushBack action = ((queue.pushBack action).1, none) :=
      Prod.ext rfl hnone
    unfold Layout.fillSwitchQueue
    rw [hpushed]
    have hroom' : (queue.pushBack action).1.items.length + actions.length ≤ actionQueueLen := by
      rw [hitems, List.length_append, List.length_singleton]
      omega
    rcases @ih (queue.pushBack action).1 s hroom' with ⟨hqueue, hsame⟩
    rw [hitems] at hqueue
    refine ⟨?_, hsame⟩
    simpa using hqueue

theorem doCustom_trace (s : Layout T) (call : Call T) (value : T) (count : Nat) :
    (s.doCustom call value count).1.trace = s.trace ++ .remembered call.action ::
      if count = 0 then
        [if s.states.isFull then .customRefused value else .customAdded value call.coord]
      else
        Layout.actionNotes s.actionQueue
          ⟨call.coord, call.delay, call.action, call.layerStack⟩ := by
  have hpressed : ∃ oneshot, (s.updateCoord call.coord).pressOther call.isOneshot call.coord =
      { s with lastPressTracker := s.lastPressTracker.updateCoord call.coord, oneshot } := by
    unfold Layout.pressOther
    split
    · exact ⟨s.oneshot, rfl⟩
    · exact ⟨_, rfl⟩
  rcases hpressed with ⟨oneshot, hpressed⟩
  unfold Layout.doCustom
  rw [hpressed]
  dsimp only
  by_cases hzero : count = 0
  · rw [if_pos (by omega), if_pos hzero]
    dsimp only
    rw [pushCustom_trace]
    exact List.append_assoc _ _ _
  · rw [if_neg (by omega), if_neg hzero]
    dsimp only
    rw [Layout.pushAction_trace]
    exact List.append_assoc _ _ _

/-- The `match` of `do_action` performs the actions of a multi or a switch in turn,
and queues a custom action that is not the first. -/
theorem perform_parts {depth count' : Nat} (hs : s.Obeys (Discipline.free cfg))
    (h : Layout.perform (Layout.doAction cfg depth) cfg call count s = .ok (s', e, count')) :
    PerformsParts cfg (Layout.doAction cfg depth) call count s s' := by
  constructor
  · intro actions haction
    unfold Layout.perform at h
    rw [haction] at h
    rcases bind_eq_ok.mp h with ⟨⟨s₁, custom, n⟩, hall, h⟩
    simp only [pure_eq_ok, Prod.mk.injEq] at h
    have hobeys : (s.updateCoord call.coord).Obeys (Discipline.free cfg) := { hs with }
    rcases actAll_inTurn hobeys hall with ⟨os, hturn⟩
    exact ⟨s₁, os, hturn, hturn.trace, h.1.symm⟩
  · intro sw env haction henv hroom
    unfold Layout.perform at h
    rw [haction] at h
    rcases bind_eq_ok.mp h with ⟨env', henv', h⟩
    rw [henv] at henv'
    cases henv'
    rcases bind_eq_ok.mp h with ⟨actions, hactions, h⟩
    have hactive := switchActions_eq hactions
    have hlen : actions.length ≤ actionQueueLen := by
      rw [hactive, List.length_map]
      exact hroom
    have hfill := @fillSwitchQueue_eq _ call actions .empty
      { s with activations := s.activations + 1 } (by simpa using hlen)
    dsimp only at h
    rw [hfill.2, hfill.1] at h
    rcases bind_eq_ok.mp h with ⟨⟨s₁, custom, n⟩, hall, h⟩
    simp only [pure_eq_ok, Prod.mk.injEq] at h
    have hobeys : ({ s with activations := s.activations + 1 } : Layout T).Obeys
        (Discipline.free cfg) := { hs with }
    rcases actAll_inTurn hobeys hall with ⟨os, hturn⟩
    rw [← hactive]
    refine ⟨s₁, os, ?_, hturn.trace, h.1.symm⟩
    simpa using hturn
  · intro value haction
    unfold Layout.perform at h
    rw [haction] at h
    simp only [pure_eq_ok] at h
    have hs' : s' = (s.doCustom call value count).1 := by rw [h]
    rw [hs']
    exact doCustom_trace s call value count

end Composed

/-- The actions of a multi and of a switch that does not activate too many cases are
performed in turn, and the custom actions among them that are queued are performed
in order, before a tick takes another event, as long as the queue drops none. -/
theorem composed_actions_run (cfg : LayoutConfig C R T) :
    (∀ depth call count s s' e count', s.Obeys (Discipline.free cfg) →
      Layout.perform (Layout.doAction cfg depth) cfg call count s = .ok (s', e, count') →
      PerformsParts cfg (Layout.doAction cfg depth) call count s s') ∧
    ∀ delay ops s os, run (Layout.step cfg) (.new delay) ops = .ok (s, os) → NoneLost s.trace →
      Serves [] s.trace s.actionQueue.items ∧
      ∀ qa s' e, s.customEventReleaseQueue.items = [] → s.actionQueue.items.head? = some qa →
        s.tick cfg = .ok (s', e) → NoneLost s'.trace →
        ∃ before after, s'.trace = s.trace ++ before ++ .actionTaken qa :: after := by
  constructor
  · intro depth call count s s' e count' hs h
    exact perform_parts hs h
  · intro delay ops s os h hnone
    constructor
    · exact run_serves h hnone
    · intro qa s' e hrelease hqa htick hnone'
      have hinv := @run_advances _ _ _ cfg delay ops s os (fun _ _ => True) trivial
        (fun _ _ _ _ _ _ => trivial) h
      exact tick_takes hinv.1 hrelease hqa htick hnone'

/-! ## Actions that are lost -/

/-- The custom actions that took effect. -/
def Layout.customsAdded (s : Layout T) : List T :=
  s.trace.filterMap fun o =>
    match o with
    | .customAdded value _ => some value
    | _ => none

/-- The number of events that were processed. -/
def Layout.eventsProcessed (s : Layout T) : Nat :=
  s.trace.countP fun o =>
    match o with
    | .eventProcessed _ => true
    | _ => false

def customs (n : Nat) : List (Action Nat) := (List.range n).map .custom

/-- A `switch` whose cases are always true and fall through. -/
def fallingSwitch (actions : List (Action Nat)) : Action Nat :=
  .switch ⟨actions.map fun action => ⟨[], action, .fallthrough⟩, 0⟩

/-- A key is pressed and some ticks pass. -/
def pressFor (ticks : Nat) : List LayoutOp := press 1 :: List.replicate ticks .tick

/-- Of ten custom actions in a multi the second one is lost, of nine cases of a
switch the first one. A custom action that is queued comes after the later actions
of its multi, and after an event that overflows the event queue. -/
theorem composed_actions_lost :
    (∃ s os, run (Layout.step (oneLayer [.multipleActions (customs 10)])) (.new 0) (pressFor 12) =
        .ok (s, os) ∧ s.customsAdded = [0, 2, 3, 4, 5, 6, 7, 8, 9]) ∧
    (∃ s os, run (Layout.step (oneLayer [fallingSwitch (customs 9)])) (.new 0) (pressFor 12) =
        .ok (s, os) ∧ s.customsAdded = [1, 2, 3, 4, 5, 6, 7, 8]) ∧
    (∃ s os, run (Layout.step (oneLayer [.multipleActions (customs 2 ++ [.keyCode keyA])]))
        (.new 0) (pressFor 1) = .ok (s, os) ∧ s.customsAdded = [0] ∧
        s.keycodes = [keyA]) ∧
    ∃ s os, run (Layout.step (oneLayer [.multipleActions (customs 2)])) (.new 0)
        (pressFor 1 ++ List.replicate 33 (press 2)) = .ok (s, os) ∧ s.customsAdded = [0] ∧
        s.eventsProcessed = 2 := by
  refine ⟨?_, ?_, ?_, ?_⟩
  · exact of_endsWith_decide (by decide +kernel)
  · exact of_endsWith_decide (by decide +kernel)
  · exact of_endsWith_decide (by decide +kernel)
  · exact of_endsWith_decide (by decide +kernel)

/-- A key with two custom actions in a multi. -/
def twoCustoms : LayoutConfig 16 2 Nat := oneLayer [.multipleActions (customs 2)]

/-- The multi of `twoCustoms`, performed where it is. -/
def twoCustomsCall : Call Nat := ⟨.multipleActions (customs 2), (0, 1), 0, false, []⟩

/-- The two custom actions are performed in turn; the second one is queued and the
next tick takes it. -/
theorem composed_actions_run_two :
    (∃ s' e count', Layout.perform (Layout.doAction twoCustoms 5) twoCustoms twoCustomsCall 0
        (.new 0) = .ok (s', e, count') ∧
      PerformsParts twoCustoms (Layout.doAction twoCustoms 5) twoCustomsCall 0 (.new 0) s') ∧
    ∃ s os qa s' e before after,
      run (Layout.step twoCustoms) (.new 0) (pressFor 1) = .ok (s, os) ∧
      Serves [] s.trace s.actionQueue.items ∧ s.tick twoCustoms = .ok (s', e) ∧
      qa.coord = (0, 1) ∧ s'.trace = s.trace ++ before ++ .actionTaken qa :: after := by
  rcases composed_actions_run twoCustoms with ⟨hparts, hruns⟩
  constructor
  · have hok : (Layout.perform (Layout.doAction twoCustoms 5) twoCustoms twoCustomsCall 0
        (.new 0)).toOption.isSome = true := by
      decide
    cases h : Layout.perform (Layout.doAction twoCustoms 5) twoCustoms twoCustomsCall 0
      (.new 0) with
    | error p =>
      rw [h] at hok
      cases hok
    | ok r => exact ⟨r.1, r.2.1, r.2.2, rfl, hparts 5 twoCustomsCall 0 _ _ _ _ (new_obeys _ 0) h⟩
  · have hends : endsWith (Layout.step twoCustoms)
        (fun s _ => decide (NoneLost s.trace ∧ s.customEventReleaseQueue.items = [] ∧
            s.actionQueue.items.map (·.coord) = [(0, 1)]) &&
          endsWith (Layout.step twoCustoms) (fun s' _ => decide (NoneLost s'.trace)) s [.tick])
        (.new 0) (pressFor 1) = true := by
      decide
    rcases of_endsWith hends with ⟨s, os, hrun, hcheck⟩
    rw [Bool.and_eq_true] at hcheck
    rcases of_decide_eq_true hcheck.1 with ⟨hnone, hrelease, hcoords⟩
    rcases of_endsWith_decide hcheck.2 with ⟨s', os', hlast, hnone'⟩
    rcases run_cons_eq_ok.mp hlast with ⟨s'', e, os'', htick, hrest, _⟩
    cases hrest
    rcases List.map_eq_singleton_iff.mp hcoords with ⟨qa, hitems, hcoord⟩
    have hqa : s.actionQueue.items.head? = some qa := by
      rw [hitems]
      rfl
    rcases hruns 0 (pressFor 1) s os hrun hnone with ⟨hserves, htakes⟩
    rcases htakes qa s' e hrelease hqa htick hnone' with ⟨before, after, htrace⟩
    exact ⟨s, os, qa, s', e, before, after, hrun, hserves, htick, hcoord, htrace⟩

end Kanata
