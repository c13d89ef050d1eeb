import Kanata.Layout.Follows
import Kanata.Layout.Heard
import Kanata.Layout.Pending

/-!
# Kanata.Layout.Overflow — an event that overflows the queue

When a queue is full, `event` and `event_to_front` resolve everything that waits
to hold and process the event that fell out. The loop over the indices takes the
state at its index out each time, so it skips every other one of the states in
`extra_waiting` (`overflow_skips`); it is right as long as there is at most one
(`overflow_flushes`). What is performed in the loop may start to wait in turn, so
the hold actions must be immediate.

The event that falls out is the oldest as long as events come in at the back:
`Arrived` says so of the layout queue.
-/

namespace Kanata

open Fallible Machine

variable {C R : Nat} {T : Type}

namespace Occurrence

/-- Which waiting state was resolved, and how. -/
def resolution : Occurrence T → Option (Nat × WaitingAction)
  | .waitingResolved id outcome => some (id, outcome)
  | _ => none

end Occurrence

/-! ## Actions that are immediate -/

/-- Performing the action itself starts no wait and runs nothing that is found elsewhere: in
the layers, in what `rpt` repeats or in the queue. -/
def Action.IsImmediate : Action T → Prop
  | .holdTap _ => False
  | .tapDance td => td.config = .eager
  | .chords _ => False
  | .trans => False
  | .repeat => False
  | .oneShot _ => False
  | _ => True

/-- What waits is the same. -/
structure SameWaits (s s' : Layout T) : Prop where
  waiting : s'.waiting = s.waiting
  extraWaiting : s'.extraWaiting = s.extraWaiting
  created : s'.created = s.created

namespace SameWaits

variable {s s₁ s₂ : Layout T}

theorem refl (s : Layout T) : SameWaits s s := ⟨rfl, rfl, rfl⟩

theorem trans (h₁ : SameWaits s s₁) (h₂ : SameWaits s₁ s₂) : SameWaits s s₂ :=
  ⟨h₂.waiting.trans h₁.waiting, h₂.extraWaiting.trans h₁.extraWaiting,
    h₂.created.trans h₁.created⟩

theorem of_watched (h : s₁.watched = s.watched) : SameWaits s s₁ :=
  ⟨congrArg Layout.Watched.waiting h, congrArg Layout.Watched.extraWaiting h,
    congrArg Layout.Watched.created h⟩

/-- When nothing new waits, nothing was resolved. -/
theorem resolution_nil (h : SameWaits s s₁) (hsettled : Settled s s₁) {os : List (Occurrence T)}
    (htrace : s₁.trace = s.trace ++ os) : os.filterMap Occurrence.resolution = [] := by
  have hpending : s₁.pendingIds = s.pendingIds := by
    unfold Layout.pendingIds
    rw [h.waiting, h.extraWaiting]
  rw [List.filterMap_eq_nil_iff]
  intro o ho
  cases o with
  | waitingResolved id outcome =>
    have hcount := hsettled id
    have hmem : id ∈ os.filterMap Occurrence.resolvedId := List.mem_filterMap.mpr ⟨_, ho, rfl⟩
    have hpos := List.count_pos_iff.mpr hmem
    unfold Layout.resolvedIds Layout.lostIds at hcount
    rw [hpending, h.created, htrace, List.filterMap_append, List.filterMap_append,
      List.count_append, List.count_append] at hcount
    omega
  | _ => rfl

end SameWaits

/-- Immediate actions leave what waits alone. -/
def ActsAtOnce (act : DoAction T) : Prop :=
  ∀ {call : Call T} {count : Nat} {s : Layout T} {r : Layout T × CustomEvent T × Nat},
    call.action.Every Action.IsImmediate → act call count s = .ok r → SameWaits s r.1

section Immediate

variable {cfg : LayoutConfig C R T} {call : Call T} {count : Nat} {s : Layout T}
  {r : Layout T × CustomEvent T × Nat} {act : DoAction T} (hact : ActsAtOnce act)
include hact

theorem actAll_sameWaits {actions : List (Action T)}
    (hactions : ∀ a ∈ actions, a.Every Action.IsImmediate) :
    ∀ {custom : CustomEvent T} {count : Nat} {s : Layout T} {r : Layout T × CustomEvent T × Nat},
      Layout.actAll act call actions custom count s = .ok r → SameWaits s r.1 := by
  induction actions with
  | nil =>
    intro custom count s r h
    rw [← pure_eq_ok.mp h]
    exact .refl s
  | cons action actions ih =>
    intro custom count s r h
    unfold Layout.actAll at h
    rcases bind_eq_ok.mp h with ⟨r₁, hfirst, h⟩
    have hfirst := hact (hactions action List.mem_cons_self) hfirst
    have hrest := ih (fun a ha => hactions a (List.mem_cons_of_mem _ ha)) h
    exact (hfirst.trans (.of_watched (Layout.discard_watched _))).trans hrest

/-- The branches of `do_action` for immediate actions. -/
theorem perform_sameWaits (himmediate : call.action.Every Action.IsImmediate)
    (h : Layout.perform act cfg call count s = .ok r) : SameWaits s r.1 := by
  unfold Layout.perform at h
  cases haction : call.action with
  | noOp =>
    rw [haction] at h
    rw [← pure_eq_ok.mp h]
    exact .of_watched Layout.doNoOp_watched
  | keyCode kc =>
    rw [haction] at h
    rw [← pure_eq_ok.mp h]
    exact .of_watched (by simp [Layout.doKeyCode])
  | multipleKeyCodes kcs =>
    rw [haction] at h
    rw [← pure_eq_ok.mp h]
    exact .of_watched (by simp)
  | multiKeyBuffer =>
    rw [haction] at h
    rw [← pure_eq_ok.mp h]
    exact .of_watched (by simp [Layout.doMultiKeyBuffer])
  | multipleActions actions =>
    rw [haction] at h himmediate
    rcases bind_eq_ok.mp h with ⟨r₁, hall, h⟩
    rw [← pure_eq_ok.mp h]
    have hall := actAll_sameWaits hact himmediate.inside hall
    exact ⟨hall.waiting, hall.extraWaiting, hall.created⟩
  | layer value =>
    rw [haction] at h
    rw [← pure_eq_ok.mp h]
    exact .of_watched (Layout.doLayer_watched value)
  | defaultLayer value =>
    rw [haction] at h
    rw [← pure_eq_ok.mp h]
    exact .of_watched (by simp [Layout.doDefaultLayer])
  | sequence events =>
    rw [haction] at h
    rw [← pure_eq_ok.mp h]
    exact .of_watched (by simp [Layout.doSequence])
  | repeatableSequence events =>
    rw [haction] at h
    rw [← pure_eq_ok.mp h]
    exact .of_watched (by simp [Layout.doRepeatableSequence])
  | cancelSequences =>
    rw [haction] at h
    rw [← pure_eq_ok.mp h]
    exact .of_watched Layout.doCancelSequences_watched
  | releaseState rs =>
    rw [haction] at h
    rw [← pure_eq_ok.mp h]
    exact .of_watched (Layout.doReleaseState_watched rs)
  | custom value =>
    rw [haction] at h
    rw [← pure_eq_ok.mp h]
    exact .of_watched (Layout.doCustom_watched value count)
  | oneShotIgnoreEventsTicks ticks =>
    rw [haction] at h
    rw [← pure_eq_ok.mp h]
    exact ⟨rfl, rfl, rfl⟩
  | tapDance td =>
    rw [haction] at h himmediate
    have heager : td.config = .eager := himmediate.here
    dsimp only at h
    rw [heager] at h
    rcases bind_eq_ok.mp h with ⟨action, hfirst, h⟩
    have hmem : action ∈ td.actions := (Discipline.free cfg).indexInto.of_ok hfirst
    have hstart : SameWaits s ((s.updateCoord call.coord).startTapDanceEager call.coord td) := by
      unfold Layout.startTapDanceEager
      split
      · exact ⟨rfl, rfl, rfl⟩
      · split <;> exact ⟨rfl, rfl, rfl⟩
    exact hstart.trans (hact (himmediate.inside action hmem) h)
  | fork fcfg =>
    rw [haction] at h himmediate
    rcases bind_eq_ok.mp h with ⟨r₁, hchoice, h⟩
    rw [← pure_eq_ok.mp h]
    have hinside : s.forkChoice fcfg ∈ (Action.fork fcfg).children := by
      unfold Layout.forkChoice
      dsimp only
      split <;> simp [Action.children]
    have hchoice := hact (himmediate.inside _ hinside) hchoice
    exact ⟨hchoice.waiting, hchoice.extraWaiting, hchoice.created⟩
  | «switch» sw =>
    rw [haction] at h himmediate
    rcases bind_eq_ok.mp h with ⟨env, _, h⟩
    rcases bind_eq_ok.mp h with ⟨actions, hactions, h⟩
    rcases bind_eq_ok.mp h with ⟨r₁, hall, h⟩
    rw [← pure_eq_ok.mp h]
    have hall := actAll_sameWaits hact (fun a ha => by
      rcases mem_fillSwitchQueue ha with ha | ha
      · cases ha
      · exact himmediate.inside a (mem_switchActions hactions a ha)) hall
    have hfilled : SameWaits s (Layout.fillSwitchQueue call actions .empty
        { s with activations := s.activations + 1 }).2 :=
      .of_watched (Layout.fillSwitchQueue_watched actions _ _)
    have hboth := hfilled.trans hall
    exact ⟨hboth.waiting, hboth.extraWaiting, hboth.created⟩
  | src =>
    rw [haction] at h
    rcases bind_eq_ok.mp h with ⟨action, hsrc, h⟩
    rcases bind_eq_ok.mp h with ⟨r₁, hsource, h⟩
    rw [← pure_eq_ok.mp h]
    have hkey : action.Every Action.IsImmediate := by
      unfold LayoutConfig.srcKey at hsrc
      split at hsrc
      · rename_i hy
        rw [← pure_eq_ok.mp hsrc]
        cases cfg.srcKeys ⟨call.coord.2, hy⟩ <;> exact .leaf trivial rfl
      · cases hsrc
    exact (hact hkey hsource).trans (.of_watched (Layout.discard_watched _))
  | holdTap ht => exact (haction ▸ himmediate.here : Action.IsImmediate (.holdTap ht)).elim
  | chords group => exact (haction ▸ himmediate.here : Action.IsImmediate (.chords group)).elim
  | trans => exact (haction ▸ himmediate.here : Action.IsImmediate (Action.trans (T := T))).elim
  | «repeat» => exact (haction ▸ himmediate.here : Action.IsImmediate (Action.repeat (T := T))).elim
  | oneShot os => exact (haction ▸ himmediate.here : Action.IsImmediate (.oneShot os)).elim

omit hact in
theorem doAction_atOnce (depth : Nat) : ActsAtOnce (Layout.doAction cfg depth) := by
  induction depth with
  | zero =>
    intro call count s r _ h
    cases h
  | succ depth ih =>
    intro call count s r himmediate h
    unfold Layout.doAction at h
    rcases bind_eq_ok.mp h with ⟨call', hcall', h⟩
    rcases bind_eq_ok.mp h with ⟨s₁, hs₁, h⟩
    have hsame : call'.action = call.action := (resolveTrans_coord hcall').2 (by
      intro htrans
      have hhere := himmediate.here
      rw [htrans] at hhere
      exact hhere)
    rcases bind_eq_ok.mp h with ⟨r₁, hperform, h⟩
    rw [← pure_eq_ok.mp h]
    have hperformed := perform_sameWaits ih (hsame ▸ himmediate) hperform
    have hbefore : SameWaits s (s₁.note (.performed call'.action call'.coord s₁.found)) := by
      rw [Layout.beforeAction_eq hs₁]
      exact ⟨rfl, rfl, rfl⟩
    exact hbefore.trans ⟨hperformed.waiting, hperformed.extraWaiting, hperformed.created⟩

end Immediate

/-! ## The loop over the indices -/

section Flush

variable {cfg : LayoutConfig C R T} {s s₁ s₂ s' : Layout T} {e : CustomEvent T}

/-- The states with the numbers were resolved to hold, in order. -/
def ResolvedToHold (s s' : Layout T) (ids : List Nat) : Prop :=
  ∃ os, s'.trace = s.trace ++ os ∧
    os.filterMap Occurrence.resolution = ids.map (·, WaitingAction.hold)

namespace ResolvedToHold

variable {ids ids' : List Nat}

theorem refl (s : Layout T) : ResolvedToHold s s [] := ⟨[], by simp, rfl⟩

theorem trans (h₁ : ResolvedToHold s s₁ ids) (h₂ : ResolvedToHold s₁ s₂ ids') :
    ResolvedToHold s s₂ (ids ++ ids') := by
  rcases h₁ with ⟨os₁, htrace₁, hids₁⟩
  rcases h₂ with ⟨os₂, htrace₂, hids₂⟩
  refine ⟨os₁ ++ os₂, by rw [htrace₂, htrace₁, List.append_assoc], ?_⟩
  rw [List.filterMap_append, hids₁, hids₂, List.map_append]

theorem discard (h : ResolvedToHold s s₁ ids) (e : CustomEvent T) :
    ResolvedToHold s (s₁.discard e) ids := by
  have hnone : ResolvedToHold s₁ (s₁.discard e) [] := by
    refine ⟨Layout.discardNotes e, Layout.discard_trace s₁ e, ?_⟩
    cases e <;> rfl
  have hboth := h.trans hnone
  rwa [List.append_nil] at hboth

end ResolvedToHold

/-- The state at an index is taken out, and its action is performed. -/
theorem waitingIntoHold_resolves {idx : Option Nat} {w : WaitingState T}
    (hs : s.Obeys (Discipline.free cfg)) (hw : s.waitingAt idx = some w)
    (himmediate : w.hold.Every Action.IsImmediate)
    (h : Layout.waitingIntoHold (Layout.act cfg) cfg idx s = .ok (s', e)) :
    SameWaits (s.takeWaiting w .hold idx) s' ∧ ResolvedToHold s s' [w.id] := by
  unfold Layout.waitingIntoHold at h
  rw [hw] at h
  rcases bind_eq_ok.mp h with ⟨⟨s₁, delay⟩, h₁, h⟩
  rcases bind_eq_ok.mp h with ⟨r, hr, h⟩
  obtain ⟨rfl, rfl⟩ := Prod.mk.inj (pure_eq_ok.mp h)
  have htrace := resolveSlowly_trace h₁
  -- up to the action only the state is taken out
  have htaken : SameWaits (s.takeWaiting w .hold idx) s₁ := by
    unfold Layout.resolveSlowly at h₁
    rcases bind_eq_ok.mp h₁ with ⟨delay', _, h₁⟩
    have heq := congrArg Prod.fst (pure_eq_ok.mp h₁)
    dsimp only at heq
    rw [← heq]
    split <;> cases idx <;> exact ⟨rfl, rfl, rfl⟩
  have hsame : SameWaits s₁.pauseInputProcessing r.1 := doAction_atOnce _ himmediate hr
  have hobeys : s₁.pauseInputProcessing.Obeys (Discipline.free cfg) := by
    have hslow := ((resolveSlowly_ensures (Discipline.free cfg) hw trivial).of_ok h₁).obeys hs
    exact { hslow with }
  have hperforms : Performs (Discipline.free cfg) s₁.pauseInputProcessing r.1 r.2.1 :=
    (act_actsWithin (Discipline.free cfg) _ 0 _ ⟨trivial, fun _ _ => trivial⟩ hobeys).of_ok hr
  rcases hperforms.trace_grows with ⟨os, hos⟩
  have hnone := hsame.resolution_nil hperforms.settled hos.symm
  refine ⟨htaken.trans ⟨hsame.waiting, hsame.extraWaiting, hsame.created⟩,
    .inputExcluded w.coord :: .waitingResolved w.id .hold :: os, ?_, ?_⟩
  · rw [← hos]
    show s₁.trace ++ os = _
    rw [htrace]
    simp
  · show (w.id, WaitingAction.hold) :: os.filterMap Occurrence.resolution = _
    rw [hnone]
    rfl

theorem waitingIntoHold_rests {idx : Option Nat} (hw : s.waitingAt idx = none)
    (h : Layout.waitingIntoHold (Layout.act cfg) cfg idx s = .ok (s', e)) :
      s' = s ∧ e = .noEvent := by
  unfold Layout.waitingIntoHold at h
  rw [hw] at h
  obtain ⟨rfl, rfl⟩ := Prod.mk.inj (pure_eq_ok.mp h)
  exact ⟨rfl, rfl⟩

/-- One turn of the loop keeps to the free discipline. -/
theorem waitingIntoHold_free {idx : Option Nat} (hs : s.Obeys (Discipline.free cfg))
    (h : Layout.waitingIntoHold (Layout.act cfg) cfg idx s = .ok (s', e)) :
    Performs (Discipline.free cfg) s (s'.discard e) .noEvent := by
  have hperforms := (waitingIntoHold_ensures (act_actsWithin (Discipline.free cfg)) hs idx).of_ok h
  exact hperforms.discard

theorem flush_free {idxs : List (Option Nat)} (hs : s.Obeys (Discipline.free cfg))
    (h : Layout.flush (Layout.act cfg) cfg idxs s = .ok s') :
    Performs (Discipline.free cfg) s s' .noEvent :=
  (flush_ensures (act_actsWithin (Discipline.free cfg)) hs idxs s (.refl s)).of_ok h

/-- Once nothing waits, the loop does nothing. -/
theorem flush_rests {idxs : List (Option Nat)} (hwaiting : s.waiting = none)
    (hextra : s.extraWaiting.items = [])
    (h : Layout.flush (Layout.act cfg) cfg idxs s = .ok s') : s' = s := by
  induction idxs with
  | nil => exact (pure_eq_ok.mp h).symm
  | cons idx idxs ih =>
    rcases bind_eq_ok.mp h with ⟨⟨s₁, e⟩, hturn, h⟩
    have hnone : s.waitingAt idx = none := by
      cases idx with
      | none => exact hwaiting
      | some i =>
        show s.extraWaiting.items[i]? = none
        rw [hextra]
        rfl
    obtain ⟨rfl, rfl⟩ := waitingIntoHold_rests hnone hturn
    exact ih h

/-- What waits in front is resolved in the first turn. -/
theorem flush_waiting {idxs : List (Option Nat)} (hs : s.Obeys (Discipline.free cfg))
    (himmediate : ∀ w, s.waiting = some w → w.hold.Every Action.IsImmediate)
    (h : Layout.flush (Layout.act cfg) cfg (none :: idxs) s = .ok s') :
    ∃ s₁, Layout.flush (Layout.act cfg) cfg idxs s₁ = .ok s' ∧
      s₁.Obeys (Discipline.free cfg) ∧ s₁.waiting = none ∧ s₁.extraWaiting = s.extraWaiting ∧
      ResolvedToHold s s₁ (s.waiting.toList.map (·.id)) := by
  rcases bind_eq_ok.mp h with ⟨⟨s₁, e⟩, hturn, h⟩
  have hobeys := (waitingIntoHold_free hs hturn).obeys hs
  refine ⟨s₁.discard e, h, hobeys, ?_⟩
  cases hw : s.waiting with
  | none =>
    obtain ⟨rfl, rfl⟩ := waitingIntoHold_rests (show s.waitingAt none = none from hw) hturn
    exact ⟨hw, rfl, .refl _⟩
  | some w =>
    have hfront : s.waitingAt none = some w := hw
    rcases waitingIntoHold_resolves hs hfront (himmediate w hw) hturn with ⟨hsame, hresolved⟩
    have hdiscard := SameWaits.of_watched (Layout.discard_watched (s := s₁) e)
    exact ⟨hdiscard.waiting.trans hsame.waiting, hdiscard.extraWaiting.trans hsame.extraWaiting,
      hresolved.discard e⟩

/-- The only state in `extra_waiting` is resolved at index 0. -/
theorem flush_extra {idxs : List (Option Nat)} (hs : s.Obeys (Discipline.free cfg))
    (hwaiting : s.waiting = none) (hextra : s.extraWaiting.items.length ≤ 1)
    (himmediate : ∀ w ∈ s.extraWaiting.items, w.hold.Every Action.IsImmediate)
    (h : Layout.flush (Layout.act cfg) cfg (some 0 :: idxs) s = .ok s') :
    s'.waiting = none ∧ s'.extraWaiting.items = [] ∧
      ResolvedToHold s s' (s.extraWaiting.items.map (·.id)) := by
  rcases bind_eq_ok.mp h with ⟨⟨s₁, e⟩, hturn, h⟩
  cases hitems : s.extraWaiting.items with
  | nil =>
    have hnone : s.waitingAt (some 0) = none := by
      show s.extraWaiting.items[0]? = none
      rw [hitems]
      rfl
    obtain ⟨rfl, rfl⟩ := waitingIntoHold_rests hnone hturn
    rw [flush_rests hwaiting hitems h]
    exact ⟨hwaiting, hitems, .refl _⟩
  | cons w ws =>
    have hlast : ws = [] := by
      rw [hitems, List.length_cons] at hextra
      exact List.length_eq_zero_iff.mp (by omega)
    subst hlast
    have hw : s.waitingAt (some 0) = some w := by
      show s.extraWaiting.items[0]? = some w
      rw [hitems]
      rfl
    rcases waitingIntoHold_resolves hs hw (himmediate w (by simp [hitems])) hturn with
      ⟨hsame, hresolved⟩
    have hdiscard := SameWaits.of_watched (Layout.discard_watched (s := s₁) e)
    have hnone : (s₁.discard e).waiting = none :=
      (hdiscard.waiting.trans hsame.waiting).trans hwaiting
    have hempty : (s₁.discard e).extraWaiting.items = [] := by
      rw [hdiscard.extraWaiting, hsame.extraWaiting]
      show s.extraWaiting.items.eraseIdx 0 = []
      rw [hitems]
      rfl
    rw [flush_rests hnone hempty h]
    exact ⟨hnone, hempty, hresolved.discard e⟩

/-- With at most one state besides `waiting` and immediate hold actions, the loop resolves
everything that waits. -/
theorem flush_resolves (hs : s.Obeys (Discipline.free cfg))
    (hextra : s.extraWaiting.items.length ≤ 1)
    (himmediate : ∀ w ∈ s.waiting.toList ++ s.extraWaiting.items,
      w.hold.Every Action.IsImmediate)
    (h : Layout.flush (Layout.act cfg) cfg Layout.flushIndices s = .ok s') :
    s'.waiting = none ∧ s'.extraWaiting.items = [] ∧ ResolvedToHold s s' s.pendingIds := by
  have hindices : Layout.flushIndices = none :: some 0 :: (List.range' 1 7).map some := rfl
  rw [hindices] at h
  rcases flush_waiting hs (fun w hw => himmediate w (by simp [hw])) h with
    ⟨s₁, h, hobeys, hwaiting, hsame, hfirst⟩
  rcases flush_extra hobeys hwaiting (by rw [hsame]; exact hextra)
    (fun w hw => himmediate w (by rw [hsame] at hw; exact List.mem_append_right _ hw)) h with
    ⟨hnone, hempty, hsecond⟩
  rw [hsame] at hsecond
  exact ⟨hnone, hempty, hfirst.trans hsecond⟩

end Flush

/-! ## What an overflow should do -/

/-- The event arrived before the other one. -/
def Queued.Earlier (q q' : Queued) : Prop :=
  match q.origin, q'.origin with
  | some m, some n => m < n
  | _, _ => False

instance (q q' : Queued) : Decidable (q.Earlier q') := by
  unfold Queued.Earlier
  split <;> infer_instance

namespace Layout

/-- The event that falls out of the queue when an event arrives, and the layout
with the event that arrived. -/
def overflowing (cfg : LayoutConfig C R T) (s : Layout T) : LayoutOp → Option (Queued × Layout T)
  | .event ev =>
    let r := (s.arrive ev).enqueue cfg ⟨ev, 0, some s.arrivals⟩
    r.2.map fun overflow => (overflow, r.1)
  | .eventToFront ev =>
    let pushed := (s.arrive ev).queue.pushFront ⟨ev, 0, some s.arrivals⟩
    pushed.2.map fun overflow => (overflow, { s.arrive ev with queue := pushed.1 })
  | _ => none

/-- The event `q` that fell out, from the layout `s₁` after the push to the end
`s'` of the call: everything that waits is resolved to hold, once and in order, so
that nothing waits in the layout `s₂` in which `q` is processed, and no event that
stays in the queue arrived before `q`. -/
structure FlushedFor (cfg : LayoutConfig C R T) (q : Queued) (s₁ s₂ s' : Layout T) : Prop where
  flush : flush (act cfg) cfg flushIndices s₁ = .ok s₂
  waiting : s₂.waiting = none
  extraWaiting : s₂.extraWaiting.items = []
  resolved : ∃ os, s₂.trace = s₁.trace ++ os ∧
    os.filterMap Occurrence.resolution = s₁.pendingIds.map (·, WaitingAction.hold)
  processed : ∃ os, s'.trace = s₂.trace ++ .eventProcessed q :: os
  ordered : ∀ q' ∈ s'.queue.items, ¬ q'.Earlier q

/-- If an event overflows the queue in the step, it is flushed for as it should. -/
def FlushesInOrder (cfg : LayoutConfig C R T) (s : Layout T) (op : LayoutOp) : Prop :=
  ∀ q s₁ s' e, s.overflowing cfg op = some (q, s₁) → s.step cfg op = .ok (s', e) →
    ∃ s₂, FlushedFor cfg q s₁ s₂ s'

/-- The condition under which an overflow is flushed for as it should, with what the hold
actions must be: nothing comes in at the front of a queue that is not empty, and where an event
finds no room, at most one state is in `extra_waiting`, the states that wait have such hold
actions, and chords v2 have handed all the older events on. -/
def OverflowsWhere (cfg : LayoutConfig C R T) (holds : Action T → Prop) (s : Layout T) :
    LayoutOp → Prop
  | .event _ => s.found.HasRoom cfg ∨ s.extraWaiting.items.length ≤ 1 ∧
    (∀ w ∈ s.waiting.toList ++ s.extraWaiting.items, holds w.hold) ∧
    (cfg.chordsV2.isSome = true → s.queue.items = [])
  | .eventToFront _ => s.queue.items = []
  | _ => True

/-- The hold actions are immediate. -/
def OverflowsOldest (cfg : LayoutConfig C R T) : Layout T → LayoutOp → Prop :=
  OverflowsWhere cfg fun hold => hold.Every Action.IsImmediate

theorem OverflowsWhere.mono {cfg : LayoutConfig C R T} {holds holds' : Action T → Prop}
    (hmono : ∀ a, holds a → holds' a) {s : Layout T} {op : LayoutOp}
    (h : s.OverflowsWhere cfg holds op) : s.OverflowsWhere cfg holds' op := by
  cases op with
  | event ev =>
    rcases h with hroom | ⟨hextra, hholds, hdrained⟩
    · exact .inl hroom
    · exact .inr ⟨hextra, fun w hw => hmono _ (hholds w hw), hdrained⟩
  | _ => exact h

instance (cfg : LayoutConfig C R T) (holds : Action T → Prop) [DecidablePred holds]
    (s : Layout T) : (op : LayoutOp) → Decidable (s.OverflowsWhere cfg holds op)
  | .event _ => inferInstanceAs (Decidable (s.found.HasRoom cfg ∨
      s.extraWaiting.items.length ≤ 1 ∧
      (∀ w ∈ s.waiting.toList ++ s.extraWaiting.items, holds w.hold) ∧
      (cfg.chordsV2.isSome = true → s.queue.items = [])))
  | .eventToFront _ => inferInstanceAs (Decidable (s.queue.items = []))
  | .tick | .cancelMacros | .releaseState _ | .markOverridden _ | .removeNormalKey _
  | .setDefaultLayer _ | .pushDevice _ => .isTrue trivial

end Layout

/-! ## The order of the layout queue -/

/-- What holds of the layout queue, given the number of events so far, whatever is performed
and in every tick that takes nothing in at the front. -/
structure QueueRule (cfg : LayoutConfig C R T) (I : Nat → List Queued → Prop) : Prop where
  later : ∀ {m n qs}, I m qs → m ≤ n → I n qs
  sublist : ∀ {n qs qs'}, I n qs → qs'.Sublist qs → I n qs'
  ticked : ∀ {n qs}, I n qs → I n (qs.map Queued.tickQd)
  push : ∀ {n qs q}, cfg.chordsV2.isSome = false → I (n + 1) qs → q.origin = some n →
    I (n + 1) (qs ++ [q])

namespace QueueRule

variable {cfg : LayoutConfig C R T} {E : Panic → Prop} {D : Discipline cfg E}
  {I : Nat → List Queued → Prop} {s s' : Layout T} {e : CustomEvent T}

theorem update (hI : QueueRule cfg I) {u : Update T} (hu : u.Allowed D s)
    (h : I s.arrivals s.queue.items) :
    I (u.apply cfg s).arrivals (u.apply cfg s).queue.items := by
  cases u with
  | pushHistoricalKey kc =>
    rw [Update.apply, Layout.pushHistoricalKey_eq]
    exact h
  | startSequence events =>
    rw [Update.apply, Layout.startSequence_eq]
    exact h
  | setDefaultLayer value =>
    rw [Update.apply, Layout.setDefaultLayer_eq]
    exact h
  | deferAction qa =>
    rw [Update.apply, Layout.pushAction_eq]
    exact h
  | setWaiting w =>
    rw [Update.apply, Layout.setWaiting_eq]
    exact h
  | pushExtraWaiting w =>
    rw [Update.apply, Layout.pushExtraWaiting_eq]
    exact h
  | takeWaiting w outcome idx =>
    rw [Update.apply, Layout.takeWaiting_eq]
    exact h
  | arrive event =>
    rw [Update.apply, Layout.arrive_eq]
    exact hI.later h (Nat.le_succ _)
  | enqueue q =>
    rcases hu with ⟨_, n, harrivals, horigin⟩
    show I (s.enqueue cfg q).1.arrivals (s.enqueue cfg q).1.queue.items
    unfold Layout.enqueue
    split
    · exact h
    · rename_i hchords
      rw [harrivals] at h
      have hpushed := hI.push (Bool.eq_false_iff.mpr hchords) h horigin
      show I s.arrivals (s.queue.pushBack q).1.items
      rw [harrivals]
      exact hI.sublist hpushed (Bounded.pushBack_sublist s.queue q)
  | startTapDanceEager coord td =>
    rw [Update.apply, Layout.startTapDanceEager_eq]
    exact h
  | takePress call =>
    rw [Update.apply, Layout.takePress_eq]
    exact h
  | _ => exact h

theorem performs (hI : QueueRule cfg I) (h : Performs D s s' e)
    (hs : I s.arrivals s.queue.items) : I s'.arrivals s'.queue.items := by
  induction h with
  | refl s => exact hs
  | update u hu => exact hI.update hu hs
  | custom s value coord =>
    rw [Layout.pushCustom_eq]
    exact hs
  | release h =>
    rcases dequeueRelease_eq_ok h with ⟨states, rel, _, _, rfl⟩
    exact hs
  | merge h₁ h₂ ih₁ ih₂ =>
    rw [Layout.discard_eq]
    exact ih₂ (ih₁ hs)
  | discard h ih =>
    rw [Layout.discard_eq]
    exact ih hs

theorem pass (hI : QueueRule cfg I) (hfronts : ¬ D.fronts) {u : Passing T} (hu : u.Allowed D s)
    (h : I s.arrivals s.queue.items) (hchords : cfg.chordsV2.isSome = false) :
    I (u.apply s).arrivals (u.apply s).queue.items := by
  cases u with
  | receive q =>
    rw [hu.2] at hchords
    cases hchords
  | queueChord qa =>
    rw [Passing.apply, Layout.pushAction_eq]
    exact h
  | ageInputs => exact hI.ticked h
  | advanceSequence =>
    rw [Passing.apply, Layout.advanceSequence_eq]
    exact h
  | restartSequence events =>
    rw [Passing.apply, Layout.startSequence_eq]
    exact h
  | takeEvent =>
    rw [Passing.apply, Layout.takeEvent_eq]
    exact hI.sublist h (List.tail_sublist _)
  | tickWaiting t =>
    rcases hu with ⟨w, _, _, ht⟩
    rw [Passing.apply, Layout.afterTickWt_eq]
    exact hI.sublist h ht.queued
  | tickExtraWaiting i t =>
    rcases hu with ⟨w, _, _, ht⟩
    rw [Passing.apply, Layout.afterTickWt_eq]
    exact hI.sublist h ht.queued
  | loseWaiting =>
    rw [Passing.apply, Layout.loseWaiting_eq]
    exact h
  | advanceCustom =>
    rw [Passing.apply, Layout.processSequenceCustom_eq]
    exact h
  | enqueueFront q => exact absurd hu.2 hfronts
  | _ => exact h

theorem advances (hI : QueueRule cfg I) (hfronts : ¬ D.fronts)
    (hchords : cfg.chordsV2.isSome = false) (h : Advances D s s' e)
    (hs : I s.arrivals s.queue.items) : I s'.arrivals s'.queue.items := by
  induction h with
  | performs h => exact hI.performs h hs
  | pass u hu => exact hI.pass hfronts hu hs hchords
  | takes hqa hact h =>
    refine hI.performs h ?_
    rw [Layout.takeAction_eq]
    exact hs
  | merge h₁ h₂ ih₁ ih₂ =>
    rw [Layout.discard_eq]
    exact ih₂ (ih₁ hs)

end QueueRule

/-- The events in the queue have arrived, one after the other. -/
structure Arrived (n : Nat) (qs : List Queued) : Prop where
  known : ∀ q ∈ qs, ∀ m, q.origin = some m → m < n
  sorted : qs.Pairwise fun q q' => ¬ q'.Earlier q

/-- An event that arrives later is not earlier. -/
theorem not_earlier {q q' : Queued} {n : Nat} (hq : ∀ m, q.origin = some m → m < n + 1)
    (hq' : q'.origin = some n) : ¬ q'.Earlier q := by
  unfold Queued.Earlier
  rw [hq']
  split
  · rename_i m n' heq horigin
    have hlt := hq n' horigin
    cases heq
    omega
  · exact fun h => h

theorem Queued.earlier_tickQd (q q' : Queued) : q.tickQd.Earlier q'.tickQd ↔ q.Earlier q' := by
  unfold Queued.Earlier
  rw [Queued.tickQd_origin, Queued.tickQd_origin]

theorem arrived_rule (cfg : LayoutConfig C R T) : QueueRule cfg Arrived where
  later h hle := ⟨fun q hq m hm => Nat.lt_of_lt_of_le (h.known q hq m hm) hle, h.sorted⟩
  sublist h hsub := ⟨fun q hq => h.known q (hsub.subset hq), h.sorted.sublist hsub⟩
  ticked h := by
    constructor
    · intro q hq
      rcases List.mem_map.mp hq with ⟨q', hq', rfl⟩
      exact h.known q' hq'
    · rw [List.pairwise_map]
      exact h.sorted.imp fun {q q'} hnot => by rwa [Queued.earlier_tickQd]
  push {n qs q} _ h horigin := by
    constructor
    · intro q' hq' m hm
      rcases List.mem_append.mp hq' with hq' | hq'
      · exact h.known q' hq' m hm
      · rw [List.mem_singleton.mp hq', horigin] at hm
        cases hm
        exact Nat.lt_succ_self _
    · rw [List.pairwise_append]
      refine ⟨h.sorted, List.pairwise_singleton _ _, ?_⟩
      intro q' hq' q'' hq''
      rw [List.mem_singleton.mp hq'']
      exact not_earlier (h.known q' hq') horigin

/-- No event in the queue is earlier than the given one, which has arrived. -/
theorem notEarlier_rule (cfg : LayoutConfig C R T) (q : Queued) :
    QueueRule cfg fun n qs => (∀ m, q.origin = some m → m < n) ∧ ∀ q' ∈ qs, ¬ q'.Earlier q where
  later h hle := ⟨fun m hm => Nat.lt_of_lt_of_le (h.1 m hm) hle, h.2⟩
  sublist h hsub := ⟨h.1, fun q' hq' => h.2 q' (hsub.subset hq')⟩
  ticked h := by
    refine ⟨h.1, ?_⟩
    intro q' hq'
    rcases List.mem_map.mp hq' with ⟨q'', hq'', rfl⟩
    exact h.2 q'' hq''
  push _ h horigin := by
    refine ⟨h.1, ?_⟩
    intro q' hq'
    rcases List.mem_append.mp hq' with hq' | hq'
    · exact h.2 q' hq'
    · rw [List.mem_singleton.mp hq']
      exact not_earlier h.1 horigin

/-- With chords v2, what is performed puts nothing in the layout queue. -/
theorem empty_rule {cfg : LayoutConfig C R T} (hchords : cfg.chordsV2.isSome = true) :
    QueueRule cfg fun _ qs => qs = [] where
  later h _ := h
  sublist h hsub := List.sublist_nil.mp (h ▸ hsub)
  ticked h := by rw [h]; rfl
  push hnone _ _ := by
    rw [hchords] at hnone
    cases hnone

/-! ## Runs -/

section Overflow

variable {cfg : LayoutConfig C R T} {s s₁ s' : Layout T} {e : CustomEvent T}

/-- The layout after the push keeps to the free discipline. -/
theorem overflowing_obeys {op : LayoutOp} {q : Queued} (hs : s.Obeys (Discipline.free cfg))
    (h : s.overflowing cfg op = some (q, s₁)) : s₁.Obeys (Discipline.free cfg) := by
  have hqueued : ∀ q : Queued, q.Obeys (Discipline.free cfg) := by
    intro q
    unfold Queued.Obeys
    split <;> trivial
  cases op with
  | event ev =>
    rcases Option.map_eq_some_iff.mp h with ⟨overflow, _, heq⟩
    cases heq
    have harrive : (s.arrive ev).Obeys (Discipline.free cfg) := by
      have hperforms : Performs (Discipline.free cfg) s _ .noEvent := .update (.arrive ev) trivial
      exact hperforms.obeys hs
    have hperforms : Performs (Discipline.free cfg) (s.arrive ev) _ .noEvent :=
      .update (.enqueue ⟨ev, 0, some s.arrivals⟩)
        ⟨hqueued _, s.arrivals, by rw [Layout.arrive_eq], rfl⟩
    exact hperforms.obeys harrive
  | eventToFront ev =>
    rcases Option.map_eq_some_iff.mp h with ⟨overflow, _, heq⟩
    cases heq
    have hperforms : Performs (Discipline.free cfg) s _ .noEvent := .update (.arrive ev) trivial
    exact { hperforms.obeys hs with queue := fun q _ => hqueued q }
  | _ => cases h

theorem step_of_overflowing {op : LayoutOp} {q : Queued}
    (h : s.overflowing cfg op = some (q, s₁)) (hstep : s.step cfg op = .ok (s', e)) :
    Layout.overflowed (Layout.act cfg) cfg q s₁ = .ok s' := by
  cases op with
  | event ev =>
    rcases Option.map_eq_some_iff.mp h with ⟨overflow, hoverflow, heq⟩
    cases heq
    rcases bind_eq_ok.mp hstep with ⟨s₂, hevent, hstep⟩
    rw [pure_eq_ok] at hstep
    cases hstep
    unfold Layout.event Layout.eventWith at hevent
    dsimp only at hevent
    rw [hoverflow] at hevent
    exact hevent
  | eventToFront ev =>
    rcases Option.map_eq_some_iff.mp h with ⟨overflow, hoverflow, heq⟩
    cases heq
    rcases bind_eq_ok.mp hstep with ⟨s₂, hevent, hstep⟩
    rw [pure_eq_ok] at hstep
    cases hstep
    unfold Layout.eventToFront Layout.eventToFrontWith at hevent
    dsimp only at hevent
    rw [hoverflow] at hevent
    exact hevent
  | _ => cases h

/-- The first thing that processing an event records is the event. -/
theorem dequeue_trace {q : Queued} (hs : s.Obeys (Discipline.free cfg))
    (h : Layout.dequeue (Layout.act cfg) cfg q s = .ok (s', e)) :
    ∃ os, s'.trace = s.trace ++ .eventProcessed q :: os := by
  have hnoted : (s.note (.eventProcessed q)).Obeys (Discipline.free cfg) := hs.note _
  have hgrows : (s.note (.eventProcessed q)).trace <+: s'.trace := by
    unfold Layout.dequeue at h
    dsimp only at h
    split at h
    · exact (Performs.release (D := Discipline.free cfg) h).trace_grows
    · have hpress := (dequeuePress_ensures (act_actsWithin (Discipline.free cfg)) hnoted trivial
        q.since).of_ok h
      exact hpress.trace_grows
  rcases hgrows with ⟨os, hos⟩
  refine ⟨os, ?_⟩
  rw [← hos, Layout.note_trace]
  simp

/-- Everything may be performed, and no event comes in at the front. -/
def Discipline.fromBehind (cfg : LayoutConfig C R T) : Discipline cfg fun _ => True :=
  { Discipline.free cfg with fronts := False }

/-- The discipline asks nothing more of a layout. -/
theorem obeys_fromBehind (h : s.Obeys (Discipline.free cfg)) :
    s.Obeys (Discipline.fromBehind cfg) := by
  have hwaiting : ∀ w : WaitingState T, w.Obeys (Discipline.free cfg) →
      w.Obeys (Discipline.fromBehind cfg) := fun w hw =>
    ⟨trivial, trivial, trivial, hw.config, hw.undecided, fun _ _ => trivial, hw.ticks_le⟩
  exact {
    defaultLayer := trivial
    states := h.states
    waiting := fun w hw => hwaiting w (h.waiting w hw)
    extraWaiting := fun w hw => hwaiting w (h.extraWaiting w hw)
    tapDanceEager := fun _ _ _ _ _ _ => trivial
    queue := h.queue
    chordsQueue := h.chordsQueue
    actionQueue := fun _ _ => ⟨trivial, fun _ _ => trivial⟩
    rptAction := fun _ _ => trivial
    activeChords := fun _ _ => trivial
    nextCoord := h.nextCoord }

/-- The layout keeps to the free discipline, and without chords v2 its queue is in the order
of arrival. -/
structure QueuedInOrder (cfg : LayoutConfig C R T) (s : Layout T) : Prop where
  obeys : s.Obeys (Discipline.free cfg)
  arrived : cfg.chordsV2.isSome = false → Arrived s.arrivals s.queue.items

theorem new_queuedInOrder (cfg : LayoutConfig C R T) (delay : Nat) :
    QueuedInOrder cfg (.new delay) where
  obeys := new_obeys _ delay
  arrived _ := ⟨by simp [Layout.new], by simp [Layout.new]⟩

/-- Into an empty queue an event may come in at either end. -/
theorem eventToFront_arrived_alone {event : Event} (hempty : s.queue.items = [])
    (h : s.eventToFront cfg event = .ok s') :
    s'.arrivals = s.arrivals + 1 ∧ s'.queue.items = [⟨event, 0, some s.arrivals⟩] := by
  have hroom : (s.arrive event).queue.items.length < queueSize := by
    rw [Layout.arrive_eq]
    show s.queue.items.length < queueSize
    rw [hempty]
    decide
  have hpushed := Bounded.pushFront_of_lt hroom (⟨event, 0, some s.arrivals⟩ : Queued)
  unfold Layout.eventToFront Layout.eventToFrontWith at h
  dsimp only at h
  rw [hpushed.2] at h
  rw [← pure_eq_ok.mp h]
  dsimp only
  rw [hpushed.1, Layout.arrive_eq]
  dsimp only
  rw [hempty]
  exact ⟨rfl, rfl⟩

theorem step_queuedInOrder {op : LayoutOp} (hs : QueuedInOrder cfg s)
    (hop : s.OverflowsOldest cfg op) (h : s.step cfg op = .ok (s', e)) :
    QueuedInOrder cfg s' := by
  refine ⟨step_keeps_obeys hs.obeys h, fun hchords => ?_⟩
  by_cases hfront : ∃ event, op = .eventToFront event
  · rcases hfront with ⟨event, rfl⟩
    rcases bind_eq_ok.mp h with ⟨s₁, hevent, h⟩
    obtain ⟨rfl, _⟩ := Prod.mk.inj (pure_eq_ok.mp h)
    rcases eventToFront_arrived_alone hop hevent with ⟨harrivals, hqueue⟩
    rw [harrivals, hqueue]
    refine ⟨?_, List.pairwise_singleton _ _⟩
    intro q hq m hm
    rw [List.mem_singleton.mp hq] at hm
    cases hm
    exact Nat.lt_succ_self _
  · have hobeys : op.Obeys (Discipline.fromBehind cfg) := by
      cases op with
      | event event => cases event <;> trivial
      | eventToFront event => exact absurd ⟨event, rfl⟩ hfront
      | _ => trivial
    have hadvances : Advances (Discipline.fromBehind cfg) s s' e :=
      (step_advances (fun _ => trivial) (obeys_fromBehind hs.obeys) hobeys).of_ok h
    exact (arrived_rule cfg).advances (fun hfalse => hfalse) hchords hadvances
      (hs.arrived hchords)

/-- The event that falls out of a full queue was the first in it. -/
theorem overflowing_event {event : Event} {q : Queued} (hs : QueuedInOrder cfg s)
    (h : s.overflowing cfg (.event event) = some (q, s₁)) :
    ¬ s.found.HasRoom cfg ∧ SameWaits s s₁ ∧
      (cfg.chordsV2.isSome = false →
        (∀ m, q.origin = some m → m < s₁.arrivals) ∧ ∀ q' ∈ s₁.queue.items, ¬ q'.Earlier q) ∧
      (cfg.chordsV2.isSome = true → s₁.queue = s.queue) := by
  rcases Option.map_eq_some_iff.mp h with ⟨overflow, hoverflow, heq⟩
  cases heq
  refine ⟨?_, ?_, ?_, ?_⟩
  · intro hroom
    unfold Layout.enqueue at hoverflow
    unfold Found.HasRoom at hroom
    rw [Layout.arrive_eq] at hoverflow
    split at hoverflow
    · rename_i hchords
      rw [if_pos hchords] at hroom
      exact absurd (hoverflow.symm.trans (Bounded.pushBack_eq_none.mpr hroom)) (by simp)
    · rename_i hchords
      rw [if_neg hchords] at hroom
      exact absurd (hoverflow.symm.trans (Bounded.pushBack_eq_none.mpr hroom)) (by simp)
  · rw [Layout.enqueue_eq, Layout.arrive_eq]
    exact ⟨rfl, rfl, rfl⟩
  · intro hchords
    have hnone : ¬ cfg.chordsV2.isSome = true := by simp [hchords]
    unfold Layout.enqueue at hoverflow ⊢
    rw [if_neg hnone] at hoverflow ⊢
    have hpushed := Bounded.pushBack_append (s.arrive event).queue
      (⟨event, 0, some s.arrivals⟩ : Queued)
    have hqueue : (s.arrive event).queue = s.queue := by rw [Layout.arrive_eq]
    have harrivals : (s.arrive event).arrivals = s.arrivals + 1 := by rw [Layout.arrive_eq]
    have hlater := (arrived_rule cfg).later (hs.arrived hchords) (Nat.le_succ _)
    have hall := (arrived_rule cfg).push hchords hlater
      (q := ⟨event, 0, some s.arrivals⟩) rfl
    rw [hoverflow, hqueue] at hpushed
    rw [← hpushed] at hall
    dsimp only
    rw [harrivals, hqueue]
    exact ⟨hall.known _ List.mem_cons_self,
      fun q' hq' => (List.pairwise_cons.mp hall.sorted).1 q' hq'⟩
  · intro hchords
    unfold Layout.enqueue
    rw [if_pos hchords, Layout.arrive_eq]

/-- A step that meets the condition flushes as it should. -/
theorem flushesInOrder_of_oldest {op : LayoutOp} (hs : QueuedInOrder cfg s)
    (hop : s.OverflowsOldest cfg op) : s.FlushesInOrder cfg op := by
  intro q s₁ s' e hoverflowing hstep
  cases op with
  | event event =>
    rcases overflowing_event hs hoverflowing with ⟨hfull, hsame, hfirst, hbehind⟩
    rcases hop.resolve_left hfull with ⟨hextra, himmediate, hdrained⟩
    have hobeys := overflowing_obeys hs.obeys hoverflowing
    rcases bind_eq_ok.mp (step_of_overflowing hoverflowing hstep) with ⟨s₂, hflush, hdequeue⟩
    rcases bind_eq_ok.mp hdequeue with ⟨⟨s₃, e₃⟩, hdequeue, heq⟩
    have heq := pure_eq_ok.mp heq
    rcases flush_resolves hobeys (by rw [hsame.extraWaiting]; exact hextra)
      (by rw [hsame.waiting, hsame.extraWaiting]; exact himmediate) hflush with
      ⟨hwaiting, hempty, hresolved⟩
    refine ⟨s₂, hflush, hwaiting, hempty, hresolved, ?_, ?_⟩
    · rcases dequeue_trace ((flush_free hobeys hflush).obeys hobeys) hdequeue with ⟨os, hos⟩
      refine ⟨os ++ Layout.discardNotes e₃, ?_⟩
      rw [← heq, Layout.discard_trace, hos]
      simp
    · -- what is performed puts only later events into the queue, or none
      have hqueued : q.Obeys (Discipline.free cfg) := by
        unfold Queued.Obeys
        split <;> trivial
      have hperforms : Performs (Discipline.free cfg) s₁ s' .noEvent :=
        (overflowed_ensures (act_actsWithin _) hobeys hqueued (.refl s₁)).of_ok
          (step_of_overflowing hoverflowing hstep)
      cases hchords : cfg.chordsV2.isSome with
      | false => exact ((notEarlier_rule cfg q).performs hperforms (hfirst hchords)).2
      | true =>
        have hnone := (empty_rule hchords).performs hperforms (by
          rw [hbehind hchords]
          exact hdrained hchords)
        intro q' hq'
        have hnone : s'.queue.items = [] := hnone
        rw [hnone] at hq'
        cases hq'
  | eventToFront event =>
    rcases Option.map_eq_some_iff.mp hoverflowing with ⟨overflow, hoverflow, _⟩
    have hroom : (s.arrive event).queue.items.length < queueSize := by
      rw [Layout.arrive_eq]
      show s.queue.items.length < queueSize
      have hempty : s.queue.items = [] := hop
      rw [hempty]
      decide
    rw [(Bounded.pushFront_of_lt hroom _).2] at hoverflow
    cases hoverflow
  | _ => cases hoverflowing

/-- In every run whose overflows meet the condition, each event that overflows the
queue is flushed for as it should. -/
theorem overflow_flushes (cfg : LayoutConfig C R T) (delay : Nat) (ops : List LayoutOp)
    (h : Along (Layout.step cfg) (Layout.OverflowsOldest cfg) (.new delay) ops) :
    Along (Layout.step cfg) (Layout.FlushesInOrder cfg) (.new delay) ops :=
  along_of_invariant (fun _ _ _ _ hs hop hstep => step_queuedInOrder hs hop hstep)
    (fun _ _ hs hop => flushesInOrder_of_oldest hs hop) (new_queuedInOrder cfg delay) h

end Overflow

/-! ## A state that is skipped -/

/-- A hold-tap key that is not decided for a while. -/
def slowHoldTap (hold : Action Nat) : Action Nat :=
  .holdTap ⟨200, hold, .noOp, hold, .default, 0, none, none, twoHundred_le_u16Max⟩

/-- A `switch` whose cases are always true and are hold-tap keys. -/
def holdTaps (n : Nat) : LayoutConfig 16 2 Nat :=
  oneLayer [.switch ⟨(List.range n).map fun i => ⟨[], slowHoldTap (.custom i), .fallthrough⟩, 0⟩]

def Action.isCustom : Action T → Bool
  | .custom _ => true
  | _ => false

theorem every_of_isCustom (a : Action Nat) (h : a.isCustom = true) :
    a.Every Action.IsImmediate := by
  cases a with
  | custom v => exact .leaf trivial rfl
  | _ => cases h

/-- The key is pressed, and the queue is filled to overflow. -/
def fillQueue : List LayoutOp := press 1 :: .tick :: List.replicate 33 (press 2)

/-- What the loop makes of the states that wait when the key overflows the queue. -/
def flushedIds (cfg : LayoutConfig 16 2 Nat) (s : Layout Nat) (op : LayoutOp) :
    Option (List Nat × List Nat) :=
  match s.overflowing cfg op with
  | none => none
  | some (_, s₁) =>
    match Layout.flush (Layout.act cfg) cfg Layout.flushIndices s₁ with
    | .ok s₂ => some (s₁.pendingIds, s₂.pendingIds)
    | .error _ => none

/-- Three states wait when the queue overflows. The third one is not resolved: when
the second is taken out, the third takes its index. -/
theorem overflow_skips :
    ∃ s os s' e, run (Layout.step (holdTaps 3)) (.new 0) (fillQueue.take 34) = .ok (s, os) ∧
      s.step (holdTaps 3) (press 2) = .ok (s', e) ∧
      flushedIds (holdTaps 3) s (press 2) = some ([0, 1, 2], [2]) ∧
      ¬ s.FlushesInOrder (holdTaps 3) (press 2) := by
  have hends : endsWith (Layout.step (holdTaps 3))
      (fun s _ => decide (flushedIds (holdTaps 3) s (press 2) = some ([0, 1, 2], [2])) &&
        endsWith (Layout.step (holdTaps 3)) (fun _ _ => true) s [press 2]) (.new 0)
      (fillQueue.take 34) = true := by
    decide
  rcases of_endsWith hends with ⟨s, os, hrun, hcheck⟩
  rw [Bool.and_eq_true] at hcheck
  have hids := of_decide_eq_true hcheck.1
  rcases of_endsWith hcheck.2 with ⟨s', _, hlast, _⟩
  rcases run_cons_eq_ok.mp hlast with ⟨s'', e, _, hstep, _, _⟩
  refine ⟨s, os, s'', e, hrun, hstep, hids, ?_⟩
  intro hflushes
  unfold flushedIds at hids
  split at hids
  · cases hids
  · rename_i q s₁ hoverflowing
    rcases hflushes q s₁ s'' e hoverflowing hstep with ⟨s₂, hflushed⟩
    rw [hflushed.flush] at hids
    simp [Layout.pendingIds, hflushed.waiting, hflushed.extraWaiting] at hids

/-- Two states that wait are both resolved. -/
theorem overflow_flushes_two :
    Along (Layout.step (holdTaps 2)) (Layout.FlushesInOrder (holdTaps 2)) (.new 0) fillQueue := by
  have halong : Along (Layout.step (holdTaps 2))
      (Layout.OverflowsWhere (holdTaps 2) fun a => a.isCustom = true) (.new 0) fillQueue := by
    decide
  exact overflow_flushes (holdTaps 2) 0 fillQueue
    (halong.mono fun _ _ => Layout.OverflowsWhere.mono every_of_isCustom)

end Kanata
