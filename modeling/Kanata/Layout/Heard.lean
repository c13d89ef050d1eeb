import Kanata.Layout.Calls
import Kanata.Layout.Trace

/-!
# Kanata.Layout.Heard — no custom event is thrown away

`do_action` returns the custom event of what it performs. The branches of `Src`
and `Repeat`, the copies of a tap action for the other keys of a chord and the
overflow of a queue throw it away. `KeepsCustom` says when an action has nothing
to throw away, and `step_heard` that a step whose actions do drops no event.

`Heard H` is about a part of a step: it adds to the trace, and when `H` holds and
its actions meet the condition, nothing that it adds is a dropped event.
-/

namespace Kanata

open Fallible Machine

variable {C R : Nat} {T : Type}

/-- A custom event was dropped. -/
def Occurrence.isDropped : Occurrence T → Bool
  | .customDiscarded (.press _) => true
  | .customDiscarded (.release _) => true
  | _ => false

/-- Not a custom action itself. -/
def Action.IsNotCustom (a : Action T) : Prop := ∀ v, a ≠ .custom v

/-- What a one-shot key can hold: the parser accepts nothing else. -/
def Action.isRetained : Action T → Bool
  | .keyCode _ => true
  | .multipleKeyCodes _ => true
  | .layer _ => true
  | _ => false

/-- The queue that `event` pushes to is not full. -/
def Found.HasRoom (cfg : LayoutConfig C R T) (found : Found T) : Prop :=
  if cfg.chordsV2.isSome then found.queuedChv2 < queueSize else found.queued < queueSize

instance (cfg : LayoutConfig C R T) (found : Found T) : Decidable (found.HasRoom cfg) := by
  unfold Found.HasRoom
  infer_instance

/-- Performing the action, with what it finds, throws no custom event away: `rpt` repeats
nothing with a custom action in it, and a one-shot key that pushes another one out finds room
for the release of that one. -/
def KeepsCustom (cfg : LayoutConfig C R T) (action : Action T) (found : Found T) : Prop :=
  match action with
  | .repeat => ∀ a ∈ found.rptAction, a.Every Action.IsNotCustom
  | .oneShot os =>
    os.action.isRetained = true ∧
      (found.oneshot.keys.items.length < oneShotMaxActive ∨ found.HasRoom cfg)
  | _ => True

/-- The state is that of a custom action at one of the coordinates. -/
def State.isCustomAt (coords : List KCoord) : State T → Bool
  | .custom _ coord => coords.contains coord
  | _ => false

/-- The input throws no custom event away: its event does not overflow a queue, and no custom
action is held at the one-shot keys that were released. (A macro releases its keys at the
coordinate `(0, 0)`.) -/
def LayoutOp.KeepsCustom (cfg : LayoutConfig C R T) (s : Layout T) : LayoutOp → Prop
  | .event _ => s.found.HasRoom cfg
  | .eventToFront _ => s.queue.items.length < queueSize
  | .tick =>
    ∀ st ∈ s.states.items, st.isCustomAt ((0, 0) :: s.oneshot.releasedKeys.items) = false
  | _ => True

instance (cfg : LayoutConfig C R T) (s : Layout T) (op : LayoutOp) :
    Decidable (op.KeepsCustom cfg s) := by
  unfold LayoutOp.KeepsCustom
  split <;> infer_instance

/-! ## Parts of a step -/

/-- The part of a step between the two layouts adds to the trace. When `H` holds and the
actions it performs throw no custom event away, no event is dropped and `G` holds. -/
def Heard (cfg : LayoutConfig C R T) (H : Prop) (s s' : Layout T) (G : Prop) : Prop :=
  ∃ os, s'.trace = s.trace ++ os ∧
    (H → (∀ o ∈ os, o.Meets (KeepsCustom cfg)) → (∀ o ∈ os, o.isDropped = false) ∧ G)

namespace Heard

variable {cfg : LayoutConfig C R T} {H K G L : Prop} {s s₁ s₂ : Layout T}

/-- Less is asked for, or less is shown. -/
theorem mono (h : Heard cfg H s s₁ G) (hH : K → H) (hG : K → G → L) :
    Heard cfg K s s₁ L := by
  rcases h with ⟨os, htrace, h⟩
  refine ⟨os, htrace, ?_⟩
  intro hpre hmeets
  rcases h (hH hpre) hmeets with ⟨hclean, hg⟩
  exact ⟨hclean, hG hpre hg⟩

/-- Only that the trace grows. -/
theorem grows (h : Heard cfg H s s₁ G) : Heard cfg False s s₁ L :=
  h.mono False.elim fun hfalse => hfalse.elim

/-- What one part shows helps the next one. -/
theorem trans (h₁ : Heard cfg H s s₁ G) (h₂ : Heard cfg (H ∧ G) s₁ s₂ L) :
    Heard cfg H s s₂ L := by
  rcases h₁ with ⟨os₁, htrace₁, h₁⟩
  rcases h₂ with ⟨os₂, htrace₂, h₂⟩
  refine ⟨os₁ ++ os₂, by rw [htrace₂, htrace₁, List.append_assoc], ?_⟩
  intro hpre hmeets
  -- the actions of each part are among those of both
  rcases h₁ hpre fun o ho => hmeets o (List.mem_append_left _ ho) with ⟨hclean₁, hg₁⟩
  rcases h₂ ⟨hpre, hg₁⟩ fun o ho => hmeets o (List.mem_append_right _ ho) with ⟨hclean₂, hg₂⟩
  refine ⟨?_, hg₂⟩
  intro o ho
  rcases List.mem_append.mp ho with ho | ho
  · exact hclean₁ o ho
  · exact hclean₂ o ho

/-- What a part shows is not needed. -/
theorem ignored (h : Heard cfg H s s₁ G) : Heard cfg H s s₁ True :=
  h.mono (fun h => h) fun _ _ => trivial

/-- The next part asks for nothing. -/
theorem andThen (h₁ : Heard cfg H s s₁ G) (h₂ : Heard cfg True s₁ s₂ L) : Heard cfg H s s₂ L :=
  h₁.trans (h₂.mono (fun _ => trivial) fun _ h => h)

/-- Something that adds nothing. -/
theorem same (htrace : s₁.trace = s.trace) (hG : H → G) : Heard cfg H s s₁ G := by
  refine ⟨[], by simp [htrace], ?_⟩
  intro hpre _
  exact ⟨by simp, hG hpre⟩

/-- Something that adds nothing, before or after. -/
theorem congr {a b : Layout T} (h : Heard cfg H s s₁ G) (hs : a.trace = s.trace)
    (hs₁ : b.trace = s₁.trace) : Heard cfg H a b G := by
  rcases h with ⟨os, htrace, h⟩
  exact ⟨os, by rw [hs₁, htrace, hs], h⟩

/-- Occurrences that are about something else than custom events. -/
theorem about {topic : Topic} {os : List (Occurrence T)} (htrace : s₁.trace = s.trace ++ os)
    (hos : About topic os) (hne : topic ≠ .custom) : Heard cfg True s s₁ True := by
  refine ⟨os, htrace, ?_⟩
  intro _ _
  refine ⟨?_, trivial⟩
  intro o ho
  have htopic := hos o ho
  cases o with
  | customDiscarded e => exact absurd htopic.symm hne
  | _ => rfl

/-- An occurrence that is no dropped event. -/
theorem noted {o : Occurrence T} (htrace : s₁.trace = s.trace ++ [o]) (ho : o.isDropped = false) :
    Heard cfg True s s₁ True := by
  refine ⟨[o], htrace, ?_⟩
  intro _ _
  simpa using ho

/-- One more occurrence that is no dropped event. -/
theorem thenNoted {o : Occurrence T} (h : Heard cfg H s s₁ G) (htrace : s₂.trace = s₁.trace ++ [o])
    (ho : o.isDropped = false) : Heard cfg H s s₂ G := by
  have hnoted : Heard cfg True s₁ s₂ True := .noted htrace ho
  exact h.trans (hnoted.mono (fun _ => trivial) fun hpre _ => hpre.2)

/-- The action that `rpt` repeats is noted, and no event is dropped. -/
theorem remembers (h : Heard cfg H s s₁ G) (action : Action T) :
    Heard cfg H s (s₁.setRptAction action) G := h.thenNoted rfl rfl

/-- An action that is performed is one of those that meet the condition. -/
theorem performed {action : Action T} {coord : KCoord} {found : Found T}
    (h : Heard cfg (KeepsCustom cfg action found) (s.note (.performed action coord found)) s₁ G) :
    Heard cfg True s s₁ G := by
  rcases h with ⟨os, htrace, h⟩
  refine ⟨.performed action coord found :: os, by rw [htrace]; simp, ?_⟩
  intro _ hmeets
  rcases h (hmeets _ List.mem_cons_self) fun o ho => hmeets o (List.mem_cons_of_mem _ ho) with
    ⟨hclean, hg⟩
  refine ⟨?_, hg⟩
  intro o ho
  rcases List.mem_cons.mp ho with rfl | ho
  · rfl
  · exact hclean o ho

/-- Updates drop no custom event: what falls out of a queue is something else. -/
theorem updates {E : Panic → Prop} {D : Discipline cfg E} (h : Updates D s s₁) :
    Heard cfg True s s₁ True := by
  induction h with
  | refl => exact same rfl fun _ => trivial
  | @andThen s₁ h u hu ih =>
    -- no update is about custom events
    have hne : u.topic ≠ .custom := by cases u <;> simp [Update.topic]
    exact ih.andThen (about (u.apply_trace s₁) (u.notes_about s₁) hne)

/-- An event that is merged, when it or the one before it is none. -/
theorem discard {e : CustomEvent T} (h : Heard cfg H s s₁ G) (he : H → G → e = .noEvent) :
    Heard cfg H s (s₁.discard e) G := by
  refine h.trans ?_
  refine ⟨Layout.discardNotes e, Layout.discard_trace s₁ e, ?_⟩
  rintro ⟨hpre, hg⟩ _
  rw [he hpre hg]
  exact ⟨by simp [Layout.discardNotes], hg⟩

end Heard

/-! ## What comes out of an action -/

/-- As much room as before. -/
structure SameRoom (s s' : Layout T) : Prop where
  keys : s'.oneshot.keys = s.oneshot.keys
  queue : s'.queue = s.queue
  chordsQueue : s'.chordsV2.queue = s.chordsV2.queue

namespace SameRoom

variable {s s₁ s₂ : Layout T}

theorem refl (s : Layout T) : SameRoom s s := ⟨rfl, rfl, rfl⟩

theorem trans (h₁ : SameRoom s s₁) (h₂ : SameRoom s₁ s₂) : SameRoom s s₂ :=
  ⟨h₂.keys.trans h₁.keys, h₂.queue.trans h₁.queue, h₂.chordsQueue.trans h₁.chordsQueue⟩

/-- Room for an event is left. -/
theorem hasRoom {cfg : LayoutConfig C R T} (h : SameRoom s s₁) (hroom : s.found.HasRoom cfg) :
    s₁.found.HasRoom cfg := by
  unfold Found.HasRoom Layout.found at *
  rwa [h.queue, h.chordsQueue]

theorem foldl {α : Type} {f : Layout T → α → Layout T} (hf : ∀ s x, SameRoom s (f s x)) :
    ∀ (xs : List α) (s : Layout T), SameRoom s (xs.foldl f s)
  | [], s => refl s
  | x :: xs, s => (hf s x).trans (foldl hf xs (f s x))

/-- The one-shot keys are as many as before. -/
theorem addStateToRetain (s : Layout T) (state : OneShotRetainableState) :
    SameRoom s (s.addStateToRetain state) := by
  unfold Layout.addStateToRetain OneShotState.addStateToRetain
  split
  · exact refl s
  · exact ⟨rfl, rfl, rfl⟩

/-- The history of keys has its own room. -/
theorem pushHistoricalKey (s : Layout T) (kc : KeyCode) : SameRoom s (s.pushHistoricalKey kc) := by
  rw [Layout.pushHistoricalKey_eq]
  exact ⟨rfl, rfl, rfl⟩

/-- The end of a key code that a one-shot key holds. -/
theorem finishKeyCodes {call : Call T} (honeshot : call.isOneshot = true) (s : Layout T)
    (kcs : List KeyCode) (pushKeys : MultiKeyBuffer → MultiKeyBuffer) :
    SameRoom s (s.finishKeyCodes call kcs pushKeys) := by
  unfold Layout.finishKeyCodes
  rw [if_pos honeshot]
  exact (foldl (fun s kc => addStateToRetain s (.keyCode call.coord kc)) kcs s).trans
    ⟨rfl, rfl, rfl⟩

/-- A key of an output chord takes room among the states only. -/
theorem pressKeyCode (call : Call T) (s : Layout T) (kc : KeyCode) :
    SameRoom s (Layout.pressKeyCode call s kc) := by
  unfold Layout.pressKeyCode
  dsimp only
  split
  · have hsuppress : SameRoom s (s.suppressKey kc) := ⟨rfl, rfl, rfl⟩
    exact (hsuppress.trans (pushHistoricalKey _ kc)).trans ⟨rfl, rfl, rfl⟩
  · exact (pushHistoricalKey s kc).trans ⟨rfl, rfl, rfl⟩

/-- Output chords that end leave the queues alone. -/
theorem beforeAction {cfg : LayoutConfig C R T} {coord : KCoord}
    (h : s.beforeAction cfg coord = .ok s₁) : SameRoom s s₁ := by
  rw [Layout.beforeAction_eq h]
  exact ⟨rfl, rfl, rfl⟩

end SameRoom

/-- Nothing comes out of the call: it performs no custom action, or it is a call that may be
copied for the other keys of a chord. -/
def Call.IsQuiet (call : Call T) : Prop :=
  call.layerStack = [] ∧ call.action.Every Action.IsNotCustom ∨
    Layout.isReplicated call.action = true

/-- What a call of `do_action` makes of `custom_activation_count` and of the custom event: only
the first custom action of a chain of calls hands its press over. -/
structure Reported (call : Call T) (count : Nat) (s : Layout T)
    (r : Layout T × CustomEvent T × Nat) : Prop where
  counts : 0 < count → 0 < r.2.2
  event : r.2.1 = .noEvent ∨ count = 0 ∧ 0 < r.2.2
  quiet : call.IsQuiet → r.2.1 = .noEvent
  room : call.isOneshot = true → call.action.isRetained = true → SameRoom s r.1

namespace Call.IsQuiet

variable {call call' : Call T}

/-- What is inside a quiet action is quiet. -/
theorem inside (h : call.IsQuiet) (hreplicated : Layout.isReplicated call.action = false)
    (hstack : call'.layerStack = call.layerStack) (haction : call'.action ∈ call.action.children) :
    call'.IsQuiet := by
  rcases h with ⟨hempty, hevery⟩ | htrue
  · exact .inl ⟨hstack.trans hempty, hevery.inside _ haction⟩
  · rw [hreplicated] at htrue
    cases htrue

end Call.IsQuiet

/-- A call that reports what another one does. -/
theorem Reported.via {call call' : Call T} {count : Nat} {s s' : Layout T}
    {r r' : Layout T × CustomEvent T × Nat} (h : Reported call' count s' r') (hr : r.2 = r'.2)
    (hquiet : call.IsQuiet → call'.IsQuiet) (hretained : call.action.isRetained = false) :
    Reported call count s r where
  counts hcount := by
    rw [hr]
    exact h.counts hcount
  event := by
    rw [hr]
    exact h.event
  quiet hq := by
    rw [hr]
    exact h.quiet (hquiet hq)
  room _ htrue := by
    rw [hretained] at htrue
    cases htrue

/-- A call out of which nothing comes. -/
theorem Reported.silent {call : Call T} {count : Nat} {s s' : Layout T} {count' : Nat}
    (hcounts : 0 < count → 0 < count') (hretained : call.action.isRetained = false) :
    Reported call count s (s', .noEvent, count') where
  counts := hcounts
  event := .inl rfl
  quiet _ := rfl
  room _ htrue := by
    rw [hretained] at htrue
    cases htrue

/-- A `do_action` of which every custom event is heard. -/
def ActHeard (cfg : LayoutConfig C R T) (act : DoAction T) : Prop :=
  ∀ {call : Call T} {count : Nat} {s : Layout T} {r : Layout T × CustomEvent T × Nat},
    act call count s = .ok r → Heard cfg True s r.1 (Reported call count s r)

/-! ## The branches of `do_action` -/

section Branches

variable {cfg : LayoutConfig C R T} {call : Call T} {count : Nat} {s : Layout T}
  {r : Layout T × CustomEvent T × Nat}

/-- Without a discipline every call is allowed. -/
theorem call_free (call : Call T) : call.Obeys (Discipline.free cfg) :=
  ⟨trivial, fun _ _ => trivial⟩

/-- A one-shot key makes room for what it holds. -/
theorem perform_sameRoom {act : DoAction T} (honeshot : call.isOneshot = true)
    (hretained : call.action.isRetained = true)
    (h : Layout.perform act cfg call count s = .ok r) : SameRoom s r.1 := by
  have hcoord : SameRoom s (s.updateCoord call.coord) := ⟨rfl, rfl, rfl⟩
  unfold Layout.perform at h
  cases haction : call.action with
  | keyCode kc =>
    rw [haction] at h
    rw [← pure_eq_ok.mp h]
    have hhistory := hcoord.trans (.pushHistoricalKey _ kc)
    have hpush : SameRoom s (((s.updateCoord call.coord).pushHistoricalKey kc).pushState
        (.normalKey kc call.coord ⟨false, false⟩)) := hhistory.trans ⟨rfl, rfl, rfl⟩
    exact hpush.trans (.finishKeyCodes honeshot _ _ _)
  | multipleKeyCodes kcs =>
    rw [haction] at h
    rw [← pure_eq_ok.mp h]
    have hpush := hcoord.trans (.foldl (SameRoom.pressKeyCode call) kcs _)
    dsimp only
    unfold Layout.doMultipleKeyCodes
    exact hpush.trans (.finishKeyCodes honeshot _ _ _)
  | layer value =>
    rw [haction] at h
    rw [← pure_eq_ok.mp h]
    show SameRoom s (s.doLayer call value)
    unfold Layout.doLayer
    rw [if_pos honeshot]
    have hpush : SameRoom s ((s.updateCoord call.coord).pushState
        (.layerModifier value call.coord)) := hcoord.trans ⟨rfl, rfl, rfl⟩
    exact hpush.trans (.addStateToRetain _ _)
  | _ =>
    rw [haction] at hretained
    cases hretained

/-- Nothing comes out of an action that is over in one call. -/
theorem plain_heard {act : DoAction T} (hperforming : s.IsPerforming call.action)
    (hplain : call.action.isPlain = true) (h : Layout.perform act cfg call count s = .ok r) :
    Heard cfg True s r.1 (Reported call count s r) := by
  have hroom := fun h₁ h₂ => perform_sameRoom h₁ h₂ h
  rcases perform_plain act (call_free call) hperforming hplain count with ⟨s', heq, hupdates⟩
  rw [heq] at h
  have hr := pure_eq_ok.mp h
  subst hr
  exact (Heard.updates hupdates).mono (fun h => h) fun _ _ =>
    { counts := fun hcount => hcount, event := .inl rfl, quiet := fun _ => rfl, room := hroom }

/-- The first custom action of a chain of calls hands its press over, the others are queued. -/
theorem doCustom_heard {value : T} (haction : call.action = .custom value)
    (h : (s.doCustom call value count) = r) : Heard cfg True s r.1 (Reported call count s r) := by
  have hretained : call.action.isRetained = false := by rw [haction]; rfl
  -- a custom action is what a quiet call does not perform
  have hloud : ¬ call.IsQuiet := by
    rintro (⟨_, hevery⟩ | htrue)
    · exact hevery.here value haction
    · rw [haction] at htrue
      cases htrue
  have hbegins : Updates (Discipline.free cfg) s _ := .update (.updateCoord call.coord) trivial
  have hbegins := (hbegins.trans (pressOther_updates _ call.isOneshot call.coord)).andThen
    (.setRptAction call.action) trivial
  subst h
  unfold Layout.doCustom
  dsimp only
  split
  · -- the first custom action: its press comes out
    refine ((Heard.updates hbegins).andThen (Heard.noted (pushCustom_trace _ value call.coord)
      ?_)).mono (fun h => h) fun _ _ => ?_
    · split <;> rfl
    · exact {
        counts := by dsimp only; omega
        event := .inr (by dsimp only; omega)
        quiet := fun hq => absurd hq hloud
        room := fun _ htrue => by rw [hretained] at htrue; cases htrue }
  -- a later one is queued, and no event comes out
  · have hdefer := hbegins.andThen
      (.deferAction ⟨call.coord, call.delay, call.action, call.layerStack⟩)
      ⟨⟨trivial, fun _ _ => trivial⟩, value, haction⟩
    exact (Heard.updates hdefer).mono (fun h => h) fun _ _ =>
      .silent (by omega) hretained

section Act

variable {act : DoAction T} (hact : ActHeard cfg act)
include hact

/-- Actions one after the other: one of them at most hands an event over. -/
theorem actAll_heard :
    ∀ {actions : List (Action T)} {custom : CustomEvent T} {count : Nat} {s : Layout T}
      {r : Layout T × CustomEvent T × Nat},
      Layout.actAll act call actions custom count s = .ok r →
      Heard cfg (custom = .noEvent ∨ 0 < count) s r.1
        ((0 < count → 0 < r.2.2) ∧
          (r.2.1 = custom ∨ custom = .noEvent ∧ count = 0 ∧ 0 < r.2.2) ∧
          ((∀ a ∈ actions, Call.IsQuiet { call with action := a }) → r.2.1 = custom)) := by
  intro actions
  induction actions with
  | nil =>
    intro custom count s r h
    have hr := pure_eq_ok.mp h
    subst hr
    exact .same rfl fun _ => ⟨fun h => h, .inl rfl, fun _ => rfl⟩
  | cons action actions ih =>
    intro custom count s r h
    unfold Layout.actAll at h
    rcases bind_eq_ok.mp h with ⟨⟨s₁, e, count₁⟩, hfirst, h⟩
    have hfirst := hact hfirst
    have hrest := ih h
    -- at most one of the two events is one
    have hmerged : (custom = .noEvent ∨ 0 < count) → (e = .noEvent ∨ count = 0 ∧ 0 < count₁) →
        custom.lost e = .noEvent ∧
          (e = .noEvent ∧ custom.update e = custom ∨
            custom = .noEvent ∧ count = 0 ∧ 0 < count₁ ∧ custom.update e = e) := by
      rintro hcustom (rfl | ⟨hzero, hpos⟩)
      · refine ⟨?_, .inl ⟨rfl, CustomEvent.update_noEvent custom⟩⟩
        cases custom <;> rfl
      · have hnone : custom = .noEvent := by
          rcases hcustom with hnone | hpositive
          · exact hnone
          · omega
        subst hnone
        exact ⟨rfl, .inr ⟨rfl, hzero, hpos, CustomEvent.noEvent_update e⟩⟩
    have hmerge : Heard cfg (custom = .noEvent ∨ 0 < count) s (s₁.discard (custom.lost e)) _ :=
      (hfirst.mono (K := custom = .noEvent ∨ 0 < count) (fun _ => trivial) fun _ h => h).discard
        fun hcustom hreported => (hmerged hcustom hreported.event).1
    refine hmerge.trans (hrest.mono ?_ ?_)
    · rintro ⟨hcustom, hreported⟩
      rcases (hmerged hcustom hreported.event).2 with ⟨_, hupdate⟩ | ⟨_, _, hpos, _⟩
      · show custom.update e = .noEvent ∨ 0 < count₁
        rw [hupdate]
        exact hcustom.imp_right hreported.counts
      · exact .inr hpos
    · rintro ⟨hcustom, hreported⟩ ⟨hcounts, hevent, hquiet⟩
      refine ⟨fun hpos => hcounts (hreported.counts hpos), ?_, ?_⟩
      · rcases (hmerged hcustom hreported.event).2 with ⟨_, hupdate⟩ | ⟨hnone, hzero, hpos, _⟩
        · rcases hevent with hevent | ⟨hnone, hzero, hpos⟩
          · exact .inl (hevent.trans hupdate)
          · have hnone : custom = .noEvent := hupdate.symm.trans hnone
            by_cases hcount : count = 0
            · exact .inr ⟨hnone, hcount, hpos⟩
            · have hpositive : 0 < count₁ := hreported.counts (Nat.pos_of_ne_zero hcount)
              have hzero : count₁ = 0 := hzero
              omega
        · exact .inr ⟨hnone, hzero, hcounts hpos⟩
      · intro hactions
        have hnone : e = .noEvent := hreported.quiet (hactions action List.mem_cons_self)
        have hlast := hquiet fun a ha => hactions a (List.mem_cons_of_mem _ ha)
        rw [hlast]
        show custom.update e = custom
        rw [hnone, CustomEvent.update_noEvent]

/-- A branch that performs actions one after the other. -/
theorem actAll_reported {actions : List (Action T)} {t : Layout T}
    (hactions : call.IsQuiet → ∀ a ∈ actions, Call.IsQuiet { call with action := a })
    (hretained : call.action.isRetained = false)
    (h : Layout.actAll act call actions .noEvent count s = .ok r) :
    Heard cfg True s r.1 (Reported call count t (r.1.setRptAction call.action, r.2)) := by
  refine (actAll_heard hact h).mono (fun _ => .inl rfl) ?_
  rintro _ ⟨hcounts, hevent, hquiet⟩
  exact {
    counts := hcounts
    event := hevent.imp_right fun h => h.2
    quiet := fun hq => hquiet (hactions hq)
    room := fun _ htrue => by rw [hretained] at htrue; cases htrue }

/-- The actions of a `multi`, of which the first custom one is handed over. -/
theorem doMultipleActions_heard {actions : List (Action T)}
    (haction : call.action = .multipleActions actions)
    (h : Layout.doMultipleActions act actions call count s = .ok r) :
    Heard cfg True s r.1 (Reported call count s r) := by
  unfold Layout.doMultipleActions at h
  rcases bind_eq_ok.mp h with ⟨⟨s₁, custom, count₁⟩, hall, h⟩
  rw [← pure_eq_ok.mp h]
  have hquiet : call.IsQuiet → ∀ a ∈ actions, Call.IsQuiet { call with action := a } := by
    intro hq a ha
    exact hq.inside (by rw [haction]; rfl) rfl (by rw [haction]; exact ha)
  exact (actAll_reported hact hquiet (by rw [haction]; rfl) hall).remembers call.action

/-- What comes out of the branch that is taken. -/
theorem doFork_heard {fcfg : ForkConfig (Action T)} (haction : call.action = .fork fcfg)
    (h : Layout.doFork act fcfg call count s = .ok r) :
    Heard cfg True s r.1 (Reported call count s r) := by
  unfold Layout.doFork at h
  rcases bind_eq_ok.mp h with ⟨⟨s₁, custom, count₁⟩, hchoice, h⟩
  rw [← pure_eq_ok.mp h]
  have hinside : s.forkChoice fcfg ∈ call.action.children := by
    rw [haction]
    unfold Layout.forkChoice
    dsimp only
    split <;> simp [Action.children]
  refine ((hact hchoice).remembers call.action).mono (fun h => h) fun _ hreported => ?_
  exact hreported.via rfl (fun hq => hq.inside (by rw [haction]; rfl) rfl hinside)
    (by rw [haction]; rfl)

omit hact in
/-- What does not fit into the local queue of a switch is noted. -/
theorem fillSwitchQueue_heard (cfg : LayoutConfig C R T) (call : Call T) :
    ∀ (actions : List (Action T)) (queue : Bounded actionQueueLen (Action T)) (s : Layout T),
      Heard cfg True s (Layout.fillSwitchQueue call actions queue s).2 True := by
  intro actions
  induction actions with
  | nil => exact fun queue s => .same rfl fun _ => trivial
  | cons action actions ih =>
    intro queue s
    unfold Layout.fillSwitchQueue
    split
    · exact ih _ s
    · rename_i queue' lost hpush
      have hnote : Heard cfg True s
          (s.note (.actionLost ⟨call.coord, call.delay, lost, call.layerStack⟩)) True :=
        .noted rfl rfl
      exact hnote.andThen (ih queue' _)

/-- What comes out of the cases that apply. -/
theorem doSwitch_heard {sw : SwitchConfig (Action T)} (haction : call.action = .switch sw)
    (h : Layout.doSwitch act cfg sw call count s = .ok r) :
    Heard cfg True s r.1 (Reported call count s r) := by
  unfold Layout.doSwitch at h
  rcases bind_eq_ok.mp h with ⟨env, _, h⟩
  rcases bind_eq_ok.mp h with ⟨actions, hactions, h⟩
  rcases bind_eq_ok.mp h with ⟨⟨s₁, custom, count₁⟩, hall, h⟩
  rw [← pure_eq_ok.mp h]
  have hquiet : call.IsQuiet → ∀ a ∈ (Layout.fillSwitchQueue call actions .empty
      { s with activations := s.activations + 1 }).1.items,
        Call.IsQuiet { call with action := a } := by
    intro hq a ha
    refine hq.inside (by rw [haction]; rfl) rfl ?_
    rw [haction]
    rcases mem_fillSwitchQueue ha with ha | ha
    · cases ha
    · exact mem_switchActions hactions a ha
  have hfill : Heard cfg True s _ True := (fillSwitchQueue_heard cfg call actions .empty
    { s with activations := s.activations + 1 }).congr rfl rfl
  have hall := actAll_reported hact (t := s) hquiet (by rw [haction]; rfl) hall
  exact (hfill.andThen hall).remembers call.action

omit hact in
/-- A hold-tap key waits. -/
theorem holdTap_heard (w : Nat → WaitingState T) (s : Layout T) :
    Heard cfg True s (if s.waiting.isSome = true then s.pushExtraWaiting w else s.setWaiting w)
      True := by
  split
  · exact .about (@Update.apply_trace _ _ _ cfg s (.pushExtraWaiting w))
      ((Update.pushExtraWaiting w).notes_about s) (by simp [Update.topic])
  · exact .about (@Update.apply_trace _ _ _ cfg s (.setWaiting w))
      ((Update.setWaiting w).notes_about s) (by simp [Update.topic])

/-- What comes out of a tap action that is performed at once. Nothing comes out while the key
waits. -/
theorem doHoldTap_heard {ht : HoldTapAction (Action T)} (haction : call.action = .holdTap ht)
    (h : Layout.doHoldTap act cfg ht call count s = .ok r) :
    Heard cfg True s r.1 (Reported call count s r) := by
  have hretained : call.action.isRetained = false := by rw [haction]; rfl
  have hquiet : call.IsQuiet → Call.IsQuiet { call with action := ht.tap } := fun hq =>
    hq.inside (by rw [haction]; rfl) rfl (by rw [haction]; simp [Action.children])
  -- the tap action is performed at once
  have htap : ∀ s₁ : Layout T, s₁.trace = s.trace →
      (act { call with action := ht.tap } count s₁ >>= fun r =>
        pure (r.1.updateCoord call.coord, r.2)) = .ok r →
      Heard cfg True s r.1 (Reported call count s r) := by
    intro s₁ htrace h
    rcases bind_eq_ok.mp h with ⟨r', htap, h⟩
    rw [← pure_eq_ok.mp h]
    exact ((hact htap).congr htrace.symm rfl).mono (fun h => h) fun _ hreported =>
      hreported.via rfl hquiet hretained
  unfold Layout.doHoldTap at h
  dsimp only at h
  split at h
  · exact htap s rfl h
  · split at h
    · rw [← pure_eq_ok.mp h]
      exact (holdTap_heard _ s).congr rfl rfl |>.mono (fun h => h) fun _ _ =>
        .silent (fun h => h) hretained
    · exact htap (s.setTapHoldTimeout 0) rfl h

/-- What comes out of the first action. -/
theorem doEagerTapDance_heard {td : TapDance (Action T)} (haction : call.action = .tapDance td)
    (h : Layout.doEagerTapDance act td call count s = .ok r) :
    Heard cfg True s r.1 (Reported call count s r) := by
  unfold Layout.doEagerTapDance at h
  rcases bind_eq_ok.mp h with ⟨action, hfirst, h⟩
  have hinside : action ∈ call.action.children := by
    rw [haction]
    exact (Discipline.free cfg).indexInto.of_ok hfirst
  have hstarted : Heard cfg True s
      ((s.updateCoord call.coord).startTapDanceEager call.coord td) True :=
    .about (Layout.startTapDanceEager_trace (s.updateCoord call.coord) call.coord td)
      (Layout.danceNotes_about _ _ _) (by simp)
  refine hstarted.trans ((hact h).mono (fun _ => trivial) fun _ hreported => ?_)
  exact hreported.via rfl (fun hq => hq.inside (by rw [haction]; rfl) rfl hinside)
    (by rw [haction]; rfl)

/-- A quiet call whose custom event is thrown away. -/
theorem actDiscarding_heard {call' : Call T} {H : Prop} (hquiet : H → call'.IsQuiet)
    (h : Layout.actDiscarding act call' count s = .ok r) :
    Heard cfg H s r.1 (r.2.1 = .noEvent ∧ (0 < count → 0 < r.2.2)) := by
  unfold Layout.actDiscarding at h
  rcases bind_eq_ok.mp h with ⟨⟨s₁, custom, count₁⟩, hact', h⟩
  rw [← pure_eq_ok.mp h]
  refine Heard.mono (H := H) (G := Reported call' count s (s₁, custom, count₁)) ?_ (fun h => h)
    fun _ hreported => ⟨rfl, hreported.counts⟩
  exact ((hact hact').mono (fun _ => trivial) fun _ h => h).discard fun hpre hreported =>
    hreported.quiet (hquiet hpre)

omit hact in
/-- `defsrc` has keys only. -/
theorem srcKey_isNotCustom {y : Nat} {action : Action T} (h : cfg.srcKey y = .ok action) :
    action.Every Action.IsNotCustom := by
  unfold LayoutConfig.srcKey at h
  split at h
  · rename_i hy
    rw [← pure_eq_ok.mp h]
    cases cfg.srcKeys ⟨y, hy⟩ with
    | noOp => exact .leaf (fun _ heq => by cases heq) rfl
    | keyCode kc => exact .leaf (fun _ heq => by cases heq) rfl
  · cases h

/-- The event is dropped, but a key of `defsrc` has none. -/
theorem doSrc_heard (haction : call.action = .src)
    (h : Layout.doSrc act cfg call count s = .ok r) :
    Heard cfg True s r.1 (Reported call count s r) := by
  unfold Layout.doSrc at h
  rcases bind_eq_ok.mp h with ⟨action, hsrc, h⟩
  have hquiet : Call.IsQuiet { call with action, layerStack := [] } :=
    .inl ⟨rfl, srcKey_isNotCustom hsrc⟩
  refine (actDiscarding_heard hact (H := True) (fun _ => hquiet) h).mono (fun h => h) ?_
  rintro _ ⟨hnone, hcounts⟩
  have hr : r = (r.1, .noEvent, r.2.2) := by rw [← hnone]
  rw [hr]
  exact .silent hcounts (by rw [haction]; rfl)

/-- The event is dropped, so that what is repeated must have none. -/
theorem doRepeat_heard (haction : call.action = .repeat)
    (h : Layout.doRepeat act call count s = .ok r) :
    Heard cfg (KeepsCustom cfg call.action s.found) s r.1 (Reported call count s r) := by
  unfold Layout.doRepeat at h
  split at h
  · rename_i action hrpt
    have hquiet : KeepsCustom cfg call.action s.found →
        Call.IsQuiet { call with action, layerStack := [] } := by
      intro hkeeps
      rw [haction] at hkeeps
      exact .inl ⟨rfl, hkeeps action hrpt⟩
    refine (actDiscarding_heard hact hquiet h).mono (fun h => h) ?_
    rintro _ ⟨hnone, hcounts⟩
    have hr : r = (r.1, .noEvent, r.2.2) := by rw [← hnone]
    rw [hr]
    exact .silent hcounts (by rw [haction]; rfl)
  · rw [← pure_eq_ok.mp h]
    exact .same rfl fun _ => .silent (fun h => h) (by rw [haction]; rfl)

/-! ## Waiting states and events -/

omit hact in
/-- A decision is noted. -/
theorem takeWaiting_heard (cfg : LayoutConfig C R T) (s : Layout T) (w : WaitingState T)
    (outcome : WaitingAction) (idx : Option Nat) :
      Heard cfg True s (s.takeWaiting w outcome idx) True := by
  refine .noted (o := .waitingResolved w.id outcome) ?_ rfl
  rw [Layout.takeWaiting_eq]

omit hact in
/-- A press that was held leaves the history. -/
theorem resolveSlowly_heard {w : WaitingState T} {outcome : WaitingAction} {idx : Option Nat}
    {r : Layout T × Nat} (h : s.resolveSlowly cfg w outcome idx = .ok r) :
    Heard cfg True s r.1 True := by
  unfold Layout.resolveSlowly at h
  rcases bind_eq_ok.mp h with ⟨delay, _, h⟩
  rw [← pure_eq_ok.mp h]
  have hexclude : Heard cfg True s (s.excludeFromHistory w.coord) True := .noted rfl rfl
  have htake := hexclude.andThen (takeWaiting_heard cfg (s.excludeFromHistory w.coord) w outcome
    idx)
  dsimp only
  split
  · exact htake.congr rfl rfl
  · exact htake

/-- The event of the hold action is returned. -/
theorem waitingIntoHold_heard {idx : Option Nat} {r : Layout T × CustomEvent T}
    (h : Layout.waitingIntoHold act cfg idx s = .ok r) : Heard cfg True s r.1 True := by
  unfold Layout.waitingIntoHold at h
  split at h
  · rw [← pure_eq_ok.mp h]
    exact .same rfl fun _ => trivial
  · rcases bind_eq_ok.mp h with ⟨r₁, hresolve, h⟩
    rcases bind_eq_ok.mp h with ⟨r₂, hperform, h⟩
    rw [← pure_eq_ok.mp h]
    have hperformed := (hact hperform).congr (a := r₁.1) rfl rfl
    exact (resolveSlowly_heard hresolve).andThen hperformed.ignored

/-- The event of the action of the timeout is returned. -/
theorem waitingIntoTimeout_heard {idx : Option Nat} {r : Layout T × CustomEvent T}
    (h : Layout.waitingIntoTimeout act cfg idx s = .ok r) : Heard cfg True s r.1 True := by
  unfold Layout.waitingIntoTimeout at h
  split at h
  · rw [← pure_eq_ok.mp h]
    exact .same rfl fun _ => trivial
  · rcases bind_eq_ok.mp h with ⟨r₁, hresolve, h⟩
    rcases bind_eq_ok.mp h with ⟨r₂, hperform, h⟩
    rw [← pure_eq_ok.mp h]
    exact (resolveSlowly_heard hresolve).andThen (hact hperform).ignored

/-- The copies for the other keys of a chord are of quiet actions. -/
theorem replicate_heard {call : Call T} :
    ∀ {others : List (Action T × KCoord)} {count : Nat} {s : Layout T} {r : Layout T × Nat},
      (∀ o ∈ others, Layout.isReplicated o.1 = true) →
      Layout.replicate act call others count s = .ok r → Heard cfg True s r.1 True := by
  intro others
  induction others with
  | nil =>
    intro count s r _ h
    rw [← pure_eq_ok.mp h]
    exact .same rfl fun _ => trivial
  | cons o others ih =>
    intro count s r hothers h
    unfold Layout.replicate at h
    rcases bind_eq_ok.mp h with ⟨r₁, hfirst, h⟩
    have hfirst := actDiscarding_heard (H := True) hact
      (fun _ => .inr (hothers o List.mem_cons_self)) hfirst
    have hrest := ih (fun o' ho' => hothers o' (List.mem_cons_of_mem _ ho')) h
    exact hfirst.andThen hrest

omit hact in
/-- Only simple actions are copied. -/
theorem isReplicated_of_mem {action a : Action T} (ha : a ∈ Layout.replicatedActions action) :
    Layout.isReplicated a = true := by
  unfold Layout.replicatedActions at ha
  split at ha
  · exact (List.mem_filter.mp ha).2
  · split at ha
    · rename_i hreplicated
      rwa [List.mem_singleton.mp ha]
    · cases ha

/-- All copies for the keys of a chord. -/
theorem replicateForPressed_heard {w : WaitingState T} {delay : Nat} {pq : Option PressedQueue}
    {s' : Layout T} (h : Layout.replicateForPressed act w delay pq s = .ok s') :
    Heard cfg True s s' True := by
  unfold Layout.replicateForPressed at h
  split at h
  · rw [← pure_eq_ok.mp h]
    exact .same rfl fun _ => trivial
  · rcases bind_eq_ok.mp h with ⟨r₁, hloop, h⟩
    rw [← pure_eq_ok.mp h]
    refine (replicate_heard hact ?_ hloop).congr rfl rfl
    intro o ho
    simp only [List.mem_flatMap, List.mem_map] at ho
    rcases ho with ⟨a, ha, c, _, rfl⟩
    exact isReplicated_of_mem ha

/-- The event of the tap action is returned, those of the copies are dropped. -/
theorem waitingIntoTap_heard {pq : Option PressedQueue} {idx : Option Nat}
    {r : Layout T × CustomEvent T} (h : Layout.waitingIntoTap act cfg pq idx s = .ok r) :
    Heard cfg True s r.1 True := by
  unfold Layout.waitingIntoTap at h
  split at h
  · rw [← pure_eq_ok.mp h]
    exact .same rfl fun _ => trivial
  · rename_i w hw
    rcases bind_eq_ok.mp h with ⟨delay, _, h⟩
    rcases bind_eq_ok.mp h with ⟨r₁, hperform, h⟩
    rcases bind_eq_ok.mp h with ⟨s₂, hothers, h⟩
    rw [← pure_eq_ok.mp h]
    have htap := (takeWaiting_heard cfg s w .tap idx).andThen (hact hperform).ignored
    exact (htap.andThen (replicateForPressed_heard hact hothers)).congr rfl rfl

omit hact in
/-- The custom actions that a release removes are noted as released. -/
theorem dequeueRelease_heard {c : KCoord} {r : Layout T × CustomEvent T}
    (h : s.dequeueRelease c = .ok r) : Heard cfg True s r.1 True := by
  rcases dequeueRelease_trace h with ⟨removed, htrace⟩
  refine ⟨removed.map .customReleased, htrace, ?_⟩
  intro _ _
  refine ⟨?_, trivial⟩
  intro o ho
  rcases List.mem_map.mp ho with ⟨v, _, rfl⟩
  rfl

/-- The event of the action of a press is returned. -/
theorem dequeuePress_heard {c : KCoord} {since : Nat} {r : Layout T × CustomEvent T}
    (h : Layout.dequeuePress act cfg c since s = .ok r) : Heard cfg True s r.1 True := by
  rcases s.dequeuePress_calls act cfg since with ⟨action, n, _, heq⟩
  rw [heq] at h
  unfold Layout.performPressed at h
  rcases bind_eq_ok.mp h with ⟨layerStack, _, h⟩
  rcases bind_eq_ok.mp h with ⟨r₁, hperform, h⟩
  rw [← pure_eq_ok.mp h]
  have hpressed : Heard cfg True s
      ((s.takePress c).notePressed ⟨action, c, since, false, layerStack.drop n⟩) True :=
    .noted (Layout.takePress_trace s c _) rfl
  exact hpressed.andThen (hact hperform).ignored

/-- The event of an input is returned. -/
theorem dequeue_heard {q : Queued} {r : Layout T × CustomEvent T}
    (h : Layout.dequeue act cfg q s = .ok r) : Heard cfg True s r.1 True := by
  have hprocess : Heard cfg True s (s.note (.eventProcessed q)) True := .noted rfl rfl
  unfold Layout.dequeue at h
  dsimp only at h
  split at h
  · exact hprocess.andThen (dequeueRelease_heard h)
  · exact hprocess.andThen (dequeuePress_heard hact h)

/-- The events of the flush are dropped, so that nothing is said about them. -/
theorem flush_grows :
    ∀ {idxs : List (Option Nat)} {s s' : Layout T},
      Layout.flush act cfg idxs s = .ok s' → Heard cfg False s s' True := by
  intro idxs
  induction idxs with
  | nil =>
    intro s s' h
    rw [← pure_eq_ok.mp h]
    exact .same rfl fun _ => trivial
  | cons idx idxs ih =>
    intro s s' h
    unfold Layout.flush at h
    rcases bind_eq_ok.mp h with ⟨r₁, hhold, h⟩
    have hhold := (waitingIntoHold_heard hact hhold).grows (L := True)
    exact (hhold.discard (e := r₁.2) fun hfalse => hfalse.elim).trans ((ih h).mono
      (fun h => h.1) fun _ h => h)

/-- Only an event that overflows the queue is processed at once. -/
theorem overflowed_grows {overflow : Queued} {s' : Layout T}
    (h : Layout.overflowed act cfg overflow s = .ok s') : Heard cfg False s s' True := by
  unfold Layout.overflowed at h
  rcases bind_eq_ok.mp h with ⟨s₁, hflush, h⟩
  rcases bind_eq_ok.mp h with ⟨r₂, hdequeue, h⟩
  rw [← pure_eq_ok.mp h]
  have hdequeue := (dequeue_heard hact hdequeue).grows (L := True)
  exact (flush_grows hact hflush).trans ((hdequeue.mono (fun h => h.1) fun _ h => h).discard
    (e := r₂.2) fun hfalse => hfalse.1.elim)

omit hact in
/-- An event goes into the histories. -/
theorem arrive_heard (cfg : LayoutConfig C R T) (s : Layout T) (event : Event) :
    Heard cfg True s (s.arrive event) True :=
  .about (@Update.apply_trace _ _ _ cfg s (.arrive event)) ((Update.arrive event).notes_about s)
    (by simp [Update.topic])

omit hact in
/-- An event finds room in its queue. -/
theorem enqueue_of_hasRoom {event : Event} {q : Queued} (hroom : s.found.HasRoom cfg) :
    ((s.arrive event).enqueue cfg q).2 = none := by
  unfold Layout.enqueue
  unfold Found.HasRoom at hroom
  rw [Layout.arrive_eq]
  split
  · rename_i hchords
    rw [if_pos hchords] at hroom
    exact Bounded.pushBack_eq_none.mpr hroom
  · rename_i hchords
    rw [if_neg hchords] at hroom
    exact Bounded.pushBack_eq_none.mpr hroom

/-- An event that finds room in its queue drops nothing. -/
theorem eventWith_heard {event : Event} {s' : Layout T}
    (h : Layout.eventWith act cfg event s = .ok s') :
    Heard cfg (s.found.HasRoom cfg) s s' True := by
  unfold Layout.eventWith at h
  have htrace : ∀ q, ((s.arrive event).enqueue cfg q).1.trace = (s.arrive event).trace :=
    fun q => by rw [Layout.enqueue_eq]
  have harrive := arrive_heard cfg s event
  dsimp only at h
  split at h
  · rw [← pure_eq_ok.mp h]
    exact (harrive.congr rfl (htrace _)).mono (fun _ => trivial) fun _ h => h
  · rename_i overflow hoverflow
    have hgrows := (overflowed_grows hact h).congr (htrace _).symm rfl
    refine (harrive.mono (K := s.found.HasRoom cfg) (fun _ => trivial) fun _ h => h).trans
      (hgrows.mono ?_ fun _ h => h)
    rintro ⟨hroom, _⟩
    rw [enqueue_of_hasRoom hroom] at hoverflow
    cases hoverflow

/-- Nor does an event that finds room at the front. -/
theorem eventToFrontWith_heard {event : Event} {s' : Layout T}
    (h : Layout.eventToFrontWith act cfg event s = .ok s') :
    Heard cfg (s.queue.items.length < queueSize) s s' True := by
  have harrive := arrive_heard cfg s event
  have hqueue : (s.arrive event).queue = s.queue := by rw [Layout.arrive_eq]
  unfold Layout.eventToFrontWith at h
  dsimp only at h
  split at h
  · rw [← pure_eq_ok.mp h]
    exact (harrive.congr rfl rfl).mono (fun _ => trivial) fun _ h => h
  · rename_i overflow hoverflow
    have hgrows := (overflowed_grows hact h).congr (a := s.arrive event) rfl rfl
    refine (harrive.mono (K := s.queue.items.length < queueSize) (fun _ => trivial)
      fun _ h => h).trans (hgrows.mono ?_ fun _ h => h)
    rintro ⟨hroom, _⟩
    rw [hqueue] at hoverflow
    exact absurd (hoverflow.symm.trans (Bounded.pushFront_of_lt hroom _).2) (by simp)

omit hact in
/-- What a one-shot key can hold may be copied. -/
theorem isReplicated_of_isRetained {action : Action T} (h : action.isRetained = true) :
    Layout.isReplicated action = true := by
  cases action <;> first | rfl | cases h

omit hact in
/-- The press of a one-shot key adds no one-shot key by itself. -/
theorem handlePress_keys (o : OneShotState) (c : KCoord) :
    (o.handlePress (.oneShotKey c)).1.keys = o.keys := by
  unfold OneShotState.handlePress
  split <;> rfl

/-- A one-shot key that another one pushes out is released by an event. -/
theorem doOneShot_heard {os : OneShot (Action T)} (haction : call.action = .oneShot os)
    (h : Layout.doOneShot act cfg os call count s = .ok r) :
    Heard cfg (KeepsCustom cfg call.action s.found) s r.1 (Reported call count s r) := by
  unfold Layout.doOneShot at h
  rcases bind_eq_ok.mp h with ⟨⟨s₁, custom, count₁⟩, hinner, h⟩
  have hinner := (hact hinner).congr (a := s) rfl rfl
  have hkeeps : KeepsCustom cfg call.action s.found → os.action.isRetained = true ∧
      (s.oneshot.keys.items.length < oneShotMaxActive ∨ s.found.HasRoom cfg) := by
    rw [haction]
    exact fun h => h
  have hretained : call.action.isRetained = false := by rw [haction]; rfl
  have hheld := hinner.mono (K := KeepsCustom cfg call.action s.found) (fun _ => trivial)
    fun _ h => h
  dsimp only at h
  split at h
  · rw [← pure_eq_ok.mp h]
    refine ((hheld.remembers call.action).congr rfl rfl).mono (fun h => h) fun hpre hreported => ?_
    have hnone : custom = .noEvent :=
      hreported.quiet (.inr (isReplicated_of_isRetained (hkeeps hpre).1))
    rw [hnone]
    exact .silent hreported.counts hretained
  · rename_i c hpushed
    rcases bind_eq_ok.mp h with ⟨s₂, hrelease, h⟩
    rw [← pure_eq_ok.mp h]
    have hrelease :=
      (eventWith_heard hact hrelease).congr (a := s₁.setRptAction call.action) rfl rfl
    refine (hheld.remembers call.action).trans (hrelease.mono ?_ ?_)
    · -- the key is pushed out, so there is room for its release
      rintro ⟨hpre, hreported⟩
      have hroom : SameRoom (s.updateCoord call.coord) s₁ := hreported.room rfl (hkeeps hpre).1
      have hfull : ¬ s.oneshot.keys.items.length < oneShotMaxActive := by
        intro hlt
        have hkeys : ((s₁.setRptAction call.action).oneshotHandlePress
            (.oneShotKey call.coord)).1.oneshot.keys = s.oneshot.keys :=
          (handlePress_keys s₁.oneshot call.coord).trans hroom.keys
        rw [hkeys, Bounded.pushBack_eq_none.mpr hlt] at hpushed
        cases hpushed
      have hfound := (hkeeps hpre).2.resolve_left hfull
      show s₁.found.HasRoom cfg
      exact hroom.hasRoom hfound
    · rintro ⟨hpre, hreported⟩ _
      have hnone : custom = .noEvent :=
        hreported.quiet (.inr (isReplicated_of_isRetained (hkeeps hpre).1))
      rw [hnone]
      exact .silent hreported.counts hretained

/-- Each branch of `do_action`, given what it finds. -/
theorem perform_heard (hperforming : s.IsPerforming call.action)
    (h : Layout.perform act cfg call count s = .ok r) :
    Heard cfg (KeepsCustom cfg call.action s.found) s r.1 (Reported call count s r) := by
  have hwhole : ∀ {H : Prop}, Heard cfg True s r.1 (Reported call count s r) →
      Heard cfg H s r.1 (Reported call count s r) := fun h =>
    h.mono (fun _ => trivial) fun _ h => h
  have hplain : ∀ {H : Prop}, call.action.isPlain = true →
      Heard cfg H s r.1 (Reported call count s r) := fun hp => hwhole (plain_heard hperforming hp h)
  unfold Layout.perform at h
  cases haction : call.action with
  | multipleActions actions =>
    rw [haction] at h
    exact hwhole (doMultipleActions_heard hact haction h)
  | holdTap ht =>
    rw [haction] at h
    exact hwhole (doHoldTap_heard hact haction h)
  | custom value =>
    rw [haction] at h
    exact hwhole (doCustom_heard haction (pure_eq_ok.mp h))
  | oneShot os =>
    rw [haction] at h
    exact haction ▸ doOneShot_heard hact haction h
  | tapDance td =>
    rw [haction] at h
    cases hconfig : td.config with
    | lazy => exact hplain (by rw [haction]; simp [Action.isPlain, hconfig])
    | eager =>
      dsimp only at h
      rw [hconfig] at h
      exact hwhole (doEagerTapDance_heard hact haction h)
  | «repeat» =>
    rw [haction] at h
    exact haction ▸ doRepeat_heard hact haction h
  | fork fcfg =>
    rw [haction] at h
    exact hwhole (doFork_heard hact haction h)
  | «switch» sw =>
    rw [haction] at h
    exact hwhole (doSwitch_heard hact haction h)
  | src =>
    rw [haction] at h
    exact hwhole (doSrc_heard hact haction h)
  | trans =>
    rw [haction] at h
    cases h
  | _ => exact hplain (by rw [haction]; rfl)

end Act

/-- What a transparent action stands for is as quiet as the rest of the stack. -/
theorem resolveTrans_quiet {call' : Call T} (h : cfg.resolveTrans call = .ok call')
    (hq : call.IsQuiet) : call'.IsQuiet := by
  unfold LayoutConfig.resolveTrans at h
  split at h
  · rename_i haction
    rcases bind_eq_ok.mp h with ⟨r, hresolve, h⟩
    rw [← pure_eq_ok.mp h]
    -- on an empty stack a transparent action stands for a key of `defsrc` or for nothing
    rcases hq with ⟨hempty, _⟩ | htrue
    · rw [hempty] at hresolve
      unfold LayoutConfig.resolveCoord at hresolve
      rcases bind_eq_ok.mp hresolve with ⟨_, _, hresolve⟩
      rcases bind_eq_ok.mp hresolve with ⟨_, _, hresolve⟩
      rcases bind_eq_ok.mp hresolve with ⟨_, _, hresolve⟩
      rcases bind_eq_ok.mp hresolve with ⟨_, _, hresolve⟩
      unfold LayoutConfig.resolveLayers at hresolve
      split at hresolve
      · rcases bind_eq_ok.mp hresolve with ⟨a, ha, hresolve⟩
        rw [← pure_eq_ok.mp hresolve]
        exact .inl ⟨rfl, srcKey_isNotCustom ha⟩
      · rw [← pure_eq_ok.mp hresolve]
        exact .inl ⟨rfl, .leaf (fun _ heq => by cases heq) rfl⟩
    · rw [haction] at htrue
      cases htrue
  · rw [← pure_eq_ok.mp h]
    exact hq

/-- What a one-shot key can hold is not transparent. -/
theorem resolveTrans_retained {call' : Call T} (h : cfg.resolveTrans call = .ok call')
    (hretained : call.action.isRetained = true) : call' = call := by
  unfold LayoutConfig.resolveTrans at h
  split at h
  · rename_i haction
    rw [haction] at hretained
    cases hretained
  · exact (pure_eq_ok.mp h).symm

/-- What a one-shot key holds leaves the room as it is. -/
theorem doAction_sameRoom (depth : Nat) {call : Call T} {count : Nat} {s : Layout T}
    {r : Layout T × CustomEvent T × Nat} (hretained : call.action.isRetained = true)
    (honeshot : call.isOneshot = true) (h : Layout.doAction cfg depth call count s = .ok r) :
    SameRoom s r.1 := by
  cases depth with
  | zero => cases h
  | succ depth =>
    unfold Layout.doAction at h
    rcases bind_eq_ok.mp h with ⟨call', hcall', h⟩
    rcases bind_eq_ok.mp h with ⟨s₁, hs₁, h⟩
    rcases bind_eq_ok.mp h with ⟨r₁, hperformed, h⟩
    rw [← pure_eq_ok.mp h]
    -- the action is performed as it is given
    have hsame := resolveTrans_retained hcall' hretained
    rw [← hsame] at hretained honeshot
    have hroom := perform_sameRoom honeshot hretained hperformed
    exact (SameRoom.beforeAction hs₁).trans ⟨hroom.keys, hroom.queue, hroom.chordsQueue⟩

/-- Every custom event of `do_action` is heard, whatever the depth of the stack. -/
theorem doAction_heard (depth : Nat) : ActHeard cfg (Layout.doAction cfg depth) := by
  induction depth with
  | zero =>
    intro call count s r h
    cases h
  | succ depth ih =>
    intro call count s r h
    have hwhole := h
    unfold Layout.doAction at h
    rcases bind_eq_ok.mp h with ⟨call', hcall', h⟩
    rcases bind_eq_ok.mp h with ⟨s₁, hs₁, h⟩
    rcases bind_eq_ok.mp h with ⟨r₁, hperformed, h⟩
    have hr := pure_eq_ok.mp h
    subst hr
    have hperform := (perform_heard ih (isPerforming_note _ _ _) hperformed).performed.congr
      (beforeAction_trace hs₁).symm rfl
    refine (hperform.thenNoted rfl rfl).mono (fun h => h) fun _ hreported => ?_
    exact {
      counts := hreported.counts
      event := hreported.event
      quiet := fun hq => hreported.quiet (resolveTrans_quiet hcall' hq)
      room := fun honeshot hretained =>
        doAction_sameRoom (depth + 1) hretained honeshot hwhole }

/-- `do_action` with the stack of the configuration. -/
theorem act_heard : ActHeard cfg (Layout.act cfg) := doAction_heard cfg.stackDepth

end Branches

/-! ## Ticks -/

/-- No custom action is held at any of the coordinates. -/
def Layout.HoldsNoCustom (s : Layout T) (coords : List KCoord) : Prop :=
  ∀ st ∈ s.states.items, st.isCustomAt coords = false

/-- What macros leave alone: the custom actions that are held, and the one-shot keys that were
released but for the coordinate of macros itself. -/
structure MacrosKeep (s s' : Layout T) : Prop where
  customs : ∀ coords, s.HoldsNoCustom coords → s'.HoldsNoCustom coords
  released : ∀ c ∈ s'.oneshot.releasedKeys.items,
    c = (0, 0) ∨ c ∈ s.oneshot.releasedKeys.items

namespace MacrosKeep

variable {s s₁ s₂ : Layout T}

theorem refl (s : Layout T) : MacrosKeep s s := ⟨fun _ h => h, fun _ h => .inr h⟩

theorem trans (h₁ : MacrosKeep s s₁) (h₂ : MacrosKeep s₁ s₂) : MacrosKeep s s₂ where
  customs coords h := h₂.customs coords (h₁.customs coords h)
  released c hc := (h₂.released c hc).elim .inl (h₁.released c)

/-- States may go, and others come that are no custom actions. -/
theorem of_states {states : Bounded statesLen (State T)}
    (hstates : ∀ st ∈ states.items, st ∈ s.states.items ∨ ∀ coords, st.isCustomAt coords = false) :
    MacrosKeep s { s with states } where
  customs coords h st hst := (hstates st hst).elim (h st) fun hnone => hnone coords
  released _ hc := .inr hc

/-- States that go. -/
theorem retain (s : Layout T) (p : State T → Bool) :
    MacrosKeep s { s with states := s.states.retain p } :=
  of_states fun _ hst => .inl (List.mem_filter.mp hst).1

/-- A state that comes and is no custom action. -/
theorem pushState {st : State T} (hst : ∀ coords, st.isCustomAt coords = false) :
    MacrosKeep s (s.pushState st) :=
  of_states fun _ hmem => (Bounded.mem_pushIgnore hmem).elim .inl fun heq => .inr (heq ▸ hst)

end MacrosKeep

/-- A press releases no one-shot key. -/
theorem handlePress_released (o : OneShotState) (c : KCoord) :
    (o.handlePress (.other c)).1.releasedKeys = o.releasedKeys := by
  unfold OneShotState.handlePress
  split
  · rfl
  · dsimp only
    split <;> rfl

/-- A release releases the key of its own coordinate at most. -/
theorem handleRelease_released {o : OneShotState} {c c' : KCoord}
    (h : c' ∈ (o.handleRelease c).1.releasedKeys.items) : c' = c ∨ c' ∈ o.releasedKeys.items := by
  unfold OneShotState.handleRelease at h
  split at h
  · exact .inr h
  · split at h
    · exact .inr h
    · exact (Bounded.mem_pushBack h).symm

/-- One event of a macro: keys come and go at the coordinate of macros. -/
theorem processSequence_keeps (s : Layout T) (seq : SequenceState T) :
    MacrosKeep s (Layout.processSequence s seq).1 := by
  have hkey : ∀ kc, MacrosKeep s ((((s.pushState (.fakeKey kc)).pushHistoricalKey
      kc).oneshotHandlePress (.other (0, 0))).1) := by
    intro kc
    have hpush : MacrosKeep s (s.pushState (.fakeKey kc)) := .pushState fun _ => rfl
    refine hpush.trans ?_
    rw [Layout.pushHistoricalKey_eq]
    refine ⟨fun _ h => h, ?_⟩
    intro c hc
    right
    have hsame := handlePress_released (s.pushState (.fakeKey kc)).oneshot (0, 0)
    rwa [← hsame]
  have hrelease : ∀ kc, MacrosKeep s { s with
      oneshot := (s.oneshot.handleRelease (0, 0)).1
      states := s.states.retain (State.survivesSeqRelease kc) } := fun kc =>
    (MacrosKeep.retain s (State.survivesSeqRelease kc)).trans
      ⟨fun _ h => h, fun _ hc => handleRelease_released hc⟩
  unfold Layout.processSequence
  split
  · exact .refl s
  · split
    · exact .retain s _
    · dsimp only
      split
      all_goals split
      all_goals first
        | exact .refl s
        | exact hkey _
        | exact hrelease _
        | exact .pushState fun _ => rfl

/-- The macro at the front. -/
theorem advanceSequence_keeps (s : Layout T) : MacrosKeep s s.advanceSequence := by
  unfold Layout.advanceSequence
  rcases s.activeSequences.popFront with ⟨_ | seq, activeSequences⟩
  · exact .refl s
  · have hone := processSequence_keeps { s with activeSequences } seq
    dsimp only
    split
    · exact ⟨hone.customs, hone.released⟩
    · exact ⟨hone.customs, hone.released⟩

/-- All macros that are active. -/
theorem processActive_heard (cfg : LayoutConfig C R T) :
    ∀ (n : Nat) (s : Layout T), Heard cfg True s (Layout.processActive n s) True ∧
      MacrosKeep s (Layout.processActive n s) := by
  intro n
  induction n with
  | zero => exact fun s => ⟨.same rfl fun _ => trivial, .refl s⟩
  | succ n ih =>
    intro s
    rw [Layout.processActive_succ]
    have hone : Heard cfg True s s.advanceSequence True :=
      .about (Layout.advanceSequence_trace s) s.advanceNotes_about (by simp)
    have hrest := ih s.advanceSequence
    exact ⟨hone.andThen hrest.1,
      (advanceSequence_keeps s).trans hrest.2⟩

section Ticks

variable {cfg : LayoutConfig C R T} {s : Layout T}

/-- A macro that starts, or starts again. -/
theorem startSequence_heard (cfg : LayoutConfig C R T) (s : Layout T)
    (events : List (SequenceEvent T)) :
    Heard cfg True s (s.startSequence events) True ∧ MacrosKeep s (s.startSequence events) := by
  constructor
  · exact .about (Layout.startSequence_trace s events)
      ((Update.startSequence events).notes_about s) (by simp [Update.topic])
  · rw [Layout.startSequence_eq]
    exact ⟨fun _ h => h, fun _ hc => .inr hc⟩

/-- The timers and macros at the beginning of a tick. -/
theorem tickTimers_heard (cfg : LayoutConfig C R T) (s : Layout T) :
    Heard cfg True s s.tickTimers True ∧ MacrosKeep s s.tickTimers := by
  have hactive := processActive_heard cfg s.ageInputs.activeSequences.items.length s.ageInputs
  have hkeeps : MacrosKeep s (Layout.processActive s.ageInputs.activeSequences.items.length
      s.ageInputs) := ⟨hactive.2.customs, hactive.2.released⟩
  have hage : Heard cfg True s s.ageInputs True := .noted rfl rfl
  have hbegin := hage.andThen hactive.1
  have hend : ∀ {s₁ : Layout T}, Heard cfg True s s₁ True → Heard cfg True s s₁.ageHistories True :=
    fun h => h.andThen (Heard.noted rfl rfl)
  rw [tickTimers_eq]
  unfold Layout.processSequences
  dsimp only
  split
  · split
    · rename_i events _
      have hstart := startSequence_heard cfg (Layout.processActive
        s.ageInputs.activeSequences.items.length s.ageInputs) events
      have hboth := hkeeps.trans hstart.2
      exact ⟨hend (hbegin.andThen hstart.1),
        hboth.customs, hboth.released⟩
    · exact ⟨hend hbegin, hkeeps.customs, hkeeps.released⟩
  · exact ⟨hend hbegin, hkeeps.customs, hkeeps.released⟩

/-- An action that is queued, though another one may fall out. -/
theorem pushAction_heard (s : Layout T) (qa : QueuedAction T) :
    Heard cfg True s (s.pushAction qa) True :=
  .about (Layout.pushAction_trace s qa) ((Passing.queueChord qa).notes_about s)
    (by simp [Passing.topic])

/-- Chords v2 hand events over, which go into the queue. -/
theorem pushQueues_heard (cfg : LayoutConfig C R T) :
    ∀ (qs : List Queued) (s : Layout T),
      Heard cfg True s (qs.foldl Layout.pushQueue s) True ∧
        (qs.foldl Layout.pushQueue s).states = s.states ∧
        (qs.foldl Layout.pushQueue s).oneshot = s.oneshot := by
  intro qs
  induction qs with
  | nil => exact fun s => ⟨.same rfl fun _ => trivial, rfl, rfl⟩
  | cons q qs ih =>
    intro s
    have hpush : Heard cfg True s (s.pushQueue q) True :=
      .about ((Passing.receive q).apply_trace s) ((Passing.receive q).notes_about s)
        (by simp [Passing.topic])
    have hrest := ih (s.pushQueue q)
    refine ⟨hpush.andThen hrest.1, ?_, ?_⟩
    · rw [List.foldl_cons, hrest.2.1, Layout.pushQueue_eq]
    · rw [List.foldl_cons, hrest.2.2, Layout.pushQueue_eq]

/-- Chords v2 touch neither states nor one-shot keys. -/
theorem tickChordsV2_heard {s' : Layout T} (h : s.tickChordsV2 cfg = .ok s') :
    Heard cfg True s s' True ∧ MacrosKeep s s' := by
  unfold Layout.tickChordsV2 at h
  split at h
  · rw [← pure_eq_ok.mp h]
    exact ⟨.same rfl fun _ => trivial, .refl s⟩
  · rcases bind_eq_ok.mp h with ⟨⟨chordsV2, drained⟩, _, h⟩
    have hpushed := pushQueues_heard cfg drained.items
      { s with chordsV2 := chordsV2.getActionChv2.1 }
    have hkeep : MacrosKeep s (drained.items.foldl Layout.pushQueue
        { s with chordsV2 := chordsV2.getActionChv2.1 }) := by
      constructor
      · intro coords hnone st hst
        rw [hpushed.2.1] at hst
        exact hnone st hst
      · intro c hc
        rw [hpushed.2.2] at hc
        exact .inr hc
    have hheard : Heard cfg True s _ True := hpushed.1.congr rfl rfl
    rw [← pure_eq_ok.mp h]
    split
    · rename_i coord delay action _
      refine ⟨(hheard.andThen (pushAction_heard _ ⟨coord, delay, action, []⟩)).congr rfl rfl, ?_⟩
      rw [Layout.pushAction_eq]
      exact ⟨hkeep.customs, hkeep.released⟩
    · exact ⟨hheard, hkeep⟩

/-! ### One-shot keys that end -/

/-- A pass over the states finds no custom action to release. -/
theorem retainStates_custom {rule : State T → ReleaseRule} {c : KCoord} :
    ∀ {states states' : List (State T)} {rel rel' : Released T},
      (∀ st ∈ states, st.isCustomAt [c] = false) →
      retainStates rule c states rel = .ok (states', rel') → rel'.custom = rel.custom := by
  intro states
  induction states with
  | nil =>
    intro states' rel rel' _ h
    rw [← (Prod.mk.inj (pure_eq_ok.mp h)).2]
  | cons st states ih =>
    intro states' rel rel' hnone h
    have hrest : ∀ st ∈ states, st.isCustomAt [c] = false := fun st' hst =>
      hnone st' (List.mem_cons_of_mem _ hst)
    unfold retainStates at h
    split at h
    · rcases bind_eq_ok.mp h with ⟨⟨rest, rel₁⟩, hstates, h⟩
      rw [← (Prod.mk.inj (pure_eq_ok.mp h)).2]
      exact ih hrest hstates
    · exact ih hrest h
    · rcases bind_eq_ok.mp h with ⟨⟨stays, rel₁⟩, hrelease, h⟩
      rcases bind_eq_ok.mp h with ⟨⟨rest, rel₂⟩, hstates, h⟩
      rw [← (Prod.mk.inj (pure_eq_ok.mp h)).2, ih hrest hstates]
      have hfirst := hnone st List.mem_cons_self
      cases st with
      | custom value coord =>
        have hne : coord ≠ c := by simpa [State.isCustomAt] using hfirst
        simp only [State.release, if_neg hne] at hrelease
        rw [← (Prod.mk.inj (pure_eq_ok.mp hrelease)).2]
      | _ =>
        rw [← (Prod.mk.inj (pure_eq_ok.mp hrelease)).2]

/-- The release of a coordinate where no custom action is held, while no one-shot key is
active. -/
theorem dequeueRelease_silent {c : KCoord} {r : Layout T × CustomEvent T}
    (hkeys : s.oneshot.keys.items = []) (hnone : s.HoldsNoCustom [c])
    (h : s.dequeueRelease c = .ok r) :
    r.2 = .noEvent ∧ r.1.oneshot = s.oneshot ∧ r.1.states.items.Sublist s.states.items := by
  -- no one-shot key keeps the states of the coordinate
  have hrelease : s.oneshot.handleRelease c = (s.oneshot, true, none) := by
    unfold OneShotState.handleRelease
    rw [hkeys]
    rfl
  unfold Layout.dequeueRelease at h
  rw [hrelease] at h
  rcases bind_eq_ok.mp h with ⟨⟨states, rel⟩, hstates, h⟩
  rcases bind_eq_ok.mp h with ⟨⟨states₂, rel₂⟩, hoverflow, h⟩
  have heq := Prod.mk.inj (pure_eq_ok.mp hoverflow)
  rw [← pure_eq_ok.mp h, ← heq.1, ← heq.2]
  refine ⟨retainStates_custom hnone hstates, rfl, ?_⟩
  exact (List.take_sublist _ _).trans (retainStates_sublist hstates)

/-- Fewer coordinates are asked about. -/
theorem HoldsNoCustom.mono {coords coords' : List KCoord} (h : s.HoldsNoCustom coords)
    (hsub : ∀ c ∈ coords', c ∈ coords) : s.HoldsNoCustom coords' := by
  intro st hst
  have hnone := h st hst
  cases st with
  | custom value coord =>
    simp only [State.isCustomAt, List.contains_eq_mem, decide_eq_false_iff_not] at *
    exact fun hmem => hnone (hsub coord hmem)
  | _ => rfl

/-- One-shot keys that end where no custom action is held release none. -/
theorem releaseOneshots_heard :
    ∀ {keys : List KCoord} {s : Layout T} {r : Layout T × CustomEvent T},
      s.oneshot.keys.items = [] → s.HoldsNoCustom keys →
      Layout.releaseOneshots cfg keys .noEvent s = .ok r →
      r.2 = .noEvent ∧ Heard cfg True s r.1 True := by
  intro keys
  induction keys with
  | nil =>
    intro s r _ _ h
    rw [← pure_eq_ok.mp h]
    exact ⟨rfl, .same rfl fun _ => trivial⟩
  | cons key keys ih =>
    intro s r hkeys hnone h
    unfold Layout.releaseOneshots at h
    rcases bind_eq_ok.mp h with ⟨⟨s₁, e⟩, hrelease, h⟩
    have hheard := dequeue_heard act_heard hrelease
    have hsilent : e = .noEvent ∧ s₁.oneshot = s.oneshot ∧
        s₁.states.items.Sublist s.states.items :=
      dequeueRelease_silent (s := s.note (.eventProcessed (.newRelease key.1 key.2))) hkeys
        (HoldsNoCustom.mono (s := s.note _) hnone (by simp)) hrelease
    have hrest : s₁.HoldsNoCustom keys := fun st hst =>
      (HoldsNoCustom.mono hnone fun c hc => List.mem_cons_of_mem _ hc) st (hsilent.2.2.subset hst)
    rw [hsilent.1] at h
    have hlast := ih (by rw [hsilent.2.1, hkeys]) hrest h
    exact ⟨hlast.1, hheard.andThen hlast.2⟩

/-- The one-shot keys that end in a tick are those that were released. -/
theorem tickOsh_cases (o : OneShotState) :
    o.tickOsh.2 = none ∨
      o.tickOsh.2 = some o.releasedKeys.items ∧ o.tickOsh.1.keys.items = [] := by
  unfold OneShotState.tickOsh
  split
  · exact .inl rfl
  · dsimp only
    split
    · exact .inr ⟨rfl, rfl⟩
    · exact .inl rfl

/-! ### Waiting states -/

/-- The event of what a decision performs is returned. -/
theorem decide_heard {idx : Option Nat} {decision : Option (WaitingAction × Option PressedQueue)}
    {r : Layout T × CustomEvent T} (h : Layout.decide cfg idx decision s = .ok r) :
    Heard cfg True s r.1 True := by
  unfold Layout.decide at h
  split at h
  · exact waitingIntoHold_heard act_heard h
  · exact waitingIntoTap_heard act_heard h
  · exact waitingIntoTimeout_heard act_heard h
  · split at h
    · rw [← pure_eq_ok.mp h]
      unfold Layout.dropWaiting
      split
      · exact takeWaiting_heard cfg s _ .noOp none
      · exact .same rfl fun _ => trivial
    · rw [← pure_eq_ok.mp h]
      exact .about ((Passing.loseWaiting).apply_trace s) ((Passing.loseWaiting).notes_about s)
        (by simp [Passing.topic])
  · rw [← pure_eq_ok.mp h]
    exact .same rfl fun _ => trivial

/-- A look at the queue may queue actions. -/
theorem afterTickWt_heard (cfg : LayoutConfig C R T) (s : Layout T) (t : Ticked T) :
    Heard cfg True s (s.afterTickWt t) True :=
  .about (Layout.afterTickWt_trace s t) (Layout.actionsNotes_about _ _) (by simp)

/-- The first waiting state, or an event from the queue. -/
theorem tickWaiting_heard {r : Layout T × CustomEvent T} (h : s.tickWaiting cfg = .ok r) :
    Heard cfg True s r.1 True := by
  unfold Layout.tickWaiting at h
  split at h
  · rcases bind_eq_ok.mp h with ⟨t, _, h⟩
    have hafter := (afterTickWt_heard cfg { s with waiting := some t.waiting } t).congr
      (a := s) rfl rfl
    exact hafter.andThen (decide_heard h)
  · split at h
    · split at h
      · rw [← pure_eq_ok.mp h]
        exact .same rfl fun _ => trivial
      · split at h
        · rename_i q queue _
          have htake : Heard cfg True s ({ s with queue }.note (.eventTaken q)) True :=
            .noted rfl rfl
          exact htake.andThen (dequeue_heard act_heard h)
        · rw [← pure_eq_ok.mp h]
          exact .same rfl fun _ => trivial
    · rw [← pure_eq_ok.mp h]
      exact .same rfl fun _ => trivial

/-- The looks of the other waiting states. -/
theorem tickExtraWaitings_heard :
    ∀ {n i : Nat} {s : Layout T}
      {r : Layout T × Option (Nat × WaitingAction × Option PressedQueue)},
      Layout.tickExtraWaitings cfg n i s = .ok r → Heard cfg True s r.1 True := by
  intro n
  induction n with
  | zero =>
    intro i s r h
    rw [← pure_eq_ok.mp h]
    exact .same rfl fun _ => trivial
  | succ n ih =>
    intro i s r h
    unfold Layout.tickExtraWaitings at h
    split at h
    · rw [← pure_eq_ok.mp h]
      exact .same rfl fun _ => trivial
    · rcases bind_eq_ok.mp h with ⟨t, _, h⟩
      have hafter := (afterTickWt_heard cfg (s.setExtraWaiting i t.waiting) t).congr
        (a := s) rfl rfl
      dsimp only at h
      split at h
      · rw [← pure_eq_ok.mp h]
        exact hafter
      · exact hafter.andThen (ih h)

/-- One of the other decisions at most. -/
theorem processExtraWaitings_heard {custom : CustomEvent T} {r : Layout T × CustomEvent T}
    (h : s.processExtraWaitings cfg custom = .ok r) : Heard cfg True s r.1 True := by
  unfold Layout.processExtraWaitings at h
  split at h
  · rcases bind_eq_ok.mp h with ⟨⟨s₁, decided⟩, hticked, h⟩
    have hticked := tickExtraWaitings_heard hticked
    dsimp only at h
    split at h
    · exact hticked.andThen (decide_heard h)
    · rw [← pure_eq_ok.mp h]
      exact hticked
  · rw [← pure_eq_ok.mp h]
    exact .same rfl fun _ => trivial

/-- The custom action of a macro is returned as the event of the tick. -/
theorem processSequenceCustom_heard (s : Layout T) (custom : CustomEvent T) :
    Heard cfg True s (s.processSequenceCustom custom).1 True := by
  by_cases hnone : custom = .noEvent
  · subst hnone
    refine ⟨_, Layout.advanceCustom_trace s, fun _ _ => ⟨?_, trivial⟩⟩
    unfold Layout.customNotes
    split <;> simp [Occurrence.isDropped]
  · rw [Layout.processSequenceCustom_busy s hnone]
    exact .same rfl fun _ => trivial

/-! ### A whole step -/

/-- The part of a tick past the action queue. Only the releases of one-shot keys come before
another event. -/
theorem tickMain_heard {r : Layout T × CustomEvent T}
    (hnone : s.HoldsNoCustom ((0, 0) :: s.oneshot.releasedKeys.items))
    (h : s.tickMain cfg = .ok r) : Heard cfg True s r.1 True := by
  have htimers := tickTimers_heard cfg s
  -- the keys that end were released before the tick, or by a macro in it
  have hended : s.tickTimers.HoldsNoCustom s.tickTimers.oneshot.releasedKeys.items :=
    HoldsNoCustom.mono (htimers.2.customs _ hnone) fun c hc =>
      (htimers.2.released c hc).elim (fun heq => by simp [heq]) (List.mem_cons_of_mem _)
  have hrelease : ∀ {r : Layout T × CustomEvent T}, Layout.releaseOneshots cfg
      (s.tickTimers.oneshot.tickOsh.2.getD []) .noEvent
        { s.tickTimers with oneshot := s.tickTimers.oneshot.tickOsh.1 } = .ok r →
      r.2 = .noEvent ∧ Heard cfg True s.tickTimers r.1 True := by
    intro r h
    rcases tickOsh_cases s.tickTimers.oneshot with hrest | ⟨hends, hkeys⟩
    · rw [hrest] at h
      rw [← pure_eq_ok.mp h]
      exact ⟨rfl, .same rfl fun _ => trivial⟩
    · rw [hends] at h
      have hreleased := @releaseOneshots_heard _ _ _ cfg _
        { s.tickTimers with oneshot := s.tickTimers.oneshot.tickOsh.1 } _ hkeys hended h
      exact ⟨hreleased.1, hreleased.2.congr rfl rfl⟩
  unfold Layout.tickMain at h
  rcases bind_eq_ok.mp h with ⟨⟨s₁, custom⟩, honeshots, h⟩
  have hreleased := hrelease honeshots
  have hsilent : custom = .noEvent := hreleased.1
  subst hsilent
  rcases bind_eq_ok.mp h with ⟨⟨s₂, e⟩, hwaiting, h⟩
  -- nothing came out before, so the event is merged with none
  have h : (s₂.processExtraWaitings cfg (CustomEvent.noEvent.update e) >>= fun r =>
      pure (r.1.processSequenceCustom r.2)) = .ok r := h
  rcases bind_eq_ok.mp h with ⟨⟨s₃, custom₃⟩, hextra, h⟩
  rw [← pure_eq_ok.mp h]
  have hbegin := htimers.1.andThen hreleased.2
  have hwaited := hbegin.andThen (tickWaiting_heard hwaiting)
  have hextra := hwaited.andThen (processExtraWaitings_heard hextra)
  exact hextra.andThen (processSequenceCustom_heard s₃ custom₃)

/-- A tick in which no released one-shot key holds a custom action. -/
theorem tick_heard {r : Layout T × CustomEvent T}
    (hnone : s.HoldsNoCustom ((0, 0) :: s.oneshot.releasedKeys.items))
    (h : s.tick cfg = .ok r) : Heard cfg True s r.1 True := by
  unfold Layout.tick at h
  split at h
  · rw [← pure_eq_ok.mp h]
    exact .same rfl fun _ => trivial
  · rcases bind_eq_ok.mp h with ⟨s₁, hchords, h⟩
    have hchords := tickChordsV2_heard hchords
    dsimp only at h
    split at h
    · rename_i qa actionQueue _
      rcases bind_eq_ok.mp h with ⟨⟨s₂, custom, count⟩, hperform, h⟩
      rw [← pure_eq_ok.mp h]
      have htaken : Heard cfg True s₁ ({ s₁ with
          keysToSuppressForOneCycle := .empty, actionQueue }.note (.actionTaken qa)) True :=
        .noted rfl rfl
      have hperformed := htaken.andThen (act_heard hperform).ignored
      exact hchords.1.andThen hperformed
    · have hleft : ({ s₁ with keysToSuppressForOneCycle := .empty } : Layout T).HoldsNoCustom
          ((0, 0) :: s₁.oneshot.releasedKeys.items) :=
        HoldsNoCustom.mono (s := s₁) (hchords.2.customs _ hnone) fun c hc => by
          rcases List.mem_cons.mp hc with rfl | hc
          · exact List.mem_cons_self
          · exact (hchords.2.released c hc).elim (fun heq => by simp [heq])
              (List.mem_cons_of_mem _)
      have hmain := (tickMain_heard hleft h).congr (a := s₁) rfl rfl
      exact hchords.1.andThen hmain

/-- A step whose input and actions throw no custom event away drops none. -/
theorem step_heard {op : LayoutOp} {r : Layout T × CustomEvent T} (hop : op.KeepsCustom cfg s)
    (h : s.step cfg op = .ok r) : Heard cfg True s r.1 True := by
  cases op with
  | event ev =>
    rcases bind_eq_ok.mp h with ⟨s₁, hevent, h⟩
    rw [← pure_eq_ok.mp h]
    exact (eventWith_heard act_heard hevent).mono (fun _ => hop) fun _ h => h
  | eventToFront ev =>
    rcases bind_eq_ok.mp h with ⟨s₁, hevent, h⟩
    rw [← pure_eq_ok.mp h]
    exact (eventToFrontWith_heard act_heard hevent).mono (fun _ => hop) fun _ h => h
  | tick => exact tick_heard hop h
  | setDefaultLayer value =>
    rw [← pure_eq_ok.mp h]
    refine .same ?_ fun _ => trivial
    rw [Layout.setDefaultLayer_eq]
  | _ =>
    rw [← pure_eq_ok.mp h]
    exact .same rfl fun _ => trivial

end Ticks

end Kanata
