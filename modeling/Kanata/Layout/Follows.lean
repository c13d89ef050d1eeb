import Kanata.Layout.Frame
import Kanata.Layout.Presses

/-!
# Kanata.Layout.Follows — what performing actions does to what is under way

Performing an action, or processing an event, changes the pending decisions and the eager
tap-dance in a few ways only. A relation between layouts that `Follows` these holds from
before to after each function around `do_action`: the lemmas go through the functions once,
for every such relation.
-/

namespace Kanata

open Fallible

variable {C R : Nat} {T : Type}

namespace Layout

variable {s s' : Layout T} {c p : KCoord} {td : TapDance (Action T)}

/-! ## Relations that follow -/

/-- What is under way: the decisions, how many there were so far, and the eager tap-dance. -/
structure Watched (T : Type) where
  waiting : Option (WaitingState T)
  extraWaiting : Bounded extraWaitingLen (WaitingState T)
  created : Nat
  tapDanceEager : Option (TapDanceEagerState T)

/-- The part of the layout that a relation which `Follows` may speak about without care for the
rest. -/
def watched (s : Layout T) : Watched T := ⟨s.waiting, s.extraWaiting, s.created, s.tapDanceEager⟩

/-- A decision that starts, given its number: it has not looked at the queue. -/
def Starts (w : Nat → WaitingState T) : Prop :=
  ∀ id, (w id).id = id ∧ (w id).prevQueueLen = queueLenMax

/-- A hold-tap starts with a length of the queue that the queue never has, so that its first
look is never skipped. -/
theorem starts_holdTapWaiting (quickTapHoldTimeout : Bool) (ht : HoldTapAction (Action T))
    (coord : KCoord) (delay : Nat) (layerStack : List Nat) :
    Starts (holdTapWaiting quickTapHoldTimeout ht coord delay layerStack) := fun _ => ⟨rfl, rfl⟩

/-- The relation holds across everything that actions do to what is under way. Only
hold-taps start while another decision is pending without taking its place. -/
structure Follows (P : Layout T → Layout T → Prop) : Prop where
  trans : ∀ {s₁ s₂ s₃}, P s₁ s₂ → P s₂ s₃ → P s₁ s₃
  same : ∀ {s s'}, s'.watched = s.watched → P s s'
  setWaiting : ∀ s {w}, Starts w → P s (s.setWaiting w)
  pushExtraWaiting : ∀ s {w}, Starts w → (∀ id, ∃ cfg, (w id).config = .holdTap cfg) →
    P s (s.pushExtraWaiting w)
  takeWaiting : ∀ s {w idx} outcome, s.waitingAt idx = some w → P s (s.takeWaiting w outcome idx)
  startTapDanceEager : ∀ s coord td, P s (s.startTapDanceEager coord td)
  takePress : ∀ s p, P s (s.takePress p)

namespace Follows

variable {P : Layout T → Layout T → Prop} {s₁ s₂ s₃ : Layout T}

/-- Nothing was done. -/
theorem refl (hP : Follows P) (s : Layout T) : P s s := hP.same rfl

/-- An update that leaves alone what is under way, at the end. -/
theorem then_same (hP : Follows P) (h : P s₁ s₂) (heq : s₃.watched = s₂.watched) : P s₁ s₃ :=
  hP.trans h (hP.same heq)

/-- Such an update at the start. -/
theorem after_same (hP : Follows P) (h : P s₂ s₃) (heq : s₂.watched = s₁.watched) : P s₁ s₃ :=
  hP.trans (hP.same heq) h

end Follows

/-! ## What leaves alone what is under way -/

section Frame

variable {call : Call T}

/-- What is noted for the proofs is not part of the state of the layout. -/
@[simp] theorem note_watched (o : Occurrence T) :
    (s.note o).watched = s.watched := rfl

/-- A custom event that `do_action` returns to a caller that drops it. -/
@[simp] theorem discard_watched (e : CustomEvent T) :
    (s.discard e).watched = s.watched := by
  rw [discard_eq]
  rfl

@[simp] theorem noteLost_watched {α : Type} (lost : Option α) (o : α → Occurrence T) :
    (s.noteLost lost o).watched = s.watched := by
  rw [noteLost_eq]
  rfl

/-- Keys that are held decide nothing that is under way. -/
@[simp] theorem pushState_watched (st : State T) :
    (s.pushState st).watched = s.watched := rfl

@[simp] theorem setRptAction_watched (action : Action T) :
    (s.setRptAction action).watched = s.watched := rfl

@[simp] theorem updateCoord_watched (coord : KCoord) :
    (s.updateCoord coord).watched = s.watched := rfl

@[simp] theorem setTapHoldTimeout_watched (timeout : Nat) :
    (s.setTapHoldTimeout timeout).watched = s.watched := rfl

@[simp] theorem pushHistoricalKey_watched (kc : KeyCode) :
    (s.pushHistoricalKey kc).watched = s.watched := by
  rw [pushHistoricalKey_eq]
  rfl

@[simp] theorem oneshotHandlePress_watched (key : OneShotHandlePressKey) :
    (s.oneshotHandlePress key).1.watched = s.watched := rfl

/-- One-shot keys may be released by the press of another key, which is seen at the next tick.
-/
@[simp] theorem pressOther_watched (isOneshot : Bool) (coord : KCoord) :
    (s.pressOther isOneshot coord).watched = s.watched := by
  unfold pressOther
  split <;> rfl

@[simp] theorem suppressKey_watched (kc : KeyCode) :
    (s.suppressKey kc).watched = s.watched := rfl

@[simp] theorem pauseInputProcessing_watched :
    s.pauseInputProcessing.watched = s.watched := rfl

/-- Actions are queued for a later tick. -/
@[simp] theorem pushAction_watched (qa : QueuedAction T) :
    (s.pushAction qa).watched = s.watched := by
  rw [pushAction_eq]
  rfl

@[simp] theorem pushQueue_watched (q : Queued) :
    (s.pushQueue q).watched = s.watched := by
  rw [pushQueue_eq]
  rfl

/-- A macro that starts may take the place of the oldest one, and of no decision. -/
@[simp] theorem startSequence_watched (events : List (SequenceEvent T)) :
    (s.startSequence events).watched = s.watched := by
  rw [startSequence_eq]
  rfl

@[simp] theorem setDefaultLayer_watched (cfg : LayoutConfig C R T) (value : Nat) :
    (s.setDefaultLayer cfg value).watched = s.watched := by
  rw [setDefaultLayer_eq]
  rfl

/-- The histories of events hold what arrives. -/
@[simp] theorem arrive_watched (event : Event) :
    (s.arrive event).watched = s.watched := by
  rw [arrive_eq]
  rfl

/-- Chords v2 or the queue take the event in. -/
@[simp] theorem enqueue_watched (cfg : LayoutConfig C R T) (q : Queued) :
    (s.enqueue cfg q).1.watched = s.watched := by
  rw [enqueue_eq]
  rfl

@[simp] theorem pushCustom_watched (value : T) (coord : KCoord) :
    (s.pushCustom value coord).watched = s.watched := by
  rw [pushCustom_eq]
  rfl

/-- A loop of updates that leave alone what is under way. -/
theorem foldl_watched {α : Type} {f : Layout T → α → Layout T}
    (hf : ∀ s x, (f s x).watched = s.watched) (xs : List α) :
    ∀ s : Layout T, (xs.foldl f s).watched = s.watched := by
  induction xs with
  | nil => exact fun _ => rfl
  | cons x xs ih => exact fun s => (ih (f s x)).trans (hf s x)

/-- A one-shot key retains its keys, any other action presses or releases one-shot keys. -/
@[simp] theorem finishKeyCodes_watched (kcs : List KeyCode)
    (pushKeys : MultiKeyBuffer → MultiKeyBuffer) :
    (s.finishKeyCodes call kcs pushKeys).watched = s.watched := by
  have hretain : ∀ (s : Layout T) kc,
      (s.addStateToRetain (.keyCode call.coord kc)).watched = s.watched := fun _ _ => rfl
  unfold finishKeyCodes
  split
  · exact foldl_watched hretain kcs s
  · dsimp only
    split <;> rfl

/-- One key of an output chord. -/
theorem pressKeyCode_watched (kc : KeyCode) :
    (pressKeyCode call s kc).watched = s.watched := by
  unfold pressKeyCode
  dsimp only
  split <;> simp

/-- An output chord presses its keys in order. -/
@[simp] theorem doMultipleKeyCodes_watched (kcs : List KeyCode)
    (pushKeys : MultiKeyBuffer → MultiKeyBuffer) :
    (s.doMultipleKeyCodes call kcs pushKeys).watched = s.watched := by
  unfold doMultipleKeyCodes
  rw [finishKeyCodes_watched]
  exact foldl_watched (fun _ _ => pressKeyCode_watched _) kcs _

/-- A custom event is returned, or queued when it is not the first of the call. -/
theorem doCustom_watched (value : T) (count : Nat) :
    (s.doCustom call value count).1.watched = s.watched := by
  unfold doCustom
  dsimp only
  split <;> simp

theorem doNoOp_watched : (s.doNoOp call).watched = s.watched := by
  unfold doNoOp
  dsimp only
  split <;> simp

/-- A layer that is held is a state like a key. -/
theorem doLayer_watched (value : Nat) :
    (s.doLayer call value).watched = s.watched := by
  unfold doLayer
  dsimp only
  split
  · rfl
  · simp

/-- The macros that run are dropped, and the keys they press with them. -/
theorem doCancelSequences_watched : (s.doCancelSequences call).watched = s.watched := by
  unfold doCancelSequences
  dsimp only
  rw [setRptAction_watched, pressOther_watched]
  rfl

/-- `release-key` and `release-layer` drop states. -/
theorem doReleaseState_watched (rs : ReleasableState) :
    (s.doReleaseState call rs).watched = s.watched := by
  unfold doReleaseState
  dsimp only
  rw [setRptAction_watched, pressOther_watched]
  rfl

/-- The actions of the cases that apply, as far as they fit. -/
theorem fillSwitchQueue_watched :
    ∀ (actions : List (Action T)) (queue : Bounded actionQueueLen (Action T)) (s : Layout T),
      (fillSwitchQueue call actions queue s).2.watched = s.watched
  | [], _, _ => rfl
  | action :: actions, queue, s => by
    rw [fillSwitchQueue]
    split
    · exact fillSwitchQueue_watched actions _ s
    · exact fillSwitchQueue_watched actions _ _

end Frame

/-! ## The functions of the layout -/

section Calls

variable {P : Layout T → Layout T → Prop} {act : DoAction T} {cfg : LayoutConfig C R T}
  {call : Call T}

/-- The relation holds across every call of `act`. -/
structure CallsFollow (P : Layout T → Layout T → Prop) (act : DoAction T) : Prop where
  follows : Follows P
  call : ∀ call count s, Ensures (act call count s) (fun r => P s r.1) fun _ => True

/-- A call in a layout that was reached so. -/
theorem CallsFollow.after (hact : CallsFollow P act) {s₀ : Layout T} (h : P s₀ s) (call : Call T)
    (count : Nat) : Ensures (act call count s) (fun r => P s₀ r.1) fun _ => True :=
  (hact.call call count s).mono (fun _ hr => hact.follows.trans h hr) fun _ hp => hp

/-- `do_action` where the caller drops the custom event. -/
theorem CallsFollow.actDiscarding (hact : CallsFollow P act) :
    CallsFollow P (actDiscarding act) := by
  refine ⟨hact.follows, fun call count s => ?_⟩
  refine Ensures.bind ((hact.call call count s).mono ?_ fun _ hp => hp)
  exact fun r hr => hact.follows.then_same hr (discard_watched _)

/-- The actions of a list are performed one after the other. -/
theorem actAll_follows (hact : CallsFollow P act) {s₀ : Layout T} (actions : List (Action T)) :
    ∀ (custom : CustomEvent T) (count : Nat) (s : Layout T), P s₀ s →
      Ensures (actAll act call actions custom count s) (fun r => P s₀ r.1) fun _ => True := by
  induction actions with
  | nil => exact fun _ _ _ h => h
  | cons action actions ih =>
    intro custom count s h
    rw [actAll]
    refine Ensures.bind ((hact.after h { call with action } count).mono ?_ fun _ hp => hp)
    exact fun r hr => ih _ _ _ (hact.follows.then_same hr (discard_watched _))

/-! ### Events -/

/-- A release lets go of states. What it decides, the looks of the next ticks decide. -/
theorem dequeueRelease_watched {r : Layout T × CustomEvent T}
    (h : s.dequeueRelease c = .ok r) : r.1.watched = s.watched := by
  unfold dequeueRelease at h
  rcases bind_eq_ok.mp h with ⟨_, _, h⟩
  rcases bind_eq_ok.mp h with ⟨_, _, h⟩
  rw [← pure_eq_ok.mp h]
  rfl

/-- A press advances the eager tap-dance of its key, or ends that of another key of the real row. -/
theorem dequeuePress_follows (hact : CallsFollow P act) (since : Nat) :
    Ensures (dequeuePress act cfg p since s) (fun r => P s r.1) fun _ => True := by
  have htaken : P s (s.takePress p) := hact.follows.takePress s p
  have hperform : ∀ action n, Ensures (performPressed act cfg s p since action n)
      (fun r => P s r.1) fun _ => True := by
    intro action n
    refine Ensures.bind (ensures_iff_of_ok.mpr ?_)
    intro layerStack _
    have hnoted : ∀ call, P s ((s.takePress p).notePressed call) := fun call =>
      hact.follows.then_same htaken (note_watched _)
    exact Ensures.bind ((hact.after (hnoted _) _ 0).mono (fun _ hr => hr) fun _ hp => hp)
  rcases dequeuePress_calls act cfg since s with ⟨action, n, _, heq⟩
  rw [heq]
  exact hperform action n

/-- An event that is processed. -/
theorem dequeue_follows (hact : CallsFollow P act) (q : Queued) :
    Ensures (dequeue act cfg q s) (fun r => P s r.1) fun _ => True := by
  unfold dequeue
  dsimp only
  split
  · exact ensures_iff_of_ok.mpr fun _ hr =>
      hact.follows.same ((dequeueRelease_watched hr).trans (note_watched _))
  · exact (dequeuePress_follows hact q.since).mono
      (fun _ hr => hact.follows.after_same hr (note_watched _)) fun _ hp => hp

/-- First the decision is taken out. -/
theorem resolveSlowly_takes (hP : Follows P) {w : WaitingState T} {outcome : WaitingAction}
    {idx : Option Nat} {r : Layout T × Nat} (h : s.resolveSlowly cfg w outcome idx = .ok r) :
    P (s.takeWaiting w outcome idx) r.1 := by
  unfold resolveSlowly at h
  rcases bind_eq_ok.mp h with ⟨delay, _, h⟩
  rw [← pure_eq_ok.mp h]
  refine hP.same ?_
  dsimp only
  rw [takeWaiting_eq, takeWaiting_eq]
  split
  · cases idx <;> rfl
  · cases idx <;> rfl

/-- The hold action is performed without the decision that fell. -/
theorem waitingIntoHold_takes (hact : CallsFollow P act) {idx : Option Nat} {w : WaitingState T}
    (hw : s.waitingAt idx = some w) :
    Ensures (waitingIntoHold act cfg idx s) (fun r => P (s.takeWaiting w .hold idx) r.1)
      fun _ => True := by
  unfold waitingIntoHold
  rw [hw]
  refine Ensures.bind (ensures_iff_of_ok.mpr ?_)
  intro r hr
  have hslow : P (s.takeWaiting w .hold idx) r.1.pauseInputProcessing :=
    hact.follows.then_same (resolveSlowly_takes hact.follows hr) rfl
  exact Ensures.bind ((hact.after hslow _ 0).mono (fun _ hr => hr) fun _ hp => hp)

/-- The same for the action of the timeout. -/
theorem waitingIntoTimeout_takes (hact : CallsFollow P act) {idx : Option Nat}
    {w : WaitingState T} (hw : s.waitingAt idx = some w) :
    Ensures (waitingIntoTimeout act cfg idx s) (fun r => P (s.takeWaiting w .timeout idx) r.1)
      fun _ => True := by
  unfold waitingIntoTimeout
  rw [hw]
  refine Ensures.bind (ensures_iff_of_ok.mpr ?_)
  intro r hr
  have hslow : P (s.takeWaiting w .timeout idx) r.1 := resolveSlowly_takes hact.follows hr
  exact Ensures.bind ((hact.after hslow _ 0).mono (fun _ hr => hr) fun _ hp => hp)

/-- The simple actions of a chord are performed again for its other keys. -/
theorem replicate_follows (hact : CallsFollow P act) {s₀ : Layout T}
    (others : List (Action T × KCoord)) :
    ∀ (count : Nat) (s : Layout T), P s₀ s →
      Ensures (replicate act call others count s) (fun r => P s₀ r.1) fun _ => True := by
  induction others with
  | nil => exact fun _ _ h => h
  | cons other others ih =>
    intro count s h
    unfold replicate
    refine Ensures.bind ((hact.actDiscarding.after h _ count).mono ?_ fun _ hp => hp)
    exact fun r hr => ih _ _ hr

/-- The history of keys takes in the first of these presses only. -/
theorem replicateForPressed_follows (hact : CallsFollow P act) {s₀ : Layout T}
    (w : WaitingState T) (delay : Nat) (pq : Option PressedQueue) (h : P s₀ s) :
    Ensures (replicateForPressed act w delay pq s) (fun s' => P s₀ s') fun _ => True := by
  unfold replicateForPressed
  split
  · exact h
  · have hpaused : P s₀ { s with pauseHistoricalKeysUpdates := true } :=
      hact.follows.then_same h rfl
    refine Ensures.bind ((replicate_follows hact _ 0 _ hpaused).mono ?_ fun _ hp => hp)
    exact fun _ hr => hact.follows.then_same hr rfl

/-- The tap action, and what it stands for at other keys. -/
theorem waitingIntoTap_takes (hact : CallsFollow P act) (pq : Option PressedQueue)
    {idx : Option Nat} {w : WaitingState T} (hw : s.waitingAt idx = some w) :
    Ensures (waitingIntoTap act cfg pq idx s) (fun r => P (s.takeWaiting w .tap idx) r.1)
      fun _ => True := by
  unfold waitingIntoTap
  rw [hw]
  refine Ensures.bind (ensures_iff_of_ok.mpr ?_)
  intro delay _
  refine Ensures.bind ((hact.after (hact.follows.refl _) _ 0).mono ?_ fun _ hp => hp)
  intro r hr
  refine Ensures.bind ((replicateForPressed_follows hact w delay pq hr).mono ?_ fun _ hp => hp)
  exact fun s' hs' => hact.follows.then_same hs' rfl

/-- With or without a decision at the index. -/
theorem waitingIntoHold_follows (hact : CallsFollow P act) (idx : Option Nat) :
    Ensures (waitingIntoHold act cfg idx s) (fun r => P s r.1) fun _ => True := by
  cases hw : s.waitingAt idx with
  | some w =>
    exact (waitingIntoHold_takes hact hw).mono
      (fun _ hr => hact.follows.trans (hact.follows.takeWaiting s .hold hw) hr) fun _ hp => hp
  | none =>
    unfold waitingIntoHold
    rw [hw]
    exact hact.follows.refl s

/-- An event that falls out of the queue decides every decision for its hold. -/
theorem flush_follows (hact : CallsFollow P act) {s₀ : Layout T} (idxs : List (Option Nat)) :
    ∀ s : Layout T, P s₀ s →
      Ensures (flush act cfg idxs s) (fun s' => P s₀ s') fun _ => True := by
  induction idxs with
  | nil => exact fun _ h => h
  | cons idx idxs ih =>
    intro s h
    unfold flush
    refine Ensures.bind ((waitingIntoHold_follows hact idx).mono ?_ fun _ hp => hp)
    exact fun r hr => ih _ (hact.follows.then_same (hact.follows.trans h hr) (discard_watched _))

/-- Then the event that fell out is processed. -/
theorem overflowed_follows (hact : CallsFollow P act) {s₀ : Layout T} (q : Queued)
    (h : P s₀ s) : Ensures (overflowed act cfg q s) (fun s' => P s₀ s') fun _ => True := by
  unfold overflowed
  refine Ensures.bind ((flush_follows hact _ s h).mono ?_ fun _ hp => hp)
  intro s₁ h₁
  refine Ensures.bind ((dequeue_follows hact q).mono ?_ fun _ hp => hp)
  exact fun r hr =>
    hact.follows.then_same (hact.follows.trans h₁ hr) (discard_watched _)

/-- An event that arrives, whether or not there is room for it. -/
theorem eventWith_follows (hact : CallsFollow P act) (event : Event) :
    Ensures (eventWith act cfg event s) (fun s' => P s s') fun _ => True := by
  have hqueued : ∀ q, P s ((s.arrive event).enqueue cfg q).1 := by
    exact fun q => hact.follows.same (by simp)
  unfold eventWith
  dsimp only
  split
  · exact hqueued _
  · exact overflowed_follows hact _ (hqueued _)

/-- An event that arrives at the front of the queue. -/
theorem eventToFrontWith_follows (hact : CallsFollow P act) (event : Event) :
    Ensures (eventToFrontWith act cfg event s) (fun s' => P s s') fun _ => True := by
  unfold eventToFrontWith
  dsimp only
  split
  · exact hact.follows.same (arrive_watched event)
  · exact overflowed_follows hact _ (hact.follows.same (arrive_watched event))

/-! ### Actions -/

/-- A hold-tap taps at once, for a quick tap or while the user types, or starts to wait. -/
theorem doHoldTap_follows (hact : CallsFollow P act) (ht : HoldTapAction (Action T)) (count : Nat) :
    Ensures (doHoldTap act cfg ht call count s) (fun r => P s r.1) fun _ => True := by
  have htap : ∀ s₁ : Layout T, s₁.watched = s.watched →
      Ensures (act { call with action := ht.tap } count s₁ >>= fun r =>
        pure (r.1.updateCoord call.coord, r.2.1, r.2.2)) (fun r => P s r.1) fun _ => True := by
    intro s₁ h₁
    refine Ensures.bind ((hact.after (hact.follows.same h₁) _ count).mono ?_ fun _ hp => hp)
    exact fun _ hr => hact.follows.then_same hr rfl
  unfold doHoldTap
  dsimp only
  split
  · exact htap s rfl
  · split
    · -- a hold-tap takes the place of no other decision
      have hstarts : P s (if s.waiting.isSome then s.pushExtraWaiting (holdTapWaiting
          cfg.quickTapHoldTimeout ht call.coord call.delay call.layerStack)
          else s.setWaiting (holdTapWaiting
            cfg.quickTapHoldTimeout ht call.coord call.delay call.layerStack)) := by
        split
        · exact hact.follows.pushExtraWaiting s (starts_holdTapWaiting _ _ _ _ _)
            fun _ => ⟨ht.config, rfl⟩
        · exact hact.follows.setWaiting s (starts_holdTapWaiting _ _ _ _ _)
      exact hact.follows.then_same hstarts rfl
    · exact htap _ rfl

/-- The release of a one-shot key that is pushed out arrives as an event. -/
theorem doOneShot_follows (hact : CallsFollow P act) (os : OneShot (Action T)) (count : Nat) :
    Ensures (doOneShot act cfg os call count s) (fun r => P s r.1) fun _ => True := by
  unfold doOneShot
  have hstart : P s (s.updateCoord call.coord) := hact.follows.same rfl
  refine Ensures.bind ((hact.after hstart _ count).mono ?_ fun _ hp => hp)
  intro r hr
  dsimp only
  split
  · exact hact.follows.then_same hr rfl
  · refine Ensures.bind ((eventWith_follows hact _).mono ?_ fun _ hp => hp)
    exact fun s₂ h₂ => hact.follows.trans hr (hact.follows.after_same h₂ rfl)

/-- A lazy tap-dance or a chord starts to wait. -/
theorem doWaiting_follows (hP : Follows P) {config : WaitingConfig T} {timeout : Nat} :
    P s ((s.updateCoord call.coord).setWaiting (undecidedWaiting config timeout call)) :=
  hP.after_same (hP.setWaiting _ fun _ => ⟨rfl, rfl⟩) (updateCoord_watched _)

/-- An eager tap-dance starts, and its first action is performed. -/
theorem doEagerTapDance_follows (hact : CallsFollow P act) (td : TapDance (Action T))
    (count : Nat) :
    Ensures (doEagerTapDance act td call count s) (fun r => P s r.1) fun _ => True := by
  unfold doEagerTapDance
  refine Ensures.bind (ensures_iff_of_ok.mpr ?_)
  intro action _
  have hstart : P s ((s.updateCoord call.coord).startTapDanceEager call.coord td) :=
    hact.follows.after_same (hact.follows.startTapDanceEager _ _ _) (updateCoord_watched _)
  exact hact.after hstart _ count

/-- All actions of a `multi`. -/
theorem doMultipleActions_follows (hact : CallsFollow P act) (actions : List (Action T))
    (count : Nat) :
    Ensures (doMultipleActions act actions call count s) (fun r => P s r.1)
      fun _ => True := by
  have hstart : P s (s.updateCoord call.coord) := hact.follows.same rfl
  refine Ensures.bind ((actAll_follows hact actions .noEvent count _ hstart).mono ?_
    fun _ hp => hp)
  exact fun _ hr => hact.follows.then_same hr rfl

/-- The actions of the cases of a `switch` that apply. -/
theorem doSwitch_follows (hact : CallsFollow P act) (sw : SwitchConfig (Action T)) (count : Nat) :
    Ensures (doSwitch act cfg sw call count s) (fun r => P s r.1) fun _ => True := by
  unfold doSwitch
  refine Ensures.bind (ensures_iff_of_ok.mpr ?_)
  intro env _
  refine Ensures.bind (ensures_iff_of_ok.mpr ?_)
  intro actions _
  have hfilled : P s (fillSwitchQueue call actions .empty
      { s with activations := s.activations + 1 }).2 :=
    hact.follows.same (fillSwitchQueue_watched actions _ _)
  refine Ensures.bind ((actAll_follows hact _ .noEvent count _ hfilled).mono ?_ fun _ hp => hp)
  exact fun _ hr => hact.follows.then_same hr rfl

/-- What one action does, by its kind. -/
theorem perform_follows (hact : CallsFollow P act) (call : Call T) (count : Nat) (s : Layout T) :
    Ensures (perform act cfg call count s) (fun r => P s r.1) fun _ => True := by
  unfold perform
  split
  · exact hact.follows.same doNoOp_watched
  · trivial
  · exact hact.follows.same (by simp [doKeyCode])
  · exact hact.follows.same (by simp)
  · exact hact.follows.same (by simp [doMultiKeyBuffer])
  · exact doMultipleActions_follows hact _ count
  · exact hact.follows.same (doLayer_watched _)
  · exact hact.follows.same (by simp [doDefaultLayer])
  · exact hact.follows.same (by simp [doSequence])
  · exact hact.follows.same (by simp [doRepeatableSequence])
  · exact hact.follows.same doCancelSequences_watched
  · exact hact.follows.same (doReleaseState_watched _)
  · exact doHoldTap_follows hact _ count
  · exact hact.follows.same (doCustom_watched _ count)
  · exact doOneShot_follows hact _ count
  · exact hact.follows.same rfl
  · split
    · exact doWaiting_follows hact.follows
    · exact doEagerTapDance_follows hact _ count
  · exact doWaiting_follows hact.follows
  · -- what `rpt` repeats
    unfold doRepeat
    split
    · exact hact.actDiscarding.call _ count s
    · exact hact.follows.refl s
  · unfold doFork
    refine Ensures.bind ((hact.call _ count s).mono ?_ fun _ hp => hp)
    exact fun _ hr => hact.follows.then_same hr rfl
  · exact doSwitch_follows hact _ count
  · unfold doSrc
    refine Ensures.bind (ensures_iff_of_ok.mpr ?_)
    exact fun _ _ => hact.actDiscarding.call _ count s

end Calls

/-- `do_action` as a whole: transparent actions are resolved and output chords end before the
action is performed. -/
theorem doAction_follows {P : Layout T → Layout T → Prop} (hP : Follows P)
    (cfg : LayoutConfig C R T) (depth : Nat) : CallsFollow P (doAction cfg depth) := by
  induction depth with
  | zero => exact ⟨hP, fun _ _ _ => trivial⟩
  | succ depth ih =>
    refine ⟨hP, fun call count s => ?_⟩
    rw [doAction]
    refine Ensures.bind (ensures_iff_of_ok.mpr ?_)
    intro call _
    refine Ensures.bind (ensures_iff_of_ok.mpr ?_)
    intro s₁ h₁
    have hbefore : P s (s₁.note (.performed call.action call.coord s₁.found)) := by
      refine hP.same ?_
      rw [beforeAction_eq h₁]
      rfl
    refine Ensures.bind ((perform_follows ih call count _).mono ?_ fun _ hp => hp)
    rintro ⟨s₂, e, count'⟩ hperform
    exact hP.then_same (hP.trans hbefore hperform) rfl

/-! ### Ticks -/

section Ticks

variable {cfg : LayoutConfig C R T} {P : Layout T → Layout T → Prop}

/-- One event of each macro that runs. -/
theorem processActive_watched :
    ∀ (n : Nat) (s : Layout T), (processActive n s).watched = s.watched := by
  intro n
  induction n with
  | zero => exact fun _ => rfl
  | succ n ih =>
    intro s
    rw [processActive_succ, ih, advanceSequence_eq]
    rfl

/-- A macro that is held starts again. -/
theorem processSequences_watched : s.processSequences.watched = s.watched := by
  unfold processSequences
  dsimp only
  split
  · split
    · rw [startSequence_watched]
      exact processActive_watched _ _
    · exact processActive_watched _ _
  · exact processActive_watched _ _

/-- A custom event that a macro left behind. -/
theorem processSequenceCustom_watched (custom : CustomEvent T) :
    (s.processSequenceCustom custom).1.watched = s.watched := by
  rw [processSequenceCustom_eq]
  rfl

/-- Chords v2 hand their events to the queue, and their actions to the queue of actions. -/
theorem tickChordsV2_watched (h : s.tickChordsV2 cfg = .ok s') : s'.watched = s.watched := by
  unfold tickChordsV2 at h
  split at h
  · rw [← pure_eq_ok.mp h]
  · rcases bind_eq_ok.mp h with ⟨⟨chordsV2, drained⟩, _, h⟩
    have hdrained := foldl_watched (fun (s : Layout T) q => pushQueue_watched q)
      drained.items { s with chordsV2 := chordsV2.getActionChv2.1 }
    rw [← pure_eq_ok.mp h]
    split
    · rw [pauseInputProcessing_watched, pushAction_watched]
      exact hdrained
    · exact hdrained

/-- The decision that fell is taken out first. `drop_waiting` takes out what waits, whichever
fell. -/
theorem decide_takes (hP : Follows P) {idx : Option Nat} {w : WaitingState T}
    {outcome : WaitingAction} (pq : Option PressedQueue) (hw : s.waitingAt idx = some w)
    (hdrop : outcome = .noOp → idx = none) :
    Ensures (decide cfg idx (some (outcome, pq)) s)
      (fun r => P (s.takeWaiting w outcome idx) r.1) fun _ => True := by
  have hact : CallsFollow P (act cfg) := doAction_follows hP cfg cfg.stackDepth
  unfold decide
  cases outcome with
  | hold => exact waitingIntoHold_takes hact hw
  | tap => exact waitingIntoTap_takes hact pq hw
  | timeout => exact waitingIntoTimeout_takes hact hw
  | noOp =>
    obtain rfl := hdrop rfl
    have hwaiting : s.waiting = some w := hw
    dsimp only
    unfold dropWaiting
    rw [hwaiting]
    exact hP.refl _

/-- Nothing waits, and an event may be taken from the queue. -/
theorem tickWaiting_follows (hP : Follows P) (hw : s.waiting = none) :
    Ensures (s.tickWaiting cfg) (fun r => P s r.1) fun _ => True := by
  unfold tickWaiting
  split
  · rename_i w hwaiting
    rw [hw] at hwaiting
    cases hwaiting
  · split
    · split
      · exact hP.same rfl
      · split
        · exact (dequeue_follows (doAction_follows hP cfg cfg.stackDepth) _).mono
            (fun _ hr => hP.after_same hr (note_watched _)) fun _ hp => hp
        · exact hP.refl s
    · exact hP.refl s

/-- One-shot keys whose time is over are released as if their keys were. -/
theorem releaseOneshots_follows (hP : Follows P) (keys : List KCoord) :
    ∀ (custom : CustomEvent T) (s : Layout T),
      Ensures (releaseOneshots cfg keys custom s) (fun r => P s r.1) fun _ => True := by
  induction keys with
  | nil => exact fun _ s => hP.refl s
  | cons key keys ih =>
    intro custom s
    unfold releaseOneshots
    refine Ensures.bind ((dequeue_follows (doAction_follows hP cfg cfg.stackDepth) _).mono ?_
      fun _ hp => hp)
    intro r hr
    exact (ih _ _).mono
      (fun _ hr' => hP.trans (hP.then_same hr (discard_watched _)) hr') fun _ hp => hp

/-- A step that is no tick. -/
theorem step_follows (hP : Follows P) {op : LayoutOp} (hop : op ≠ .tick) :
    Ensures (Layout.step cfg s op) (fun r => P s r.1) fun _ => True := by
  have hact : CallsFollow P (act cfg) := doAction_follows hP cfg cfg.stackDepth
  cases op with
  | event ev => exact Ensures.bind ((eventWith_follows hact ev).mono (fun _ h => h) fun _ hp => hp)
  | eventToFront ev =>
    exact Ensures.bind ((eventToFrontWith_follows hact ev).mono (fun _ h => h) fun _ hp => hp)
  | tick => exact absurd rfl hop
  | setDefaultLayer value => exact hP.same (setDefaultLayer_watched cfg value)
  | _ => exact hP.same rfl

end Ticks

end Layout

end Kanata
