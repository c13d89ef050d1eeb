import Kanata.Layout.Branches

/-!
# Kanata.Layout.Decided — what a tick of a waiting state brings in

A tick of a waiting state changes the state, takes events out of the queue, may
queue actions and may decide. `Ticked.Obeys` collects what is left of the
discipline: the chord that was found and the coordinates it is replicated at are
among those of the group.
-/

namespace Kanata

open Fallible

variable {C R : Nat} {T : Type} {cfg : LayoutConfig C R T} {E : Panic → Prop}

/-- A hold-tap whose function never drops the press. -/
def WaitingState.KeepsPress (w : WaitingState T) : Prop :=
  ∃ htc, w.config = .holdTap htc ∧ htc.NeverDrops

/-- What comes out of a tick of the waiting state `w` with the queue `queue`. -/
structure Ticked.Obeys (D : Discipline cfg E) (w : WaitingState T) (queue : Queue)
    (t : Ticked T) : Prop where
  waiting : t.waiting.Obeys D
  sameId : t.waiting.id = w.id
  queued : t.queued.items.Sublist queue.items
  actions : ∀ qa ∈ t.actions, qa.Obeys D
  pressed : ∀ a pq, t.decision = some (a, some pq) → ∀ c ∈ pq.items, D.performs t.waiting.tap c
  keepsPress : t.waiting.KeepsPress ↔ w.KeepsPress
  drops : w.KeepsPress → ∀ pq, t.decision ≠ some (.noOp, pq)

/-- A state that is no hold-tap before or after. -/
theorem not_keepsPress {w : WaitingState T} (h : ∀ htc, w.config ≠ .holdTap htc) :
    ¬ w.KeepsPress := by
  rintro ⟨htc, hconfig, _⟩
  exact h htc hconfig

/-! ## Hold-taps -/

section HoldTap

variable {w : WaitingState T}

/-- A decision of a hold-tap changes only the timer and the length that was seen. -/
theorem handleHoldTap_fst (htc : HoldTapConfig) (queued : List Queued) :
    ∃ timeout len, (w.handleHoldTap htc queued).1 = { w with timeout, prevQueueLen := len } := by
  unfold WaitingState.handleHoldTap
  split
  · exact ⟨w.timeout, w.prevQueueLen, rfl⟩
  · have hreset : ∃ timeout, w.resetTimeout queued = { w with timeout } := by
      unfold WaitingState.resetTimeout
      split
      · split
        · exact ⟨_, rfl⟩
        · exact ⟨w.timeout, rfl⟩
      · exact ⟨w.timeout, rfl⟩
    rcases hreset with ⟨timeout, hreset⟩
    dsimp only
    rw [hreset]
    split
    · exact ⟨timeout, queued.length, rfl⟩
    · exact ⟨timeout, queued.length, rfl⟩

end HoldTap

/-! ## Chord groups -/

namespace ChordsGroup

variable {A : Type} {group : ChordsGroup A}

/-- A coordinate with keys is one of the group. -/
theorem mem_of_getKeys {c : KCoord} {ks : ChordKeys} (h : group.getKeys c = some ks) :
    c ∈ group.coords.map (·.1) := by
  unfold getKeys at h
  rcases Option.map_eq_some_iff.mp h with ⟨ck, hck, _⟩
  have heq : ck.1 = c := by simpa using List.find?_some hck
  exact List.mem_map.mpr ⟨ck, List.mem_of_find?_eq_some hck, heq⟩

/-- A coordinate with a key of the mask is one of the group. -/
theorem mem_of_mask {c : KCoord} {mask : ChordKeys}
    (h : ((group.getKeys c).getD 0) &&& mask ≠ 0) : c ∈ group.coords.map (·.1) := by
  cases hks : group.getKeys c with
  | none => simp [hks] at h
  | some ks => exact mem_of_getKeys hks

/-- The action of a chord is one of the group. -/
theorem mem_of_getChord {ks : ChordKeys} {action : A} (h : group.getChord ks = some action) :
    ∃ ka ∈ group.chords, ka.2 = action := by
  unfold getChord at h
  rcases Option.map_eq_some_iff.mp h with ⟨ka, hka, heq⟩
  exact ⟨ka, List.mem_of_find?_eq_some hka, heq⟩

/-- The scan keeps the action of the only chord that is left, and gives up when there is another
one. -/
theorem mem_of_unambiguous {ks : ChordKeys} :
    ∀ {chords : List (ChordKeys × A)} {res : Option A} {action : A},
      unambiguous ks chords res = some (some action) →
      res = some action ∨ ∃ ka ∈ chords, ka.2 = action := by
  intro chords
  induction chords with
  | nil =>
    intro res action h
    exact Or.inl (Option.some.inj h)
  | cons ka rest ih =>
    intro res action h
    unfold unambiguous at h
    split at h
    · rcases ih h with hres | ⟨ka', hmem, heq⟩
      · exact Or.inr ⟨ka, List.mem_cons_self, Option.some.inj hres⟩
      · exact Or.inr ⟨ka', List.mem_cons_of_mem _ hmem, heq⟩
    · split at h
      · cases h
      · rcases ih h with hres | ⟨ka', hmem, heq⟩
        · exact Or.inl hres
        · exact Or.inr ⟨ka', List.mem_cons_of_mem _ hmem, heq⟩

/-- So the action of an unambiguous chord is one of the group. -/
theorem mem_of_getChordIfUnambiguous {ks : ChordKeys} {action : A}
    (h : group.getChordIfUnambiguous ks = some action) : ∃ ka ∈ group.chords, ka.2 = action := by
  unfold getChordIfUnambiguous at h
  cases hres : unambiguous ks group.chords none with
  | none => simp [hres] at h
  | some res =>
    rw [hres] at h
    have h : res = some action := h
    subst h
    rcases mem_of_unambiguous hres with hnone | hmem
    · cases hnone
    · exact hmem

/-- Where the group may act from the coordinate of one of its keys, it may act
from the first key. -/
theorem MayActAt.trans {c c' c'' : KCoord} (h : group.MayActAt c c')
    (h' : group.MayActAt c' c'') : group.MayActAt c c'' := by
  rcases h' with rfl | hmem
  · exact h
  · exact Or.inr hmem

end ChordsGroup

section Chord

variable {w : WaitingState T} {group : ChordsGroup (Action T)}

/-- A release that ends the chord is one of a key of the group. -/
theorem foldChord_released :
    ∀ {queued : List Queued} {acc : WaitingState.ChordFold} {c : KCoord},
      (∀ c, acc.releasedCoord = some c → c ∈ group.coords.map (·.1)) →
      (w.foldChord group queued acc).releasedCoord = some c → c ∈ group.coords.map (·.1) := by
  intro queued
  induction queued with
  | nil => exact fun hacc h => hacc _ h
  | cons q queued ih =>
    intro acc c hacc h
    unfold WaitingState.foldChord at h
    split at h
    · exact ih hacc h
    · split at h
      · refine ih ?_ h
        exact hacc
      · rename_i ks i j hks hev
        have hc : (i, j) = c := Option.some.inj h
        rw [← hc]
        rw [hev] at hks
        exact ChordsGroup.mem_of_getKeys hks
      · exact hacc c h
      · exact ih hacc h

/-- The coordinate of decomposed chords is the key's own or one of the group. -/
theorem foldOrder_coord :
    ∀ {queued : List Queued} {acc : WaitingState.ChordOrder},
      group.MayActAt w.coord acc.defaultAssociatedCoord →
      group.MayActAt w.coord (w.foldOrder group queued acc).defaultAssociatedCoord := by
  intro queued
  induction queued with
  | nil => exact fun h => h
  | cons q queued ih =>
    intro acc h
    unfold WaitingState.foldOrder
    split
    · exact ih h
    · split
      · exact ih h
      · rename_i ks i j hks hev
        rw [hev] at hks
        exact Or.inr (ChordsGroup.mem_of_getKeys hks)
      · exact h
      · exact ih h

/-- A chord that is taken apart acts at the coordinate of one of its keys. -/
theorem getCoordForChord_mayActAt (queued : List Queued) {c : KCoord}
    (hc : group.MayActAt w.coord c) (mask : ChordKeys) :
    group.MayActAt w.coord (w.getCoordForChord group queued c mask) := by
  unfold WaitingState.getCoordForChord
  split
  · exact hc
  · split
    · exact Or.inl rfl
    · split
      · rename_i q hq
        have hmask := List.find?_some hq
        exact Or.inr (ChordsGroup.mem_of_mask (of_decide_eq_true hmask))
      · exact hc

/-- The longest chord at the front, if any, is one of the group. -/
theorem findSubChord_mem {chordKeys : List ChordKeys} {start : Nat} :
    ∀ {n : Nat} {r : Nat × ChordKeys × Action T},
      WaitingState.findSubChord group chordKeys start n = some r →
      ∃ ka ∈ group.chords, ka.2 = r.2.2 := by
  intro n
  induction n with
  | zero =>
    intro r h
    cases h
  | succ n ih =>
    intro r h
    unfold WaitingState.findSubChord at h
    split at h
    · split at h
      · rename_i action haction
        rw [← Option.some.inj h]
        exact ChordsGroup.mem_of_getChord haction
      · exact ih h
    · cases h

/-- Every action that the loop queues is of a chord of the group, at one of its coordinates. -/
theorem decomposeLoop_obeys {D : Discipline cfg E} {coordFor : ChordKeys → KCoord}
    (hperforms : ∀ mask, ∀ ka ∈ group.chords, D.performs ka.2 (coordFor mask)) (delay : Nat)
    (chordKeys : List ChordKeys) :
    ∀ (fuel start : Nat),
      ∀ qa ∈ WaitingState.decomposeLoop group coordFor delay chordKeys fuel start,
        qa.Obeys D := by
  intro fuel
  induction fuel with
  | zero =>
    intro start qa h
    cases h
  | succ fuel ih =>
    intro start qa h
    unfold WaitingState.decomposeLoop at h
    split at h
    · split at h
      · rename_i last mask action hfound
        rcases List.mem_cons.mp h with rfl | h
        · rcases findSubChord_mem hfound with ⟨ka, hka, heq⟩
          have haction : ka.2 = action := heq
          exact ⟨haction ▸ hperforms mask ka hka, by simp⟩
        · exact ih _ qa h
      · exact ih _ qa h
    · cases h

/-- The delay of these actions may not fit, which is the panic that the discipline allows. -/
theorem decompose_ensures (D : Discipline cfg E) (hw : w.Obeys D)
    (hconfig : w.config = .chord group)
    (checks : Bool) (queued : List Queued) :
    Ensures (w.decomposeChordIntoActionQueue checks group queued)
      (fun qas => ∀ qa ∈ qas, qa.Obeys D) E := by
  unfold WaitingState.decomposeChordIntoActionQueue
  refine Ensures.bind ((D.addU16 checks w.delay w.ticks).mono ?_ fun _ hp => hp)
  intro delay _
  rw [ensures_pure]
  have hperforms : (WaitingConfig.chord group).Obeys D w.coord := hconfig ▸ hw.config
  apply decomposeLoop_obeys
  intro mask ka hka
  exact hperforms _ (getCoordForChord_mayActAt queued (foldOrder_coord (Or.inl rfl)) mask) ka hka

/-- The keys that are taken out of the queue are keys of the group. -/
theorem takeHandled_pressed :
    ∀ (queued : List Queued) (handled : Nat) (pq : PressedQueue),
      (∀ c ∈ pq.items, group.MayActAt w.coord c) →
      ∀ c ∈ (w.takeHandled group handled queued pq).2.items, group.MayActAt w.coord c := by
  intro queued
  induction queued with
  | nil => exact fun _ _ h => h
  | cons q queued ih =>
    intro handled pq h
    unfold WaitingState.takeHandled
    split
    · rename_i htaken
      apply ih
      intro c hc
      rcases Bounded.mem_pushIgnore hc with hc | rfl
      · exact h c hc
      · simp only [Bool.and_eq_true] at htaken
        rcases Option.isSome_iff_exists.mp htaken.1.2 with ⟨ks, hks⟩
        exact Or.inr (ChordsGroup.mem_of_getKeys hks)
    · exact ih handled pq h

/-- What `handle_chord` decides on: an action of the group at a coordinate of the
group, or nothing. -/
structure WaitingState.ChordDecision.Obeys (D : Discipline cfg E) (w : WaitingState T)
    (group : ChordsGroup (Action T)) (queue : Queue) (d : WaitingState.ChordDecision T) : Prop where
  coord : group.MayActAt w.coord d.coord
  action : (∃ ka ∈ group.chords, ka.2 = d.action) ∨ d.action = .noOp
  queued : d.queued.items.Sublist queue.items
  pressed : ∀ c ∈ d.pressed.items, group.MayActAt w.coord c
  actions : ∀ qa ∈ d.actions, qa.Obeys D

/-- How a decision about a chord ends: the keys that took part leave the queue. -/
theorem finishChord_obeys {D : Discipline cfg E} {queue : Queue} {action : Action T}
    {actions : List (QueuedAction T)} (decision : WaitingAction)
    (haction : (∃ ka ∈ group.chords, ka.2 = action) ∨ action = .noOp)
    (hactions : ∀ qa ∈ actions, qa.Obeys D) (start : WaitingState.ChordFold)
    (hstart : start.releasedCoord = none) :
    (w.finishChord group queue (w.foldChord group queue.items start) decision action
      actions).Obeys D w group queue where
  coord := by
    unfold WaitingState.finishChord
    dsimp only
    split
    · exact Or.inl rfl
    · cases hreleased : (w.foldChord group queue.items start).releasedCoord with
      | none => exact Or.inl rfl
      | some c =>
        have hnone : ∀ c, start.releasedCoord = some c → c ∈ group.coords.map (·.1) := by
          rw [hstart]
          exact fun _ h => by cases h
        exact Or.inr (foldChord_released hnone hreleased)
  action := haction
  queued := w.takeHandled_sublist group _ _ _
  pressed := by
    apply takeHandled_pressed
    intro c hc
    have hc := Bounded.mem_ofTake hc
    exact Or.inl (List.mem_singleton.mp hc)
  actions := hactions

/-- The three ways to decide: one chord is left, the keys are those of a chord, or the group is
taken apart. -/
theorem handleChord_ensures (D : Discipline cfg E) (hw : w.Obeys D)
    (hconfig : w.config = .chord group) (checks : Bool) (queue : Queue) :
    Ensures (w.handleChord checks group queue)
      (fun d => ∀ d' ∈ d, d'.Obeys D w group queue) E := by
  have hnone : ∀ d' ∈ (none : Option (WaitingState.ChordDecision T)), d'.Obeys D w group queue :=
    fun _ h => by cases h
  have hsome : ∀ d : WaitingState.ChordDecision T, d.Obeys D w group queue →
      ∀ d' ∈ some d, d'.Obeys D w group queue := fun d hd d' hd' => by
    cases hd'
    exact hd
  unfold WaitingState.handleChord
  dsimp only
  split
  · split
    · rename_i action haction
      exact hsome _ (finishChord_obeys .tap
        (Or.inl (ChordsGroup.mem_of_getChordIfUnambiguous haction)) (by simp) _ rfl)
    · exact hnone
  · split
    · rename_i action haction
      exact hsome _ (finishChord_obeys .tap
        (Or.inl (ChordsGroup.mem_of_getChord haction)) (by simp) _ rfl)
    · refine Ensures.bind ((decompose_ensures D hw hconfig checks queue.items).mono ?_
        fun _ hp => hp)
      intro actions hactions
      exact hsome _ (finishChord_obeys .noOp (Or.inr rfl) hactions _ rfl)

end Chord

/-! ## The tick -/

section Tick

variable {w : WaitingState T}

/-- Only the fields that no discipline looks at have changed. -/
theorem WaitingState.Obeys.retimed {D : Discipline cfg E} (h : w.Obeys D)
    (timeout len : Nat) {ticks : Nat} (hticks : ticks ≤ u16Max) :
    WaitingState.Obeys D { w with timeout, ticks, prevQueueLen := len } :=
  { h with ticks_le := hticks }

/-- A tap-dance ends in the action of its last tap. -/
theorem tickTapDance_ensures (D : Discipline cfg E) (hw : w.Obeys D) {tds : TapDanceState T}
    (hconfig : w.config = .tapDance tds) (queue : Queue) :
    Ensures (w.tickTapDance tds queue) (fun t => t.Obeys D w queue) E := by
  have hactions : ∀ a ∈ tds.actions, D.performs a w.coord := by
    have h := hw.config
    rwa [hconfig] at h
  have hundecided := hw.undecided (by rw [hconfig]; trivial)
  have hqueue : (w.handleTapDance tds.numTaps tds.actions.length queue).2.2.items.Sublist
      queue.items := by
    -- the presses and releases of the taps leave the queue
    have hevict : ∀ n, (w.evict n queue).items.Sublist queue.items := fun n =>
      w.evictSameCoordEvents_sublist _ _
    unfold WaitingState.handleTapDance
    split
    · exact List.Sublist.refl _
    · split
      · exact hevict _
      · split
        · exact hevict _
        · split
          · exact hevict _
          · exact List.Sublist.refl _
  unfold WaitingState.tickTapDance
  dsimp only
  have htap : Ensures (w.decidedTap tds (w.handleTapDance tds.numTaps tds.actions.length queue).2.1
      (w.handleTapDance tds.numTaps tds.actions.length queue).1)
      (fun tap => D.performs tap w.coord) E := by
    unfold WaitingState.decidedTap
    split
    · exact D.indexInto.mono hactions fun _ hp => hp
    · exact hw.tap
  refine Ensures.bind (htap.mono ?_ fun _ hp => hp)
  intro tap htap
  rw [ensures_pure]
  have hbefore : ¬ w.KeepsPress := not_keepsPress (by simp [hconfig])
  refine ⟨?_, rfl, hqueue, by simp, ?_, ?_, fun h => absurd h hbefore⟩
  · exact { hold := hw.hold, tap := htap, timeoutAction := hw.timeoutAction, config := hactions
            undecided := fun _ => hundecided, layerStack := hw.layerStack, ticks_le := hw.ticks_le }
  · intro a pq h
    rcases Option.map_eq_some_iff.mp h with ⟨_, _, heq⟩
    cases heq
  · exact iff_of_false (not_keepsPress (by simp)) hbefore

/-- A chord group waits on, or decides and moves to the coordinate that it acts at. -/
theorem tickChord_ensures (D : Discipline cfg E) (hw : w.Obeys D)
    {group : ChordsGroup (Action T)} (hconfig : w.config = .chord group) (checks : Bool)
    (queue : Queue) :
    Ensures (w.tickChord checks group queue) (fun t => t.Obeys D w queue) E := by
  have hgroup : (WaitingConfig.chord group).Obeys D w.coord := hconfig ▸ hw.config
  have hundecided := hw.undecided (by rw [hconfig]; trivial)
  have hundone : ∀ w' : WaitingState T, w'.Obeys D → w'.id = w.id → w'.config = w.config →
      Ticked.Obeys D w queue ⟨w', queue, [], none⟩ := fun w' hw' hid hsame =>
    { waiting := hw'
      sameId := hid
      queued := List.Sublist.refl _
      actions := by simp
      pressed := fun a pq h => by cases h
      keepsPress := by simp [WaitingState.KeepsPress, hsame]
      drops := fun _ pq h => by cases h }
  unfold WaitingState.tickChord
  split
  · exact hundone w hw rfl rfl
  · have hw' : WaitingState.Obeys D { w with prevQueueLen := queue.items.length } := { hw with }
    refine Ensures.bind ((handleChord_ensures D hw' hconfig checks queue).mono ?_ fun _ hp => hp)
    intro d hd
    cases d with
    | none => exact hundone _ hw' rfl rfl
    | some d =>
      have hd := hd d rfl
      have hperforms : ∀ c, group.MayActAt w.coord c → D.performs d.action c := by
        intro c hc
        rcases hd.action with ⟨ka, hka, heq⟩ | heq
        · rw [← heq]
          exact hgroup c hc ka hka
        · rw [heq]
          exact D.noOp c
      have hbefore : ¬ w.KeepsPress := not_keepsPress (by simp [hconfig])
      refine ⟨⟨?_, hperforms _ hd.coord, ?_, ?_, fun _ => hundecided, hw.layerStack,
        hw.ticks_le⟩, rfl, hd.queued, hd.actions, ?_, iff_of_false hbefore hbefore,
        fun h => absurd h hbefore⟩
      -- an undecided state has nothing to hold or to time out to
      · have heq : w.hold = .noOp := hundecided.1
        show D.performs w.hold d.coord
        rw [heq]
        exact D.noOp _
      · have heq : w.timeoutAction = .noOp := hundecided.2
        show D.performs w.timeoutAction d.coord
        rw [heq]
        exact D.noOp _
      · show w.config.Obeys D d.coord
        rw [hconfig]
        exact fun c hc => hgroup c (hd.coord.trans hc)
      · intro a pq h
        cases h
        exact fun c hc => hperforms c (hd.pressed c hc)

/-- A tick of a waiting state keeps to the discipline. -/
theorem tickWt_ensures (D : Discipline cfg E) (hw : w.Obeys D) (checks : Bool) (queue : Queue) :
    Ensures (w.tickWt checks queue) (fun t => t.Obeys D w queue) E := by
  have hticks : satAdd w.ticks 1 ≤ u16Max := Nat.min_le_right _ _
  have haged := hw.retimed (w.timeout - 1) w.prevQueueLen hticks
  unfold WaitingState.tickWt
  dsimp only
  split
  · rename_i htc hconfig
    rcases handleHoldTap_fst (w := { w with timeout := w.timeout - 1, ticks := satAdd w.ticks 1 })
      htc queue.items with ⟨timeout, len, heq⟩
    rw [ensures_pure]
    refine ⟨?_, ?_, List.Sublist.refl _, by simp, ?_, ?_, ?_⟩
    · rw [heq]
      exact haged.retimed timeout len hticks
    · rw [heq]
    · intro a pq h
      rcases Option.map_eq_some_iff.mp h with ⟨_, _, heq⟩
      cases heq
    · rw [heq]
      rfl
    -- a function that never drops the press does not decide so
    · rintro ⟨htc', hconfig', hdrops⟩ pq h
      obtain rfl : htc = htc' := WaitingConfig.holdTap.inj (hconfig.symm.trans hconfig')
      rcases Option.map_eq_some_iff.mp h with ⟨a, hdecision, ha⟩
      cases ha
      exact WaitingState.handleHoldTap_ne_noOp hdrops hdecision
  · rename_i tds hconfig
    exact (tickTapDance_ensures D haged hconfig queue).mono (fun t ht => { ht with }) fun _ hp => hp
  · rename_i group hconfig
    exact (tickChord_ensures D haged hconfig checks queue).mono (fun t ht => { ht with })
      fun _ hp => hp

end Tick

end Kanata
