import Kanata.Layout.Trace
import Kanata.Layout.Uniform
import Kanata.Parser.Macro

/-!
# Kanata.Layout.Macros — macros leave no key held

A macro that the parser builds releases every key it presses, so each fake key in
the states is owed a release by a macro in progress (`MacrosHeld`). The macros in
progress are in a queue of four. A fifth one puts the oldest out of the queue, and
the keys that it holds stay pressed when all macros are done (`stuck_key`); when
no step does that, none stays (`no_stuck_key`).
-/

namespace Kanata

open Machine

variable {C R : Nat} {T : Type}

/-! ## What a macro in progress holds -/

/-- Events as the parser builds them: balanced, and ended by `Complete`. -/
def BuiltEvents (events : List (SequenceEvent T)) : Prop :=
  ∃ es, Balanced es ∧ events = es ++ [.complete]

namespace SequenceState

/-- The key is still released more often than it is pressed. -/
def holds (seq : SequenceState T) (kc : KeyCode) : Bool :=
  decide (seq.remainingEvents.countP (SequenceEvent.presses kc) <
    seq.remainingEvents.countP (SequenceEvent.releases kc))

/-- Some key is held. -/
def holdsSome (seq : SequenceState T) : Bool :=
  seq.remainingEvents.any fun e =>
    match e with
    | .release kc => seq.holds kc
    | _ => false

/-- What is left of a macro that the parser built. -/
structure Built (seq : SequenceState T) : Prop where
  tapped : seq.tapped = none
  remaining : BuiltEvents seq.remainingEvents

theorem holds_iff {seq : SequenceState T} {kc : KeyCode} :
    seq.holds kc = true ↔ seq.remainingEvents.countP (SequenceEvent.presses kc) <
      seq.remainingEvents.countP (SequenceEvent.releases kc) :=
  decide_eq_true_iff

theorem holdsSome_of_holds {seq : SequenceState T} {kc : KeyCode} (h : seq.holds kc = true) :
    seq.holdsSome = true := by
  have hpos := Nat.zero_lt_of_lt (holds_iff.mp h)
  rcases List.countP_pos_iff.mp hpos with ⟨e, he, hreleases⟩
  refine List.any_eq_true.mpr ⟨e, he, ?_⟩
  cases e with
  | release keycode =>
    have heq : keycode = kc := by simpa [SequenceEvent.releases] using hreleases
    rw [heq]
    exact h
  | _ => cases hreleases

end SequenceState

namespace State

/-- The states that macros make. -/
def isMacro : State T → Bool
  | .fakeKey _ => true
  | .repeatingSequence _ _ => true
  | _ => false

end State

/-- Every fake key is held by a macro in progress. -/
structure MacrosHeld (s : Layout T) : Prop where
  sequences : ∀ seq ∈ s.activeSequences.items, seq.Built
  repeating : ∀ events c, .repeatingSequence events c ∈ s.states.items → BuiltEvents events
  held : ∀ kc, .fakeKey kc ∈ s.states.items →
    ∃ seq ∈ s.activeSequences.items, seq.holds kc = true

/-- The macros in progress stay and no state of a macro is added. -/
structure LeavesMacros (s s' : Layout T) : Prop where
  activeSequences : s'.activeSequences = s.activeSequences
  states : ∀ st ∈ s'.states.items, st.isMacro = true → st ∈ s.states.items

section Held

variable {s s' : Layout T}

theorem MacrosHeld.leave (h : MacrosHeld s) (hleaves : LeavesMacros s s') : MacrosHeld s' where
  sequences := by
    rw [hleaves.activeSequences]
    exact h.sequences
  repeating events c hmem := h.repeating events c (hleaves.states _ hmem rfl)
  held kc hmem := by
    rw [hleaves.activeSequences]
    exact h.held kc (hleaves.states _ hmem rfl)

theorem LeavesMacros.of_eq (hactive : s'.activeSequences = s.activeSequences)
    (hstates : s'.states = s.states) : LeavesMacros s s' where
  activeSequences := hactive
  states _ hst _ := hstates ▸ hst

theorem LeavesMacros.of_subset (hactive : s'.activeSequences = s.activeSequences)
    (hstates : ∀ st ∈ s'.states.items, st ∈ s.states.items) : LeavesMacros s s' where
  activeSequences := hactive
  states st hst _ := hstates st hst

/-- A state that is no macro's is added. -/
theorem LeavesMacros.of_push {st : State T} (hactive : s'.activeSequences = s.activeSequences)
    (hstates : s'.states = s.states.pushIgnore st) (hst : st.isMacro = false) :
    LeavesMacros s s' where
  activeSequences := hactive
  states st' hst' hkind := by
    rw [hstates] at hst'
    rcases Bounded.mem_pushIgnore hst' with hst' | rfl
    · exact hst'
    · rw [hst] at hkind
      cases hkind

/-! ## A macro advances -/

/-- The keys that a macro holds change with its next event. -/
theorem holds_cons {e : SequenceEvent T} {tail : List (SequenceEvent T)} {kc : KeyCode}
    {seq seq' : SequenceState T} (hseq : seq.remainingEvents = e :: tail)
    (hseq' : seq'.remainingEvents = tail) (hpresses : e.presses kc = false)
    (hreleases : e.releases kc = false) : seq'.holds kc = seq.holds kc := by
  unfold SequenceState.holds
  rw [hseq, hseq', List.countP_cons_of_neg (by simp [hpresses]),
    List.countP_cons_of_neg (by simp [hreleases])]

/-- What a tick of a macro does to the macro and to the states. -/
structure Turn (s s' : Layout T) (seq seq' : SequenceState T) : Prop where
  built : seq'.remainingEvents ≠ [] → seq'.Built
  repeating : ∀ events c, .repeatingSequence events c ∈ s'.states.items →
    .repeatingSequence events c ∈ s.states.items
  held : ∀ kc, .fakeKey kc ∈ s'.states.items →
    seq'.holds kc = true ∨ .fakeKey kc ∈ s.states.items ∧ seq.holds kc = false

/-- The states do not change for macros, and the event is no press or release. -/
theorem Turn.of_quiet {e : SequenceEvent T} {tail : List (SequenceEvent T)}
    {seq seq' : SequenceState T} (hseq : seq.remainingEvents = e :: tail)
    (hseq' : seq'.remainingEvents = tail) (hbuilt : seq'.Built)
    (hpresses : ∀ kc, e.presses kc = false) (hreleases : ∀ kc, e.releases kc = false)
    (hstates : ∀ st ∈ s'.states.items, st.isMacro = true → st ∈ s.states.items) :
    Turn s s' seq seq' where
  built _ := hbuilt
  repeating events c hmem := hstates _ hmem rfl
  held kc hmem := by
    rw [holds_cons hseq hseq' (hpresses kc) (hreleases kc)]
    by_cases hholds : seq.holds kc = true
    · exact .inl hholds
    · exact .inr ⟨hstates _ hmem rfl, by simpa using hholds⟩

/-- The states get a fake key that the macro still releases. -/
theorem Turn.of_press {keycode : KeyCode} {tail : List (SequenceEvent T)}
    {seq seq' : SequenceState T} (hseq : seq.remainingEvents = .press keycode :: tail)
    (hseq' : seq'.remainingEvents = tail) (hbuilt : seq'.Built)
    (hholds : seq'.holds keycode = true)
    (hstates : s'.states = s.states.pushIgnore (.fakeKey keycode)) : Turn s s' seq seq' where
  built _ := hbuilt
  repeating events c hmem := by
    rw [hstates] at hmem
    rcases Bounded.mem_pushIgnore hmem with hmem | heq
    · exact hmem
    · cases heq
  held kc hmem := by
    by_cases heq : keycode = kc
    · exact .inl (heq ▸ hholds)
    · have hsame : seq'.holds kc = seq.holds kc :=
        holds_cons hseq hseq' (by simp [SequenceEvent.presses, heq]) rfl
      rw [hstates] at hmem
      rcases Bounded.mem_pushIgnore hmem with hmem | hfake
      · by_cases hold : seq.holds kc = true
        · exact .inl (hsame.trans hold)
        · exact .inr ⟨hmem, by simpa using hold⟩
      · cases hfake
        exact absurd rfl heq

/-- The fake keys of a key code are gone. -/
theorem Turn.of_release {keycode : KeyCode} {tail : List (SequenceEvent T)}
    {seq seq' : SequenceState T} (hseq : seq.remainingEvents = .release keycode :: tail)
    (hseq' : seq'.remainingEvents = tail) (hbuilt : seq'.Built)
    (hstates : s'.states = s.states.retain (State.survivesSeqRelease keycode)) :
    Turn s s' seq seq' where
  built _ := hbuilt
  repeating events c hmem := by
    rw [hstates] at hmem
    exact (List.mem_filter.mp hmem).1
  held kc hmem := by
    rw [hstates] at hmem
    rcases List.mem_filter.mp hmem with ⟨hmem, hsurvives⟩
    have hne : keycode ≠ kc := by
      intro heq
      simp [State.survivesSeqRelease, heq] at hsurvives
    have hsame : seq'.holds kc = seq.holds kc :=
      holds_cons hseq hseq' rfl (by simp [SequenceEvent.releases, hne])
    by_cases hold : seq.holds kc = true
    · exact .inl (hsame.trans hold)
    · exact .inr ⟨hmem, by simpa using hold⟩

/-- One tick of a macro that the parser built, by its next event. -/
theorem processSequence_turn {seq : SequenceState T} (hseq : seq.Built) :
    Turn s (Layout.processSequence s seq).1 seq (Layout.processSequence s seq).2 := by
  unfold Layout.processSequence
  split
  · -- a delay runs
    refine ⟨fun _ => ⟨hseq.tapped, hseq.remaining⟩, fun _ _ hmem => hmem, ?_⟩
    intro kc hmem
    by_cases hold : seq.holds kc = true
    · exact .inl hold
    · exact .inr ⟨hmem, by simpa using hold⟩
  · rcases hseq.remaining with ⟨es, hbalanced, hremaining⟩
    simp only [hseq.tapped, hremaining]
    cases es with
    | nil =>
      -- the macro is complete
      refine ⟨fun hne => absurd rfl hne, fun _ _ hmem => hmem, ?_⟩
      intro kc hmem
      refine .inr ⟨hmem, ?_⟩
      simp [SequenceState.holds, hremaining, SequenceEvent.presses, SequenceEvent.releases]
    | cons e es =>
      have htail : BuiltEvents (es ++ [.complete]) :=
        ⟨es, hbalanced.of_suffix (List.suffix_cons e es), rfl⟩
      simp only [List.cons_append] at hremaining ⊢
      cases e with
      | press keycode =>
        dsimp only
        refine .of_press hremaining rfl ⟨rfl, htail⟩ ?_ ?_
        · have hleft := hbalanced.left keycode _ (List.suffix_refl _)
          rw [SequenceState.holds_iff]
          simp only [List.countP_cons, List.countP_append, List.countP_nil,
            SequenceEvent.presses, SequenceEvent.releases, beq_self_eq_true] at hleft ⊢
          simp only [ite_true, Bool.false_eq_true, ite_false] at hleft ⊢
          omega
        · rw [Layout.pushHistoricalKey_eq]
          rfl
      | release keycode =>
        dsimp only
        exact .of_release hremaining rfl ⟨rfl, htail⟩ rfl
      | tap keycode => exact absurd (hbalanced.plain _ List.mem_cons_self) (by intro h; cases h)
      | complete => exact absurd (hbalanced.plain _ List.mem_cons_self) (by intro h; cases h)
      | delay duration =>
        dsimp only
        split <;> exact .of_quiet hremaining rfl ⟨rfl, htail⟩ (by intro _; rfl)
          (by intro _; rfl) fun _ hst _ => hst
      | custom value =>
        dsimp only
        have hpush : LeavesMacros s (s.pushState (.seqCustomPending value)) := .of_push rfl rfl rfl
        exact .of_quiet hremaining rfl ⟨rfl, htail⟩ (by intro _; rfl) (by intro _; rfl)
          hpush.states
      | noOp =>
        dsimp only
        exact .of_quiet hremaining rfl ⟨rfl, htail⟩ (by intro _; rfl)
          (by intro _; rfl) fun _ hst _ => hst

/-- A turn of the loop over the macros in progress. -/
theorem MacrosHeld.advance (h : MacrosHeld s) : MacrosHeld s.advanceSequence := by
  unfold Layout.advanceSequence
  cases hitems : s.activeSequences.items with
  | nil =>
    simp only [Bounded.popFront, hitems]
    exact h
  | cons seq rest =>
    have hseq : seq.Built := h.sequences seq (by rw [hitems]; exact List.mem_cons_self)
    have hlen : rest.length < activeSequencesLen := by
      have hle := s.activeSequences.length_le
      rw [hitems] at hle
      exact hle
    simp only [Bounded.popFront, hitems, List.head?_cons, List.tail_cons]
    generalize hs₀ : ({ s with activeSequences := ⟨rest, Nat.le_of_lt hlen⟩ } : Layout T) = s₀
    have hturn : Turn s₀ _ seq _ := processSequence_turn hseq
    generalize hr : Layout.processSequence s₀ seq = r at hturn ⊢
    have hactive : r.1.activeSequences.items = rest := by
      rw [← hr, Layout.processSequence_eq, ← hs₀]
    have hrest : ∀ seq' ∈ rest, seq'.Built := fun seq' hmem =>
      h.sequences seq' (by rw [hitems]; exact List.mem_cons_of_mem _ hmem)
    have hrepeating : ∀ events c, .repeatingSequence events c ∈ r.1.states.items →
        BuiltEvents events := fun events c hmem =>
      h.repeating events c (by have := hturn.repeating events c hmem; rwa [← hs₀] at this)
    -- a key is still held by the macro, or it is held by another one
    have hheld : ∀ kc, .fakeKey kc ∈ r.1.states.items →
        r.2.holds kc = true ∨ ∃ seq' ∈ rest, seq'.holds kc = true := by
      intro kc hmem
      rcases hturn.held kc hmem with hholds | ⟨hmem, hnot⟩
      · exact .inl hholds
      · rw [← hs₀] at hmem
        rcases h.held kc hmem with ⟨owner, howner, hholds⟩
        rw [hitems] at howner
        rcases List.mem_cons.mp howner with rfl | howner
        · rw [hnot] at hholds
          cases hholds
        · exact .inr ⟨owner, howner, hholds⟩
    split
    · rename_i hdone
      refine ⟨fun seq' hmem => hrest seq' (hactive ▸ hmem), hrepeating, ?_⟩
      intro kc hmem
      rcases hheld kc hmem with hholds | ⟨owner, howner, hholds⟩
      · have hnil : r.2.remainingEvents = [] := by simpa using hdone
        simp [SequenceState.holds, hnil] at hholds
      · exact ⟨owner, hactive ▸ howner, hholds⟩
    · rename_i hnot
      have hback : (r.1.activeSequences.pushBack r.2).1.items = rest ++ [r.2] := by
        rw [(Bounded.pushBack_of_lt (by rw [hactive]; exact hlen) r.2).1, hactive]
      have hbuilt : r.2.Built := hturn.built (by simpa using hnot)
      refine ⟨?_, hrepeating, ?_⟩
      · intro seq' hmem
        rw [hback] at hmem
        rcases List.mem_append.mp hmem with hmem | hmem
        · exact hrest seq' hmem
        · rw [List.mem_singleton.mp hmem]
          exact hbuilt
      · intro kc hmem
        rw [hback]
        rcases hheld kc hmem with hholds | ⟨owner, howner, hholds⟩
        · exact ⟨r.2, by simp, hholds⟩
        · exact ⟨owner, List.mem_append_left _ howner, hholds⟩

/-! ## A macro starts -/

/-- Four macros are in progress, and the oldest of them holds a key. -/
def OldestHolds (active : List (SequenceState T)) : Prop :=
  active.length = activeSequencesLen ∧ ∃ seq ∈ active.head?, seq.holdsSome = true

instance (active : List (SequenceState T)) : Decidable (OldestHolds active) :=
  inferInstanceAs (Decidable (_ ∧ ∃ seq ∈ active.head?, seq.holdsSome = true))

/-- What a macro puts out of the queue that starts: the oldest of four. -/
theorem head?_of_startSequence_lost {events : List (SequenceEvent T)} {owner : SequenceState T}
    (h : (s.activeSequences.pushBack ⟨none, 0, none, events⟩).2 = some owner) :
    s.activeSequences.items.length = activeSequencesLen ∧
      s.activeSequences.items.head? = some owner := by
  have hfull : ¬ s.activeSequences.items.length < activeSequencesLen := fun hlt => by
    rw [Bounded.pushBack_eq_none.mpr hlt] at h
    cases h
  have hlen : s.activeSequences.items.length = activeSequencesLen :=
    Nat.le_antisymm s.activeSequences.length_le (Nat.le_of_not_lt hfull)
  have hsplit := Bounded.pushBack_append s.activeSequences ⟨none, 0, none, events⟩
  rw [h] at hsplit
  cases hitems : s.activeSequences.items with
  | nil =>
    rw [hitems] at hlen
    cases hlen
  | cons seq rest =>
    rw [hitems] at hsplit hlen
    exact ⟨hlen, congrArg some (List.cons.inj hsplit).1.symm⟩

/-- A macro starts, and the one it puts out of the queue holds no key. -/
theorem MacrosHeld.start (h : MacrosHeld s) {events : List (SequenceEvent T)}
    (hevents : BuiltEvents events) (holdest : ¬ OldestHolds s.activeSequences.items) :
    MacrosHeld (s.startSequence events) := by
  rw [Layout.startSequence_eq]
  have hpush := Bounded.pushBack_append s.activeSequences ⟨none, 0, none, events⟩
  refine ⟨?_, h.repeating, ?_⟩
  · intro seq hseq
    rcases Bounded.mem_pushBack hseq with hseq | rfl
    · exact h.sequences seq hseq
    · exact ⟨rfl, hevents⟩
  · intro kc hmem
    rcases h.held kc hmem with ⟨owner, howner, hholds⟩
    have hsplit : owner ∈ (s.activeSequences.pushBack ⟨none, 0, none, events⟩).2.toList ++
        (s.activeSequences.pushBack ⟨none, 0, none, events⟩).1.items := by
      rw [hpush]
      exact List.mem_append_left _ howner
    rcases List.mem_append.mp hsplit with hlost | hkept
    · have hsome : owner.holdsSome = true := SequenceState.holdsSome_of_holds hholds
      have hfirst := head?_of_startSequence_lost (Option.mem_toList.mp hlost)
      exact absurd ⟨hfirst.1, owner, hfirst.2, hsome⟩ holdest
    · exact ⟨owner, hkept, hholds⟩

/-- No macro is in progress and no fake key is left. -/
theorem MacrosHeld.cancel (h : MacrosHeld s) (hactive : s'.activeSequences = .empty)
    (hstates : ∀ st ∈ s'.states.items, st.isFakeKey = false ∧ st ∈ s.states.items) :
    MacrosHeld s' where
  sequences seq hseq := by
    rw [hactive] at hseq
    cases hseq
  repeating events c hmem := h.repeating events c (hstates _ hmem).2
  held kc hmem := by cases (hstates _ hmem).1

end Held

/-! ## Every part of a step -/

section Parts

variable {cfg : LayoutConfig C R T} {E : Panic → Prop} {D : Discipline cfg E} {s s' : Layout T}
  {e : CustomEvent T}

/-- Every macro that may be performed is one that the parser built. -/
def Discipline.BuildsMacros (D : Discipline cfg E) : Prop :=
  ∀ events c, D.performs (.sequence events) c ∨ D.performs (.repeatableSequence events) c →
    BuiltEvents events

/-- The action does not put a macro out of the queue that holds a key. -/
def KeepsHolders (action : Action T) (found : Found T) : Prop :=
  match action with
  | .sequence _ => ¬ OldestHolds found.activeSequences
  | .repeatableSequence _ => ¬ OldestHolds found.activeSequences
  | _ => True

instance (action : Action T) (found : Found T) : Decidable (KeepsHolders action found) := by
  unfold KeepsHolders
  split <;> infer_instance

/-- Every macro was started so. -/
def StartedKeeping (s : Layout T) : Prop := ∀ o ∈ s.trace, o.Meets KeepsHolders

theorem StartedKeeping.oldest {action : Action T} {events : List (SequenceEvent T)}
    (h : StartedKeeping s)
    (haction : action = .sequence events ∨ action = .repeatableSequence events)
    (hperforming : s.IsPerforming action) : ¬ OldestHolds s.activeSequences.items := by
  rcases hperforming with ⟨coord, hlast⟩
  have hmeets : KeepsHolders action s.found := h _ (List.mem_of_getLast? hlast)
  rcases haction with rfl | rfl
  · exact hmeets
  · exact hmeets

theorem Update.macrosHeld (hD : D.BuildsMacros) {u : Update T} (hu : u.Allowed D s)
    (h : MacrosHeld s) (hkept : StartedKeeping s) : MacrosHeld (u.apply cfg s) := by
  cases u with
  | startSequence events =>
    rcases hu with ⟨action, c, haction, hallowed, hperforming⟩
    have hbuilds : D.performs (.sequence events) c ∨ D.performs (.repeatableSequence events) c := by
      rcases haction with rfl | rfl
      · exact .inl hallowed
      · exact .inr hallowed
    exact h.start (hD events c hbuilds) (hkept.oldest haction hperforming)
  | cancelSequences =>
    refine h.cancel rfl ?_
    intro st hst
    rcases List.mem_filter.mp hst with ⟨hmem, hleft⟩
    exact ⟨by simpa using hleft, hmem⟩
  | pushRepeating events c =>
    have hevents : BuiltEvents events := hD events c (.inr hu)
    refine ⟨h.sequences, ?_, ?_⟩
    · intro events' c' hmem
      rcases Bounded.mem_pushIgnore hmem with hmem | heq
      · exact h.repeating events' c' hmem
      · cases heq
        exact hevents
    · intro kc hmem
      rcases Bounded.mem_pushIgnore hmem with hmem | heq
      · exact h.held kc hmem
      · cases heq
  | clearFlagged =>
    refine h.leave (.of_subset rfl ?_)
    exact fun st hst => (List.mem_filter.mp (Bounded.mem_ofTake hst)).1
  | releaseState rs => exact h.leave (.of_subset rfl fun st hst => (List.mem_filter.mp hst).1)
  | pushNormalKey kc coord flags => exact h.leave (.of_push rfl rfl rfl)
  | pushLayer value coord => exact h.leave (.of_push rfl rfl rfl)
  | pushNoOpInput coord => exact h.leave (.of_push rfl rfl rfl)
  | pushHistoricalKey kc =>
    rw [Update.apply, Layout.pushHistoricalKey_eq]
    exact h.leave (.of_eq rfl rfl)
  | setDefaultLayer value =>
    rw [Update.apply, Layout.setDefaultLayer_eq]
    exact h.leave (.of_eq rfl rfl)
  | deferAction qa =>
    rw [Update.apply, Layout.pushAction_eq]
    exact h.leave (.of_eq rfl rfl)
  | setWaiting w =>
    rw [Update.apply, Layout.setWaiting_eq]
    exact h.leave (.of_eq rfl rfl)
  | pushExtraWaiting w =>
    rw [Update.apply, Layout.pushExtraWaiting_eq]
    exact h.leave (.of_eq rfl rfl)
  | takeWaiting w outcome idx =>
    rw [Update.apply, Layout.takeWaiting_eq]
    exact h.leave (.of_eq rfl rfl)
  | arrive event =>
    rw [Update.apply, Layout.arrive_eq]
    exact h.leave (.of_eq rfl rfl)
  | startTapDanceEager coord td =>
    rw [Update.apply, Layout.startTapDanceEager_eq]
    exact h.leave (.of_eq rfl rfl)
  | takePress call =>
    rw [Update.apply, Layout.notePressed, Layout.takePress_eq]
    exact h.leave (.of_eq rfl rfl)
  | enqueue q =>
    rw [Update.apply, Layout.enqueue_eq]
    exact h.leave (.of_eq rfl rfl)
  | _ => exact h.leave (.of_eq rfl rfl)

theorem discard_macrosHeld (h : MacrosHeld s) (e : CustomEvent T) : MacrosHeld (s.discard e) := by
  rw [Layout.discard_eq]
  exact h.leave (.of_eq rfl rfl)

theorem StartedKeeping.of_grows (h : StartedKeeping s') (hgrows : s.trace <+: s'.trace) :
    StartedKeeping s := fun o ho => h o (hgrows.subset ho)

theorem StartedKeeping.of_discard {e : CustomEvent T} (h : StartedKeeping (s.discard e)) :
    StartedKeeping s := h.of_grows ⟨_, (Layout.discard_trace _ _).symm⟩

theorem Performs.macrosHeld (hD : D.BuildsMacros) (hperforms : Performs D s s' e)
    (h : MacrosHeld s) (hkept : StartedKeeping s') : MacrosHeld s' := by
  induction hperforms with
  | refl s => exact h
  | @update s u hu =>
    exact Update.macrosHeld hD hu h (hkept.of_grows ⟨_, (u.apply_trace s).symm⟩)
  | custom s value coord =>
    unfold Layout.pushCustom
    split
    · exact h.leave (.of_eq rfl rfl)
    · exact h.leave (.of_push rfl rfl rfl)
  | release hrelease =>
    rcases dequeueRelease_eq_ok hrelease with ⟨states, rel, hsub, _, rfl⟩
    exact h.leave (.of_subset rfl fun st hst => hsub.subset (Bounded.mem_ofTake hst))
  | merge h₁ h₂ ih₁ ih₂ =>
    have hkept₂ := hkept.of_discard
    have hkept₁ := hkept₂.of_grows h₂.trace_grows
    exact discard_macrosHeld (ih₂ (ih₁ h hkept₁) hkept₂) _
  | discard _ ih => exact discard_macrosHeld (ih h hkept.of_discard) _

/-- The custom actions of macros are not macros' keys. -/
theorem mem_advanceSeqCustom {states : List (State T)} {st : State T}
    (hst : st ∈ (Layout.advanceSeqCustom states).1) (hkind : st.isMacro = true) : st ∈ states := by
  induction states with
  | nil => exact hst
  | cons head states ih =>
    cases head with
    | seqCustomPending custom =>
      rcases List.mem_cons.mp hst with rfl | hst
      · cases hkind
      · exact List.mem_cons_of_mem _ hst
    | seqCustomActive custom =>
      rcases List.mem_cons.mp hst with rfl | hst
      · cases hkind
      · exact List.mem_cons_of_mem _ hst
    | _ =>
      rcases List.mem_cons.mp hst with rfl | hst
      · exact List.mem_cons_self
      · exact List.mem_cons_of_mem _ (ih hst)

theorem processSequenceCustom_leaves (s : Layout T) :
    LeavesMacros s (s.processSequenceCustom .noEvent).1 := by
  have hactive : (s.processSequenceCustom .noEvent).1.activeSequences = s.activeSequences := by
    rw [Layout.processSequenceCustom_eq]
  refine ⟨hactive, ?_⟩
  intro st hst hkind
  unfold Layout.processSequenceCustom at hst
  split at hst
  · exact hst
  · dsimp only at hst
    obtain ⟨p, hmem⟩ : ∃ p, st ∈ (Layout.advanceSeqCustom (s.states.items.filter p)).1 := by
      split at hst <;> exact ⟨_, Bounded.mem_ofTake hst⟩
    exact (List.mem_filter.mp (mem_advanceSeqCustom hmem hkind)).1
  · exact hst

theorem Passing.macrosHeld {u : Passing T} (hu : u.Allowed D s) (h : MacrosHeld s) :
    MacrosHeld (u.apply s) := by
  cases u with
  | advanceSequence => exact h.advance
  | restartSequence events =>
    rcases hu with ⟨hnone, c, hc⟩
    -- a macro repeats itself only when no other one is in progress
    refine h.start (h.repeating events c hc) fun holdest => ?_
    rw [hnone] at holdest
    cases holdest.1
  | advanceCustom => exact h.leave (processSequenceCustom_leaves s)
  | cancelMacros =>
    refine h.cancel rfl ?_
    intro st hst
    rcases List.mem_filter.mp hst with ⟨hmem, hleft⟩
    refine ⟨?_, hmem⟩
    cases st <;> first | rfl | cases hleft
  | markOverridden kc =>
    refine h.leave ⟨rfl, ?_⟩
    intro st hst hkind
    rcases List.mem_map.mp hst with ⟨st', hst', rfl⟩
    cases st' with
    | normalKey keycode coord flags =>
      have hkey : (State.markOverridden kc (.normalKey keycode coord flags) : State T).isMacro =
          false := by
        by_cases heq : kc = keycode <;> simp [State.markOverridden, heq, State.isMacro]
      rw [hkey] at hkind
      cases hkind
    | _ => exact hst'
  | removeNormalKey kc =>
    exact h.leave (.of_subset rfl fun st hst => (List.mem_filter.mp hst).1)
  | receive q =>
    rw [Passing.apply, Layout.pushQueue_eq]
    exact h.leave (.of_eq rfl rfl)
  | queueChord qa =>
    rw [Passing.apply, Layout.pushAction_eq]
    exact h.leave (.of_eq rfl rfl)
  | takeEvent =>
    rw [Passing.apply, Layout.takeEvent_eq]
    exact h.leave (.of_eq rfl rfl)
  | tickWaiting t =>
    rw [Passing.apply, Layout.afterTickWt_eq]
    exact h.leave (.of_eq rfl rfl)
  | tickExtraWaiting i t =>
    rw [Passing.apply, Layout.afterTickWt_eq]
    exact h.leave (.of_eq rfl rfl)
  | loseWaiting =>
    rw [Passing.apply, Layout.loseWaiting_eq]
    exact h.leave (.of_eq rfl rfl)
  | _ => exact h.leave (.of_eq rfl rfl)

theorem Advances.macrosHeld (hD : D.BuildsMacros) (hadvances : Advances D s s' e)
    (h : MacrosHeld s) (hkept : StartedKeeping s') : MacrosHeld s' := by
  induction hadvances with
  | performs hperforms => exact hperforms.macrosHeld hD h hkept
  | pass u hu => exact Passing.macrosHeld hu h
  | @takes s s' e qa count hqa hact hperforms =>
    have htaken : MacrosHeld s.takeAction := by
      rw [Layout.takeAction_eq]
      exact h.leave (.of_eq rfl rfl)
    exact hperforms.macrosHeld hD htaken hkept
  | merge h₁ h₂ ih₁ ih₂ =>
    have hkept₂ := hkept.of_discard
    have hkept₁ := hkept₂.of_grows h₂.trace_grows
    exact discard_macrosHeld (ih₂ (ih₁ h hkept₁) hkept₂) _

end Parts

/-! ## Runs -/

/-- A macro action is one that `parse_macro` gave. -/
def Action.IsParsedMacro (a : Action T) : Prop :=
  ∀ events, a = .sequence events ∨ a = .repeatableSequence events →
    ∃ (p : Macro.ParserState T) (acParams : List SExpr) (rep : Macro.RepeatMacro),
      Macro.parseMacro acParams p rep = .ok a

theorem Action.IsParsedMacro.built {a : Action T} (h : a.IsParsedMacro)
    {events : List (SequenceEvent T)} (ha : a = .sequence events ∨ a = .repeatableSequence events) :
    BuiltEvents events := by
  rcases h events ha with ⟨p, acParams, rep, hparse⟩
  rcases Macro.parseMacro_balanced hparse with ⟨es, hbalanced, hes⟩
  refine ⟨es, hbalanced, ?_⟩
  rcases ha with rfl | rfl
  · rcases hes with heq | heq
    · cases heq
      rfl
    · cases heq
  · rcases hes with heq | heq
    · cases heq
    · cases heq
      rfl

theorem uniform_of_parsed {cfg : LayoutConfig C R T}
    (hcfg : cfg.Every Action.IsParsedMacro) :
    Uniform cfg Action.IsParsedMacro fun _ => True where
  config := hcfg
  noOp events h := by rcases h with h | h <;> cases h
  trans events h := by rcases h with h | h <;> cases h
  keyCode kc events h := by rcases h with h | h <;> cases h
  multiKeyBuffer events h := by rcases h with h | h <;> cases h
  layersZero := trivial
  layer _ := trivial
  defaultLayer _ := trivial

/-- The invariant of every run in which no macro starts behind four of which the oldest holds a
key. -/
theorem run_macrosHeld {cfg : LayoutConfig C R T} (hcfg : cfg.Every Action.IsParsedMacro)
    {delay : Nat} {ops : List LayoutOp} {s' : Layout T} {os : List (CustomEvent T)}
    (h : run (Layout.step cfg) (.new delay) ops = .ok (s', os)) (hkept : StartedKeeping s') :
    MacrosHeld s' := by
  have hD : (Discipline.uniform (uniform_of_parsed hcfg)).BuildsMacros := by
    intro events c hperforms
    rcases hperforms with hperforms | hperforms
    · exact hperforms.here.built (.inl rfl)
    · exact hperforms.here.built (.inr rfl)
  refine (@run_within _ _ _ cfg _ (Discipline.uniform (uniform_of_parsed hcfg))
    (fun _ => trivial) trivial (fun _ => trivial) delay ops s' os
    (fun _ s => StartedKeeping s → MacrosHeld s) ?_ ?_ h).2 hkept
  · intro _
    exact ⟨by simp [Layout.new], by simp [Layout.new], by simp [Layout.new]⟩
  · intro _ s s₁ e _ hheld hadvances hkept₁
    exact hadvances.macrosHeld hD (hheld (hkept₁.of_grows hadvances.trace_grows)) hkept₁

/-- When no macro is started behind four of which the oldest holds a key, no fake key is left
once all macros are done. -/
theorem no_stuck_key (cfg : LayoutConfig C R T) (hcfg : cfg.Every Action.IsParsedMacro)
    (delay : Nat) (ops : List LayoutOp) (s' : Layout T) (os : List (CustomEvent T))
    (h : run (Layout.step cfg) (.new delay) ops = .ok (s', os))
    (hkeeps : Along (Layout.step cfg) (PerformsWhere cfg KeepsHolders) (.new delay) ops)
    (hdone : s'.activeSequences.items = []) (kc : KeyCode) : .fakeKey kc ∉ s'.states.items := by
  intro hmem
  have hkept : StartedKeeping s' := (along_records_iff h).mp hkeeps
  rcases (run_macrosHeld hcfg h hkept).held kc hmem with ⟨seq, hseq, _⟩
  rw [hdone] at hseq
  cases hseq

/-! ## A key that is stuck -/

/-- A parser for which every item is one key. -/
def keyParser (kc : KeyCode) : Macro.ParserState Nat where
  vars := none
  parseAction _ := .ok (.keyCode kc)
  quote s := s
  stackDepth := 1

/-- `(macro key)`. -/
def tapMacro (kc : KeyCode) : Action Nat := .sequence [.press kc, .release kc, .complete]

theorem tapMacro_parsed {kc : KeyCode} (hkc : (kc == Macro.keyOverlap) = false) :
    (tapMacro kc).IsParsedMacro := by
  intro events _
  refine ⟨keyParser kc, [.listNode [] default], .no, ?_⟩
  have hitems : Macro.parseItems (Macro.parseMacroItemImpl (keyParser kc) 1 .delay) 1
      [.listNode [] default] = .ok [.press kc, .release kc] := rfl
  have hoverlap : ([.press kc, .release kc] : List (SequenceEvent Nat)).any Macro.isOverlap =
      false := by
    simp [Macro.isOverlap, hkc]
  unfold Macro.parseMacro
  rw [if_neg (by simp)]
  show (Macro.parseItems (Macro.parseMacroItemImpl (keyParser kc) 1 .delay) 1
    [.listNode [] default] >>= _) = _
  rw [hitems, Fallible.ok_bind, hoverlap]
  rfl

/-- A macro on the first key, and four others at once on the second. -/
def fiveMacros : LayoutConfig 16 2 Nat :=
  oneLayer [tapMacro keyA,
    .multipleActions [tapMacro keyB, tapMacro keyB, tapMacro keyB, tapMacro keyB]]

theorem tapMacro_every {kc : KeyCode} (hkc : (kc == Macro.keyOverlap) = false) :
    (tapMacro kc).Every Action.IsParsedMacro :=
  .leaf (tapMacro_parsed hkc) rfl

theorem fiveMacros_parsed : fiveMacros.Every Action.IsParsedMacro := by
  refine oneLayer_every (by intro events h; rcases h with h | h <;> cases h) ?_
  intro a ha
  have hB : (tapMacro keyB).Every Action.IsParsedMacro := tapMacro_every (by decide)
  simp only [List.mem_cons, List.not_mem_nil, or_false] at ha
  rcases ha with rfl | rfl
  · exact tapMacro_every (by decide)
  · refine .intro (by intro events h; rcases h with h | h <;> cases h) ?_
    intro b hb
    have heq : b = tapMacro keyB := by simpa [Action.children] using hb
    rw [heq]
    exact hB

/-- The fifth macro puts the first one out of the queue just after its press. All
macros are done and its key stays down. -/
theorem stuck_key :
    fiveMacros.Every Action.IsParsedMacro ∧
      ∃ s' os, run (Layout.step fiveMacros) (.new 0)
          [press 1, .tick, press 2, .tick, .tick, .tick, .tick] = .ok (s', os) ∧
        s'.activeSequences.items = [] ∧ .fakeKey keyA ∈ s'.states.items := by
  have hends : endsWith (Layout.step fiveMacros)
      (fun s _ => decide (s.activeSequences.items = [] ∧ .fakeKey keyA ∈ s.states.items)) (.new 0)
      [press 1, .tick, press 2, .tick, .tick, .tick, .tick] = true := by
    decide
  rcases of_endsWith hends with ⟨s', os, hrun, hcheck⟩
  exact ⟨fiveMacros_parsed, s', os, hrun, of_decide_eq_true hcheck⟩

/-- The second key alone: its four macros run beside each other. -/
theorem no_stuck_key_four :
    ∃ s' os, run (Layout.step fiveMacros) (.new 0) [press 2, .tick, .tick, .tick, .tick] =
        .ok (s', os) ∧ .fakeKey keyB ∉ s'.states.items := by
  have hends : endsWith (Layout.step fiveMacros)
      (fun s _ => decide (s.activeSequences.items = [])) (.new 0)
      [press 2, .tick, .tick, .tick, .tick] = true := by
    decide
  rcases of_endsWith hends with ⟨s', os, hrun, hcheck⟩
  exact ⟨s', os, hrun, no_stuck_key fiveMacros fiveMacros_parsed 0 _ s' os hrun (by decide)
    (of_decide_eq_true hcheck) keyB⟩

end Kanata
