import Kanata.Layout.Macros
import Kanata.Parser.MacroTree
import Mathlib.Data.List.Induction

/-!
# Kanata.Layout.MacroGroups — the modifiers of a macro's groups

A macro that runs alone: each tick performs its next event, and nothing else touches
its keys. Its fake keys are then what `heldAfter` says of the events so far, so the
modifiers of a group are held as long as nothing inside the group releases them.
-/

namespace Kanata

open Machine

variable {T : Type}

/-! ## One event -/

def State.fakeKeycode : State T → Option KeyCode
  | .fakeKey kc => some kc
  | _ => none

namespace Layout

variable {s s' : Layout T} {seq : SequenceState T} {e : SequenceEvent T}
  {events tail : List (SequenceEvent T)}

/-- The keys that macros hold. -/
def fakeKeys (s : Layout T) : List KeyCode := s.states.items.filterMap State.fakeKeycode

theorem mem_fakeKeys {kc : KeyCode} : kc ∈ s.fakeKeys ↔ .fakeKey kc ∈ s.states.items := by
  unfold fakeKeys
  rw [List.mem_filterMap]
  constructor
  · rintro ⟨st, hst, hkc⟩
    cases st with
    | fakeKey kc' =>
      obtain rfl := Option.some.inj hkc
      exact hst
    | _ => cases hkc
  · intro hst
    exact ⟨_, hst, rfl⟩

/-- Only a macro that is started again is in the states. -/
def OnlyRepeats (events : List (SequenceEvent T)) (s : Layout T) : Prop :=
  ∀ events' c, .repeatingSequence events' c ∈ s.states.items → events' = events

theorem OnlyRepeats.of_subset (h : OnlyRepeats events s)
    (hsub : ∀ events' c, .repeatingSequence events' c ∈ s'.states.items →
      .repeatingSequence events' c ∈ s.states.items) : OnlyRepeats events s' :=
  fun events' c hmem => h events' c (hsub events' c hmem)

/-- There is room for the key that is pressed next. -/
def RoomToPress (s : Layout T) : Prop :=
  ∀ seq ∈ s.activeSequences.items, seq.delay = 0 → ∀ kc tail,
    seq.remainingEvents = .press kc :: tail → s.states.items.length < statesLen

/-- What a tick does with an event of a macro. -/
structure Plays (s s' : Layout T) (e : SequenceEvent T) : Prop where
  fakeKeys : s'.fakeKeys = heldAfter s.fakeKeys e
  repeating : ∀ events' c, .repeatingSequence events' c ∈ s'.states.items →
    .repeatingSequence events' c ∈ s.states.items

/-- The states do not change for macros. -/
theorem Plays.of_push {st : State T} (hfake : st.fakeKeycode = none)
    (hst : ∀ events' c, st ≠ .repeatingSequence events' c)
    (he : heldAfter s.fakeKeys e = s.fakeKeys)
    (hstates : s'.states = s.states.pushIgnore st) : Plays s s' e where
  fakeKeys := by
    rw [he]
    unfold Layout.fakeKeys
    rw [hstates, Bounded.pushIgnore_items]
    have hle := s.states.length_le
    rcases Nat.lt_or_ge s.states.items.length statesLen with hlt | hge
    · rw [List.take_of_length_le (by rw [List.length_append]; exact hlt), List.filterMap_append]
      simp [hfake]
    · rw [List.take_append_of_le_length hge, List.take_of_length_le hle]
  repeating events' c hmem := by
    rw [hstates] at hmem
    rcases Bounded.mem_pushIgnore hmem with hmem | heq
    · exact hmem
    · exact absurd heq.symm (hst events' c)

theorem Plays.of_same (he : heldAfter s.fakeKeys e = s.fakeKeys) (hstates : s'.states = s.states) :
    Plays s s' e where
  fakeKeys := by
    rw [he]
    unfold Layout.fakeKeys
    rw [hstates]
  repeating events' c hmem := by
    rw [hstates] at hmem
    exact hmem

theorem Plays.of_press {kc : KeyCode} (hroom : s.states.items.length < statesLen)
    (hstates : s'.states = s.states.pushIgnore (.fakeKey kc)) : Plays s s' (.press kc) where
  fakeKeys := by
    unfold Layout.fakeKeys
    rw [hstates, Bounded.pushIgnore_items,
      List.take_of_length_le (by rw [List.length_append]; exact hroom), List.filterMap_append]
    rfl
  repeating events' c hmem := by
    rw [hstates] at hmem
    rcases Bounded.mem_pushIgnore hmem with hmem | heq
    · exact hmem
    · cases heq

theorem Plays.of_release {kc : KeyCode}
    (hstates : s'.states = s.states.retain (State.survivesSeqRelease kc)) :
    Plays s s' (.release kc) where
  fakeKeys := by
    unfold Layout.fakeKeys heldAfter
    rw [hstates, Bounded.retain_items]
    induction s.states.items with
    | nil => rfl
    | cons st states ih =>
      cases st with
      | fakeKey kc' =>
        cases hkc : kc' != kc with
        | true => simpa [State.survivesSeqRelease, State.fakeKeycode, hkc] using ih
        | false => simpa [State.survivesSeqRelease, State.fakeKeycode, hkc] using ih
      | _ => exact ih
  repeating events' c hmem := by
    rw [hstates] at hmem
    exact (List.mem_filter.mp hmem).1

/-- A tick of a macro that performs its next event. -/
theorem processSequence_plays (hdelay : seq.delay = 0) (htapped : seq.tapped = none)
    (hevents : seq.remainingEvents = e :: tail) (hplain : e.isTapOrEnd = false)
    (hroom : ∀ kc, e = .press kc → s.states.items.length < statesLen) :
    Plays s (processSequence s seq).1 e ∧ (processSequence s seq).2.tapped = none ∧
      (processSequence s seq).2.remainingEvents = tail := by
  unfold processSequence
  rw [if_neg (by omega)]
  simp only [htapped, hevents]
  cases e with
  | press kc =>
    dsimp only
    refine ⟨.of_press (hroom kc rfl) ?_, rfl, rfl⟩
    rw [pushHistoricalKey_eq]
    rfl
  | release kc => exact ⟨.of_release rfl, rfl, rfl⟩
  | tap kc => cases hplain
  | complete => cases hplain
  | delay duration =>
    dsimp only
    split
    · exact ⟨.of_same rfl rfl, rfl, rfl⟩
    · exact ⟨.of_same rfl rfl, rfl, rfl⟩
  | custom value =>
    exact ⟨.of_push rfl (by intro _ _ h; cases h) rfl rfl, rfl, rfl⟩
  | noOp => exact ⟨.of_same rfl rfl, rfl, rfl⟩

theorem processSequence_waits (h : 0 < seq.delay) :
    processSequence s seq = (s, { seq with delay := seq.delay - 1 }) := if_pos h

theorem processSequence_completes (hdelay : seq.delay = 0) (htapped : seq.tapped = none)
    (hevents : seq.remainingEvents = [.complete]) :
    (processSequence s seq).1 = s ∧ (processSequence s seq).2.remainingEvents = [] := by
  unfold processSequence
  rw [if_neg (by omega)]
  simp only [htapped, hevents, and_self]

/-! ## One tick -/

/-- The macro that a key held down starts again. -/
def restarted (states : List (State T)) : List (SequenceState T) :=
  (latestRepeating states).toList.map fun events => ⟨none, 0, none, events⟩

theorem restarted_none {states : List (State T)} (h : latestRepeating states = none) :
    restarted states = [] := by
  unfold restarted
  rw [h]
  rfl

theorem startSequence_restarted (hactive : s.activeSequences.items = [])
    (h : latestRepeating s.states.items = some events) :
    (s.startSequence events).states = s.states ∧
      (s.startSequence events).activeSequences.items = restarted s.states.items := by
  unfold restarted
  rw [startSequence_eq, h]
  refine ⟨rfl, ?_⟩
  show (s.activeSequences.pushBack _).1.items = _
  rw [(Bounded.pushBack_of_lt (by rw [hactive]; exact Nat.succ_pos 3) _).1, hactive]
  rfl

/-- Without a macro in progress one may start again. -/
theorem processSequences_idle (hactive : s.activeSequences.items = []) :
    s.processSequences.states = s.states ∧
      s.processSequences.activeSequences.items = restarted s.states.items := by
  unfold processSequences
  simp only [hactive, List.length_nil, processActive, List.isEmpty_nil, if_true]
  split
  · rename_i events hlatest
    exact startSequence_restarted hactive hlatest
  · rename_i hlatest
    rw [restarted_none hlatest]
    exact ⟨rfl, hactive⟩

/-- The one macro in progress has its turn. -/
theorem processSequences_single (hactive : s.activeSequences.items = [seq]) :
    let r := processSequence { s with activeSequences := .empty } seq
    s.processSequences.states = r.1.states ∧
      s.processSequences.activeSequences.items =
        if r.2.remainingEvents.isEmpty then restarted r.1.states.items else [r.2] := by
  intro r
  have hnone : r.1.activeSequences = .empty := by
    unfold r
    rw [processSequence_eq]
  have hpop : s.activeSequences.popFront = (some seq, .empty) := by
    refine Prod.ext ?_ (Bounded.ext ?_)
    · rw [Bounded.popFront_fst, hactive]
      rfl
    · rw [Bounded.popFront_snd_items, hactive]
      rfl
  have hadvance : processActive s.activeSequences.items.length s =
      if r.2.remainingEvents.isEmpty then r.1
      else { r.1 with activeSequences := (r.1.activeSequences.pushBack r.2).1 } := by
    rw [hactive]
    show processActive 1 s = _
    unfold processActive
    rw [hpop]
    rfl
  unfold processSequences
  dsimp only
  rw [hadvance]
  by_cases hdone : r.2.remainingEvents.isEmpty = true
  · have hempty : r.1.activeSequences.items = [] := by
      rw [hnone]
      rfl
    rw [if_pos hdone, if_pos hdone, if_pos (by rw [hempty]; rfl)]
    split
    · rename_i events hlatest
      exact startSequence_restarted hempty hlatest
    · rename_i hlatest
      rw [restarted_none hlatest]
      exact ⟨rfl, hempty⟩
  · have hback : (r.1.activeSequences.pushBack r.2).1.items = [r.2] := by
      rw [hnone, (Bounded.pushBack_of_lt (Nat.succ_pos 3) r.2).1]
      rfl
    rw [if_neg hdone, if_neg hdone]
    dsimp only
    rw [if_neg (by rw [hback]; exact Bool.false_ne_true)]
    exact ⟨rfl, hback⟩

end Layout

/-! ## A macro that runs alone -/

/-- Between two ticks nothing happens to the macro and its keys. -/
structure LeavesAlone (events : List (SequenceEvent T)) (s s' : Layout T) : Prop where
  activeSequences : s'.activeSequences = s.activeSequences
  fakeKeys : s'.fakeKeys = s.fakeKeys
  repeats : s'.OnlyRepeats events

/-- A run of these events alone, from a state without fake keys. While the key of a
repeating macro is held, the events start again. -/
inductive MacroRun (events : List (SequenceEvent T)) : Layout T → Prop where
  | start {s : Layout T} (hactive : s.activeSequences.items = [⟨none, 0, none, events⟩])
    (hfake : s.fakeKeys = []) (hrepeats : s.OnlyRepeats events) : MacroRun events s
  | tick {s s' : Layout T} (hrun : MacroRun events s) (hroom : s.RoomToPress)
    (halone : LeavesAlone events s.processSequences s') : MacroRun events s'

/-- The event that the last tick performed, or is still waiting for. -/
def performing (marks : List (Marked T)) (seq : SequenceState T) : Option (Marked T) :=
  if marks.length < seq.remainingEvents.length then none
  else marks[marks.length - seq.remainingEvents.length]?

/-- The modifiers of the groups around the event that is performed are held, and no key is
held after the last event. -/
structure KeepsModifiers (marks : List (Marked T)) (s : Layout T) : Prop where
  held : ∀ seq ∈ s.activeSequences.items, ∀ x, performing marks seq = some x →
    ∀ m ∈ x.2, .fakeKey m ∈ s.states.items
  released : (∀ seq ∈ s.activeSequences.items, seq.remainingEvents = [.complete]) →
    ∀ kc, .fakeKey kc ∉ s.states.items

/-- The events that were performed and those that are left. -/
structure Between (s : Layout T) (seq : SequenceState T) (done left : List (Marked T)) :
    Prop where
  active : s.activeSequences.items = [seq]
  tapped : seq.tapped = none
  remaining : seq.remainingEvents = left.map Prod.fst ++ [.complete]
  fakeKeys : s.fakeKeys = heldAfterAll [] done

/-- No macro is in progress, or one is. -/
def InRun (marks : List (Marked T)) (s : Layout T) : Prop :=
  s.activeSequences.items = [] ∧ s.fakeKeys = [] ∨
    ∃ seq done left, marks = done ++ left ∧ Between s seq done left

section Run

variable {s s' : Layout T} {seq : SequenceState T} {marks done left : List (Marked T)}
  {x : Marked T}

/-- What a macro presses it releases. -/
def Releases (marks : List (Marked T)) : Prop := heldAfterAll [] marks = []

/-- The events that the runtime knows how to hold and release. -/
def Plain (marks : List (Marked T)) : Prop := ∀ x ∈ marks, x.1.isTapOrEnd = false

theorem restarted_cases {events : List (SequenceEvent T)} {states : List (State T)}
    (h : ∀ events' c, .repeatingSequence events' c ∈ states → events' = events) :
    Layout.restarted states = [] ∨ Layout.restarted states = [⟨none, 0, none, events⟩] := by
  unfold Layout.restarted
  cases hlatest : Layout.latestRepeating states with
  | none => exact .inl rfl
  | some events' =>
    rcases mem_of_latestRepeating hlatest with ⟨c, hmem⟩
    rw [h events' c hmem]
    exact .inr rfl

/-- The run begins, or begins again. -/
theorem between_start
    (hactive : s.activeSequences.items = [⟨none, 0, none, marks.map Prod.fst ++ [.complete]⟩])
    (hfake : s.fakeKeys = []) : Between s ⟨none, 0, none, marks.map Prod.fst ++ [.complete]⟩ []
      marks := ⟨hactive, rfl, rfl, hfake⟩

/-- A tick in the middle of a delay. -/
theorem Between.wait (h : Between s seq done left) (hdelay : 0 < seq.delay) :
    Between s.processSequences { seq with delay := seq.delay - 1 } done left ∧
      s.processSequences.states = s.states := by
  have hwaits := Layout.processSequence_waits (s := { s with activeSequences := .empty }) hdelay
  rcases Layout.processSequences_single h.active with ⟨hstates, hactive⟩
  have hne : ¬ ({ seq with delay := seq.delay - 1 } : SequenceState T).remainingEvents.isEmpty =
      true := by
    show ¬ seq.remainingEvents.isEmpty = true
    rw [h.remaining]
    simp
  rw [hwaits] at hstates hactive
  rw [if_neg hne] at hactive
  refine ⟨⟨hactive, h.tapped, h.remaining, ?_⟩, hstates⟩
  rw [← h.fakeKeys]
  unfold Layout.fakeKeys
  rw [hstates]

/-- A tick that performs the next event. -/
theorem Between.play (h : Between s seq done (x :: left)) (hdelay : seq.delay = 0)
    (hplain : x.1.isTapOrEnd = false) (hroom : s.RoomToPress) :
    (∃ seq', Between s.processSequences seq' (done ++ [x]) left) ∧
      ∀ events' c, .repeatingSequence events' c ∈ s.processSequences.states.items →
        .repeatingSequence events' c ∈ s.states.items := by
  have hremaining : seq.remainingEvents = x.1 :: (left.map Prod.fst ++ [.complete]) := h.remaining
  have hpress : ∀ kc, x.1 = .press kc → s.states.items.length < statesLen := by
    intro kc hkc
    rw [hkc] at hremaining
    exact hroom seq (by rw [h.active]; exact List.mem_singleton_self seq) hdelay kc _ hremaining
  rcases Layout.processSequence_plays (s := { s with activeSequences := .empty }) hdelay h.tapped
    hremaining hplain hpress with ⟨hplays, htapped, htail⟩
  rcases Layout.processSequences_single h.active with ⟨hstates, hactive⟩
  rw [if_neg (by rw [htail]; simp)] at hactive
  constructor
  · refine ⟨_, hactive, htapped, htail, ?_⟩
    have hfake : s.processSequences.fakeKeys = heldAfter s.fakeKeys x.1 := by
      unfold Layout.fakeKeys
      rw [hstates]
      exact hplays.fakeKeys
    rw [hfake, h.fakeKeys, heldAfterAll_append]
    rfl
  · rw [hstates]
    exact hplays.repeating

/-- The tick after the last event. -/
theorem Between.complete (h : Between s seq done []) (hdelay : seq.delay = 0) :
    s.processSequences.states = s.states ∧
      s.processSequences.activeSequences.items = Layout.restarted s.states.items := by
  rcases Layout.processSequence_completes (s := { s with activeSequences := .empty }) hdelay
    h.tapped h.remaining with ⟨hsame, hremaining⟩
  rcases Layout.processSequences_single h.active with ⟨hstates, hactive⟩
  rw [hsame] at hstates hactive
  rw [if_pos (by rw [hremaining]; rfl)] at hactive
  exact ⟨hstates, hactive⟩

theorem InRun.tick (hrel : Releases marks) (hplain : Plain marks)
    (hrepeats : s.OnlyRepeats (marks.map Prod.fst ++ [.complete])) (hroom : s.RoomToPress)
    (h : InRun marks s) :
    InRun marks s.processSequences ∧
      s.processSequences.OnlyRepeats (marks.map Prod.fst ++ [.complete]) := by
  -- a tick that leaves no macro in progress, or starts the same one
  have hagain : s.fakeKeys = [] → s.processSequences.states = s.states →
      s.processSequences.activeSequences.items = Layout.restarted s.states.items →
        InRun marks s.processSequences ∧
          s.processSequences.OnlyRepeats (marks.map Prod.fst ++ [.complete]) := by
    intro hfake hstates hactive
    have hfake' : s.processSequences.fakeKeys = [] := by
      unfold Layout.fakeKeys
      rw [hstates]
      exact hfake
    constructor
    · rcases restarted_cases hrepeats with hnone | hsome
      · exact .inl ⟨hactive.trans hnone, hfake'⟩
      · exact .inr ⟨_, [], marks, rfl, between_start (hactive.trans hsome) hfake'⟩
    · exact hrepeats.of_subset fun _ _ hmem => by rwa [hstates] at hmem
  rcases h with ⟨hactive, hfake⟩ | ⟨seq, done, left, rfl, hbetween⟩
  · rcases Layout.processSequences_idle hactive with ⟨hstates, hactive'⟩
    exact hagain hfake hstates hactive'
  · rcases Nat.eq_zero_or_pos seq.delay with hdelay | hdelay
    · cases left with
      | nil =>
        rcases hbetween.complete hdelay with ⟨hstates, hactive⟩
        have hfake : s.fakeKeys = [] := by
          rw [hbetween.fakeKeys]
          rwa [List.append_nil] at hrel
        exact hagain hfake hstates hactive
      | cons x left =>
        have hx := hplain x (List.mem_append_right _ List.mem_cons_self)
        rcases hbetween.play hdelay hx hroom with ⟨⟨seq', hnext⟩, hsub⟩
        exact ⟨.inr ⟨seq', done ++ [x], left, by rw [List.append_assoc]; rfl, hnext⟩,
          hrepeats.of_subset hsub⟩
    · rcases hbetween.wait hdelay with ⟨hnext, hstates⟩
      exact ⟨.inr ⟨_, done, left, rfl, hnext⟩,
        hrepeats.of_subset fun _ _ hmem => by rwa [hstates] at hmem⟩

theorem InRun.leave {events : List (SequenceEvent T)} (halone : LeavesAlone events s s')
    (h : InRun marks s) : InRun marks s' := by
  rcases h with ⟨hactive, hfake⟩ | ⟨seq, done, left, heq, hbetween⟩
  · refine .inl ⟨?_, halone.fakeKeys.trans hfake⟩
    rw [halone.activeSequences]
    exact hactive
  · refine .inr ⟨seq, done, left, heq, ?_, hbetween.tapped, hbetween.remaining,
      halone.fakeKeys.trans hbetween.fakeKeys⟩
    rw [halone.activeSequences]
    exact hbetween.active

theorem MacroRun.inRun (hrel : Releases marks) (hplain : Plain marks)
    (hrun : MacroRun (marks.map Prod.fst ++ [.complete]) s) :
    InRun marks s ∧ s.OnlyRepeats (marks.map Prod.fst ++ [.complete]) := by
  induction hrun with
  | start hactive hfake hrepeats =>
    exact ⟨.inr ⟨_, [], marks, rfl, between_start hactive hfake⟩, hrepeats⟩
  | tick hrun hroom halone ih =>
    rcases ih.1.tick hrel hplain ih.2 hroom with ⟨hin, _⟩
    exact ⟨hin.leave halone, halone.repeats⟩

/-- The event that is performed is the last one that was. -/
theorem Between.performing_eq (h : Between s seq done left) :
    performing (done ++ left) seq = done.getLast? := by
  have hlen : seq.remainingEvents.length = left.length + 1 := by
    rw [h.remaining, List.length_append, List.length_map]
    rfl
  unfold performing
  rw [hlen, List.length_append]
  rcases List.eq_nil_or_concat' done with rfl | ⟨done', x, rfl⟩
  · rw [if_pos (by simp)]
    rfl
  · have hdone : (done' ++ [x]).length = done'.length + 1 := List.length_append
    rw [hdone, if_neg (by omega), List.append_assoc, List.getLast?_concat]
    have hidx : done'.length + 1 + left.length - (left.length + 1) = done'.length := by omega
    rw [hidx, List.getElem?_append_right (Nat.le_refl _), Nat.sub_self]
    rfl

theorem InRun.keeps (hheld : HeldThroughout [] marks) (hrel : Releases marks)
    (h : InRun marks s) : KeepsModifiers marks s := by
  rcases h with ⟨hactive, hfake⟩ | ⟨seq, done, left, rfl, hbetween⟩
  · constructor
    · intro seq hseq
      rw [hactive] at hseq
      cases hseq
    · intro _ kc hmem
      have hmem' := Layout.mem_fakeKeys.mpr hmem
      rw [hfake] at hmem'
      cases hmem'
  · constructor
    · intro seq' hseq x hx m hm
      rw [hbetween.active] at hseq
      rw [List.mem_singleton.mp hseq, hbetween.performing_eq] at hx
      rcases List.eq_nil_or_concat' done with rfl | ⟨done', y, rfl⟩
      · cases hx
      · -- the invariant of the events, at the one that is performed
        rw [List.getLast?_concat] at hx
        obtain rfl := Option.some.inj hx
        have hprefix := (heldThroughout_append.mp hheld).1
        have hlast := (heldThroughout_append.mp hprefix).2.1
        have hfake := hbetween.fakeKeys
        rw [heldAfterAll_append] at hfake
        refine Layout.mem_fakeKeys.mp ?_
        rw [hfake]
        exact hlast hm
    · intro hcomplete kc hmem
      have hremaining := hcomplete seq (by
        rw [hbetween.active]
        exact List.mem_singleton_self seq)
      rw [hbetween.remaining] at hremaining
      have hnil : left = [] := by
        have hlen := congrArg List.length hremaining
        rw [List.length_append, List.length_map] at hlen
        exact List.length_eq_zero_iff.mp (by simpa using hlen)
      have hmem' := Layout.mem_fakeKeys.mpr hmem
      rw [hnil, List.append_nil] at hrel
      rw [hbetween.fakeKeys, hrel] at hmem'
      cases hmem'

/-! ## Every event is performed in some run -/

/-- The macro never holds as many keys as there is room for in the states. -/
def FitsStates (marks : List (Marked T)) : Prop :=
  ∀ done, done <+: marks → (heldAfterAll [] done).length < statesLen

theorem heldAfterAll_length_le :
    ∀ (xs : List (Marked T)) (held : List KeyCode),
      (heldAfterAll held xs).length ≤ held.length + xs.length
  | [], held => Nat.le_refl _
  | x :: xs, held => by
    have hfirst : (heldAfter held x.1).length ≤ held.length + 1 := by
      cases x.1 with
      | press kc => exact Nat.le_of_eq List.length_append
      | release kc => exact Nat.le_succ_of_le (List.length_filter_le _ held)
      | _ => exact Nat.le_succ _
    have ih := heldAfterAll_length_le xs (heldAfter held x.1)
    show (heldAfterAll (heldAfter held x.1) xs).length ≤ _
    rw [List.length_cons]
    omega

/-- A short macro fits. -/
theorem fitsStates_of_length (h : marks.length < statesLen) : FitsStates marks := by
  intro done hdone
  have hle := heldAfterAll_length_le done []
  have hlen := hdone.length_le
  rw [List.length_nil] at hle
  omega

/-- The states are the fake keys of the macro, and nothing else. -/
def OnlyFake (s : Layout T) : Prop := s.states.items = s.fakeKeys.map .fakeKey

theorem OnlyFake.repeats (h : OnlyFake s) (events : List (SequenceEvent T)) :
    s.OnlyRepeats events := by
  intro events' c hmem
  rw [h] at hmem
  rcases List.mem_map.mp hmem with ⟨kc, _, heq⟩
  cases heq

theorem fakeKeys_map (kcs : List KeyCode) :
    (kcs.map (State.fakeKey (T := T))).filterMap State.fakeKeycode = kcs := by
  rw [List.filterMap_map]
  exact List.filterMap_some

/-- A run in which only the macro's keys are in the states. -/
structure Reached (marks : List (Marked T)) (s : Layout T) (seq : SequenceState T)
    (done left : List (Marked T)) : Prop where
  run : MacroRun (marks.map Prod.fst ++ [.complete]) s
  between : Between s seq done left
  only : OnlyFake s

/-- The delay is waited for. -/
theorem Reached.settled :
    ∀ {n : Nat} {s : Layout T} {seq : SequenceState T}, seq.delay = n →
      Reached marks s seq done left → ∃ s' seq', seq'.delay = 0 ∧ Reached marks s' seq' done left
  | 0, s, seq, hdelay, h => ⟨s, seq, hdelay, h⟩
  | n + 1, s, seq, hdelay, h => by
    have hpos : 0 < seq.delay := by omega
    rcases h.between.wait hpos with ⟨hbetween, hstates⟩
    have hfake : s.processSequences.fakeKeys = s.fakeKeys := by
      unfold Layout.fakeKeys
      rw [hstates]
    have honly : OnlyFake s.processSequences := by
      unfold OnlyFake
      rw [hstates, hfake]
      exact h.only
    have hroom : s.RoomToPress := by
      intro seq' hseq hzero
      rw [h.between.active] at hseq
      rw [List.mem_singleton.mp hseq] at hzero
      omega
    have hnext : Reached marks s.processSequences { seq with delay := seq.delay - 1 } done left :=
      ⟨.tick h.run hroom ⟨rfl, rfl, honly.repeats _⟩, hbetween, honly⟩
    have hdelay' : ({ seq with delay := seq.delay - 1 } : SequenceState T).delay = n := by
      show seq.delay - 1 = n
      omega
    exact Reached.settled hdelay' hnext

theorem Reached.play (hplain : x.1.isTapOrEnd = false)
    (hfits : (heldAfterAll [] done).length < statesLen)
    (hfits' : (heldAfterAll [] (done ++ [x])).length < statesLen) (hdelay : seq.delay = 0)
    (h : Reached marks s seq done (x :: left)) :
    ∃ s' seq', Reached marks s' seq' (done ++ [x]) left := by
  have hroom : s.RoomToPress := by
    intro _ _ _ _ _ _
    rw [h.only, List.length_map, h.between.fakeKeys]
    exact hfits
  rcases (h.between.play hdelay hplain hroom).1 with ⟨seq', hbetween⟩
  -- what the tick left besides the keys goes away before the next one
  let s' : Layout T := { s.processSequences with
    states := .ofTake _ (s.processSequences.fakeKeys.map .fakeKey) }
  have hitems : s'.states.items = s.processSequences.fakeKeys.map .fakeKey := by
    refine List.take_of_length_le ?_
    rw [List.length_map, hbetween.fakeKeys]
    exact Nat.le_of_lt hfits'
  have hfake : s'.fakeKeys = s.processSequences.fakeKeys := by
    unfold Layout.fakeKeys
    rw [hitems]
    exact fakeKeys_map _
  have honly : OnlyFake s' := by
    unfold OnlyFake
    rw [hfake]
    exact hitems
  exact ⟨s', seq', .tick h.run hroom ⟨rfl, hfake, honly.repeats _⟩,
    ⟨hbetween.active, hbetween.tapped, hbetween.remaining, hfake.trans hbetween.fakeKeys⟩, honly⟩

/-- By induction on the events so far. -/
theorem exists_reached (hplain : Plain marks) (hfits : FitsStates marks) :
    ∀ {done left : List (Marked T)}, marks = done ++ left →
      ∃ s seq, seq.delay = 0 ∧ Reached marks s seq done left := by
  intro done
  induction done using List.reverseRecOn with
  | nil =>
    intro left hmarks
    obtain rfl : marks = left := hmarks
    let s : Layout T := { Layout.new 0 with
      activeSequences := .ofTake _ [⟨none, 0, none, marks.map Prod.fst ++ [.complete]⟩] }
    have honly : OnlyFake s := rfl
    exact ⟨s, _, rfl, .start rfl rfl (honly.repeats _), between_start rfl rfl, honly⟩
  | append_singleton done x ih =>
    intro left hmarks
    have hmarks' : marks = done ++ x :: left := by
      rw [hmarks, List.append_assoc]
      rfl
    rcases ih hmarks' with ⟨s, seq, hdelay, h⟩
    have hx : x.1.isTapOrEnd = false := hplain x (by rw [hmarks']; simp)
    have hdone : done <+: marks := ⟨x :: left, hmarks'.symm⟩
    have hdone' : done ++ [x] <+: marks := ⟨left, hmarks.symm⟩
    rcases h.play hx (hfits done hdone) (hfits _ hdone') hdelay with ⟨s', seq', h'⟩
    exact h'.settled rfl

/-- An event that releases a modifier around it is performed in some run, without the
modifier. -/
theorem exists_not_keeps (hplain : Plain marks) (hfits : FitsStates marks)
    (h : ¬ Undisturbed marks) :
    ∃ s, MacroRun (marks.map Prod.fst ++ [.complete]) s ∧ ¬ KeepsModifiers marks s := by
  have hviolated : ∃ x ∈ marks, ∃ m ∈ x.2, x.1 = .release m := by
    by_contra hnone
    exact h fun x hx m hm heq => hnone ⟨x, hx, m, hm, heq⟩
  rcases hviolated with ⟨x, hx, m, hm, hrelease⟩
  rcases List.append_of_mem hx with ⟨done, left, rfl⟩
  have hsplit : done ++ x :: left = (done ++ [x]) ++ left := by
    rw [List.append_assoc]
    rfl
  rcases exists_reached hplain hfits hsplit with ⟨s, seq, _, h⟩
  refine ⟨s, h.run, ?_⟩
  intro hkeeps
  have hperforming : performing (done ++ x :: left) seq = some x := by
    rw [hsplit, h.between.performing_eq, List.getLast?_concat]
  have hheld := hkeeps.held seq (by rw [h.between.active]; exact List.mem_singleton_self seq) x
    hperforming m hm
  have hmem := Layout.mem_fakeKeys.mpr hheld
  rw [h.between.fakeKeys, heldAfterAll_append] at hmem
  have hmem' : m ∈ heldAfter (heldAfterAll [] done) x.1 := hmem
  rw [hrelease] at hmem'
  exact (mem_heldAfter_release.mp hmem').2 rfl

end Run

/-! ## The law -/

section Law

open Macro

variable {s : ParserState T} {acParams : List SExpr} {rep : RepeatMacro} {action : Action T}

theorem eventsOf_plain (h : parseMacro acParams s rep = .ok action)
    {items : List (MacroItem T)}
    (hevents : macroEvents action = some (eventsOf items ++ [.complete])) :
    Plain (markedAll [] items) := by
  rcases parseMacro_balanced h with ⟨es, hbalanced, haction⟩
  have heq : es ++ [.complete] = eventsOf items ++ [.complete] := by
    rcases haction with rfl | rfl
    · exact Option.some.inj hevents
    · exact Option.some.inj hevents
  intro x hx
  refine hbalanced.plain x.1 ?_
  rw [List.append_cancel_right heq]
  exact List.mem_map_of_mem hx

/-- For every macro that the parser accepts: it performs the events of the items in its
text, and if nothing inside a group releases a modifier around it, every run of it alone
keeps the modifiers of its groups and leaves no key. If the macro fits into the states,
the condition is also necessary. -/
theorem modifiers_held (h : parseMacro acParams s rep = .ok action) :
    ∃ items, ReadsAll (Reads s s.stackDepth .delay) acParams items ∧
      macroEvents action = some (eventsOf items ++ [.complete]) ∧
      (Undisturbed (markedAll [] items) → ∀ s, MacroRun (eventsOf items ++ [.complete]) s →
        KeepsModifiers (markedAll [] items) s) ∧
      (FitsStates (markedAll [] items) →
        (∀ s, MacroRun (eventsOf items ++ [.complete]) s →
          KeepsModifiers (markedAll [] items) s) → Undisturbed (markedAll [] items)) := by
  rcases parseMacro_reads h with ⟨items, hitems, hevents⟩
  have hplain := eventsOf_plain h hevents
  have hrel : Releases (markedAll [] items) :=
    List.subset_nil.mp (markedAll_releases [] [] items)
  refine ⟨items, hitems, hevents, ?_, ?_⟩
  · intro hundisturbed s hrun
    exact (hrun.inRun hrel hplain).1.keeps ((heldThroughout_iff items).mpr hundisturbed) hrel
  · intro hfits hkeeps
    by_contra hdisturbed
    rcases exists_not_keeps hplain hfits hdisturbed with ⟨s, hrun, hnot⟩
    exact hnot (hkeeps s hrun)

end Law

/-! ## A chord inside a group -/

/-- A parser that knows two atoms. -/
def twoAtomParser : Macro.ParserState Nat where
  vars := none
  parseAction e :=
    match e with
    | .atomNode t _ =>
      if t = "C-a" then .ok (.multipleKeyCodes [keyLeftCtrl, keyA])
      else if t = "b" then .ok (.keyCode keyB)
      else .error (.error ⟨"", none⟩)
    | .listNode _ _ => .error (.error ⟨"", none⟩)
  quote s := s
  stackDepth := 3

def atom (t : String) : SExpr := .atomNode t default

/-- `(macro C-(b b))`. -/
theorem modifiers_held_plain :
    ∃ action, Macro.parseMacro [atom "C-", .listNode [atom "b", atom "b"] default] twoAtomParser
          .no = .ok action ∧
      ∃ items, Macro.macroEvents action = some (eventsOf items ++ [.complete]) ∧
        (Undisturbed (markedAll [] items) → ∀ s, MacroRun (eventsOf items ++ [.complete]) s →
          KeepsModifiers (markedAll [] items) s) := by
  have hparse : (Macro.parseMacro [atom "C-", .listNode [atom "b", atom "b"] default]
      twoAtomParser .no).isOk = true := by
    decide
  rcases Fallible.exists_ok_of_isOk hparse with ⟨action, haction⟩
  rcases modifiers_held haction with ⟨items, _, hevents, hkeeps, _⟩
  exact ⟨action, haction, items, hevents, hkeeps⟩

/-- The items of `(macro C-(C-a b))`. -/
def chordInGroup : List (MacroItem Nat) :=
  [.group [keyLeftCtrl] [.chord [keyLeftCtrl, keyA], .key keyB]]

/-- The chord releases Ctrl, and the key after it is pressed without it. -/
theorem modifiers_held_fails :
    Macro.parseMacro [atom "C-", .listNode [atom "C-a", atom "b"] default] twoAtomParser .no =
        .ok (.sequence (eventsOf chordInGroup ++ [.complete])) ∧
      ∃ s seq, MacroRun (eventsOf chordInGroup ++ [.complete]) s ∧
        s.activeSequences.items = [seq] ∧
        performing (markedAll [] chordInGroup) seq = some (.press keyB, [keyLeftCtrl]) ∧
        .fakeKey keyLeftCtrl ∉ s.states.items := by
  constructor
  · rfl
  · let ctx := [keyLeftCtrl]
    -- the events up to the press of `b`, and those after it
    have hsplit : markedAll (T := Nat) [] chordInGroup =
        [(.press keyLeftCtrl, []), (.press keyLeftCtrl, ctx), (.press keyA, ctx),
          (.release keyA, ctx), (.release keyLeftCtrl, ctx), (.press keyB, ctx)] ++
        [(.release keyB, ctx), (.release keyLeftCtrl, [])] := by
      simp [chordInGroup, markedAll, MacroItem.marked, pressAll, releaseAll, ctx]
    have hplain : Plain (markedAll [] chordInGroup) := by
      rw [hsplit]
      unfold Plain
      decide
    have hfits : FitsStates (markedAll [] chordInGroup) := by
      refine fitsStates_of_length ?_
      rw [hsplit]
      decide
    rcases exists_reached hplain hfits hsplit with ⟨s, seq, _, h⟩
    have hperforming := h.between.performing_eq
    rw [← hsplit] at hperforming
    refine ⟨s, seq, h.run, h.between.active, hperforming, ?_⟩
    intro hmem
    have hmem' := Layout.mem_fakeKeys.mpr hmem
    rw [h.between.fakeKeys] at hmem'
    exact absurd hmem' (by decide)

end Kanata
