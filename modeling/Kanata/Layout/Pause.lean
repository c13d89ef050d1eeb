import Kanata.Layout.Trace
import Kanata.Lib.Replay
import Mathlib.Data.List.Induction

/-!
# Kanata.Layout.Pause — how long the input processing pauses

The pause is set to what the configuration says, or to nothing, each output-chord key that
ends adds two ticks to it, and ticks in which nothing waits let it pass. The layout notes
each of these. The sum of an end may not fit into sixteen bits: then it wraps, and the
pause is no longer what the notes add up to.

Main result:
* `run_pauses` — in every run the sums fit if and only if the notes never add up to more.
-/

namespace Kanata

open Fallible Machine

variable {C R : Nat} {T : Type}

/-! ## The notes -/

namespace PauseNote

/-- The pause after a note, as the layout has it. -/
def next (n : Nat) : PauseNote → Nat
  | .set ticks => ticks
  | .extended _ => (n + 2) % (u16Max + 1)
  | .passed => n - 1

/-- The pause after a note, if sums do not wrap. -/
def count (n : Nat) : PauseNote → Nat
  | .set ticks => ticks
  | .extended _ => n + 2
  | .passed => n - 1

/-- A note with the pause that it finds. -/
def right (delay n : Nat) : PauseNote → Prop
  | .set ticks => ticks = delay ∨ ticks = 0
  | .extended ticks => ticks = n
  | .passed => True

/-- The sum that the note is about fits. -/
def Fits : PauseNote → Prop
  | .extended ticks => ticks + 2 ≤ u16Max
  | _ => True

end PauseNote

/-- What the notes make of the pause. -/
def pauseTeller (delay : Nat) : Teller PauseNote Nat :=
  ⟨PauseNote.next, fun _ n o => o.right delay n⟩

/-- What the notes add up to. -/
def pauseAfter (notes : List PauseNote) : Nat := notes.foldl PauseNote.count 0

/-- A note makes no sum, or one that fits after what the notes before it add up to. -/
def PauseNote.FitsAfter (past : List PauseNote) : PauseNote → Prop
  | .extended _ => pauseAfter past + 2 ≤ u16Max
  | _ => True

section Notes

variable {delay n : Nat} {notes past later : List PauseNote} {o : PauseNote}

theorem pauseAfter_concat (past : List PauseNote) (o : PauseNote) :
    pauseAfter (past ++ [o]) = o.count (pauseAfter past) := List.foldl_append

/-- As long as the sums fit, the pause is what the notes add up to. -/
theorem replay_eq_pauseAfter (h : (pauseTeller delay).Tells [] 0 notes n) :
    (∀ o ∈ notes, o.Fits) → n = pauseAfter notes := by
  induction notes using List.reverseRecOn generalizing n with
  | nil => exact fun _ => h
  | append_singleton past o ih =>
    intro hfits
    rcases h.concat with ⟨m, hpast, hright, hn⟩
    have hm : m = pauseAfter past := ih hpast fun o' ho' => hfits o' (List.mem_append_left _ ho')
    have ho : o.Fits := hfits o (List.mem_append_right _ List.mem_cons_self)
    rw [pauseAfter_concat, hn, ← hm]
    cases o with
    | set ticks => rfl
    | passed => rfl
    | extended ticks =>
      have hticks : ticks = m := hright
      have hle : m + 2 ≤ u16Max := hticks ▸ ho
      exact Nat.mod_eq_of_lt (Nat.lt_succ_of_le hle)

/-- One more note fits if and only if it fits after what those before it add up to. -/
theorem fits_concat_iff (h : (pauseTeller delay).Tells [] 0 (past ++ [o]) n)
    (hpast : ∀ o ∈ past, o.Fits) : o.Fits ↔ o.FitsAfter past := by
  rcases h.concat with ⟨m, htells, hright, _⟩
  have hm : m = pauseAfter past := replay_eq_pauseAfter htells hpast
  cases o with
  | set ticks => exact Iff.rfl
  | passed => exact Iff.rfl
  | extended ticks =>
    have hticks : ticks = m := hright
    show ticks + 2 ≤ u16Max ↔ pauseAfter past + 2 ≤ u16Max
    rw [hticks, hm]

/-- By induction on the notes, from the end. -/
theorem fits_iff (h : (pauseTeller delay).Tells [] 0 notes n) :
    (∀ o ∈ notes, o.Fits) ↔
      ∀ i (o : PauseNote), notes[i]? = some o → o.FitsAfter (notes.take i) := by
  induction notes using List.reverseRecOn generalizing n with
  | nil => exact iff_of_true (fun _ ho => by cases ho) fun _ _ hi => by cases hi
  | append_singleton notes o ih =>
    rcases h.concat with ⟨m, htells, _, _⟩
    have hbefore := ih htells
    constructor
    · intro hfits i o' hi
      have hnotes : ∀ o ∈ notes, o.Fits := fun o' ho' => hfits o' (List.mem_append_left _ ho')
      have hle : i ≤ notes.length := by
        have hlt := (List.getElem?_eq_some_iff.mp hi).1
        rw [List.length_append, List.length_singleton] at hlt
        omega
      rw [List.take_append_of_le_length hle]
      rcases Nat.lt_or_eq_of_le hle with hlt | rfl
      · rw [List.getElem?_append_left hlt] at hi
        exact hbefore.mp hnotes i o' hi
      · rw [List.getElem?_concat_length] at hi
        cases hi
        rw [List.take_length]
        exact (fits_concat_iff h hnotes).mp (hfits _ (List.mem_append_right _ List.mem_cons_self))
    · intro hafter
      have hnotes : ∀ o ∈ notes, o.Fits := hbefore.mpr fun i o' hi => by
        have hlt := (List.getElem?_eq_some_iff.mp hi).1
        have hfits := hafter i o' (by rw [List.getElem?_append_left hlt, hi])
        rwa [List.take_append_of_le_length (Nat.le_of_lt hlt)] at hfits
      have hlast := hafter notes.length o List.getElem?_concat_length
      rw [List.take_left] at hlast
      intro o' ho'
      rcases List.mem_append.mp ho' with ho' | ho'
      · exact hnotes o' ho'
      · cases List.mem_singleton.mp ho'
        exact (fits_concat_iff h hnotes).mpr hlast

end Notes

/-! ## The one-shot state -/

namespace OneShotState

variable {delay : Nat} {o o' : OneShotState}

/-- The notes make the pause what it is, and it is only set to what it may be. -/
structure Paced (delay : Nat) (o : OneShotState) : Prop where
  delay_eq : o.pauseInputProcessingDelay = delay
  tells : (pauseTeller delay).Tells [] 0 o.pauses o.pauseInputProcessingTicks

namespace Paced

theorem new (delay : Nat) : (OneShotState.new delay).Paced delay := ⟨rfl, rfl⟩

/-- Whatever leaves the pause alone. -/
theorem same (h : o.Paced delay)
    (hdelay : o'.pauseInputProcessingDelay = o.pauseInputProcessingDelay)
    (hticks : o'.pauseInputProcessingTicks = o.pauseInputProcessingTicks)
    (hpauses : o'.pauses = o.pauses) : o'.Paced delay where
  delay_eq := hdelay.trans h.delay_eq
  tells := by
    rw [hticks, hpauses]
    exact h.tells

/-- One more note. -/
theorem noted (h : o.Paced delay) (note : PauseNote)
    (hdelay : o'.pauseInputProcessingDelay = o.pauseInputProcessingDelay)
    (hpauses : o'.pauses = o.pauses ++ [note])
    (hright : note.right delay o.pauseInputProcessingTicks)
    (hticks : o'.pauseInputProcessingTicks = note.next o.pauseInputProcessingTicks) :
    o'.Paced delay where
  delay_eq := hdelay.trans h.delay_eq
  tells := by
    rw [hpauses]
    exact h.tells.append (.one hright hticks)

theorem pause (h : o.Paced delay) : o.pause.Paced delay :=
  h.noted (.set _) rfl rfl (.inl h.delay_eq) rfl

theorem passPause (h : o.Paced delay) : o.passPause.Paced delay :=
  h.noted .passed rfl rfl trivial rfl

/-- A sum that is computed may have wrapped. -/
theorem extendPause {overflowChecks : Bool} {ticks : Nat} (h : o.Paced delay)
    (hadd : addU16 overflowChecks o.pauseInputProcessingTicks 2 = .ok ticks) :
    (o.extendPause ticks).Paced delay :=
  h.noted (.extended _) rfl rfl rfl (addU16_eq_mod hadd)

theorem tickOsh (h : o.Paced delay) : o.tickOsh.1.Paced delay := by
  unfold OneShotState.tickOsh
  split
  · exact h
  · dsimp only
    split
    · exact h.noted (.set 0) rfl rfl (.inr rfl) rfl
    · exact h.same rfl rfl rfl

theorem handlePress (h : o.Paced delay) (key : OneShotHandlePressKey) :
    (o.handlePress key).1.Paced delay := by
  unfold OneShotState.handlePress
  split
  · exact h
  · split
    · exact h.same rfl rfl rfl
    · split
      · exact h.pause.same rfl rfl rfl
      · exact h.same rfl rfl rfl

theorem handleRelease (h : o.Paced delay) (c : KCoord) : (o.handleRelease c).1.Paced delay := by
  unfold OneShotState.handleRelease
  split
  · exact h
  · split
    · exact h.same rfl rfl rfl
    · exact h.same rfl rfl rfl

theorem addStateToRetain (h : o.Paced delay) (state : OneShotRetainableState) :
    (o.addStateToRetain state).Paced delay := by
  unfold OneShotState.addStateToRetain
  split
  · exact h
  · exact h.same rfl rfl rfl

end Paced

end OneShotState

/-! ## Runs -/

section Runs

variable {cfg : LayoutConfig C R T} {s s' : Layout T} {e : CustomEvent T} {delay : Nat}

/-- The one-shot state of a layout is paced. -/
def Layout.Paced (delay : Nat) (s : Layout T) : Prop := s.oneshot.Paced delay

/-- A part that leaves the one-shot state alone. -/
theorem Layout.Paced.same (h : s.Paced delay) (hsame : s'.oneshot = s.oneshot) :
    s'.Paced delay := by
  unfold Layout.Paced
  rw [hsame]
  exact h

theorem Update.paced {u : Update T} (hu : u.Allowed (Discipline.free cfg) s) (h : s.Paced delay) :
    (u.apply cfg s).Paced delay := by
  cases u with
  | oneshotHandlePress key => exact OneShotState.Paced.handlePress h key
  | addStateToRetain state => exact OneShotState.Paced.addStateToRetain h state
  | pauseInputProcessing => exact OneShotState.Paced.pause h
  | extendPause ticks => exact OneShotState.Paced.extendPause h hu
  | passPause => exact OneShotState.Paced.passPause h
  | ignoreEvents ticks => exact OneShotState.Paced.same h rfl rfl rfl
  | startOneShot timeout endConfig coord => exact OneShotState.Paced.same h rfl rfl rfl
  | pushHistoricalKey kc => exact h.same (by rw [Update.apply, Layout.pushHistoricalKey_eq])
  | startSequence events => exact h.same (by rw [Update.apply, Layout.startSequence_eq])
  | setDefaultLayer value => exact h.same (by rw [Update.apply, Layout.setDefaultLayer_eq])
  | deferAction qa => exact h.same (by rw [Update.apply, Layout.pushAction_eq])
  | setWaiting w => exact h.same (by rw [Update.apply, Layout.setWaiting_eq])
  | pushExtraWaiting w => exact h.same (by rw [Update.apply, Layout.pushExtraWaiting_eq])
  | startTapDanceEager coord td =>
    exact h.same (by rw [Update.apply, Layout.startTapDanceEager_eq])
  | takePress call =>
    exact h.same (by rw [Update.apply, Layout.notePressed, Layout.takePress_eq]; rfl)
  | takeWaiting w outcome idx => exact h.same (by rw [Update.apply, Layout.takeWaiting_eq])
  | arrive event => exact h.same (by rw [Update.apply, Layout.arrive_eq])
  | enqueue q => exact h.same (by rw [Update.apply, Layout.enqueue_eq])
  | _ => exact h

theorem Layout.Paced.discard (h : s.Paced delay) (e : CustomEvent T) : (s.discard e).Paced delay :=
  h.same (by rw [Layout.discard_eq])

theorem Performs.paced (hperforms : Performs (Discipline.free cfg) s s' e) (h : s.Paced delay) :
    s'.Paced delay := by
  induction hperforms with
  | refl s => exact h
  | update u hu => exact u.paced hu h
  | custom s value coord => exact h.same (by rw [Layout.pushCustom_eq])
  | release hrelease =>
    rcases dequeueRelease_eq_ok hrelease with ⟨states, rel, _, _, rfl⟩
    exact OneShotState.Paced.handleRelease h _
  | merge _ _ ih₁ ih₂ => exact (ih₂ (ih₁ h)).discard _
  | discard _ ih => exact (ih h).discard _

theorem processSequence_paced (seq : SequenceState T) (h : s.Paced delay) :
    (Layout.processSequence s seq).1.Paced delay := by
  have hkey : ∀ kc,
      (((s.pushState (.fakeKey kc)).pushHistoricalKey kc).oneshotHandlePress
        (.other (0, 0))).1.Paced
        delay := by
    intro kc
    have hpushed : ((s.pushState (.fakeKey kc)).pushHistoricalKey kc).Paced delay :=
      h.same (by rw [Layout.pushHistoricalKey_eq]; rfl)
    exact OneShotState.Paced.handlePress hpushed _
  unfold Layout.processSequence
  split
  · exact h
  · split
    · exact h
    · dsimp only
      split
      all_goals split
      all_goals first
        | exact hkey _
        | exact OneShotState.Paced.handleRelease h _
        | exact h

theorem advanceSequence_paced (h : s.Paced delay) : s.advanceSequence.Paced delay := by
  unfold Layout.advanceSequence
  rcases s.activeSequences.popFront with ⟨_ | seq, activeSequences⟩
  · exact h
  · have htaken : { s with activeSequences }.Paced delay := h
    have hprocessed := processSequence_paced seq htaken
    dsimp only
    split
    · exact hprocessed
    · exact hprocessed

theorem Passing.paced (u : Passing T) (h : s.Paced delay) : (u.apply s).Paced delay := by
  cases u with
  | tickOneshot => exact OneShotState.Paced.tickOsh h
  | advanceSequence => exact advanceSequence_paced h
  | receive q => exact h.same (by rw [Passing.apply, Layout.pushQueue_eq])
  | queueChord qa => exact h.same (by rw [Passing.apply, Layout.pushAction_eq])
  | restartSequence events => exact h.same (by rw [Passing.apply, Layout.startSequence_eq])
  | takeEvent => exact h.same (by rw [Passing.apply, Layout.takeEvent_eq])
  | tickWaiting t => exact h.same (by rw [Passing.apply, Layout.afterTickWt_eq])
  | tickExtraWaiting i t => exact h.same (by rw [Passing.apply, Layout.afterTickWt_eq]; rfl)
  | loseWaiting => exact h.same (by rw [Passing.apply, Layout.loseWaiting_eq])
  | advanceCustom => exact h.same (by rw [Passing.apply, Layout.processSequenceCustom_eq])
  | _ => exact h

theorem Advances.paced (hadvances : Advances (Discipline.free cfg) s s' e) (h : s.Paced delay) :
    s'.Paced delay := by
  induction hadvances with
  | performs hperforms => exact hperforms.paced h
  | pass u _ => exact u.paced h
  | takes _ _ hperforms =>
    exact hperforms.paced (h.same (by rw [Layout.takeAction_eq]))
  | merge _ _ ih₁ ih₂ => exact (ih₂ (ih₁ h)).discard _

theorem run_paced {ops : List LayoutOp} {os : List (CustomEvent T)}
    (h : run (Layout.step cfg) (.new delay) ops = .ok (s', os)) : s'.Paced delay :=
  (@run_advances _ _ _ cfg delay ops s' os (fun _ s => s.Paced delay)
    (OneShotState.Paced.new delay) (fun _ _ _ _ hbefore hstep => hstep.paced hbefore) h).2

/-- In every run the sums fit if and only if what the notes add up to never leaves the room
for one too many. The pause is only set to the delay of the configuration, or to nothing. -/
theorem run_pauses {ops : List LayoutOp} {os : List (CustomEvent T)}
    (h : run (Layout.step cfg) (.new delay) ops = .ok (s', os)) :
    ((∀ o ∈ s'.oneshot.pauses, o.Fits) ↔
        ∀ i (o : PauseNote), s'.oneshot.pauses[i]? = some o →
          o.FitsAfter (s'.oneshot.pauses.take i)) ∧
      ∀ ticks, .set ticks ∈ s'.oneshot.pauses → ticks = delay ∨ ticks = 0 := by
  have htells := (run_paced h).tells
  refine ⟨fits_iff htells, fun ticks hmem => ?_⟩
  rcases List.append_of_mem hmem with ⟨past, later, heq⟩
  rw [heq] at htells
  exact htells.right

end Runs

end Kanata
