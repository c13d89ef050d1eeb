import Kanata.HoldTap.Batching
import Kanata.Layout.Pending
import Kanata.Lib.Replay
import Kanata.Waiting.FastPath

/-!
# Kanata.Layout.DecisionSums — the delay and the ticks of a decision

When a hold-tap or a chord is decided, what it resolves to gets the delay of the waiting
state and the ticks that it has counted as its delay; a chord group that is taken apart adds
the same two. The layout notes when a waiting state begins, each of its ticks and how it is
decided. From the notes a reader knows how each decision started and for how many ticks it
has been pending (`decisionsAfter`), and that says whether the sum fits.

Main result:
* `run_decisionSums` — in every run a sum fits if and only if the decision started with no
  delay, or with one that together with the ticks since is not too long.
-/

namespace Kanata

open Fallible Machine

variable {C R : Nat} {T : Type}

/-! ## The counters of a waiting state -/

namespace WaitingState

/-- A hold-tap or a chord: what it resolves to gets its age as the delay. -/
def isTimed (w : WaitingState T) : Bool :=
  match w.config with
  | .holdTap _ => true
  | .tapDance _ => false
  | .chord _ => true

def isChord (w : WaitingState T) : Bool :=
  match w.config with
  | .chord _ => true
  | _ => false

variable {w : WaitingState T} {overflowChecks : Bool} {queue : Queue} {t : Ticked T}

theorem tickTapDance_isTimed {tds : TapDanceState T} (h : w.tickTapDance tds queue = .ok t) :
    t.waiting.isTimed = false := by
  unfold tickTapDance at h
  rcases bind_eq_ok.mp h with ⟨tap, _, h⟩
  obtain rfl := pure_eq_ok.mp h
  rfl

theorem tickChord_counts {group : ChordsGroup (Action T)}
    (h : w.tickChord overflowChecks group queue = .ok t) :
    t.waiting.delay = w.delay ∧ t.waiting.ticks = w.ticks := by
  unfold tickChord at h
  split at h
  · obtain rfl := pure_eq_ok.mp h
    exact ⟨rfl, rfl⟩
  · rcases bind_eq_ok.mp h with ⟨decided, _, h⟩
    split at h
    · obtain rfl := pure_eq_ok.mp h
      exact ⟨rfl, rfl⟩
    · obtain rfl := pure_eq_ok.mp h
      exact ⟨rfl, rfl⟩

/-- A tick adds itself to the ticks and leaves the delay alone. What is timed after it was
timed before. -/
theorem tickWt_counts (h : w.tickWt overflowChecks queue = .ok t)
    (htimed : t.waiting.isTimed = true) :
    w.isTimed = true ∧ t.waiting.delay = w.delay ∧ t.waiting.ticks = satAdd w.ticks 1 := by
  cases hconfig : w.config with
  | holdTap cfg =>
    rw [tickWt_of_config hconfig, pure_eq_ok] at h
    rcases handleHoldTap_fst (w := w.older) cfg queue.items with ⟨timeout, len, hfst⟩
    rw [← h, hfst]
    exact ⟨by rw [isTimed, hconfig], rfl, rfl⟩
  | tapDance tds =>
    rw [tickWt_of_tapDance hconfig] at h
    rw [tickTapDance_isTimed h] at htimed
    cases htimed
  | chord group =>
    rw [tickWt_of_chord hconfig] at h
    exact ⟨by rw [isTimed, hconfig], tickChord_counts h⟩

/-- A hold-tap starts with the age of its press, whether its timeout runs already or not. -/
theorem holdTapWaiting_age (quick : Bool) (ht : HoldTapAction (Action T)) (coord : KCoord)
    (delay : Nat) (layerStack : List Nat) (id : Nat) :
    let w₀ := Layout.holdTapWaiting quick ht coord delay layerStack id
    w₀.delay + w₀.ticks = delay := by
  show delay - (if quick then min delay (ht.timeout - 1) else 0) +
    (if quick then min delay (ht.timeout - 1) else 0) = delay
  split <;> omega

/-- So does a chord. -/
theorem chordWaiting_age (group : ChordsGroup (Action T)) (timeout : Nat) (call : Call T)
    (id : Nat) :
    let w₀ := Layout.undecidedWaiting (.chord group) timeout call id
    w₀.delay + w₀.ticks = call.delay := rfl

end WaitingState

/-! ## What is known from the notes -/

/-- Each decision that began, as it started and with the ticks since. -/
abbrev Decisions (T : Type) := Nat → Option (WaitingState T × Nat)

namespace WaitingNote

/-- The waiting state that a note is about. -/
def waiting : WaitingNote T → WaitingState T
  | .began w => w
  | .ticked w _ => w
  | .decided w _ => w

/-- What a note says about the decision of a number. -/
def next (m : Decisions T) : WaitingNote T → Decisions T
  | .began w => fun id => if id = w.id then some (w, 0) else m id
  | .ticked w _ => fun id => if id = w.id then (m id).map fun d => (d.1, d.2 + 1) else m id
  | .decided _ _ => m

/-- The note is made where the delay and the ticks of a waiting state are added: a timed
decision resolves to an action, or a chord group is taken apart. -/
def summed : WaitingNote T → Option (WaitingState T)
  | .ticked w (some .noOp) => if w.isChord then some w else none
  | .ticked _ _ => none
  | .decided _ .noOp => none
  | .decided w _ => if w.isTimed then some w else none
  | .began _ => none

/-- The sum that the note is about fits. -/
def Fits (o : WaitingNote T) : Prop := ∀ w, o.summed = some w → w.delay + w.ticks ≤ u16Max

end WaitingNote

/-- What is known of the decisions after some notes. -/
def decisionsAfter (notes : List (WaitingNote T)) : Decisions T :=
  notes.foldl WaitingNote.next fun _ => none

/-- The decision that a note is about started without a delay, or the delay and the ticks
that it started with and those since are not too many. -/
def WaitingNote.FitsAfter (past : List (WaitingNote T)) (o : WaitingNote T) : Prop :=
  ∀ w, o.summed = some w →
    ∃ w₀ n, decisionsAfter (past ++ [o]) w.id = some (w₀, n) ∧
      (w₀.delay = 0 ∨ w₀.delay + w₀.ticks + n ≤ u16Max)

/-- The counters of a timed waiting state are what is known of its decision. -/
def CountedAs (m : Decisions T) (w : WaitingState T) : Prop :=
  w.isTimed = true → ∃ w₀ n, m w.id = some (w₀, n) ∧ w₀.ticks ≤ u16Max ∧ w.delay = w₀.delay ∧
    w.ticks = satAdd w₀.ticks n

/-- Each note is about a waiting state that is counted right. -/
def decisionTeller : Teller (WaitingNote T) (Decisions T) :=
  ⟨WaitingNote.next, fun _ m o => CountedAs (o.next m) o.waiting⟩

section Notes

variable {m m' : Decisions T} {w w₀ : WaitingState T} {past notes : List (WaitingNote T)}
  {o : WaitingNote T}

theorem decisionsAfter_concat (past : List (WaitingNote T)) (o : WaitingNote T) :
    decisionsAfter (past ++ [o]) = o.next (decisionsAfter past) := List.foldl_append

/-- A note is about one decision. -/
theorem WaitingNote.next_of_ne {id : Nat} (h : id ≠ o.waiting.id) : o.next m id = m id := by
  cases o with
  | began w => exact if_neg h
  | ticked w outcome => exact if_neg h
  | decided w outcome => rfl

/-- What is summed is timed. -/
theorem WaitingNote.summed_eq_some (h : o.summed = some w) : o.waiting = w ∧ w.isTimed = true := by
  unfold summed at h
  split at h
  · split at h
    · rename_i hchord
      cases h
      refine ⟨rfl, ?_⟩
      unfold WaitingState.isChord at hchord
      unfold WaitingState.isTimed
      split at hchord
      · rename_i hconfig
        rw [hconfig]
      · cases hchord
    · cases h
  · cases h
  · cases h
  · split at h
    · rename_i htimed
      cases h
      exact ⟨rfl, htimed⟩
    · cases h
  · cases h

theorem CountedAs.of_eq (h : CountedAs m w) (heq : m' w.id = m w.id) : CountedAs m' w := by
  unfold CountedAs
  rw [heq]
  exact h

theorem CountedAs.began (hticks : w.ticks ≤ u16Max) :
    CountedAs ((WaitingNote.began w).next m) w := fun _ =>
  ⟨w, 0, if_pos rfl, hticks, rfl, (Nat.min_eq_left hticks).symm⟩

theorem CountedAs.ticked {overflowChecks : Bool} {queue : Queue} {t : Ticked T} (h : CountedAs m w)
    (ht : w.tickWt overflowChecks queue = .ok t) (hid : t.waiting.id = w.id)
    (outcome : Option WaitingAction) :
    CountedAs ((WaitingNote.ticked t.waiting outcome).next m) t.waiting := by
  intro htimed
  rcases WaitingState.tickWt_counts ht htimed with ⟨hbefore, hdelay, hticks⟩
  rcases h hbefore with ⟨w₀, n, hm, hle, hdelay₀, hticks₀⟩
  refine ⟨w₀, n + 1, ?_, hle, hdelay.trans hdelay₀, ?_⟩
  · show (if t.waiting.id = t.waiting.id then _ else _) = _
    rw [if_pos rfl, hid, hm]
    rfl
  · rw [hticks, hticks₀, satAdd_satAdd]

/-- With a delay that is not zero the sum fits as long as the press is young enough. -/
theorem delay_add_satAdd_le {delay ticks n : Nat} :
    delay + satAdd ticks n ≤ u16Max ↔ delay = 0 ∨ delay + ticks + n ≤ u16Max := by
  unfold satAdd
  generalize u16Max = m
  omega

/-- A note that is right fits if and only if it fits after those before it. -/
theorem WaitingNote.fits_iff (h : decisionTeller.right past (decisionsAfter past) o) :
    o.Fits ↔ o.FitsAfter past := by
  have hcounted : ∀ w, o.summed = some w →
      ∃ w₀ n, decisionsAfter (past ++ [o]) w.id = some (w₀, n) ∧
        (w.delay + w.ticks ≤ u16Max ↔ w₀.delay = 0 ∨ w₀.delay + w₀.ticks + n ≤ u16Max) := by
    intro w hw
    rcases o.summed_eq_some hw with ⟨rfl, htimed⟩
    rcases h htimed with ⟨w₀, n, hm, _, hdelay, hticks⟩
    refine ⟨w₀, n, ?_, ?_⟩
    · rw [decisionsAfter_concat]
      exact hm
    · rw [hdelay, hticks]
      exact delay_add_satAdd_le
  constructor
  · intro hfits w hw
    rcases hcounted w hw with ⟨w₀, n, hm, hiff⟩
    exact ⟨w₀, n, hm, hiff.mp (hfits w hw)⟩
  · intro hafter w hw
    rcases hcounted w hw with ⟨w₀, n, hm, hiff⟩
    rcases hafter w hw with ⟨w₀', n', hm', hle⟩
    rw [hm] at hm'
    cases hm'
    exact hiff.mpr hle

end Notes

/-! ## The layout -/

/-- What waits in the layout. -/
def Layout.pending (s : Layout T) : List (WaitingState T) :=
  s.waiting.toList ++ s.extraWaiting.items

/-- The notes are right, and what waits is counted as they say. -/
structure Layout.CountsDecisions (s : Layout T) : Prop where
  pending : ∀ w ∈ s.pending, CountedAs (decisionsAfter s.waits) w
  tells : decisionTeller.Tells [] (fun _ => none) s.waits (decisionsAfter s.waits)

theorem Layout.pendingIds_eq (s : Layout T) : s.pendingIds = s.pending.map fun w => w.id :=
  List.map_append.symm

namespace Layout.CountsDecisions

variable {s s' : Layout T} {w : WaitingState T} {o : WaitingNote T}

theorem new (delay : Nat) : (Layout.new delay : Layout T).CountsDecisions where
  pending _ hw := by cases hw
  tells := rfl

/-- Nothing is noted, and nothing new waits. -/
theorem same (h : s.CountsDecisions) (hwaits : s'.waits = s.waits)
    (hpending : ∀ w ∈ s'.pending, w ∈ s.pending) : s'.CountsDecisions where
  pending w hw := by
    rw [hwaits]
    exact h.pending w (hpending w hw)
  tells := by
    rw [hwaits]
    exact h.tells

/-- One more note, about a waiting state that is counted right. What else waits has other
numbers. -/
theorem noted (h : s.CountsDecisions) (hwaits : s'.waits = s.waits ++ [o])
    (hright : CountedAs (o.next (decisionsAfter s.waits)) o.waiting)
    (hpending : ∀ w ∈ s'.pending, w = o.waiting ∨ w ∈ s.pending ∧ w.id ≠ o.waiting.id) :
    s'.CountsDecisions where
  pending w hw := by
    rw [hwaits, decisionsAfter_concat]
    rcases hpending w hw with rfl | ⟨hbefore, hne⟩
    · exact hright
    · exact (h.pending w hbefore).of_eq (WaitingNote.next_of_ne hne)
  tells := by
    rw [hwaits, decisionsAfter_concat]
    exact h.tells.append (.one hright rfl)

/-- A decision begins with a number of its own. -/
theorem began (h : s.CountsDecisions) (hticks : w.ticks ≤ u16Max) (hfresh : w.id ∉ s.pendingIds)
    (hwaits : s'.waits = s.waits ++ [.began w])
    (hpending : ∀ w' ∈ s'.pending, w' = w ∨ w' ∈ s.pending) : s'.CountsDecisions := by
  refine h.noted hwaits (CountedAs.began hticks) fun w' hw' => ?_
  rcases hpending w' hw' with heq | hbefore
  · exact .inl heq
  · refine .inr ⟨hbefore, fun heq => hfresh ?_⟩
    rw [Layout.pendingIds_eq, ← show w'.id = w.id from heq]
    exact List.mem_map_of_mem hbefore

/-- A decision is taken out. -/
theorem decided (h : s.CountsDecisions) (outcome : WaitingAction) (hw : w ∈ s.pending)
    (hwaits : s'.waits = s.waits ++ [.decided w outcome])
    (hpending : ∀ w' ∈ s'.pending, w' ∈ s.pending) : s'.CountsDecisions where
  pending w' hw' := by
    rw [hwaits, decisionsAfter_concat]
    exact h.pending w' (hpending w' hw')
  tells := by
    rw [hwaits, decisionsAfter_concat]
    exact h.tells.append (.one (h.pending w hw) rfl)

/-- A decision is ticked where it stands. -/
theorem ticked (h : s.CountsDecisions) {overflowChecks : Bool} {queue : Queue} {t : Ticked T}
    {before after : List (WaitingState T)} (outcome : Option WaitingAction)
    (ht : w.tickWt overflowChecks queue = .ok t) (hid : t.waiting.id = w.id)
    (hnodup : s.pendingIds.Nodup) (hat : s.pending = before ++ w :: after)
    (hwaits : s'.waits = s.waits ++ [.ticked t.waiting outcome])
    (hafter : s'.pending = before ++ t.waiting :: after) : s'.CountsDecisions := by
  have hw : w ∈ s.pending := by
    rw [hat]
    exact List.mem_append_right _ List.mem_cons_self
  rw [Layout.pendingIds_eq, hat, List.map_append, List.map_cons, List.nodup_middle,
    List.nodup_cons, ← List.map_append] at hnodup
  refine h.noted hwaits ((h.pending w hw).ticked ht hid outcome) fun w' hw' => ?_
  rw [hafter] at hw'
  rcases List.mem_append.mp hw' with hw' | hw'
  · refine .inr ⟨?_, fun heq => hnodup.1 ?_⟩
    · rw [hat]
      exact List.mem_append_left _ hw'
    · rw [← hid, ← show w'.id = t.waiting.id from heq]
      exact List.mem_map_of_mem (List.mem_append_left _ hw')
  · rcases List.mem_cons.mp hw' with rfl | hw'
    · exact .inl rfl
    · refine .inr ⟨?_, fun heq => hnodup.1 ?_⟩
      · rw [hat]
        exact List.mem_append_right _ (List.mem_cons_of_mem _ hw')
      · rw [← hid, ← show w'.id = t.waiting.id from heq]
        exact List.mem_map_of_mem (List.mem_append_right _ hw')

end Layout.CountsDecisions

/-! ## Runs -/

section Runs

variable {cfg : LayoutConfig C R T} {s s' : Layout T} {e : CustomEvent T} {delay : Nat}

theorem LeavesWaiting.countsDecisions {os : List (Occurrence T)} (hleaves : LeavesWaiting s s' os)
    (h : s.CountsDecisions) : s'.CountsDecisions := by
  refine h.same hleaves.waits fun w hw => ?_
  unfold Layout.pending at hw ⊢
  rwa [hleaves.waiting, hleaves.extraWaiting] at hw

/-- What is taken out is no longer pending. -/
theorem takeWaiting_pending {w w' : WaitingState T} {outcome : WaitingAction} {idx : Option Nat}
    (hw : w' ∈ (s.takeWaiting w outcome idx).pending) : w' ∈ s.pending := by
  unfold Layout.pending at hw ⊢
  cases idx with
  | none => exact List.mem_append_right _ hw
  | some i =>
    rcases List.mem_append.mp hw with hw | hw
    · exact List.mem_append_left _ hw
    · refine List.mem_append_right _ ?_
      have hmem : w' ∈ (s.extraWaiting.removeAt i).items := hw
      rw [Bounded.removeAt_items] at hmem
      exact List.mem_of_mem_eraseIdx hmem

theorem mem_pending_of_waitingAt {w : WaitingState T} {idx : Option Nat}
    (hw : s.waitingAt idx = some w) : w ∈ s.pending := by
  unfold Layout.pending
  cases idx with
  | none =>
    have hwaiting : s.waiting = some w := hw
    rw [hwaiting]
    exact List.mem_append_left _ List.mem_cons_self
  | some i => exact List.mem_append_right _ (List.mem_of_getElem? hw)

theorem Update.countsDecisions {u : Update T} (hu : u.Allowed (Discipline.free cfg) s)
    (hsettled : Settled (.new delay) s) (h : s.CountsDecisions) :
    (u.apply cfg s).CountsDecisions := by
  by_cases hwaiting : u.isAboutWaiting = true
  · cases u with
    | setWaiting w =>
      have hid : (w s.created).id = s.created := (hu.1 s.created).2
      refine h.began (w := w s.created) (hu.1 s.created).1.ticks_le ?_ ?_ fun w' hw' => ?_
      · rw [hid]
        exact hsettled.created_notMem
      · rw [Update.apply, Layout.setWaiting_eq]
      · rw [Update.apply, Layout.setWaiting_eq] at hw'
        rcases List.mem_cons.mp hw' with heq | hw'
        · exact .inl heq
        · exact .inr (List.mem_append_right _ hw')
    | pushExtraWaiting w =>
      have hid : (w s.created).id = s.created := (hu.2.1 s.created).2
      refine h.began (w := w s.created) (hu.2.1 s.created).1.ticks_le ?_ ?_ fun w' hw' => ?_
      · rw [hid]
        exact hsettled.created_notMem
      · rw [Update.apply, Layout.pushExtraWaiting_eq]
      · rw [Update.apply, Layout.pushExtraWaiting_eq] at hw'
        rcases List.mem_append.mp hw' with hw' | hw'
        · exact .inr (List.mem_append_left _ hw')
        · rcases Bounded.mem_pushBack hw' with hw' | heq
          · exact .inr (List.mem_append_right _ hw')
          · exact .inl heq
    | takeWaiting w outcome idx =>
      refine h.decided outcome (mem_pending_of_waitingAt hu.1) ?_ fun w' hw' =>
        takeWaiting_pending hw'
      rw [Update.apply, Layout.takeWaiting_eq]
    | _ => cases hwaiting
  · have hleaves : LeavesWaiting s (u.apply cfg s) (u.notes s) :=
      Update.leavesWaiting (by simpa using hwaiting)
    exact hleaves.countsDecisions h

theorem discard_countsDecisions (h : s.CountsDecisions) (e : CustomEvent T) :
    (s.discard e).CountsDecisions :=
  (discard_leavesWaiting s e).countsDecisions h

theorem Performs.countsDecisions (hperforms : Performs (Discipline.free cfg) s s' e)
    (hsettled : Settled (.new delay) s) (h : s.CountsDecisions) : s'.CountsDecisions := by
  induction hperforms with
  | refl s => exact h
  | update u hu => exact u.countsDecisions hu hsettled h
  | custom s value coord => exact (pushCustom_leavesWaiting s value coord).countsDecisions h
  | release hrelease =>
    rcases dequeueRelease_leavesWaiting hrelease with ⟨os, _, hleaves⟩
    exact hleaves.countsDecisions h
  | merge h₁ _ ih₁ ih₂ =>
    exact discard_countsDecisions (ih₂ (hsettled.trans h₁.settled) (ih₁ hsettled h)) _
  | discard _ ih => exact discard_countsDecisions (ih hsettled h) _

theorem Passing.countsDecisions {u : Passing T} (hu : u.Allowed (Discipline.free cfg) s)
    (hsettled : Settled (.new delay) s) (h : s.CountsDecisions) : (u.apply s).CountsDecisions := by
  cases u with
  | tickWaiting t =>
    rcases hu with ⟨w, hw, htick, ht⟩
    have hat : s.pending = [] ++ w :: s.extraWaiting.items := by
      rw [Layout.pending, hw]
      rfl
    refine h.ticked (t.decision.map Prod.fst) htick ht.sameId hsettled.nodup_pendingIds hat ?_ ?_
    · rw [Passing.apply, Layout.afterTickWt_eq]
    · rw [Passing.apply, Layout.afterTickWt_eq]
      rfl
  | tickExtraWaiting i t =>
    rcases hu with ⟨w, hw, htick, ht⟩
    have hlt : i < s.extraWaiting.items.length := (List.getElem?_eq_some_iff.mp hw).1
    have hat : s.pending = (s.waiting.toList ++ s.extraWaiting.items.take i) ++
        w :: s.extraWaiting.items.drop (i + 1) := by
      rw [Layout.pending, List.append_assoc, ← eq_take_cons_drop hw]
    refine h.ticked (t.decision.map Prod.fst) htick ht.sameId hsettled.nodup_pendingIds hat ?_ ?_
    · rw [Passing.apply, Layout.afterTickWt_eq]
      rfl
    · have hset := @List.set_eq_take_append_cons_drop _ s.extraWaiting.items i t.waiting
      rw [if_pos hlt] at hset
      rw [Passing.apply, Layout.afterTickWt_eq, List.append_assoc, ← hset]
      rfl
  | loseWaiting =>
    refine h.same ?_ fun w hw => ?_
    · rw [Passing.apply, Layout.loseWaiting_eq]
    · rw [Passing.apply, Layout.loseWaiting_eq] at hw
      exact List.mem_append_right _ hw
  | receive q =>
    rw [Passing.apply, Layout.pushQueue_eq]
    exact h.same rfl fun _ hw => hw
  | queueChord qa =>
    rw [Passing.apply, Layout.pushAction_eq]
    exact h.same rfl fun _ hw => hw
  | takeEvent =>
    rw [Passing.apply, Layout.takeEvent_eq]
    exact h.same rfl fun _ hw => hw
  | advanceSequence =>
    rw [Passing.apply, Layout.advanceSequence_eq]
    exact h.same rfl fun _ hw => hw
  | restartSequence events =>
    rw [Passing.apply, Layout.startSequence_eq]
    exact h.same rfl fun _ hw => hw
  | advanceCustom =>
    rw [Passing.apply, Layout.processSequenceCustom_eq]
    exact h.same rfl fun _ hw => hw
  | _ => exact h.same rfl fun _ hw => hw

theorem Advances.countsDecisions (hadvances : Advances (Discipline.free cfg) s s' e)
    (hsettled : Settled (.new delay) s) (h : s.CountsDecisions) : s'.CountsDecisions := by
  induction hadvances with
  | performs hperforms => exact hperforms.countsDecisions hsettled h
  | pass u hu => exact Passing.countsDecisions hu hsettled h
  | takes _ _ hperforms =>
    have hleaves := takeAction_leavesWaiting (T := T)
    exact hperforms.countsDecisions
      (hsettled.trans ((hleaves _).settled (Layout.takeAction_trace _)))
      ((hleaves _).countsDecisions h)
  | merge h₁ _ ih₁ ih₂ =>
    exact discard_countsDecisions (ih₂ (hsettled.trans h₁.settled) (ih₁ hsettled h)) _

theorem run_countsDecisions {ops : List LayoutOp} {os : List (CustomEvent T)}
    (h : run (Layout.step cfg) (.new delay) ops = .ok (s', os)) : s'.CountsDecisions := by
  refine (@run_advances _ _ _ cfg delay ops s' os
    (fun _ s => Settled (.new delay) s ∧ s.CountsDecisions) ⟨.refl _, .new delay⟩ ?_ h).2.2
  rintro _ _ _ _ ⟨hsettled, hbefore⟩ hstep
  exact ⟨hsettled.trans hstep.settled, hstep.countsDecisions hsettled hbefore⟩

/-- In every run the sum of a delay and ticks fits if and only if the notes before say that
it does. -/
theorem run_decisionSums {ops : List LayoutOp} {os : List (CustomEvent T)}
    (h : run (Layout.step cfg) (.new delay) ops = .ok (s', os)) {i : Nat} {o : WaitingNote T}
    (ho : s'.waits[i]? = some o) : o.Fits ↔ o.FitsAfter (s'.waits.take i) := by
  have htells := (run_countsDecisions h).tells
  rw [eq_take_cons_drop ho] at htells
  exact WaitingNote.fits_iff htells.right

end Runs

end Kanata
