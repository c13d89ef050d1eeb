import Kanata.Engine.SequenceMatching
import Kanata.Layout.DecisionSums
import Kanata.Layout.Pause

/-!
# Kanata.Engine.Additions — the sums that may not fit into sixteen bits

Four sums of counters are plain `u16` additions: the delay and the ticks of a decision
(twice), the pause of the input processing, and the count of `sequence-noerase`. The first
three are noted by the layout; for the last one the sequence state goes through whatever can
happen to it.

Main result:
* `additions_fit` — in every run the sums fit if and only if what happened before leaves room
  for them. `additions_fit_fails` has a sum that does not fit.
-/

namespace Kanata

open Fallible Machine

variable {C R : Nat} {T : Type}

/-! ## The count of `sequence-noerase` -/

namespace Sequences

open Kanata.Sequence

variable {M : Type → Type} [PatriciaMap M] {overflowChecks modcancel : Bool}
  {sequences : Trie M KCoord} {st st' : SequenceState}

/-- What can happen to the sequence state: a sequence starts, or one is typed. -/
inductive Happening (T : Type) where
  | activate (mode : SequenceInputMode) (timeout : Nat)
  | step (x : Step T)

def happen (overflowChecks modcancel : Bool) (sequences : Trie M KCoord) (st : SequenceState) :
    Happening T → Rust (SequenceState × List Effect)
  | .activate mode timeout => pure (st.activate mode timeout, [])
  | .step x => step overflowChecks modcancel sequences st x

/-- The counts that were added since the sequence started. -/
def sparedAfter (hs : List (Happening T)) : Nat :=
  hs.foldl (fun n h =>
    match h with
    | .activate _ _ => 0
    | .step x => n + x.noeraseCount) 0

/-- Wherever a count is added to an active sequence, something holds of the state, of what
happened before and of the count. -/
def AtCounts (overflowChecks modcancel : Bool) (sequences : Trie M KCoord)
    (P : SequenceState → List (Happening T) → Nat → Prop) (hs : List (Happening T)) : Prop :=
  ∀ i count, hs[i]? = some (.step (.noerase count)) → ∀ st os,
    Machine.run (happen overflowChecks modcancel sequences) .new (hs.take i) = .ok (st, os) →
      st.isActive = true → P st (hs.take i) count

/-! ### A step keeps the count -/

theorem cancelSequence_isActive (st : SequenceState) : (cancelSequence st).1.isActive = false := rfl

theorem termination_isActive {states : List (State T)} {coord : KCoord} {seqType : EndSequenceType}
    {o : Outcome T} (h : doSuccessfulSequenceTermination st states coord seqType = .ok o) :
    o.state.isActive = false := by
  unfold doSuccessfulSequenceTermination at h
  cases hmode : st.sequenceInputMode with
  | hiddenSuppressed =>
    simp only [hmode, pure_bind] at h
    rcases bind_eq_ok.mp h with ⟨states', _, h⟩
    obtain rfl := pure_eq_ok.mp h
    rfl
  | hiddenDelayType =>
    simp only [hmode, pure_bind] at h
    rcases bind_eq_ok.mp h with ⟨states', _, h⟩
    obtain rfl := pure_eq_ok.mp h
    rfl
  | visibleBackspaced =>
    simp only [hmode] at h
    rcases bind_eq_ok.mp h with ⟨⟨erased, count⟩, _, h⟩
    simp only [pure_bind] at h
    rcases bind_eq_ok.mp h with ⟨states', _, h⟩
    obtain rfl := pure_eq_ok.mp h
    rfl

/-- The sequence is still active only if it was, and the count is the same. -/
def StillCounts (st st' : SequenceState) : Prop :=
  st'.isActive = true → st.isActive = true ∧ st'.noeraseCount = st.noeraseCount

theorem StillCounts.of_inactive (h : st'.isActive = false) : StillCounts st st' := by
  intro hactive
  rw [h] at hactive
  cases hactive

theorem complete_stillCounts {t : Tracked} {states : List (State T)} {o : Outcome T}
    (h : complete sequences t states = .ok o) : StillCounts t.state o.state := by
  unfold complete at h
  split at h
  · exact .of_inactive (termination_isActive h)
  all_goals
    split at h
    · dsimp only at h
      split at h
      all_goals exact .of_inactive (termination_isActive h)
    all_goals
      obtain rfl := pure_eq_ok.mp h
      exact fun hactive => ⟨hactive, rfl⟩

theorem reconcile_stillCounts (st : SequenceState) (res resOverlapped : Res)
    (invalidStandard invalidOverlapped : Bool) :
    StillCounts st
      (reconcile sequences st res resOverlapped invalidStandard invalidOverlapped).state := by
  unfold reconcile
  split
  · exact fun hactive => ⟨hactive, rfl⟩
  · exact fun hactive => ⟨hactive, rfl⟩
  · exact fun hactive => ⟨hactive, rfl⟩
  · dsimp only
    split
    · exact .of_inactive rfl
    · exact fun hactive => ⟨hactive, rfl⟩

theorem pressLogic_stillCounts {states : List (State T)} {k : KeyCode} {modMask : UInt16}
    {o : Outcome T} (h : doSequencePressLogic sequences modcancel st states k modMask = .ok o) :
    StillCounts st o.state := by
  unfold doSequencePressLogic at h
  dsimp only at h
  rcases bind_eq_ok.mp h with ⟨outcome, hcomplete, h⟩
  obtain rfl := pure_eq_ok.mp h
  intro hactive
  rcases complete_stillCounts hcomplete hactive with ⟨htracked, hcount⟩
  rcases reconcile_stillCounts _ _ _ _ _ htracked with ⟨hbefore, hcount'⟩
  exact ⟨hbefore, hcount.trans hcount'⟩

theorem endOverlap_stillCounts {states : List (State T)} {o : Outcome T}
    (h : endOverlap sequences st states = .ok o) : StillCounts st o.state := by
  unfold endOverlap at h
  dsimp only at h
  split at h
  · exact .of_inactive (termination_isActive h)
  all_goals
    obtain rfl := pure_eq_ok.mp h
    exact fun hactive => ⟨hactive, rfl⟩

theorem tickSequenceState_stillCounts {effects : List Effect}
    (h : tickSequenceState overflowChecks st = .ok (st', effects)) : StillCounts st st' := by
  have hcounted : ∀ ticks, (if ticks = 0 then
        (pure (cancelSequence { st with ticksUntilTimeout := ticks }) : Rust _)
      else pure ({ st with ticksUntilTimeout := ticks }, [])) = .ok (st', effects) →
      StillCounts st st' := by
    intro ticks h
    split at h
    · cases pure_eq_ok.mp h
      exact .of_inactive rfl
    · cases pure_eq_ok.mp h
      exact fun hactive => ⟨hactive, rfl⟩
  unfold tickSequenceState at h
  split at h
  · dsimp only at h
    split at h
    · split at h
      · cases h
      · rw [pure_bind] at h
        exact hcounted _ h
    · rw [pure_bind] at h
      exact hcounted _ h
  · cases pure_eq_ok.mp h
    exact fun hactive => ⟨hactive, rfl⟩

/-- Only a `sequence-noerase` of an active sequence changes the count, and its sum may wrap. -/
theorem step_noeraseCount {x : Step T} {effects : List Effect}
    (h : step overflowChecks modcancel sequences st x = .ok (st', effects))
    (hactive : st'.isActive = true) :
    st.isActive = true ∧
      ((∀ count, x = .noerase count → st.noeraseCount + count ≤ u16Max) →
        st'.noeraseCount = st.noeraseCount + x.noeraseCount) := by
  have hstill : StillCounts st st' → x.noeraseCount = 0 → st.isActive = true ∧
      ((∀ count, x = .noerase count → st.noeraseCount + count ≤ u16Max) →
        st'.noeraseCount = st.noeraseCount + x.noeraseCount) := by
    intro hstill hzero
    rcases hstill hactive with ⟨hbefore, hcount⟩
    rw [hzero]
    exact ⟨hbefore, fun _ => hcount⟩
  cases x with
  | press k curKeys states =>
    refine hstill ?_ rfl
    simp only [step] at h
    split at h
    · rcases bind_eq_ok.mp h with ⟨o, ho, h⟩
      cases pure_eq_ok.mp h
      exact pressLogic_stillCounts ho
    · cases pure_eq_ok.mp h
      exact fun hactive => ⟨hactive, rfl⟩
  | released states =>
    refine hstill ?_ rfl
    simp only [step] at h
    split at h
    · rcases bind_eq_ok.mp h with ⟨o, ho, h⟩
      cases pure_eq_ok.mp h
      exact endOverlap_stillCounts ho
    · cases pure_eq_ok.mp h
      exact fun hactive => ⟨hactive, rfl⟩
  | tick => exact hstill (tickSequenceState_stillCounts h) rfl
  | noerase count =>
    simp only [step] at h
    split at h
    · rename_i hbefore
      rcases bind_eq_ok.mp h with ⟨st₁, hst₁, h⟩
      rcases bind_eq_ok.mp hst₁ with ⟨n, hn, hst₁⟩
      obtain rfl := pure_eq_ok.mp hst₁
      cases pure_eq_ok.mp h
      refine ⟨hbefore, fun hfits => ?_⟩
      rw [addU16_eq_mod hn]
      exact Nat.mod_eq_of_lt (Nat.lt_succ_of_le (hfits count rfl))
    · rename_i hinactive
      cases pure_eq_ok.mp h
      exact absurd hactive hinactive

/-! ### Whatever happens -/

section Happenings

variable {P Q : SequenceState → List (Happening T) → Nat → Prop} {hs : List (Happening T)}

theorem AtCounts.mono (h : AtCounts overflowChecks modcancel sequences P hs)
    (hPQ : ∀ st past count, P st past count → Q st past count) :
    AtCounts overflowChecks modcancel sequences Q hs := fun i count hi st os hrun hactive =>
  hPQ st (hs.take i) count (h i count hi st os hrun hactive)

theorem AtCounts.take (h : AtCounts overflowChecks modcancel sequences P hs) (n : Nat) :
    AtCounts overflowChecks modcancel sequences P (hs.take n) := by
  intro i count hi st os hrun hactive
  have hlt : i < n := by
    have hlen := (List.getElem?_eq_some_iff.mp hi).1
    rw [List.length_take] at hlen
    omega
  rw [List.take_take, Nat.min_eq_left (Nat.le_of_lt hlt)] at hrun ⊢
  rw [List.getElem?_take_of_lt hlt] at hi
  exact h i count hi st os hrun hactive

/-- By induction on what happened, from the end: as long as the sums fit, the count of an
active sequence is what was added since it started. -/
theorem noeraseCount_eq_spared {os : List (List Effect)}
    (hrun : Machine.run (happen overflowChecks modcancel sequences) .new hs = .ok (st, os))
    (hactive : st.isActive = true)
    (hfits : AtCounts overflowChecks modcancel sequences (fun st past count =>
      st.noeraseCount = sparedAfter past → sparedAfter past + count ≤ u16Max) hs) :
    st.noeraseCount = sparedAfter hs := by
  induction hs using List.reverseRecOn generalizing st os with
  | nil =>
    cases hrun
    cases hactive
  | append_singleton hs x ih =>
    rcases run_append_eq_ok.mp hrun with ⟨st₁, os₁, _, hbefore, hlast, _⟩
    rcases run_cons_eq_ok.mp hlast with ⟨st₂, o, _, hhappen, hnil, _⟩
    cases hnil
    cases x with
    | activate mode timeout =>
      cases hhappen
      have hspared : sparedAfter (hs ++ [.activate mode timeout]) = 0 := List.foldl_append
      rw [hspared]
      rfl
    | step x =>
      rcases step_noeraseCount hhappen hactive with ⟨hactive₁, hcount⟩
      have hprefix := hfits.take hs.length
      rw [List.take_left] at hprefix
      have hih : st₁.noeraseCount = sparedAfter hs := ih hbefore hactive₁ hprefix
      have hspared : sparedAfter (hs ++ [.step x]) = sparedAfter hs + x.noeraseCount :=
        List.foldl_append
      rw [hspared, ← hih]
      refine hcount fun count hx => ?_
      have hat := hfits hs.length count (by rw [List.getElem?_concat_length, hx]) st₁ os₁
      rw [List.take_left] at hat
      rw [hih]
      exact hat hbefore hactive₁ hih

/-- The counts fit if and only if what was added since the sequence started leaves room for
them. -/
theorem counts_fit_iff (hs : List (Happening T)) :
    AtCounts overflowChecks modcancel sequences
        (fun st _ count => st.noeraseCount + count ≤ u16Max) hs ↔
      AtCounts overflowChecks modcancel sequences
        (fun _ past count => sparedAfter past + count ≤ u16Max) hs := by
  constructor
  · intro h i count hi st os hrun hactive
    have heq := noeraseCount_eq_spared hrun hactive
      ((h.take i).mono fun st past count hle heq => heq ▸ hle)
    have hle : st.noeraseCount + count ≤ u16Max := h i count hi st os hrun hactive
    rwa [heq] at hle
  · intro h i count hi st os hrun hactive
    have heq := noeraseCount_eq_spared hrun hactive
      ((h.take i).mono fun st past count hle _ => hle)
    have hle : sparedAfter (hs.take i) + count ≤ u16Max := h i count hi st os hrun hactive
    show st.noeraseCount + count ≤ u16Max
    rwa [heq]

end Happenings

end Sequences

/-! ## All of them -/

section All

variable {M : Type → Type} [PatriciaMap M]

/-- In every run of the layout, and whatever happens to the sequence state, each sum fits if
and only if what was counted before leaves room for it. The pause is only ever set to the
delay of the configuration, or to nothing. -/
theorem additions_fit {cfg : LayoutConfig C R T} {delay : Nat} {ops : List LayoutOp}
    {s' : Layout T} {os : List (CustomEvent T)}
    (h : run (Layout.step cfg) (.new delay) ops = .ok (s', os)) (overflowChecks modcancel : Bool)
    (sequences : Trie M KCoord) (hs : List (Sequences.Happening T)) :
    (∀ i (o : WaitingNote T), s'.waits[i]? = some o →
        (o.Fits ↔ o.FitsAfter (s'.waits.take i))) ∧
      ((∀ o ∈ s'.oneshot.pauses, o.Fits) ↔
        ∀ i (o : PauseNote), s'.oneshot.pauses[i]? = some o →
          o.FitsAfter (s'.oneshot.pauses.take i)) ∧
      (∀ ticks, .set ticks ∈ s'.oneshot.pauses → ticks = delay ∨ ticks = 0) ∧
      (Sequences.AtCounts overflowChecks modcancel sequences
          (fun st _ count => st.noeraseCount + count ≤ u16Max) hs ↔
        Sequences.AtCounts overflowChecks modcancel sequences
          (fun _ past count => Sequences.sparedAfter past + count ≤ u16Max) hs) :=
  ⟨fun _ _ ho => run_decisionSums h ho, (run_pauses h).1, (run_pauses h).2,
    Sequences.counts_fit_iff hs⟩

/-- A hold-tap that is decided by a press, and whose hold action ends an output chord. -/
def holdChordThenKey : LayoutConfig 16 2 Nat :=
  oneLayer [.holdTap ⟨200, .multipleActions
    [.multipleKeyCodes [keyLeftCtrl, keyA], .keyCode keyB], .noOp, .noOp, .holdOnOtherKeyPress, 0,
    none, none, twoHundred_le_u16Max⟩, .keyCode keyA]

/-- A hold-tap is pressed, and after a tick another key. -/
def heldThenPressed : List LayoutOp := [press 1, .tick, press 2, .tick]

/-- Two keys of a sequence are spared. -/
def sparedTwice : List (Sequences.Happening Nat) :=
  [.activate .visibleBackspaced 1000, .step (.noerase 2), .step (.noerase 3)]

/-- The press is a tick old when the hold-tap starts to wait, and it waits for one; the two
ends of keys are added to a pause of five; five keys are spared. -/
theorem additions_fit_young :
    ∃ s' os w, run (Layout.step holdChordThenKey) (.new 5) heldThenPressed = .ok (s', os) ∧
      s'.waits[2]? = some (.decided w .hold) ∧
      (∃ w₀ n, decisionsAfter s'.waits w.id = some (w₀, n) ∧
        (w₀.delay = 0 ∨ w₀.delay + w₀.ticks + n ≤ u16Max)) ∧
      s'.oneshot.pauses = [.set 5, .extended 5, .extended 7] ∧
      pauseAfter [.set 5, .extended 5] + 2 ≤ u16Max ∧
      Sequences.AtCounts true true (.new : Trie EntryMap KCoord)
        (fun st _ count => st.noeraseCount + count ≤ u16Max) sparedTwice := by
  obtain ⟨s', os, w, hrun, hwaits, hat, hsummed, hsum, hpauses⟩ :
      ∃ s' os w, run (Layout.step holdChordThenKey) (.new 5) heldThenPressed = .ok (s', os) ∧
        s'.waits = s'.waits.take 2 ++ [.decided w .hold] ∧
        s'.waits[2]? = some (.decided w .hold) ∧
        (WaitingNote.decided w .hold).summed = some w ∧ w.delay + w.ticks = 2 ∧
        s'.oneshot.pauses = [.set 5, .extended 5, .extended 7] :=
    ⟨_, _, _, rfl, rfl, rfl, rfl, rfl, rfl⟩
  rcases additions_fit hrun true true (.new : Trie EntryMap KCoord) sparedTwice with
    ⟨hdecisions, hpaused, _, hcounts⟩
  have hfits : (WaitingNote.decided w .hold).Fits := by
    intro w' hw'
    rw [hsummed] at hw'
    cases hw'
    rw [hsum]
    decide
  have hpausesFit : ∀ o ∈ s'.oneshot.pauses, o.Fits := by
    rw [hpauses]
    intro o ho
    simp only [List.mem_cons, List.not_mem_nil, or_false] at ho
    rcases ho with rfl | rfl | rfl
    · trivial
    · show 5 + 2 ≤ u16Max
      decide
    · show 7 + 2 ≤ u16Max
      decide
  have hlast := hpaused.mp hpausesFit 2 (.extended 7) (by rw [hpauses]; rfl)
  rw [hpauses] at hlast
  have hafter := (hdecisions 2 _ hat).mp hfits w hsummed
  rw [← hwaits] at hafter
  refine ⟨s', os, w, hrun, hat, hafter, hpauses, hlast, hcounts.mpr ?_⟩
  intro i count hi st os _ _
  rcases i with _ | _ | _ | i
  · cases hi
  · cases hi
    show 0 + 2 ≤ u16Max
    decide
  · cases hi
    show 2 + 3 ≤ u16Max
    decide
  · cases hi

/-- With the longest pause that is accepted, the hold action cannot begin its last part with
overflow checks; without them the pause wraps. -/
theorem additions_fit_fails :
    run (Layout.step holdChordThenKey) (.new u16Max) heldThenPressed =
        .error ⟨"attempt to add with overflow"⟩ ∧
      ∃ s' os, run (Layout.step { holdChordThenKey with overflowChecks := false }) (.new u16Max)
          heldThenPressed = .ok (s', os) ∧
        PauseNote.extended 65535 ∈ s'.oneshot.pauses ∧ ¬ (PauseNote.extended 65535).Fits := by
  refine ⟨rfl, _, _, rfl, ?_, ?_⟩
  · exact List.mem_cons_of_mem _ List.mem_cons_self
  · show ¬ 65535 + 2 ≤ u16Max
    decide

end All

end Kanata
