import Kanata.HoldTap.Batching
import Mathlib.Data.List.Basic
import Mathlib.Logic.Function.Iterate

/-!
# Kanata.HoldTap.Termination — a hold-tap that nothing more happens to

No further event comes, so the queue only ages. A waiting key looks at it once
when it is new and again when the timeout is over. With a timeout reset and a press
at the end of the queue each look starts the timeout anew: `terminates_within`
says when a look decides all the same.
-/

namespace Kanata

variable {C R T : Type}

/-! ## What a mode decides on -/

/-- A press that `counts`, and later in the queue its release. -/
def PressThenRelease (counts : Queued → Prop) (queued : List Queued) : Prop :=
  ∃ q r, [q, r].Sublist queued ∧ counts q ∧
    ∃ i j, q.event = .press i j ∧ r.event = .release i j

/-- The mode of a hold-tap key decides on these events, by itself. -/
def HoldTapConfig.Decides (cfg : HoldTapConfig) (coord : KCoord) (ticks : Nat)
    (queued : List Queued) : Prop :=
  match cfg with
  | .default => False
  | .holdOnOtherKeyPress => ∃ q ∈ queued, q.event.isPress = true
  | .order buffer => PressThenRelease (fun q => buffer ≤ ticks - q.since) queued
  | .permissiveHold => PressThenRelease (fun _ => True) queued
  | .custom func => (func queued coord).1.isSome = true

/-- No decision function suppresses the timeout. -/
def HoldTapConfig.KeepsTimeout (cfg : HoldTapConfig) : Prop :=
  ∀ func, cfg = .custom func → ∀ queued coord, (func queued coord).2 = false

theorem pair_sublist_cons {α : Type} {q r x : α} {xs : List α} :
    [q, r].Sublist (x :: xs) ↔ [q, r].Sublist xs ∨ q = x ∧ r ∈ xs := by
  constructor
  · intro h
    cases h with
    | cons _ h => exact .inl h
    | cons_cons _ h => exact .inr ⟨rfl, List.singleton_sublist.mp h⟩
  · rintro (h | ⟨rfl, hr⟩)
    · exact h.cons x
    · exact (List.singleton_sublist.mpr hr).cons_cons q

/-- The loop of `PermissiveHold` and of `Order`. -/
theorem scanPresses_onRelease (passes : Queued → Prop) [DecidablePred passes]
    (a : WaitingAction) :
    ∀ queued : List Queued,
      (scanPresses (fun q => if passes q then .pass else .onRelease a) queued).action.isSome =
          true ↔ PressThenRelease (fun q => ¬ passes q) queued
  | [] => by
    constructor
    · intro h
      cases h
    · rintro ⟨q, r, hsub, _⟩
      cases hsub
  | x :: queued => by
    have ih := scanPresses_onRelease passes a queued
    have hskip : (∀ r ∈ queued, passes x ∨ ∀ i j, x.event = .press i j →
        r.event ≠ .release i j) →
        (PressThenRelease (fun q => ¬ passes q) (x :: queued) ↔
          PressThenRelease (fun q => ¬ passes q) queued) := by
      intro hno
      constructor
      · rintro ⟨q, r, hsub, hcounts, i, j, hq, hr⟩
        rcases pair_sublist_cons.mp hsub with hsub | ⟨rfl, hmem⟩
        · exact ⟨q, r, hsub, hcounts, i, j, hq, hr⟩
        · rcases hno r hmem with hpass | hne
          · exact absurd hpass hcounts
          · exact absurd hr (hne i j hq)
      · rintro ⟨q, r, hsub, hrest⟩
        exact ⟨q, r, hsub.cons x, hrest⟩
    unfold scanPresses
    cases hx : x.event with
    | release i j =>
      simp only
      rw [ih, hskip]
      intro r _
      refine .inr ?_
      intro i' j' h
      rw [hx] at h
      cases h
    | press i j =>
      by_cases hpass : passes x
      · simp only [if_pos hpass]
        rw [ih, hskip]
        intro r _
        exact .inl hpass
      · simp only [if_neg hpass]
        by_cases hany : (queued.any fun q => q.event == .release i j) = true
        · rw [if_pos hany]
          rcases List.any_eq_true.mp hany with ⟨r, hr, hrel⟩
          refine iff_of_true rfl ⟨x, r, pair_sublist_cons.mpr (.inr ⟨rfl, hr⟩), hpass, i, j, hx, ?_⟩
          exact eq_of_beq hrel
        · rw [if_neg hany, ih, hskip]
          intro r hr
          refine .inr ?_
          intro i' j' h hrel
          rw [hx] at h
          cases h
          exact hany (List.any_eq_true.mpr ⟨r, hr, beq_iff_eq.mpr hrel⟩)

namespace WaitingState

variable {overflowChecks : Bool} {w : WaitingState T} {cfg : HoldTapConfig} {queue : Queue}
  {es : List (Option Event)} {v : Nat}

theorem modeDecision_isSome (w : WaitingState T) (cfg : HoldTapConfig) (queued : List Queued) :
    (w.modeDecision cfg queued).1.isSome = true ↔ cfg.Decides w.coord w.ticks queued := by
  cases cfg with
  | default =>
    constructor
    · intro h
      cases h
    · intro h
      exact h.elim
  | holdOnOtherKeyPress =>
    show (if queued.any (fun s => s.event.isPress) then some WaitingAction.hold
      else none).isSome = true ↔ _
    rw [HoldTapConfig.Decides, ← List.any_eq_true]
    cases queued.any fun s => s.event.isPress with
    | true => exact iff_of_true rfl rfl
    | false => exact iff_of_false Bool.false_ne_true Bool.false_ne_true
  | order buffer =>
    refine (scanPresses_onRelease (fun q => w.ticks - q.since < buffer) .hold queued).trans ?_
    simp only [HoldTapConfig.Decides, Nat.not_lt]
  | permissiveHold =>
    have h := scanPresses_onRelease (fun _ => False) .hold queued
    simp only [if_false, not_false_eq_true] at h
    exact h
  | custom func => exact Iff.rfl

theorem modeDecision_keepsTimeout (hskip : cfg.KeepsTimeout) (w : WaitingState T)
    (queued : List Queued) : (w.modeDecision cfg queued).2 = false := by
  cases cfg with
  | custom func => exact hskip func rfl queued w.coord
  | default => rfl
  | holdOnOtherKeyPress => rfl
  | order buffer => rfl
  | permissiveHold => rfl

/-! ## One look at the queue -/

/-- The timeout starts anew at every look: the last event is a press and the key
itself is still held. -/
structure Restarts (w : WaitingState T) (events : List Event) (v : Nat) : Prop where
  reset : w.onPressResetTimeoutTo = some v
  press : ∃ last, events.getLast? = some last ∧ last.isPress = true
  held : ∀ e ∈ events, w.isCorrespondingRelease e = false

/-- A look does not start the timeout anew. -/
def NoReset (w : WaitingState T) (events : List Event) : Prop :=
  w.onPressResetTimeoutTo = none ∨ ∀ last, events.getLast? = some last → last.isPress = false

/-- The fast path is not taken. -/
def Looks (w : WaitingState T) (queued : List Queued) : Prop :=
  ¬ (queued.length = w.prevQueueLen ∧ w.timeout > 0)

theorem resetTimeout_of_noReset {queued : List Queued}
    (h : w.NoReset (queued.map fun q => q.event)) : w.resetTimeout queued = w := by
  unfold resetTimeout
  rcases h with hnone | hlast
  · rw [hnone]
  · rw [List.getLast?_map] at hlast
    cases hq : queued.getLast? with
    | none => cases w.onPressResetTimeoutTo <;> rfl
    | some last =>
      have hrelease := hlast last.event (by rw [hq]; rfl)
      cases w.onPressResetTimeoutTo with
      | none => rfl
      | some v => simp only [hrelease, Bool.false_eq_true, if_false]

theorem resetTimeout_of_restarts {queued : List Queued}
    (h : w.Restarts (queued.map fun q => q.event) v) :
    w.resetTimeout queued = { w with timeout := v } := by
  rcases h.press with ⟨e, he, hpress⟩
  rw [List.getLast?_map] at he
  rcases Option.map_eq_some_iff.mp he with ⟨last, hlast, rfl⟩
  unfold resetTimeout
  rw [h.reset, hlast]
  simp only [hpress, if_true]

theorem resetTimeout_coord (w : WaitingState T) (queued : List Queued) :
    (w.resetTimeout queued).coord = w.coord ∧ (w.resetTimeout queued).ticks = w.ticks := by
  unfold resetTimeout
  split
  · split
    · exact ⟨rfl, rfl⟩
    · exact ⟨rfl, rfl⟩
  · exact ⟨rfl, rfl⟩

/-- The mode decides, or the key itself was released. -/
theorem handleHoldTap_decides {queued : List Queued} (hlook : w.Looks queued)
    (h : cfg.Decides w.coord w.ticks queued ∨
      ∃ q ∈ queued, w.isCorrespondingRelease q.event = true) :
    ∃ a, (w.handleHoldTap cfg queued).2 = some a := by
  have hcoord := w.resetTimeout_coord queued
  unfold handleHoldTap
  rw [if_neg hlook]
  simp only
  generalize hw' : ({ w.resetTimeout queued with prevQueueLen := queued.length } :
    WaitingState T) = w'
  have hsame : w'.coord = w.coord ∧ w'.ticks = w.ticks := by
    rw [← hw']
    exact hcoord
  have hmode := w'.modeDecision_isSome cfg queued
  rw [hsame.1, hsame.2] at hmode
  cases hdecision : w'.modeDecision cfg queued with
  | mk action skip =>
    rw [hdecision] at hmode
    cases action with
    | some a => exact ⟨a, rfl⟩
    | none =>
      rcases h with hdecides | ⟨q, hq, hrel⟩
      · cases hmode.mpr hdecides
      · -- the release of the key decides one way or the other
        unfold releaseOrTimeout
        have hfound : (queued.find? fun s => w'.isCorrespondingRelease s.event).isSome := by
          refine List.find?_isSome.mpr ⟨q, hq, ?_⟩
          unfold isCorrespondingRelease at hrel ⊢
          rw [hsame.1]
          exact hrel
        rcases Option.isSome_iff_exists.mp hfound with ⟨r, hr⟩
        simp only [hr]
        split
        · exact ⟨_, rfl⟩
        · exact ⟨_, rfl⟩

/-- A look that starts the timeout anew and decides nothing. -/
theorem handleHoldTap_restarts {queued : List Queued} (hlook : w.Looks queued)
    (hre : w.Restarts (queued.map fun q => q.event) v) (hv : 0 < v)
    (hno : ¬ cfg.Decides w.coord w.ticks queued) :
    w.handleHoldTap cfg queued =
      ({ w with timeout := v, prevQueueLen := queued.length }, none) := by
  unfold handleHoldTap
  rw [if_neg hlook, resetTimeout_of_restarts hre]
  simp only
  generalize hw' : ({ w with timeout := v, prevQueueLen := queued.length } :
    WaitingState T) = w'
  have hfields : w'.coord = w.coord ∧ w'.ticks = w.ticks ∧ w'.timeout = v := by
    subst hw'
    exact ⟨rfl, rfl, rfl⟩
  have hmode := w'.modeDecision_isSome cfg queued
  rw [hfields.1, hfields.2.1] at hmode
  have hnone : queued.find? (fun s => w'.isCorrespondingRelease s.event) = none := by
    refine List.find?_eq_none.mpr ?_
    intro q hq hrel
    have hheld := hre.held q.event (List.mem_map_of_mem hq)
    unfold isCorrespondingRelease at hrel hheld
    rw [hfields.1] at hrel
    rw [hheld] at hrel
    cases hrel
  cases hdecision : w'.modeDecision cfg queued with
  | mk action skip =>
    rw [hdecision] at hmode
    cases action with
    | some a => exact absurd (hmode.mp rfl) hno
    | none =>
      unfold releaseOrTimeout
      rw [hnone, hfields.2.2]
      simp only [Nat.pos_iff_ne_zero.mp hv, false_and, if_false]

/-- Without a reset a look at the end of the timeout decides. -/
theorem handleHoldTap_timesOut {queued : List Queued} (hskip : cfg.KeepsTimeout)
    (hreset : w.NoReset (queued.map fun q => q.event)) (htimeout : w.timeout = 0) :
    ∃ a, (w.handleHoldTap cfg queued).2 = some a := by
  have hlook : w.Looks queued := by
    rintro ⟨_, hpos⟩
    exact absurd htimeout (Nat.pos_iff_ne_zero.mp hpos)
  unfold handleHoldTap
  rw [if_neg hlook, resetTimeout_of_noReset hreset]
  simp only
  generalize hw' : ({ w with prevQueueLen := queued.length } : WaitingState T) = w'
  have hzero : w'.timeout = 0 := by
    rw [← hw']
    exact htimeout
  have hkeeps := modeDecision_keepsTimeout hskip w' queued
  cases hdecision : w'.modeDecision cfg queued with
  | mk action skip =>
    rw [hdecision] at hkeeps
    cases action with
    | some a => exact ⟨a, rfl⟩
    | none =>
      simp only at hkeeps ⊢
      unfold releaseOrTimeout
      rw [hzero, hkeeps]
      split
      · split
        · exact ⟨_, rfl⟩
        · exact ⟨_, rfl⟩
      · exact ⟨_, rfl⟩

/-- Without a reset a look without a decision changes nothing but the length that
is remembered. -/
theorem handleHoldTap_noReset (cfg : HoldTapConfig) {queued : List Queued}
    (hreset : w.NoReset (queued.map fun q => q.event)) :
    (w.handleHoldTap cfg queued).1 = w ∨
      (w.handleHoldTap cfg queued).1 = { w with prevQueueLen := queued.length } := by
  unfold handleHoldTap
  rw [resetTimeout_of_noReset hreset]
  split
  · exact .inl rfl
  · refine .inr ?_
    simp only
    split
    · rfl
    · rfl

/-! ## Ticks in which nothing comes -/

def olderQueue (queue : Queue) : Queue := queue.map Queued.tickQd

theorem olderQueue_events (queue : Queue) :
    ((olderQueue queue).items.map fun q => q.event) = queue.items.map fun q => q.event := by
  unfold olderQueue
  rw [Bounded.map_items, List.map_map]
  rfl

theorem olderQueue_length (queue : Queue) :
    (olderQueue queue).items.length = queue.items.length := by
  unfold olderQueue
  rw [Bounded.map_items, List.length_map]

theorem olderQueue_iterate_events :
    ∀ (n : Nat) (queue : Queue), ((olderQueue^[n] queue).items.map fun q => q.event) =
      queue.items.map fun q => q.event
  | 0, _ => rfl
  | n + 1, queue => by
    rw [Function.iterate_succ_apply, olderQueue_iterate_events n, olderQueue_events]

/-- The key is decided within some ticks if no event comes. -/
def ResolvedWithin (overflowChecks : Bool) (w : WaitingState T) (queue : Queue) (n : Nat) : Prop :=
  ∃ a, firstDecision overflowChecks w queue (List.replicate n none) = pure (some a)

theorem firstDecision_some {a : WaitingAction} (hcfg : w.config = .holdTap cfg)
    (h : (w.older.handleHoldTap cfg (olderQueue queue).items).2 = some a) :
    firstDecision overflowChecks w queue (none :: es) = pure (some a) := by
  have htick : w.tickWt overflowChecks (olderQueue queue) = _ := tickWt_of_config hcfg
  rw [h] at htick
  unfold firstDecision
  show (w.tickWt overflowChecks (olderQueue queue) >>= _) = _
  rw [htick]
  rfl

theorem firstDecision_none (hcfg : w.config = .holdTap cfg)
    (h : (w.older.handleHoldTap cfg (olderQueue queue).items).2 = none) :
    firstDecision overflowChecks w queue (none :: es) =
      firstDecision overflowChecks (w.older.handleHoldTap cfg (olderQueue queue).items).1
        (olderQueue queue) es := by
  have htick : w.tickWt overflowChecks (olderQueue queue) = _ := tickWt_of_config hcfg
  rw [h] at htick
  rw [firstDecision]
  show (w.tickWt overflowChecks (olderQueue queue) >>= _) = _
  rw [htick]
  rfl

/-- Up to the end of the timeout the queue is not looked at. -/
theorem firstDecision_quiet :
    ∀ {n : Nat} {w : WaitingState T} {queue : Queue}, w.config = .holdTap cfg →
      queue.items.length = w.prevQueueLen → n < w.timeout →
      firstDecision overflowChecks w queue (List.replicate n none ++ es) =
        firstDecision overflowChecks (older^[n] w) (olderQueue^[n] queue) es
  | 0, _, _, _, _, _ => rfl
  | n + 1, w, queue, hcfg, hseen, hn => by
    have hfast : w.older.handleHoldTap cfg (olderQueue queue).items = (w.older, none) := by
      unfold handleHoldTap
      rw [if_pos]
      constructor
      · rw [olderQueue_length]
        exact hseen
      · show w.timeout - 1 > 0
        omega
    have ih : firstDecision overflowChecks w.older (olderQueue queue)
        (List.replicate n none ++ es) = _ :=
      firstDecision_quiet (w := w.older) hcfg ((olderQueue_length queue).trans hseen)
        (show n < w.timeout - 1 by omega)
    rw [List.replicate_succ, List.cons_append, firstDecision_none hcfg (by rw [hfast]), hfast, ih,
      Function.iterate_succ_apply, Function.iterate_succ_apply]

/-- The fields that time does not change, and those that it does. -/
theorem older_iterate :
    ∀ (n : Nat) (w : WaitingState T),
      (older^[n] w).config = w.config ∧ (older^[n] w).coord = w.coord ∧
        (older^[n] w).onPressResetTimeoutTo = w.onPressResetTimeoutTo ∧
        (older^[n] w).prevQueueLen = w.prevQueueLen ∧
        (older^[n] w).timeout = w.timeout - n ∧
        (older^[n] w).ticks = (satAdd · 1)^[n] w.ticks
  | 0, _ => ⟨rfl, rfl, rfl, rfl, rfl, rfl⟩
  | n + 1, w => by
    rcases older_iterate n w.older with ⟨hconfig, hcoord, hreset, hlen, htimeout, hticks⟩
    rw [Function.iterate_succ_apply]
    refine ⟨hconfig, hcoord, hreset, hlen, ?_, hticks⟩
    rw [htimeout]
    show w.timeout - 1 - n = w.timeout - (n + 1)
    omega

/-- The mode decides on the queue as it is `n` ticks from now. -/
def DecidesAfter (w : WaitingState T) (cfg : HoldTapConfig) (queue : Queue) (n : Nat) : Prop :=
  cfg.Decides w.coord ((satAdd · 1)^[n] w.ticks) (olderQueue^[n] queue).items

/-- The tick of the first look at the queue. -/
def firstLook (w : WaitingState T) (queue : Queue) : Nat :=
  if queue.items.length = w.prevQueueLen then max 1 w.timeout else 1

theorem firstLook_pos (w : WaitingState T) (queue : Queue) : 0 < w.firstLook queue := by
  unfold firstLook
  split
  · omega
  · omega

theorem firstLook_le (w : WaitingState T) (queue : Queue) :
    w.firstLook queue ≤ max 1 w.timeout := by
  unfold firstLook
  split
  · omega
  · omega

/-- Before the first look nothing is decided. -/
theorem firstDecision_before {n : Nat} (es : List (Option Event)) (hcfg : w.config = .holdTap cfg)
    (hn : n < w.firstLook queue) :
    firstDecision overflowChecks w queue (List.replicate n none ++ es) =
      firstDecision overflowChecks (older^[n] w) (olderQueue^[n] queue) es := by
  unfold firstLook at hn
  cases n with
  | zero => rfl
  | succ n =>
    split at hn
    · rename_i hseen
      exact firstDecision_quiet hcfg hseen (by omega)
    · omega

/-- The run up to the tick of the first look. -/
theorem firstDecision_toLook (overflowChecks : Bool) (queue : Queue) (m : Nat)
    (hcfg : w.config = .holdTap cfg) :
    ∃ w₀ queue₀, w₀.config = .holdTap cfg ∧
      w₀.older = older^[w.firstLook queue] w ∧
      olderQueue queue₀ = olderQueue^[w.firstLook queue] queue ∧
      firstDecision overflowChecks w queue (List.replicate (w.firstLook queue + m) none) =
        firstDecision overflowChecks w₀ queue₀ (none :: List.replicate m none) := by
  have hpos := w.firstLook_pos queue
  rcases Nat.exists_eq_succ_of_ne_zero (Nat.pos_iff_ne_zero.mp hpos) with ⟨f, hf⟩
  refine ⟨older^[f] w, olderQueue^[f] queue, (older_iterate f w).1.trans hcfg, ?_, ?_, ?_⟩
  · rw [hf, Function.iterate_succ_apply']
  · rw [hf, Function.iterate_succ_apply']
  · have hrun : firstDecision overflowChecks w queue _ = _ :=
      firstDecision_before (none :: List.replicate m none) hcfg
        (show f < w.firstLook queue by omega)
    rw [← hrun, ← List.replicate_succ, ← List.replicate_add]
    congr 2
    omega

/-- In the tick of the first look the fast path is not taken. -/
theorem looks_firstLook (w : WaitingState T) (queue : Queue) :
    (older^[w.firstLook queue] w).Looks (olderQueue^[w.firstLook queue] queue).items := by
  rcases older_iterate (w.firstLook queue) w with ⟨_, _, _, hlen, htimeout, _⟩
  have hlength := congrArg List.length (olderQueue_iterate_events (w.firstLook queue) queue)
  rw [List.length_map, List.length_map] at hlength
  rintro ⟨hseen, hpos⟩
  rw [hlength, hlen] at hseen
  rw [htimeout] at hpos
  unfold firstLook at hpos
  rw [if_pos hseen] at hpos
  omega

theorem Restarts.iterate {n : Nat} (h : w.Restarts (queue.items.map fun q => q.event) v) :
    (older^[n] w).Restarts ((olderQueue^[n] queue).items.map fun q => q.event) v := by
  rcases older_iterate n w with ⟨_, hcoord, hreset, _⟩
  rw [olderQueue_iterate_events]
  constructor
  · rw [hreset]
    exact h.reset
  · exact h.press
  · intro e he
    have hheld := h.held e he
    unfold isCorrespondingRelease at hheld ⊢
    rw [hcoord]
    exact hheld

/-- A first look that decides. -/
theorem firstLook_decides (m : Nat) (hcfg : w.config = .holdTap cfg)
    (h : w.DecidesAfter cfg queue (w.firstLook queue) ∨
      ∃ e ∈ queue.items.map fun q => q.event, w.isCorrespondingRelease e = true) :
    ResolvedWithin overflowChecks w queue (w.firstLook queue + m) := by
  rcases firstDecision_toLook overflowChecks queue m hcfg with
    ⟨w₀, queue₀, hcfg₀, hw₀, hqueue₀, hrun⟩
  rcases older_iterate (w.firstLook queue) w with ⟨_, hcoord, _, _, _, hticks⟩
  have hlook := looks_firstLook w queue
  have hdecides : cfg.Decides w₀.older.coord w₀.older.ticks (olderQueue queue₀).items ∨
      ∃ q ∈ (olderQueue queue₀).items, w₀.older.isCorrespondingRelease q.event = true := by
    rw [hw₀, hqueue₀, hcoord, hticks]
    refine h.imp (fun h => h) ?_
    rintro ⟨e, he, hrel⟩
    rw [← olderQueue_iterate_events (w.firstLook queue)] at he
    rcases List.mem_map.mp he with ⟨q, hq, rfl⟩
    refine ⟨q, hq, ?_⟩
    unfold isCorrespondingRelease at hrel ⊢
    rw [hcoord]
    exact hrel
  rcases handleHoldTap_decides (by rw [hw₀, hqueue₀]; exact hlook) hdecides with ⟨a, ha⟩
  exact ⟨a, hrun.trans (firstDecision_some hcfg₀ ha)⟩

/-- The state after a first look that starts the timeout anew. -/
def restarted (w : WaitingState T) (queue : Queue) (v : Nat) : WaitingState T :=
  { older^[w.firstLook queue] w with timeout := v, prevQueueLen := queue.items.length }

/-- A first look that only starts the timeout anew. -/
theorem firstLook_restarts (m : Nat) (hcfg : w.config = .holdTap cfg)
    (hre : w.Restarts (queue.items.map fun q => q.event) v) (hv : 0 < v)
    (hno : ¬ w.DecidesAfter cfg queue (w.firstLook queue)) :
    firstDecision overflowChecks w queue (List.replicate (w.firstLook queue + m) none) =
      firstDecision overflowChecks (w.restarted queue v) (olderQueue^[w.firstLook queue] queue)
        (List.replicate m none) := by
  rcases firstDecision_toLook overflowChecks queue m hcfg with
    ⟨w₀, queue₀, hcfg₀, hw₀, hqueue₀, hrun⟩
  rcases older_iterate (w.firstLook queue) w with ⟨_, hcoord, _, _, _, hticks⟩
  have hlook := looks_firstLook w queue
  have hno' : ¬ cfg.Decides (older^[w.firstLook queue] w).coord
      (older^[w.firstLook queue] w).ticks (olderQueue^[w.firstLook queue] queue).items := by
    rw [hcoord, hticks]
    exact hno
  have hlength := congrArg List.length (olderQueue_iterate_events (w.firstLook queue) queue)
  rw [List.length_map, List.length_map] at hlength
  have hrestarts := handleHoldTap_restarts hlook hre.iterate hv hno'
  rw [← hw₀, ← hqueue₀] at hrestarts
  rw [hrun, firstDecision_none hcfg₀ (by rw [hrestarts]), hrestarts, hqueue₀, hlength, hw₀]
  rfl

/-- From there on, what the mode decides is what it would have decided. -/
theorem decidesAfter_restarted (n : Nat) :
    (w.restarted queue v).DecidesAfter cfg (olderQueue^[w.firstLook queue] queue) n ↔
      w.DecidesAfter cfg queue (w.firstLook queue + n) := by
  rcases older_iterate (w.firstLook queue) w with ⟨_, hcoord, _, _, _, hticks⟩
  unfold DecidesAfter
  show cfg.Decides (older^[w.firstLook queue] w).coord
    ((satAdd · 1)^[n] (older^[w.firstLook queue] w).ticks) _ ↔ _
  rw [hcoord, hticks, ← Function.iterate_add_apply, ← Function.iterate_add_apply,
    Nat.add_comm n]

theorem firstLook_restarted (hv : 0 < v) :
    (w.restarted queue v).firstLook (olderQueue^[w.firstLook queue] queue) = v := by
  have hlength := congrArg List.length (olderQueue_iterate_events (w.firstLook queue) queue)
  rw [List.length_map, List.length_map] at hlength
  show (if (olderQueue^[w.firstLook queue] queue).items.length = queue.items.length then max 1 v
    else 1) = v
  rw [if_pos hlength]
  omega

/-! ## The looks of a run -/

/-- With a timeout that starts anew at every look, the key is decided within some
ticks exactly if the mode decides at the first look or at one of those that follow
it, a reset value apart. -/
theorem resolvedWithin_iff_of_restarts (hv : 0 < v) :
    ∀ (n : Nat) {w : WaitingState T} {queue : Queue}, w.config = .holdTap cfg →
      w.Restarts (queue.items.map fun q => q.event) v →
      (ResolvedWithin overflowChecks w queue n ↔
        ∃ k, w.firstLook queue + k * v ≤ n ∧
          w.DecidesAfter cfg queue (w.firstLook queue + k * v)) := by
  intro n
  induction n using Nat.strong_induction_on with
  | _ n ih =>
    intro w queue hcfg hre
    have hpos := w.firstLook_pos queue
    by_cases hlt : n < w.firstLook queue
    · -- the first look is still to come
      refine iff_of_false ?_ ?_
      · rintro ⟨a, ha⟩
        have hbefore : firstDecision overflowChecks w queue _ = _ :=
          firstDecision_before [] hcfg hlt
        rw [List.append_nil, ha] at hbefore
        cases hbefore
      · rintro ⟨k, hk, _⟩
        omega
    · obtain ⟨m, rfl⟩ : ∃ m, n = w.firstLook queue + m := ⟨n - w.firstLook queue, by omega⟩
      by_cases hdec : w.DecidesAfter cfg queue (w.firstLook queue)
      · refine iff_of_true (firstLook_decides m hcfg (.inl hdec)) ⟨0, by omega, ?_⟩
        rw [Nat.zero_mul, Nat.add_zero]
        exact hdec
      · have hre' : (w.restarted queue v).Restarts
            ((olderQueue^[w.firstLook queue] queue).items.map fun q => q.event) v :=
          ⟨hre.iterate.reset, hre.iterate.press, hre.iterate.held⟩
        have hcfg' : (w.restarted queue v).config = .holdTap cfg :=
          (older_iterate (w.firstLook queue) w).1.trans hcfg
        have hrest := ih m (by omega) hcfg' hre'
        unfold ResolvedWithin at hrest ⊢
        rw [firstLook_restarts m hcfg hre hv hdec, hrest]
        simp only [firstLook_restarted hv, decidesAfter_restarted]
        constructor
        · rintro ⟨k, hk, hdecides⟩
          have hmul : (k + 1) * v = v + k * v := by rw [Nat.succ_mul, Nat.add_comm]
          exact ⟨k + 1, by omega, by rw [hmul]; exact hdecides⟩
        · rintro ⟨k, hk, hdecides⟩
          cases k with
          | zero =>
            rw [Nat.zero_mul, Nat.add_zero] at hdecides
            exact absurd hdecides hdec
          | succ k =>
            have hmul : (k + 1) * v = v + k * v := by rw [Nat.succ_mul, Nat.add_comm]
            rw [hmul] at hk hdecides
            exact ⟨k, by omega, hdecides⟩

/-- Without a reset the key is decided when its timeout is over, if not before. -/
theorem resolvedWithin_of_noReset (hskip : cfg.KeepsTimeout) :
    ∀ {n : Nat} {w : WaitingState T} {queue : Queue}, w.config = .holdTap cfg →
      w.NoReset (queue.items.map fun q => q.event) → max 1 w.timeout ≤ n →
      ResolvedWithin overflowChecks w queue n
  | 0, _, _, _, _, hn => by omega
  | n + 1, w, queue, hcfg, hreset, hn => by
    have hreset' : w.older.NoReset ((olderQueue queue).items.map fun q => q.event) := by
      rw [olderQueue_events]
      exact hreset
    unfold ResolvedWithin
    rw [List.replicate_succ]
    cases hdecision : (w.older.handleHoldTap cfg (olderQueue queue).items).2 with
    | some a => exact ⟨a, firstDecision_some hcfg hdecision⟩
    | none =>
      rw [firstDecision_none hcfg hdecision]
      have htimeout : w.older.timeout ≠ 0 := by
        intro hzero
        rcases handleHoldTap_timesOut hskip hreset' hzero with ⟨a, ha⟩
        rw [ha] at hdecision
        cases hdecision
      have hleft : max 1 (w.timeout - 1) ≤ n := by
        have : w.timeout - 1 ≠ 0 := htimeout
        omega
      rcases handleHoldTap_noReset cfg hreset' with hw' | hw'
      · rw [hw']
        exact resolvedWithin_of_noReset hskip (w := w.older) hcfg hreset' hleft
      · rw [hw']
        exact resolvedWithin_of_noReset hskip hcfg hreset' hleft

/-! ## The bound -/

/-- The remaining timeout and the reset value. -/
def timeBound (w : WaitingState T) : Nat := max 1 (w.timeout + w.onPressResetTimeoutTo.getD 0)

/-- For every hold-tap configuration that keeps its timeout, every queue and every
reset value: if nothing more comes, the key is decided within the remaining timeout
and the reset value exactly when the timeout is not started anew at every look, or
the mode decides at a look that is in time. -/
theorem terminates_within (hcfg : w.config = .holdTap cfg) (hskip : cfg.KeepsTimeout)
    (hreset : ∀ v, w.onPressResetTimeoutTo = some v → 0 < v) :
    ResolvedWithin overflowChecks w queue w.timeBound ↔
      ∀ v, w.Restarts (queue.items.map fun q => q.event) v →
        ∃ k, w.firstLook queue + k * v ≤ w.timeBound ∧
          w.DecidesAfter cfg queue (w.firstLook queue + k * v) := by
  have hlook : w.firstLook queue ≤ w.timeBound := by
    have hle := w.firstLook_le queue
    unfold timeBound
    omega
  by_cases hre : ∃ v, w.Restarts (queue.items.map fun q => q.event) v
  · rcases hre with ⟨v, hre⟩
    rw [resolvedWithin_iff_of_restarts (hreset v hre.reset) _ hcfg hre]
    constructor
    · intro h v' hre'
      have hsame := hre.reset.symm.trans hre'.reset
      cases hsame
      exact h
    · intro h
      exact h v hre
  · refine iff_of_true ?_ (fun v h => absurd ⟨v, h⟩ hre)
    by_cases hreleased : ∃ e ∈ queue.items.map fun q => q.event, w.isCorrespondingRelease e = true
    · have hresolved : ResolvedWithin overflowChecks w queue _ :=
        firstLook_decides (w.timeBound - w.firstLook queue) hcfg (.inr hreleased)
      rw [Nat.add_sub_cancel' hlook] at hresolved
      exact hresolved
    · refine resolvedWithin_of_noReset hskip hcfg ?_ (by unfold timeBound; omega)
      unfold NoReset
      cases hv : w.onPressResetTimeoutTo with
      | none => exact .inl rfl
      | some v =>
        refine .inr ?_
        intro last hlast
        by_contra hpress
        refine hre ⟨v, hv, ⟨last, hlast, by simpa using hpress⟩, ?_⟩
        intro e he
        by_contra hrel
        exact hreleased ⟨e, he, by simpa using hrel⟩

end WaitingState

/-! ## Another key that stays pressed -/

/-- `(tap-hold-release-timeout 200 200 a b c reset-timeout-on-press)`, with the actions
left out. -/
def tapHoldReleaseTimeout : HoldTapAction (Action Unit) where
  timeout := 200
  hold := .noOp
  tap := .noOp
  timeoutAction := .noOp
  config := .permissiveHold
  tapHoldInterval := 200
  onPressResetTimeoutTo := some 200
  requirePriorIdle := none
  timeout_le := twoHundred_le_u16Max

/-- The waiting state of the key. -/
def heldTapHold : WaitingState Unit :=
  Layout.holdTapWaiting false tapHoldReleaseTimeout (0, 30) 1 [] 0

/-- Another key was pressed, and nothing else. -/
def otherPressed : Queue := .ofTake _ [.newPress 0 31]

theorem heldTapHold_keepsTimeout : (HoldTapConfig.permissiveHold).KeepsTimeout := by
  intro func h
  cases h

theorem heldTapHold_restarts :
    heldTapHold.Restarts (otherPressed.items.map fun q => q.event) 200 := by
  constructor
  · rfl
  · exact ⟨.press 0 31, rfl, rfl⟩
  · intro e he
    rcases List.mem_singleton.mp he with rfl
    rfl

theorem heldTapHold_not_decides (n : Nat) :
    ¬ heldTapHold.DecidesAfter .permissiveHold otherPressed n := by
  rintro ⟨_, r, hsub, _, i, j, _, hr⟩
  -- only the press is there, however old
  have hmem : r.event ∈ (WaitingState.olderQueue^[n] otherPressed).items.map fun q => q.event :=
    List.mem_map_of_mem (hsub.subset (List.mem_cons_of_mem _ List.mem_cons_self))
  rw [WaitingState.olderQueue_iterate_events] at hmem
  rcases List.mem_singleton.mp hmem with h
  rw [hr] at h
  cases h

/-- With no other key pressed it is resolved within its timeout and the reset value. -/
theorem terminates_within_held :
    heldTapHold.timeBound = 400 ∧
      WaitingState.ResolvedWithin true heldTapHold .empty heldTapHold.timeBound := by
  refine ⟨rfl, (WaitingState.terminates_within rfl heldTapHold_keepsTimeout ?_).mpr ?_⟩
  · intro v hv
    cases hv
    exact Nat.succ_pos _
  · intro v hv
    rcases hv.press with ⟨e, he, _⟩
    cases he

/-- The key waits for ever. -/
theorem terminates_within_fails :
    (HoldTapConfig.permissiveHold).KeepsTimeout ∧
      ∀ n, ¬ WaitingState.ResolvedWithin true heldTapHold otherPressed n := by
  refine ⟨heldTapHold_keepsTimeout, ?_⟩
  intro n hresolved
  have hcfg : heldTapHold.config = .holdTap .permissiveHold := rfl
  rcases (WaitingState.resolvedWithin_iff_of_restarts (Nat.succ_pos 199) n hcfg
    heldTapHold_restarts).mp hresolved with ⟨k, _, hdecides⟩
  exact heldTapHold_not_decides _ hdecides

end Kanata
