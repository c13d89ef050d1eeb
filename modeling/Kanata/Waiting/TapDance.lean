import Kanata.Layout.Frame
import Kanata.Lib.EraseFirst

/-!
# Kanata.Waiting.TapDance — the taps that a lazy tap-dance counts

A waiting tap-dance counts the presses of its key in the whole queue again whenever
something came. `TapDance.taps` says what it is to count: the presses in the order in
which they come, until another key is pressed, the timeout is over or there are enough.
`Counts` is what the two have in common between ticks.
-/

namespace Kanata

open EraseFirst Fallible

variable {T : Type}

/-! ## Presses and releases of a key -/

section Events

variable {coord : KCoord} {q : Queued}

def pressOf (coord : KCoord) (q : Queued) : Bool := q.event == .press coord.1 coord.2

def releaseOf (coord : KCoord) (q : Queued) : Bool := q.event == .release coord.1 coord.2

/-- Another key is pressed. -/
def otherPress (coord : KCoord) (q : Queued) : Bool := q.event.isPress && !pressOf coord q

theorem not_pressOf_of_releaseOf (h : releaseOf coord q = true) : pressOf coord q = false := by
  unfold releaseOf at h
  unfold pressOf
  rw [beq_iff_eq.mp h]
  rfl

theorem not_otherPress_of_pressOf (h : pressOf coord q = true) : otherPress coord q = false := by
  unfold otherPress
  rw [h, Bool.not_true, Bool.and_false]

end Events

/-- The presses of the key that come before the press of another key. -/
def newTaps (coord : KCoord) (es : List Queued) : Nat :=
  (es.takeWhile fun q => !otherPress coord q).countP (pressOf coord)

section NewTaps

variable {coord : KCoord} {es : List Queued} {q : Queued}

theorem newTaps_cons_tap (h : pressOf coord q = true) :
    newTaps coord (q :: es) = newTaps coord es + 1 := by
  have hnot : (!otherPress coord q) = true := by
    rw [not_otherPress_of_pressOf h]
    rfl
  unfold newTaps
  simp only [List.takeWhile_cons, hnot, if_true]
  exact List.countP_cons_of_pos h

theorem newTaps_cons_other (h : otherPress coord q = true) : newTaps coord (q :: es) = 0 := by
  have hnot : (!otherPress coord q) = false := by
    rw [h]
    rfl
  unfold newTaps
  simp only [List.takeWhile_cons, hnot, Bool.false_eq_true, if_false, List.countP_nil]

theorem newTaps_cons_rest (h : pressOf coord q = false) (h' : otherPress coord q = false) :
    newTaps coord (q :: es) = newTaps coord es := by
  have hnot : (!otherPress coord q) = true := by
    rw [h']
    rfl
  unfold newTaps
  simp only [List.takeWhile_cons, hnot, if_true]
  exact List.countP_cons_of_neg (by rw [h]; exact Bool.false_ne_true)

/-- Without another key, all presses of the key count. -/
theorem newTaps_append :
    ∀ {queued : List Queued}, (∀ q ∈ queued, otherPress coord q = false) →
      newTaps coord (queued ++ es) = queued.countP (pressOf coord) + newTaps coord es
  | [], _ => (Nat.zero_add _).symm
  | q :: queued, h => by
    have hq : otherPress coord q = false := h q List.mem_cons_self
    have ih := newTaps_append fun q hq => h q (List.mem_cons_of_mem _ hq)
    rw [List.cons_append]
    cases hpress : pressOf coord q with
    | true =>
      rw [newTaps_cons_tap hpress, ih, List.countP_cons_of_pos hpress]
      omega
    | false =>
      rw [newTaps_cons_rest hpress hq, ih,
        List.countP_cons_of_neg (by rw [hpress]; exact Bool.false_ne_true)]

theorem newTaps_map_tickQd :
    ∀ es : List Queued, newTaps coord (es.map Queued.tickQd) = newTaps coord es
  | [] => rfl
  | q :: es => by
    have ih := newTaps_map_tickQd es
    rw [List.map_cons]
    cases hother : otherPress coord q with
    | true => rw [newTaps_cons_other (q := q.tickQd) hother, newTaps_cons_other hother]
    | false =>
      cases hpress : pressOf coord q with
      | true => rw [newTaps_cons_tap (q := q.tickQd) hpress, newTaps_cons_tap hpress, ih]
      | false =>
        rw [newTaps_cons_rest (q := q.tickQd) hpress hother, newTaps_cons_rest hpress hother, ih]

theorem newTaps_eq_countP (h : ∀ q ∈ es, otherPress coord q = false) :
    newTaps coord es = es.countP (pressOf coord) := by
  have happend : newTaps coord (es ++ []) = es.countP (pressOf coord) + newTaps coord [] :=
    newTaps_append h
  rw [List.append_nil] at happend
  exact happend

end NewTaps

/-! ## What a tap-dance is to do -/

/-- The queue in the tick after these events came. -/
def received (queue : Queue) (es : List Queued) : Queue :=
  (queue.extend es).map Queued.tickQd

/-- The number of taps and the queue when a tap-dance is decided. The events of each tick
are given; so far there were some taps, and so many ticks are left. -/
def TapDance.taps (td : TapDance (Action T)) (coord : KCoord) :
    Nat → Nat → Queue → List (List Queued) → Option (Nat × Queue)
  | _, _, _, [] => none
  | taps, left, queue, es :: ticks =>
    if left ≤ 1 then some (taps, received queue es)
    else if es.any (otherPress coord) ∨ td.actions.length ≤ taps + newTaps coord es then
      some (taps + newTaps coord es, received queue es)
    else
      td.taps coord (taps + newTaps coord es)
        (if 0 < newTaps coord es then td.timeout else left - 1) (received queue es) ticks

/-- The queue without the presses that were counted, the first of which is not in it, and
without the releases between the taps. -/
def withoutTaps (coord : KCoord) (taps : Nat) (queued : List Queued) : List Queued :=
  eraseFirst (pressOf coord) (taps - 1) (eraseFirst (releaseOf coord) (taps - 1) queued)

/-! ## The code -/

namespace WaitingState

variable {w : WaitingState T} {td : TapDance (Action T)} {taps left : Nat} {queue : Queue}
  {es : List Queued}

theorem isCorrespondingPress_eq (w : WaitingState T) (q : Queued) :
    w.isCorrespondingPress q.event = pressOf w.coord q := by
  unfold isCorrespondingPress pressOf
  rw [Bool.eq_iff_iff]
  cases q.event <;> simp [Prod.ext_iff]

theorem isCorrespondingRelease_eq (w : WaitingState T) (q : Queued) :
    w.isCorrespondingRelease q.event = releaseOf w.coord q := by
  unfold isCorrespondingRelease releaseOf
  rw [Bool.eq_iff_iff]
  cases q.event <;> simp [Prod.ext_iff]

theorem countTaps_eq :
    ∀ (queued : List Queued) (count : Nat), w.countTaps queued count =
      (count + newTaps w.coord queued, queued.any (otherPress w.coord))
  | [], count => rfl
  | q :: queued, count => by
    have ih := countTaps_eq queued
    unfold countTaps
    rw [isCorrespondingPress_eq]
    cases hpress : pressOf w.coord q with
    | true =>
      rw [if_pos rfl, ih, newTaps_cons_tap hpress, List.any_cons,
        not_otherPress_of_pressOf hpress, Bool.false_or, Nat.add_right_comm, Nat.add_assoc]
    | false =>
      have hother : otherPress w.coord q = q.event.isPress := by
        unfold otherPress
        rw [hpress, Bool.not_false, Bool.and_true]
      rw [if_neg Bool.false_ne_true]
      cases hq : q.event.isPress with
      | true =>
        rw [hq] at hother
        rw [if_pos rfl, newTaps_cons_other hother, List.any_cons, hother, Bool.true_or,
          Nat.add_zero]
      | false =>
        rw [hq] at hother
        rw [if_neg Bool.false_ne_true, ih, newTaps_cons_rest hpress hother, List.any_cons, hother,
          Bool.false_or]

/-- The eviction takes the first releases, and every press. -/
theorem evictSameCoordEvents_eq :
    ∀ (n : Nat) (queued : List Queued), w.evictSameCoordEvents n queued =
      (eraseFirst (releaseOf w.coord) n queued).filter fun q => !pressOf w.coord q
  | n, [] => by
    rw [eraseFirst_nil]
    rfl
  | n, q :: queued => by
    unfold evictSameCoordEvents
    rw [isCorrespondingPress_eq, isCorrespondingRelease_eq]
    cases hrelease : releaseOf w.coord q with
    | true =>
      have hkeep : (!pressOf w.coord q) = true := by
        rw [not_pressOf_of_releaseOf hrelease]
        rfl
      rw [if_pos rfl]
      cases n with
      | zero =>
        rw [if_neg (Nat.lt_irrefl 0), evictSameCoordEvents_eq 0 queued, eraseFirst_zero,
          eraseFirst_zero]
        exact (List.filter_cons_of_pos (p := fun q => !pressOf w.coord q) hkeep).symm
      | succ n =>
        rw [if_pos (Nat.succ_pos n), eraseFirst_of_pos hrelease]
        exact evictSameCoordEvents_eq n queued
    | false =>
      rw [if_neg Bool.false_ne_true, eraseFirst_of_neg hrelease, evictSameCoordEvents_eq n queued]
      cases hpress : pressOf w.coord q with
      | true =>
        have hdrop : ¬ (!pressOf w.coord q) = true := by
          rw [hpress]
          exact Bool.false_ne_true
        rw [if_pos rfl]
        exact (List.filter_cons_of_neg (p := fun q => !pressOf w.coord q) hdrop).symm
      | false =>
        have hkeep : (!pressOf w.coord q) = true := by
          rw [hpress]
          rfl
        rw [if_neg Bool.false_ne_true]
        exact (List.filter_cons_of_pos (p := fun q => !pressOf w.coord q) hkeep).symm

/-- Only the presses that were counted are taken if and only if the queue has no others. -/
theorem evict_eq_withoutTaps_iff (w : WaitingState T) (taps : Nat) (queue : Queue) :
    (w.evict taps queue).items = withoutTaps w.coord taps queue.items ↔
      queue.items.countP (pressOf w.coord) ≤ taps - 1 := by
  have hdisj : ∀ q, releaseOf w.coord q = true → pressOf w.coord q = false := fun _ hq =>
    not_pressOf_of_releaseOf hq
  have hcount := countP_eraseFirst hdisj (taps - 1) queue.items
  show w.evictSameCoordEvents (taps - 1) queue.items = _ ↔ _
  rw [evictSameCoordEvents_eq, ← hcount]
  unfold withoutTaps
  rw [eq_comm]
  exact eraseFirst_eq_filter_iff

/-- What the code and the count of the taps have in common between two ticks. -/
structure Counts (td : TapDance (Action T)) (w : WaitingState T) (taps left : Nat)
    (queue : Queue) : Prop where
  config : w.config = .tapDance ⟨td.actions, td.timeout, taps⟩
  timeout : w.timeout = left
  taps_eq : taps = 1 + queue.items.countP (pressOf w.coord)
  alone : ∀ q ∈ queue.items, otherPress w.coord q = false
  looked : w.prevQueueLen = queueLenMax ∨
    w.prevQueueLen = queue.items.length ∧ taps < td.actions.length

theorem received_items (hroom : queue.items.length + es.length ≤ queueSize) :
    (received queue es).items = (queue.items ++ es).map Queued.tickQd := by
  unfold received
  rw [Bounded.map_items, Bounded.extend_items hroom]

theorem received_length (hroom : queue.items.length + es.length ≤ queueSize) :
    (received queue es).items.length = queue.items.length + es.length := by
  rw [received_items hroom, List.length_map, List.length_append]

/-- The state when a tick looks at the queue. -/
def aged (w : WaitingState T) : WaitingState T :=
  { w with timeout := w.timeout - 1, ticks := satAdd w.ticks 1 }

/-- Counting again counts what is new. -/
theorem Counts.countTaps (h : w.Counts td taps left queue)
    (hroom : queue.items.length + es.length ≤ queueSize) :
    w.aged.countTaps (received queue es).items 1 =
      (taps + newTaps w.coord es, es.any (otherPress w.coord)) := by
  have hany : (queue.items ++ es).any (otherPress w.coord) = es.any (otherPress w.coord) := by
    rw [List.any_append, List.any_eq_false.mpr fun q hq => by rw [h.alone q hq]; simp,
      Bool.false_or]
  have hold : ((queue.items ++ es).map Queued.tickQd).any (otherPress w.coord) =
      (queue.items ++ es).any (otherPress w.coord) := List.any_map
  rw [countTaps_eq, received_items hroom]
  show (1 + newTaps w.coord _, List.any _ (otherPress w.coord)) = _
  rw [newTaps_map_tickQd, newTaps_append h.alone, hold, hany, h.taps_eq, Nat.add_assoc]

/-- The decision of a tick, without the fast path. -/
theorem Counts.handleTapDance (h : w.Counts td taps left queue)
    (hroom : queue.items.length + es.length ≤ queueSize) :
    w.aged.handleTapDance taps td.actions.length (received queue es) =
      if left ≤ 1 then (some .tap, taps, w.aged.evict taps (received queue es))
      else if es.any (otherPress w.coord) ∨ td.actions.length ≤ taps + newTaps w.coord es then
        (some .tap, taps + newTaps w.coord es,
          w.aged.evict (taps + newTaps w.coord es) (received queue es))
      else (none, taps + newTaps w.coord es, received queue es) := by
  have htimeout : w.aged.timeout = left - 1 := congrArg (· - 1) h.timeout
  unfold WaitingState.handleTapDance
  by_cases hleft : left ≤ 1
  · -- the timeout is over
    have hzero : w.aged.timeout = 0 := by omega
    rw [if_neg (by omega), if_pos hzero, if_pos hleft]
  · rw [if_neg hleft]
    by_cases hfast : (received queue es).items.length = w.aged.prevQueueLen
    · -- nothing came, and there were too few taps before
      have hlooked : queue.items.length + es.length = w.prevQueueLen := by
        rw [← received_length hroom]
        exact hfast
      have hmax : queueLenMax = 255 ∧ queueSize = 32 := ⟨rfl, rfl⟩
      have hfew : es.length = 0 ∧ taps < td.actions.length := by
        rcases h.looked with hmax' | ⟨hlen, hfew⟩
        · omega
        · exact ⟨by omega, hfew⟩
      obtain rfl : es = [] := List.length_eq_zero_iff.mp hfew.1
      have hnone : newTaps w.coord [] = 0 := rfl
      have hundecided : ¬ (([] : List Queued).any (otherPress w.coord) = true ∨
          td.actions.length ≤ taps + newTaps w.coord []) := by
        rintro (hany | hle)
        · cases hany
        · omega
      rw [if_pos ⟨hfast, by omega⟩, if_neg hundecided, hnone, Nat.add_zero]
    · rw [if_neg (fun hboth => hfast hboth.1), if_neg (by omega), h.countTaps hroom]
      cases hany : es.any (otherPress w.coord) with
      | true => rw [if_pos (.inl rfl)]
      | false =>
        by_cases hle : td.actions.length ≤ taps + newTaps w.coord es
        · rw [if_pos (.inr hle)]
          exact if_pos hle
        · rw [if_neg (by rintro (hfalse | hle'); exacts [Bool.false_ne_true hfalse, hle hle'])]
          exact if_neg hle

/-- The first tick that decides, when these events come before each tick. What was in the
queue already comes with the first tick. -/
def tapDanceDecision (overflowChecks : Bool) :
    WaitingState T → Queue → List (List Queued) → Rust (Option (Ticked T))
  | _, _, [] => pure none
  | w, queue, es :: ticks => do
    let t ← w.tickWt overflowChecks (received queue es)
    if t.decision.isSome then pure (some t)
    else tapDanceDecision overflowChecks t.waiting t.queued ticks

end WaitingState

/-- The decision that is due to these taps: the action of their number or the last one, and
a queue without the taps. -/
def TapDance.Law (td : TapDance (Action T)) (coord : KCoord) (taps : Nat) (queue : Queue)
    (r : Rust (Option (Ticked T))) : Prop :=
  ∃ t a, r = pure (some t) ∧ td.actions[min taps td.actions.length - 1]? = some a ∧
    t.waiting.tap = a ∧ t.decision = some (.tap, none) ∧ t.actions = [] ∧
    t.queued.items = withoutTaps coord taps queue.items

/-- The code decides when a decision is due, and then it keeps to the law just if there is
an action and every press of the key in the queue was counted. -/
def TapDance.DecidesBy (td : TapDance (Action T)) (coord : KCoord) (due : Option (Nat × Queue))
    (r : Rust (Option (Ticked T))) : Prop :=
  due = none ∧ r = pure none ∨
    ∃ taps queue, due = some (taps, queue) ∧
      (td.Law coord taps queue r ↔
        td.actions ≠ [] ∧ queue.items.countP (pressOf coord) ≤ taps - 1)

namespace WaitingState

variable {w : WaitingState T} {td : TapDance (Action T)} {taps left : Nat} {queue : Queue}
  {es : List Queued} {overflowChecks : Bool}

theorem Counts.tickWt_eq (overflowChecks : Bool) (h : w.Counts td taps left queue)
    (queued : Queue) :
    w.tickWt overflowChecks queued =
      w.aged.tickTapDance ⟨td.actions, td.timeout, taps⟩ queued := by
  simp only [tickWt, aged, h.config]

/-- A tick that decides keeps to the law if there is an action and every press counts. -/
theorem decided_law_iff {queued : Queue} {taps' : Nat} (ticks : List (List Queued))
    (htick : w.tickWt overflowChecks (received queue es) =
      w.aged.tickTapDance ⟨td.actions, td.timeout, taps⟩ (received queue es))
    (hqueued : received queue es = queued)
    (hdecide : w.aged.handleTapDance taps td.actions.length queued =
      (some .tap, taps', w.aged.evict taps' queued)) :
    td.Law w.coord taps' queued (tapDanceDecision overflowChecks w queue (es :: ticks)) ↔
      td.actions ≠ [] ∧ queued.items.countP (pressOf w.coord) ≤ taps' - 1 := by
  subst hqueued
  unfold tapDanceDecision
  rw [htick]
  unfold tickTapDance
  dsimp only
  rw [hdecide]
  simp only [decidedTap, indexInto]
  cases haction : td.actions[min taps' td.actions.length - 1]? with
  | none =>
    -- an empty list of actions
    have hempty : td.actions = [] := by
      have hle := List.getElem?_eq_none_iff.mp haction
      exact List.length_eq_zero_iff.mp (by omega)
    constructor
    · rintro ⟨t, a, _, hsome, _⟩
      rw [haction] at hsome
      cases hsome
    · rintro ⟨hne, _⟩
      exact absurd hempty hne
  | some a =>
    have hne : td.actions ≠ [] := by
      intro hempty
      rw [hempty] at haction
      cases haction
    have hevict : (w.aged.evict taps' (received queue es)).items =
          withoutTaps w.coord taps' (received queue es).items ↔
        (received queue es).items.countP (pressOf w.coord) ≤ taps' - 1 :=
      evict_eq_withoutTaps_iff w.aged taps' (received queue es)
    rw [← hevict]
    constructor
    · rintro ⟨t, a', heq, _, _, _, _, hqueue⟩
      have ht := Option.some.inj (pure_eq_ok.mp heq)
      refine ⟨hne, ?_⟩
      rw [← hqueue, ← ht]
    · rintro ⟨_, hqueue⟩
      exact ⟨_, a, rfl, haction, rfl, rfl, rfl, hqueue⟩

theorem Counts.next (h : w.Counts td taps left queue)
    (hroom : queue.items.length + es.length ≤ queueSize)
    (halone : es.any (otherPress w.coord) = false)
    (hfew : taps + newTaps w.coord es < td.actions.length) (w' : WaitingState T)
    (hcoord : w'.coord = w.coord)
    (hconfig : w'.config = .tapDance ⟨td.actions, td.timeout, taps + newTaps w.coord es⟩)
    (hlen : w'.prevQueueLen = (received queue es).items.length) :
    w'.Counts td (taps + newTaps w.coord es) w'.timeout (received queue es) := by
  have hes : ∀ q ∈ es, otherPress w.coord q = false := fun q hq => by
    simpa using List.any_eq_false.mp halone q hq
  have hitems := received_items hroom
  constructor
  · exact hconfig
  · rfl
  · rw [hitems, List.countP_map, hcoord]
    show _ = 1 + (queue.items ++ es).countP (pressOf w.coord)
    rw [List.countP_append, newTaps_eq_countP hes, h.taps_eq]
    omega
  · intro q hq
    rw [hitems] at hq
    rcases List.mem_map.mp hq with ⟨q₀, hq₀, rfl⟩
    rw [hcoord]
    rcases List.mem_append.mp hq₀ with hold | hnew
    · exact h.alone q₀ hold
    · exact hes q₀ hnew
  · exact .inr ⟨hlen, hfew⟩

/-- The code against the count of the taps, for any number of ticks. -/
theorem Counts.law_iff :
    ∀ {ticks : List (List Queued)} {w : WaitingState T} {taps left : Nat} {queue : Queue},
      w.Counts td taps left queue → queue.items.length + ticks.flatten.length ≤ queueSize →
        td.DecidesBy w.coord (td.taps w.coord taps left queue ticks)
          (tapDanceDecision overflowChecks w queue ticks)
  | [], w, taps, left, queue, _, _ => .inl ⟨rfl, rfl⟩
  | es :: ticks, w, taps, left, queue, h, hroom => by
    rw [List.flatten_cons, List.length_append] at hroom
    have hroom' : queue.items.length + es.length ≤ queueSize := by omega
    have htick := h.tickWt_eq overflowChecks (received queue es)
    have hhandle := h.handleTapDance hroom'
    unfold TapDance.taps
    by_cases hleft : left ≤ 1
    · rw [if_pos hleft] at hhandle ⊢
      exact .inr ⟨_, _, rfl, decided_law_iff ticks htick rfl hhandle⟩
    · rw [if_neg hleft] at hhandle ⊢
      by_cases hdecide : es.any (otherPress w.coord) = true ∨
          td.actions.length ≤ taps + newTaps w.coord es
      · rw [if_pos hdecide] at hhandle ⊢
        exact .inr ⟨_, _, rfl, decided_law_iff ticks htick rfl hhandle⟩
      · rw [if_neg hdecide] at hhandle ⊢
        have halone : es.any (otherPress w.coord) = false := by
          cases hany : es.any (otherPress w.coord) with
          | true => exact absurd (.inl hany) hdecide
          | false => rfl
        have hfew : taps + newTaps w.coord es < td.actions.length :=
          Nat.lt_of_not_le fun hle => hdecide (.inr hle)
        -- the state goes on with the new count
        let w' : WaitingState T := { w.aged with
          prevQueueLen := (received queue es).items.length
          timeout := if taps + newTaps w.coord es > taps then td.timeout else w.aged.timeout
          config := .tapDance ⟨td.actions, td.timeout, taps + newTaps w.coord es⟩ }
        have hrun : tapDanceDecision overflowChecks w queue (es :: ticks) =
            tapDanceDecision overflowChecks w' (received queue es) ticks := by
          conv_lhs => unfold tapDanceDecision
          rw [htick]
          unfold tickTapDance
          dsimp only
          rw [hhandle]
          rfl
        have htimeout : w'.timeout = if 0 < newTaps w.coord es then td.timeout else left - 1 := by
          have hleft' : w.aged.timeout = left - 1 := congrArg (· - 1) h.timeout
          show (if taps + newTaps w.coord es > taps then td.timeout else w.aged.timeout) = _
          rw [hleft']
          exact if_congr (by omega) rfl rfl
        have hnext := h.next hroom' halone hfew w' rfl rfl rfl
        rw [htimeout] at hnext
        have hlen := received_length hroom'
        rw [hrun]
        exact law_iff hnext (by omega)

end WaitingState

/-! ## The law -/

open WaitingState

/-- The state that a lazy tap-dance waits in. -/
def tapDanceWaiting (td : TapDance (Action T)) (call : Call T) (id : Nat) : WaitingState T :=
  Layout.undecidedWaiting (.tapDance ⟨td.actions, td.timeout, 1⟩) td.timeout call id

theorem doLazyTapDance_waiting (s : Layout T) (call : Call T) (td : TapDance (Action T)) :
    (s.doLazyTapDance call td).waiting = some (tapDanceWaiting td call s.created) := by
  unfold Layout.doLazyTapDance
  rw [Layout.setWaiting_eq]
  rfl

/-- For every tap-dance and all events that come before its ticks: nothing is decided before
a decision is due, and then the law holds if and only if there is an action and no press of
the key is in the queue that was not counted. -/
theorem tap_dance_law (td : TapDance (Action T)) (call : Call T) (id : Nat)
    (overflowChecks : Bool) {ticks : List (List Queued)}
    (hroom : ticks.flatten.length ≤ queueSize) :
    let due := td.taps call.coord 1 td.timeout .empty ticks
    let decision := tapDanceDecision overflowChecks (tapDanceWaiting td call id) .empty ticks
    (due = none → decision = pure none) ∧
      ∀ taps queue, due = some (taps, queue) →
        (td.Law call.coord taps queue decision ↔
          td.actions ≠ [] ∧ queue.items.countP (pressOf call.coord) ≤ taps - 1) := by
  intro due decision
  have hstart : (tapDanceWaiting td call id).Counts td 1 td.timeout .empty := by
    constructor
    · rfl
    · rfl
    · rfl
    · intro q hq
      cases hq
    · exact .inl rfl
  have hdecides : td.DecidesBy call.coord due decision :=
    hstart.law_iff (Nat.le_trans (Nat.le_of_eq (Nat.zero_add _)) hroom)
  rcases hdecides with ⟨hdue, hnone⟩ | ⟨taps, queue, hdue, hlaw⟩
  · constructor
    · exact fun _ => hnone
    · intro taps queue hsome
      rw [hdue] at hsome
      cases hsome
  · constructor
    · intro hnone
      rw [hdue] at hnone
      cases hnone
    · intro taps' queue' hsome
      rw [hdue] at hsome
      obtain ⟨rfl, rfl⟩ := Prod.mk.inj (Option.some.inj hsome)
      exact hlaw

/-! ## A tap-dance of two actions -/

def twoTaps : TapDance (Action Nat) := ⟨[.custom 1, .custom 2], 3, .lazy⟩

def twoTapsCall : Call Nat := ⟨.noOp, (0, 1), 0, false, []⟩

/-- The events of two taps. -/
def tappedTwice : List (List Queued) := [[.newRelease 0 1], [.newPress 0 1]]

theorem tappedTwice_fits : tappedTwice.flatten.length ≤ queueSize := by
  decide

theorem tap_dance_law_twice :
    ∃ queue, twoTaps.taps (0, 1) 1 3 .empty tappedTwice = some (2, queue) ∧
      twoTaps.Law (0, 1) 2 queue
        (tapDanceDecision true (tapDanceWaiting twoTaps twoTapsCall 0) .empty tappedTwice) := by
  have hdue : twoTaps.taps (0, 1) 1 3 .empty tappedTwice =
      some (2, .ofTake _ [⟨.release 0 1, 2, none⟩, ⟨.press 0 1, 1, none⟩]) := by
    decide
  have hlaw := (tap_dance_law twoTaps twoTapsCall 0 true tappedTwice_fits).2 2 _ hdue
  exact ⟨_, hdue, hlaw.mpr ⟨List.cons_ne_nil _ _, by decide⟩⟩

/-- The key is pressed again in the tick in which the timeout is over: the press is not
counted, and it is lost. -/
theorem tap_dance_law_fails :
    let ticks := [[.newRelease 0 1], [], [.newPress 0 1]]
    let queue := .ofTake _ [⟨.release 0 1, 3, none⟩, ⟨.press 0 1, 1, none⟩]
    let decision := tapDanceDecision true (tapDanceWaiting twoTaps twoTapsCall 0) .empty ticks
    twoTaps.taps (0, 1) 1 3 .empty ticks = some (1, queue) ∧
      (∃ t, decision = .ok (some t) ∧ t.queued.items = [⟨.release 0 1, 3, none⟩]) ∧
      ¬ twoTaps.Law (0, 1) 1 queue decision := by
  intro ticks queue decision
  have hrun : ∃ o, decision = .ok o ∧
      (o.map fun t => t.queued.items) = some [⟨.release 0 1, 3, none⟩] :=
    exists_ok_of_check (by decide)
  rcases hrun with ⟨o, hrun, hqueued⟩
  rcases Option.map_eq_some_iff.mp hqueued with ⟨t, rfl, hitems⟩
  refine ⟨by decide, ⟨t, hrun, hitems⟩, ?_⟩
  rintro ⟨t', a, heq, _, _, _, _, hqueue⟩
  rw [hrun] at heq
  obtain rfl := Option.some.inj (pure_eq_ok.mp heq.symm)
  rw [hitems] at hqueue
  exact absurd hqueue (by decide)

end Kanata
