import Kanata.HoldTap.Completion
import Kanata.Parser.CustomTapHold
import Kanata.Keyberon.Layout

/-!
# Kanata.HoldTap.Batching — a hold-tap decided at once or event by event

The events that follow the press of a hold-tap key may all be queued when the key
is evaluated for the first time, because it waited behind another decision or
because they came in one tick; or they may come one per tick. `firstDecision` is
the decision of the waiting state in either case, `decision_batching` says when
the two agree.
-/

namespace Kanata

open Incremental

variable {C R T : Type}

/-! ## The modes -/

/-- The modes of a hold-tap key that the parser can build. -/
inductive HoldTapMode where
  | default
  | holdOnOtherKeyPress
  | permissiveHold
  | order (buffer : Nat)
  | custom (c : CustomTapHold)

namespace HoldTapMode

def config : HoldTapMode → HoldTapConfig
  | .default => .default
  | .holdOnOtherKeyPress => .holdOnOtherKeyPress
  | .permissiveHold => .permissiveHold
  | .order buffer => .order buffer
  | .custom c => c.config

/-- What the mode does at a press, for a waiting key at column `col`. `pressTick`
is the age of the waiting state at the press, which only `Order` looks at. -/
def rule (mode : HoldTapMode) (col pressTick : Nat) (e : Event) : PressRule :=
  match mode with
  | .default => .pass
  | .holdOnOtherKeyPress => .now .hold
  | .permissiveHold => .onRelease .hold
  | .order buffer => if pressTick < buffer then .pass else .onRelease .hold
  | .custom c => c.rule col e.coord.1 e.coord.2

def skipsTimeout : HoldTapMode → Scan → Bool
  | .custom c, scan => c.skipsTimeout scan
  | _, _ => false

def IsOrder : HoldTapMode → Prop
  | .order _ => True
  | _ => False

/-- The decision when the timeout is over and nothing decided before. -/
def atTimeout (mode : HoldTapMode) (xs : List Ruled) : Option WaitingAction :=
  if mode.skipsTimeout (scanRuled xs) then none else some .timeout

/-- Only a custom closure skips the timeout. -/
theorem not_isOrder_of_skips {mode : HoldTapMode} {scan : Scan}
    (h : mode.skipsTimeout scan = true) : ¬ mode.IsOrder := by
  cases mode with
  | custom c => exact id
  | default => cases h
  | holdOnOtherKeyPress => cases h
  | permissiveHold => cases h
  | order buffer => cases h

end HoldTapMode

namespace WaitingState

/-- The events of the queue with the rules of the mode. -/
def ruled (w : WaitingState T) (mode : HoldTapMode) (queued : List Queued) : List Ruled :=
  queued.map fun q => (q.event, mode.rule w.coord.2 (w.ticks - q.since) q.event)

end WaitingState

theorem scanRuled_pass : ∀ {xs : List Ruled}, (∀ x ∈ xs, x.2 = .pass) → scanRuled xs = .finished
  | [], _ => rfl
  | (e, rule) :: xs, h => by
    have hrule : rule = .pass := h _ List.mem_cons_self
    have ih : scanRuled xs = .finished :=
      scanRuled_pass fun x hx => h x (List.mem_cons_of_mem _ hx)
    subst hrule
    cases e with
    | press i j => exact ih
    | release i j => exact ih

theorem scanRuled_now {a : WaitingAction} :
    ∀ {xs : List Ruled}, (∀ x ∈ xs, x.2 = .now a) →
      (scanRuled xs).action = if xs.any (fun x => x.1.isPress) then some a else none
  | [], _ => rfl
  | (e, rule) :: xs, h => by
    have hrule : rule = .now a := h _ List.mem_cons_self
    have ih := scanRuled_now fun x hx => h x (List.mem_cons_of_mem _ hx)
    subst hrule
    cases e with
    | press i j => rfl
    | release i j => exact ih

namespace WaitingState

/-- Each mode is a loop over the presses with its rules. -/
theorem modeDecision_eq (w : WaitingState T) (mode : HoldTapMode) (queued : List Queued) :
    w.modeDecision mode.config queued =
      ((scanRuled (w.ruled mode queued)).action,
        mode.skipsTimeout (scanRuled (w.ruled mode queued))) := by
  cases mode with
  | default =>
    have hscan : scanRuled (w.ruled .default queued) = .finished := by
      refine scanRuled_pass ?_
      intro x hx
      rcases List.mem_map.mp hx with ⟨q, _, rfl⟩
      rfl
    rw [hscan]
    rfl
  | holdOnOtherKeyPress =>
    have hscan : (scanRuled (w.ruled .holdOnOtherKeyPress queued)).action =
        if queued.any (fun q => q.event.isPress) then some .hold else none := by
      rw [scanRuled_now (a := .hold)]
      · unfold ruled
        rw [List.any_map]
        rfl
      · intro x hx
        rcases List.mem_map.mp hx with ⟨q, _, rfl⟩
        rfl
    rw [hscan]
    rfl
  | permissiveHold =>
    unfold modeDecision HoldTapMode.config
    simp only [scanPresses_eq_scanRuled]
    rfl
  | order buffer =>
    unfold modeDecision HoldTapMode.config
    simp only [scanPresses_eq_scanRuled]
    rfl
  | custom c =>
    unfold modeDecision HoldTapMode.config CustomTapHold.config CustomTapHold.func
    simp only [scanPresses_eq_scanRuled]
    rfl

/-- The key's age counts for every event: as long as the event came in time, its
release is still worth a tap. -/
def OnTime (w : WaitingState T) (queued : List Queued) : Prop :=
  ∀ q ∈ queued, w.delay - q.since ≤ w.timeout

theorem isReleased_ruled (w : WaitingState T) (mode : HoldTapMode) (queued : List Queued) :
    isReleased w.coord (w.ruled mode queued) =
      queued.any fun q => w.isCorrespondingRelease q.event := by
  unfold isReleased ruled
  rw [List.any_map]
  congr 1
  funext q
  cases q with
  | mk e since origin =>
    cases e with
    | press i j => rfl
    | release i j =>
      unfold isCorrespondingRelease
      rw [Bool.eq_iff_iff]
      simp [Prod.ext_iff]

/-- The evaluation of a hold-tap key whose events all came in time. -/
theorem handleHoldTap_eq {w : WaitingState T} {mode : HoldTapMode} {queued : List Queued}
    (hreset : w.onPressResetTimeoutTo = none) (htime : w.OnTime queued) :
    w.handleHoldTap mode.config queued =
      if queued.length = w.prevQueueLen ∧ w.timeout > 0 then (w, none)
      else ({ w with prevQueueLen := queued.length },
        (resolve w.coord (w.ruled mode queued)).or
          (if w.timeout = 0 then mode.atTimeout (w.ruled mode queued) else none)) := by
  have hresetTimeout : w.resetTimeout queued = w := by
    unfold resetTimeout
    rw [hreset]
  unfold handleHoldTap
  rw [hresetTimeout]
  by_cases hfast : queued.length = w.prevQueueLen ∧ w.timeout > 0
  · rw [if_pos hfast, if_pos hfast]
  · rw [if_neg hfast, if_neg hfast]
    have hmode : ({ w with prevQueueLen := queued.length } : WaitingState T).modeDecision
        mode.config queued = ((scanRuled (w.ruled mode queued)).action,
          mode.skipsTimeout (scanRuled (w.ruled mode queued))) :=
      ({ w with prevQueueLen := queued.length } : WaitingState T).modeDecision_eq mode queued
    simp only [hmode]
    unfold resolve
    cases haction : (scanRuled (w.ruled mode queued)).action with
    | some a => rfl
    | none =>
      simp only
      rw [isReleased_ruled]
      unfold releaseOrTimeout
      cases hfind : queued.find? fun s =>
          ({ w with prevQueueLen := queued.length } : WaitingState T).isCorrespondingRelease
            s.event with
      | some q =>
        have hany : (queued.any fun q => w.isCorrespondingRelease q.event) = true := by
          have hq := List.find?_some hfind
          rw [List.any_eq_true]
          exact ⟨q, List.mem_of_find?_eq_some hfind, hq⟩
        have hle : w.timeout ≥ w.delay - q.since := htime q (List.mem_of_find?_eq_some hfind)
        simp only [hany, if_true]
        rw [if_pos hle]
        rfl
      | none =>
        have hany : (queued.any fun q => w.isCorrespondingRelease q.event) = false := by
          rw [List.any_eq_false]
          exact List.find?_eq_none.mp hfind
        simp only [hany, Bool.false_eq_true, if_false, Option.none_or]
        unfold HoldTapMode.atTimeout
        cases mode.skipsTimeout (scanRuled (w.ruled mode queued)) with
        | true => simp
        | false => simp

end WaitingState

/-! ## The ticks of a waiting key -/

/-- An event that comes before a tick joins the queue. -/
def arrive (queue : Queue) : Option Event → Queue
  | some event => (queue.pushBack ⟨event, 0, none⟩).1
  | none => queue

/-- The first decision of a waiting state. Before each tick an event may come;
then the queue ages and the state is ticked, as in a tick of the layout. -/
def firstDecision (overflowChecks : Bool) :
    WaitingState T → Queue → List (Option Event) → Rust (Option WaitingAction)
  | _, _, [] => pure none
  | w, queue, e :: es => do
    let t ← w.tickWt overflowChecks ((arrive queue e).map Queued.tickQd)
    match t.decision with
    | some (a, _) => pure (some a)
    | none => firstDecision overflowChecks t.waiting t.queued es

namespace WaitingState

/-- A hold-tap key of a mode that waits, without a timeout reset. -/
structure Waits (mode : HoldTapMode) (w : WaitingState T) : Prop where
  config : w.config = .holdTap mode.config
  noReset : w.onPressResetTimeoutTo = none
  delay_le : w.delay ≤ u16Max
  /-- The ticks of `Order` do not saturate before the timeout. -/
  ticks_le : mode.IsOrder → w.ticks + max w.timeout 1 ≤ u16Max

variable {mode : HoldTapMode} {w : WaitingState T} {queue : Queue}

def older (w : WaitingState T) : WaitingState T :=
  { w with timeout := w.timeout - 1, ticks := satAdd w.ticks 1 }

theorem OnTime.tick (h : w.OnTime queue.items) (hdelay : w.delay ≤ u16Max) :
    w.older.OnTime (queue.map Queued.tickQd).items := by
  intro q hq
  rcases List.mem_map.mp hq with ⟨q₀, hq₀, rfl⟩
  have hle := h q₀ hq₀
  simp only [older, Queued.tickQd, satAdd]
  omega

/-- What the mode does at an event does not change while it waits. -/
theorem ruled_tick (h : w.Waits mode) :
    w.older.ruled mode (queue.map Queued.tickQd).items = w.ruled mode queue.items := by
  unfold ruled
  rw [Bounded.map_items, List.map_map]
  refine List.map_congr_left ?_
  intro q _
  simp only [Function.comp_def, Queued.tickQd_event, older]
  cases mode with
  | order buffer =>
    have hticks := h.ticks_le trivial
    have hage : satAdd w.ticks 1 - q.tickQd.since = w.ticks - q.since := by
      simp only [Queued.tickQd, satAdd]
      omega
    rw [hage]
  | default => rfl
  | holdOnOtherKeyPress => rfl
  | permissiveHold => rfl
  | custom c => rfl

/-- What a tick without a decision leaves. -/
structure TickedTo (w w' : WaitingState T) (queue : Queue) : Prop where
  config : w'.config = w.config
  noReset : w'.onPressResetTimeoutTo = w.onPressResetTimeoutTo
  delay : w'.delay = w.delay
  coord : w'.coord = w.coord
  timeout : w'.timeout = w.timeout - 1
  ticks : w'.ticks = satAdd w.ticks 1
  seen : w'.prevQueueLen = queue.items.length

theorem tickWt_of_config {overflowChecks : Bool} {cfg : HoldTapConfig} {queue : Queue}
    (h : w.config = .holdTap cfg) :
    w.tickWt overflowChecks queue =
      pure ⟨(w.older.handleHoldTap cfg queue.items).1, queue, [],
        (w.older.handleHoldTap cfg queue.items).2.map fun a => (a, none)⟩ := by
  cases w with
  | mk coord timeout reset delay ticks hold tap timeoutAction config layerStack len id =>
    simp only at h
    subst h
    rfl

/-- One tick: the queue is not looked at again when nothing came, else the events
decide, or the timeout does. -/
theorem tickWt_holdTap (overflowChecks : Bool) (h : w.Waits mode) (htime : w.OnTime queue.items) :
    ∃ w', w.TickedTo w' queue ∧
      w.tickWt overflowChecks (queue.map Queued.tickQd) =
        pure ⟨w', queue.map Queued.tickQd, [],
          (if queue.items.length = w.prevQueueLen ∧ w.timeout - 1 > 0 then none
            else (resolve w.coord (w.ruled mode queue.items)).or
              (if w.timeout - 1 = 0 then mode.atTimeout (w.ruled mode queue.items)
                else none)).map fun a => (a, none)⟩ := by
  have heval := @handleHoldTap_eq T w.older mode _ h.noReset (htime.tick h.delay_le)
  have hlen : (queue.map Queued.tickQd).items.length = queue.items.length := by
    rw [Bounded.map_items, List.length_map]
  rw [ruled_tick h, hlen] at heval
  rw [tickWt_of_config h.config, heval]
  by_cases hfast : queue.items.length = w.prevQueueLen ∧ w.timeout - 1 > 0
  · refine ⟨w.older, ⟨rfl, rfl, rfl, rfl, rfl, rfl, hfast.1.symm⟩, ?_⟩
    have hfast' : queue.items.length = w.older.prevQueueLen ∧ w.older.timeout > 0 := hfast
    rw [if_pos hfast, if_pos hfast']
  · refine ⟨{ w.older with prevQueueLen := queue.items.length },
      ⟨rfl, rfl, rfl, rfl, rfl, rfl, rfl⟩, ?_⟩
    have hfast' : ¬ (queue.items.length = w.older.prevQueueLen ∧ w.older.timeout > 0) := hfast
    rw [if_neg hfast, if_neg hfast']
    rfl

theorem TickedTo.ruled {w' : WaitingState T} (ht : w.TickedTo w' queue) (h : w.Waits mode) :
    w'.ruled mode (queue.map Queued.tickQd).items = w.ruled mode queue.items := by
  rw [← ruled_tick h]
  unfold WaitingState.ruled
  rw [ht.coord, ht.ticks]
  rfl

theorem TickedTo.onTime {w' : WaitingState T} (ht : w.TickedTo w' queue) (h : w.Waits mode)
    (htime : w.OnTime queue.items) : w'.OnTime (queue.map Queued.tickQd).items := by
  intro q hq
  rw [ht.delay, ht.timeout]
  exact htime.tick h.delay_le q hq

/-- Up to its last tick the key goes on waiting as before. -/
theorem TickedTo.waits {w' : WaitingState T} (ht : w.TickedTo w' queue) (h : w.Waits mode)
    (hleft : mode.IsOrder → 1 < w.timeout) : w'.Waits mode where
  config := by rw [ht.config, h.config]
  noReset := by rw [ht.noReset, h.noReset]
  delay_le := by rw [ht.delay]; exact h.delay_le
  ticks_le := by
    intro horder
    have hticks := h.ticks_le horder
    have hlt := hleft horder
    rw [ht.timeout, ht.ticks]
    unfold satAdd
    omega

/-- The rules of the events that come one per tick, from the age of the state at
the first of them on. -/
def deliveredRules (mode : HoldTapMode) (col : Nat) : Nat → List Event → List Ruled
  | _, [] => []
  | ticks, e :: es => (e, mode.rule col ticks e) :: deliveredRules mode col (ticks + 1) es

/-- Only `Order` looks at the age. -/
theorem deliveredRules_congr (col t t' : Nat) (hno : ¬ mode.IsOrder) :
    ∀ es : List Event, deliveredRules mode col t es = deliveredRules mode col t' es
  | [] => rfl
  | e :: es => by
    have hrule : mode.rule col t e = mode.rule col t' e := by
      cases mode with
      | order buffer => exact absurd trivial hno
      | default => rfl
      | holdOnOtherKeyPress => rfl
      | permissiveHold => rfl
      | custom c => rfl
    simp only [deliveredRules]
    rw [hrule, deliveredRules_congr col (t + 1) (t' + 1) hno es]

theorem TickedTo.delivered {w' : WaitingState T} (ht : w.TickedTo w' queue) (h : w.Waits mode)
    (es : List Event) :
    deliveredRules mode w'.coord.2 w'.ticks es =
      deliveredRules mode w.coord.2 (w.ticks + 1) es := by
  rw [ht.coord, ht.ticks]
  by_cases horder : mode.IsOrder
  · have hticks := h.ticks_le horder
    have hage : satAdd w.ticks 1 = w.ticks + 1 := by
      unfold satAdd
      omega
    rw [hage]
  · exact deliveredRules_congr _ _ _ horder es

/-- A timeout that gives no decision is one that the mode skips. -/
theorem not_isOrder_of_atTimeout {xs : List Ruled} (h : mode.atTimeout xs = none) :
    ¬ mode.IsOrder := by
  unfold HoldTapMode.atTimeout at h
  by_cases hskip : mode.skipsTimeout (scanRuled xs) = true
  · exact HoldTapMode.not_isOrder_of_skips hskip
  · rw [if_neg hskip] at h
    cases h

/-- Nothing more comes and nothing decides: the key waits for its timeout. -/
theorem firstDecision_idle (overflowChecks : Bool) :
    ∀ {m : Nat} {w : WaitingState T} {queue : Queue}, w.Waits mode → w.OnTime queue.items →
      w.timeout ≤ m → 0 < m → resolve w.coord (w.ruled mode queue.items) = none →
      firstDecision overflowChecks w queue (List.replicate m none) =
        pure (mode.atTimeout (w.ruled mode queue.items))
  | 0, _, _, _, _, _, hm, _ => absurd hm (Nat.lt_irrefl 0)
  | m + 1, w, queue, hw, htime, hle, _, hnone => by
    rcases tickWt_holdTap overflowChecks hw htime with ⟨w', ht, htick⟩
    rw [List.replicate_succ]
    simp only [firstDecision, arrive, htick, pure_bind, hnone, Option.none_or]
    have hruled := ht.ruled hw
    have hnone' : resolve w'.coord (w'.ruled mode (queue.map Queued.tickQd).items) = none := by
      rw [hruled, ht.coord]
      exact hnone
    by_cases hend : w.timeout - 1 = 0
    · have hslow : ¬ (queue.items.length = w.prevQueueLen ∧ w.timeout - 1 > 0) := by omega
      rw [if_neg hslow, if_pos hend]
      cases hat : mode.atTimeout (w.ruled mode queue.items) with
      | some a => rfl
      | none =>
        -- the mode skips the timeout, now and from here on
        cases m with
        | zero => rfl
        | succ m =>
          have hw' : w'.Waits mode := by
            refine ht.waits hw ?_
            intro horder
            exact absurd horder (not_isOrder_of_atTimeout hat)
          have ih := firstDecision_idle overflowChecks (m := m + 1) hw' (ht.onTime hw htime)
            (by rw [ht.timeout, hend]; exact Nat.zero_le _) (Nat.succ_pos m) hnone'
          rw [hruled, hat] at ih
          exact ih
    · have hw' : w'.Waits mode := by
        refine ht.waits hw ?_
        intro _
        omega
      have ih := firstDecision_idle overflowChecks (m := m) hw' (ht.onTime hw htime)
        (by rw [ht.timeout]; omega) (by omega) hnone'
      rw [hruled] at ih
      rw [if_neg hend, ite_self]
      exact ih

/-- The events come one per tick, then nothing more does: the first of them that
decides is the one that counts. -/
theorem firstDecision_delivered (overflowChecks : Bool) {m : Nat} :
    ∀ (es : List Event) {w : WaitingState T} (queue : Queue), w.Waits mode →
      w.OnTime queue.items → w.delay + es.length ≤ w.timeout → w.timeout < m →
      queue.items.length + es.length ≤ queueSize →
      (w.prevQueueLen = queue.items.length ∨ w.prevQueueLen = queueLenMax) →
      resolve w.coord (w.ruled mode queue.items) = none →
      firstDecision overflowChecks w queue (es.map some ++ List.replicate m none) =
        pure ((firstOf (resolve w.coord) (w.ruled mode queue.items)
            (deliveredRules mode w.coord.2 w.ticks es)).or
          (mode.atTimeout
            (w.ruled mode queue.items ++ deliveredRules mode w.coord.2 w.ticks es)))
  | [], w, queue, hw, htime, _, hm, _, _, hnone => by
    simp only [List.map_nil, List.nil_append, deliveredRules, List.append_nil]
    exact firstDecision_idle overflowChecks hw htime (Nat.le_of_lt hm) (by omega) hnone
  | e :: es, w, queue, hw, htime, htimeout, hm, hroom, hseen, _ => by
    rw [List.length_cons] at htimeout hroom
    have harrive : (arrive queue (some e)).items = queue.items ++ [⟨e, 0, none⟩] :=
      (Bounded.pushBack_of_lt (by omega) _).1
    have hlen : (arrive queue (some e)).items.length = queue.items.length + 1 := by
      rw [harrive, List.length_append]
      rfl
    have htime' : w.OnTime (arrive queue (some e)).items := by
      intro q hq
      rw [harrive] at hq
      rcases List.mem_append.mp hq with hq | hq
      · exact htime q hq
      · rcases List.mem_singleton.mp hq with rfl
        simp only
        omega
    have hrule : w.ruled mode (arrive queue (some e)).items =
        w.ruled mode queue.items ++ [(e, mode.rule w.coord.2 w.ticks e)] := by
      rw [harrive]
      unfold ruled
      rw [List.map_append]
      rfl
    rcases tickWt_holdTap overflowChecks hw htime' with ⟨w', ht, htick⟩
    have hslow : ¬ ((arrive queue (some e)).items.length = w.prevQueueLen ∧
        w.timeout - 1 > 0) := by
      rintro ⟨heq, _⟩
      rw [hlen] at heq
      have : queueLenMax = 255 ∧ queueSize = 32 := ⟨rfl, rfl⟩
      omega
    rw [List.map_cons, List.cons_append]
    simp only [firstDecision, htick, pure_bind, deliveredRules]
    rw [if_neg hslow, hrule]
    cases hres : resolve w.coord (w.ruled mode queue.items ++ [(e, mode.rule w.coord.2 w.ticks e)])
      with
    | some b =>
      rw [firstOf_cons_of_some hres]
      rfl
    | none =>
      rw [firstOf_cons_of_none hres,
        List.append_cons (w.ruled mode queue.items) _
          (deliveredRules mode w.coord.2 (w.ticks + 1) es)]
      -- the rest is delivered to the state after the tick
      have hrest : w'.Waits mode →
          firstDecision overflowChecks w' ((arrive queue (some e)).map Queued.tickQd)
              (es.map some ++ List.replicate m none) =
            pure ((firstOf (resolve w.coord)
                (w.ruled mode queue.items ++ [(e, mode.rule w.coord.2 w.ticks e)])
                (deliveredRules mode w.coord.2 (w.ticks + 1) es)).or
              (mode.atTimeout (w.ruled mode queue.items ++ [(e, mode.rule w.coord.2 w.ticks e)] ++
                deliveredRules mode w.coord.2 (w.ticks + 1) es))) := by
        intro hw'
        have hlen' : ((arrive queue (some e)).map Queued.tickQd).items.length =
            queue.items.length + 1 := by
          rw [Bounded.map_items, List.length_map, hlen]
        have ih := firstDecision_delivered overflowChecks (m := m) es _ hw'
          (ht.onTime hw htime')
          (by rw [ht.delay, ht.timeout]; omega) (by rw [ht.timeout]; omega)
          (by rw [hlen']; omega) (.inl (by rw [ht.seen, hlen', hlen]))
          (by rw [ht.ruled hw, ht.coord, hrule]; exact hres)
        rw [ht.delivered hw, ht.ruled hw, ht.coord, hrule] at ih
        exact ih
      by_cases hend : w.timeout - 1 = 0
      · -- the timeout is over with the last event
        have hnil : es = [] := List.length_eq_zero_iff.mp (by omega)
        subst hnil
        rw [if_pos hend]
        simp only [deliveredRules, List.append_nil, firstOf, Option.none_or] at hrest ⊢
        cases hat : mode.atTimeout
            (w.ruled mode queue.items ++ [(e, mode.rule w.coord.2 w.ticks e)]) with
        | some a => rfl
        | none =>
          rw [hat] at hrest
          refine hrest (ht.waits hw ?_)
          intro horder
          exact absurd horder (not_isOrder_of_atTimeout hat)
      · rw [if_neg hend]
        refine hrest (ht.waits hw ?_)
        intro _
        omega

end WaitingState

/-! ## Batched and delivered -/

/-- When batching plays no role.

For `Order` the buffer is measured from the first evaluation on, so a press may be
in it in one case and out of it in the other: some press outside the buffer is
released in the batch exactly if some press outside the buffer is released in the
delivery, no later than the key itself. In every other mode no press is
overtaken. -/
def HoldTapMode.HoldsWhen (mode : HoldTapMode) (own : KCoord) (batched delivered : List Ruled) :
    Prop :=
  match mode with
  | .order _ =>
    (∃ i k a, Completes batched i k a) ↔
      ∃ i k a, Completes delivered i k a ∧ ∀ m < k, ¬ ReleasedAt own delivered m
  | _ => ¬ Overtaken own batched

/-- The first decision when the whole queue is there from the first tick on. -/
def batchedDecision (overflowChecks : Bool) (w : WaitingState T) (queue : Queue) :
    Rust (Option WaitingAction) :=
  firstDecision overflowChecks w queue (List.replicate (w.timeout + 1) none)

/-- The first decision when the events come one per tick. -/
def deliveredDecision (overflowChecks : Bool) (w : WaitingState T) (es : List Event) :
    Rust (Option WaitingAction) :=
  firstDecision overflowChecks w .empty (es.map some ++ List.replicate (w.timeout + 1) none)

section Decision

variable {overflowChecks quick : Bool} {ht : HoldTapAction (Action T)} {mode : HoldTapMode}
  {coord : KCoord} {delay id : Nat} {layerStack : List Nat}

open Layout (holdTapWaiting)
open WaitingState

theorem holdTapWaiting_waits (hcfg : ht.config = mode.config)
    (hreset : ht.onPressResetTimeoutTo = none) (hdelay : delay ≤ u16Max) :
    (holdTapWaiting quick ht coord delay layerStack id).Waits mode where
  config := congrArg WaitingConfig.holdTap hcfg
  noReset := hreset
  delay_le := by
    unfold holdTapWaiting
    simp only
    omega
  ticks_le := by
    intro _
    have hle := ht.timeout_le
    have hmax : u16Max = 65535 := rfl
    unfold holdTapWaiting
    cases quick with
    | true =>
      simp only [if_true]
      omega
    | false =>
      simp only [Bool.false_eq_true, if_false]
      omega

/-- What was in time for the key is in time for its waiting state. -/
theorem holdTapWaiting_onTime {n : Nat} (h : delay - n ≤ ht.timeout) :
    (holdTapWaiting quick ht coord delay layerStack id).delay - n ≤
      (holdTapWaiting quick ht coord delay layerStack id).timeout := by
  unfold holdTapWaiting
  cases quick with
  | true =>
    simp only [if_true]
    omega
  | false =>
    simp only [Bool.false_eq_true, if_false]
    omega

theorem holdTapWaiting_room {n : Nat} (h : delay + n ≤ ht.timeout) :
    (holdTapWaiting quick ht coord delay layerStack id).delay + n ≤
      (holdTapWaiting quick ht coord delay layerStack id).timeout := by
  unfold holdTapWaiting
  cases quick with
  | true =>
    simp only [if_true]
    omega
  | false =>
    simp only [Bool.false_eq_true, if_false]
    omega

/-- What the events of the queue decide, then the timeout. -/
theorem batchedDecision_eq {w : WaitingState T} {queue : Queue} (hw : w.Waits mode)
    (htime : w.OnTime queue.items) (hseen : w.prevQueueLen = queueLenMax) :
    batchedDecision overflowChecks w queue =
      pure ((resolve w.coord (w.ruled mode queue.items)).or
        (mode.atTimeout (w.ruled mode queue.items))) := by
  cases hres : resolve w.coord (w.ruled mode queue.items) with
  | none => exact firstDecision_idle overflowChecks hw htime (Nat.le_succ _) (Nat.succ_pos _) hres
  | some a =>
    rcases tickWt_holdTap overflowChecks hw htime with ⟨w', _, htick⟩
    have hslow : ¬ (queue.items.length = w.prevQueueLen ∧ w.timeout - 1 > 0) := by
      rintro ⟨heq, _⟩
      have hle := queue.length_le
      have hmax : queueLenMax = 255 ∧ queueSize = 32 := ⟨rfl, rfl⟩
      omega
    unfold batchedDecision
    rw [List.replicate_succ]
    simp only [firstDecision, arrive, htick, pure_bind, hres]
    rw [if_neg hslow]
    rfl

/-- What the first deciding event decides, then the timeout. -/
theorem deliveredDecision_eq {w : WaitingState T} {es : List Event} (hw : w.Waits mode)
    (hroom : w.delay + es.length ≤ w.timeout) (hlen : es.length ≤ queueSize)
    (hseen : w.prevQueueLen = queueLenMax) :
    deliveredDecision overflowChecks w es =
      pure ((firstOf (resolve w.coord) [] (deliveredRules mode w.coord.2 w.ticks es)).or
        (mode.atTimeout (deliveredRules mode w.coord.2 w.ticks es))) := by
  have hempty : w.OnTime (Bounded.empty : Queue).items := by
    intro q hq
    cases hq
  exact firstDecision_delivered overflowChecks es .empty hw hempty hroom
    (Nat.lt_succ_self _) (by simpa using hlen) (.inr hseen) rfl

/-- Outside `Order`, the events alone give the rules. -/
theorem ruled_eq_delivered (w w' : WaitingState T) (hno : ¬ mode.IsOrder)
    (hcoord : w.coord = w'.coord) :
    ∀ queued : List Queued, w.ruled mode queued =
      deliveredRules mode w'.coord.2 w'.ticks (queued.map fun q => q.event)
  | [] => rfl
  | q :: queued => by
    have ih := ruled_eq_delivered w w' hno hcoord queued
    have hage := deliveredRules_congr w'.coord.2 w'.ticks (w'.ticks + 1) hno
      (queued.map fun q => q.event)
    rw [List.map_cons, deliveredRules, ← hage, ← ih]
    unfold ruled
    rw [List.map_cons, hcoord]
    congr 2
    cases mode with
    | order buffer => exact absurd trivial hno
    | default => rfl
    | holdOnOtherKeyPress => rfl
    | permissiveHold => rfl
    | custom c => rfl

theorem agreeing_ruled {w : WaitingState T} {queued : List Queued} (hno : ¬ mode.IsOrder) :
    Agreeing (w.ruled mode queued) := by
  refine agreeing_of_rule (show ∀ x ∈ w.ruled mode queued, x.2 = mode.rule w.coord.2 0 x.1 from ?_)
  intro x hx
  rcases List.mem_map.mp hx with ⟨q, _, rfl⟩
  cases mode with
  | order buffer => exact absurd trivial hno
  | default => rfl
  | holdOnOtherKeyPress => rfl
  | permissiveHold => rfl
  | custom c => rfl

/-- A timeout does not blur a difference. -/
theorem or_eq_or_iff {α : Type} {a b t : Option α} (h : a = none ↔ b = none) :
    a.or t = b.or t ↔ a = b := by
  cases a with
  | none =>
    rw [h.mp rfl]
    exact iff_of_true rfl rfl
  | some x =>
    cases b with
    | none => exact absurd (h.mpr rfl) (Option.some_ne_none x)
    | some y => rfl

theorem order_rule (buffer col ticks : Nat) (e : Event) :
    (HoldTapMode.order buffer).rule col ticks e = .pass ∨
      (HoldTapMode.order buffer).rule col ticks e = .onRelease .hold := by
  unfold HoldTapMode.rule
  simp only
  split
  · exact .inl rfl
  · exact .inr rfl

theorem order_ruled (buffer : Nat) (w : WaitingState T) (queued : List Queued) :
    ∀ x ∈ w.ruled (.order buffer) queued, x.2 = .pass ∨ x.2 = .onRelease .hold := by
  intro x hx
  rcases List.mem_map.mp hx with ⟨q, _, rfl⟩
  exact order_rule buffer w.coord.2 (w.ticks - q.since) q.event

theorem order_delivered (buffer col : Nat) :
    ∀ (es : List Event) (ticks : Nat), ∀ x ∈ deliveredRules (.order buffer) col ticks es,
      x.2 = .pass ∨ x.2 = .onRelease .hold
  | [], _, x, hx => by cases hx
  | e :: es, ticks, x, hx => by
    rcases List.mem_cons.mp hx with rfl | hx
    · exact order_rule buffer col ticks e
    · exact order_delivered buffer col es (ticks + 1) x hx

theorem deliveredRules_events {col : Nat} :
    ∀ (es : List Event) (ticks : Nat), (deliveredRules mode col ticks es).map Prod.fst = es
  | [], _ => rfl
  | e :: es, ticks => congrArg (e :: ·) (deliveredRules_events es (ticks + 1))

theorem isReleased_congr {own : KCoord} {xs ys : List Ruled}
    (h : xs.map Prod.fst = ys.map Prod.fst) : isReleased own xs = isReleased own ys := by
  have hmap : ∀ zs : List Ruled,
      isReleased own zs = (zs.map Prod.fst).any fun e => e == .release own.1 own.2 := by
    intro zs
    rw [List.any_map]
    rfl
  rw [hmap, hmap, h]

/-- Two keys that are a hold, or a tap if they were released: whether they are a hold
is all that matters. -/
theorem or_timeout_eq_iff {a b : Option WaitingAction} {r r' : Bool} (hr : r = r')
    (ha : a ≠ some .hold → a = if r then some .tap else none)
    (hb : b ≠ some .hold → b = if r' then some .tap else none) :
    a.or (some .timeout) = b.or (some .timeout) ↔ (a = some .hold ↔ b = some .hold) := by
  subst hr
  by_cases hah : a = some .hold
  · by_cases hbh : b = some .hold
    · simp [hah, hbh]
    · rw [hah, hb hbh]
      cases r <;> simp
  · by_cases hbh : b = some .hold
    · rw [hbh, ha hah]
      cases r <;> simp
    · rw [ha hah, hb hbh]
      exact iff_of_true rfl Iff.rfl

/-- For every mode of a hold-tap key without a timeout reset and all events that
come before its timeout: the decision with all of them queued at the first
evaluation is the decision with one of them per tick exactly when no press is
overtaken and, for `Order`, the buffer makes no difference. -/
theorem decision_batching {delay' id' : Nat} {layerStack' : List Nat} {queue : Queue}
    (hcfg : ht.config = mode.config) (hreset : ht.onPressResetTimeoutTo = none)
    (hdelay : delay ≤ u16Max) (htime : ∀ q ∈ queue.items, delay - q.since ≤ ht.timeout)
    (hroom : delay' + queue.items.length ≤ ht.timeout) :
    let batched := holdTapWaiting quick ht coord delay layerStack id
    let delivered := holdTapWaiting quick ht coord delay' layerStack' id'
    let es := queue.items.map fun q => q.event
    batchedDecision overflowChecks batched queue = deliveredDecision overflowChecks delivered es ↔
      mode.HoldsWhen coord (batched.ruled mode queue.items)
        (deliveredRules mode coord.2 delivered.ticks es) := by
  intro batched delivered es
  have hlen : es.length = queue.items.length := List.length_map _
  have hdelay' : delay' ≤ u16Max := by
    have := ht.timeout_le
    omega
  have hbatched : batchedDecision overflowChecks batched queue = _ :=
    batchedDecision_eq (holdTapWaiting_waits hcfg hreset hdelay)
      (fun q hq => holdTapWaiting_onTime (htime q hq)) rfl
  have hdelivered : deliveredDecision overflowChecks delivered es = _ :=
    deliveredDecision_eq (holdTapWaiting_waits hcfg hreset hdelay')
      (holdTapWaiting_room (by omega)) (by rw [hlen]; exact queue.length_le) rfl
  rw [hbatched, hdelivered]
  change Except.ok _ = Except.ok _ ↔ _
  rw [Except.ok.injEq]
  change (resolve coord (batched.ruled mode queue.items)).or _ =
    (firstOf (resolve coord) [] (deliveredRules mode coord.2 delivered.ticks es)).or
      (mode.atTimeout (deliveredRules mode coord.2 delivered.ticks es)) ↔ _
  by_cases horder : mode.IsOrder
  · cases mode with
    | order buffer =>
      have hat : ∀ xs, (HoldTapMode.order buffer).atTimeout xs = some .timeout := by
        intro xs
        rfl
      have hrel : isReleased coord (batched.ruled (.order buffer) queue.items) =
          isReleased coord (deliveredRules (.order buffer) coord.2 delivered.ticks es) := by
        refine isReleased_congr ?_
        rw [deliveredRules_events]
        unfold ruled
        rw [List.map_map]
        rfl
      have hatOnce := resolve_of_hold coord (order_ruled buffer batched queue.items)
      have hinTurn := firstOf_of_hold coord (order_delivered buffer coord.2 es delivered.ticks)
      unfold HoldTapMode.HoldsWhen
      simp only
      rw [hat, hat, ← hatOnce.1, ← hinTurn.1]
      exact or_timeout_eq_iff hrel hatOnce.2 hinTurn.2
    | default => exact horder.elim
    | holdOnOtherKeyPress => exact horder.elim
    | permissiveHold => exact horder.elim
    | custom c => exact horder.elim
  · have hsame : batched.ruled mode queue.items = deliveredRules mode coord.2 delivered.ticks es :=
      ruled_eq_delivered batched delivered horder rfl queue.items
    have hagree : Agreeing (batched.ruled mode queue.items) := agreeing_ruled horder
    rw [← hsame, or_eq_or_iff firstOf_resolve_eq_none_iff.symm, resolve_eq_firstOf_iff hagree]
    cases mode with
    | order buffer => exact absurd trivial horder
    | default => rfl
    | holdOnOtherKeyPress => rfl
    | permissiveHold => rfl
    | custom c => rfl

end Decision

/-! ## A key that was released before -/

/-- `(tap-hold-press 200 200 a lctl)`, with the actions left out. -/
def tapHoldPress : HoldTapAction (Action Unit) where
  timeout := 200
  hold := .noOp
  tap := .noOp
  timeoutAction := .noOp
  config := .holdOnOtherKeyPress
  tapHoldInterval := 200
  onPressResetTimeoutTo := none
  requirePriorIdle := none
  timeout_le := twoHundred_le_u16Max

/-- The key itself is released, then another key is pressed. -/
def releasedThenOther : Queue := ⟨[⟨.release 0 30, 0, none⟩, ⟨.press 0 31, 0, none⟩], by decide⟩

/-- The other way round. -/
def otherThenReleased : Queue := ⟨[⟨.press 0 31, 0, none⟩, ⟨.release 0 30, 0, none⟩], by decide⟩

/-- When the other key comes first, the decision is the same: a hold. -/
theorem decision_batching_released :
    let w := Layout.holdTapWaiting false tapHoldPress (0, 30) 1 [] 0
    let es := otherThenReleased.items.map fun q => q.event
    batchedDecision true w otherThenReleased = pure (some .hold) ∧
      deliveredDecision true w es = pure (some .hold) := by
  intro w es
  have hbatching : batchedDecision true w otherThenReleased = deliveredDecision true w es ↔
      HoldTapMode.holdOnOtherKeyPress.HoldsWhen (0, 30)
        (w.ruled .holdOnOtherKeyPress otherThenReleased.items)
        (WaitingState.deliveredRules .holdOnOtherKeyPress 30 w.ticks es) :=
    decision_batching rfl rfl (by decide) (by decide) (by decide)
  have hsame : batchedDecision true w otherThenReleased = deliveredDecision true w es := by
    refine hbatching.mpr ?_
    -- the press is the first that decides; it is complete at once, and nothing comes before it
    rintro ⟨i, k, a, hcompletes, hfirst, m, hm, _⟩
    cases hcompletes with
    | now => exact Nat.not_lt_zero m hm
    | later _ _ => exact hfirst 0 (Nat.succ_pos _) 0 .hold .now
  have hbatched : batchedDecision true w otherThenReleased = pure (some .hold) := rfl
  exact ⟨hbatched, hsame.symm.trans hbatched⟩

/-- Queued together they make the key a hold; one per tick, a tap. -/
theorem decision_depends_on_batching :
    let w := Layout.holdTapWaiting false tapHoldPress (0, 30) 1 [] 0
    batchedDecision true w releasedThenOther = pure (some .hold) ∧
      deliveredDecision true w (releasedThenOther.items.map fun q => q.event) =
        pure (some .tap) ∧
      batchedDecision true w releasedThenOther ≠
        deliveredDecision true w (releasedThenOther.items.map fun q => q.event) := by
  intro w
  have hbatched : batchedDecision true w releasedThenOther = pure (some .hold) := rfl
  have hdelivered : deliveredDecision true w (releasedThenOther.items.map fun q => q.event) =
      pure (some .tap) := rfl
  refine ⟨hbatched, hdelivered, ?_⟩
  rw [hbatched, hdelivered]
  intro h
  cases h

end Kanata
