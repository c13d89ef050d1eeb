import Kanata.Layout.Follows
import Kanata.Layout.Pending
import Kanata.Waiting.FastPath

/-!
# Kanata.Layout.Looks — the decisions of a run, without the fast paths

The pending decisions of a layout share the queue, and each looks at it once in a tick
unless the queue is as long as at its last look. `stepFull` is the layout in which every look
is a full evaluation. A `Memory` has the events that each decision saw last: in a run in
which a queue of that length holds the same events, only older, the two do the same
(`fast_path_unobservable`). Another decision that takes out as many events as came in makes
them differ.
-/

namespace Kanata

open Fallible Machine

variable {C R : Nat} {T : Type}

namespace Layout

/-! ## A tick with other looks -/

section Look

variable (look : WaitingState T → Queue → Rust (Ticked T)) (cfg : LayoutConfig C R T)

/-- `tick` for the decision that waits, with the look as a parameter. -/
def tickWaitingWith (s : Layout T) : Rust (Layout T × CustomEvent T) :=
  match s.waiting with
  | some w => do
    let t ← look w s.queue
    decide cfg none t.decision ({ s with waiting := some t.waiting }.afterTickWt t)
  | none => s.tickWaiting cfg

/-- The loop over the other decisions. -/
def tickExtraWaitingsWith : Nat → Nat → Layout T →
    Rust (Layout T × Option (Nat × WaitingAction × Option PressedQueue))
  | 0, _, s => pure (s, none)
  | n + 1, i, s =>
    match s.extraWaiting.items[i]? with
    | none => pure (s, none)
    | some w => do
      let t ← look w s.queue
      let s := (s.setExtraWaiting i t.waiting).afterTickWt t
      match t.decision with
      | some (wa, pq) => pure (s, some (i, wa, pq))
      | none => tickExtraWaitingsWith n (i + 1) s

/-- `process_extra_waitings` with the look as a parameter. -/
def processExtraWaitingsWith (currentCustom : CustomEvent T) (s : Layout T) :
    Rust (Layout T × CustomEvent T) :=
  match currentCustom with
  | .noEvent => do
    let (s, decided) ← tickExtraWaitingsWith look s.extraWaiting.items.length 0 s
    match decided with
    | some (i, wa, pq) => decide cfg (some i) (some (wa, pq)) s
    | none => pure (s, .noEvent)
  | _ => pure (s, currentCustom)

/-- The part of a tick before the decisions look at the queue. -/
def beforeLooks (s : Layout T) : Rust (Layout T × CustomEvent T) :=
  releaseOneshots cfg (s.tickTimers.oneshot.tickOsh.2.getD []) .noEvent
    { s.tickTimers with oneshot := s.tickTimers.oneshot.tickOsh.1 }

/-- The part in which they do. -/
def tickLooksWith (custom : CustomEvent T) (s : Layout T) : Rust (Layout T × CustomEvent T) := do
  let (s, e) ← s.tickWaitingWith look cfg
  let (s, custom) := s.updateCustom custom e
  s.processExtraWaitingsWith look cfg custom

/-- The part of a tick past the action queue. -/
def tickMainWith (s : Layout T) : Rust (Layout T × CustomEvent T) := do
  let (s, custom) ← s.beforeLooks cfg
  let (s, custom) ← s.tickLooksWith look cfg custom
  pure (s.processSequenceCustom custom)

/-- `tick` with the look as a parameter. -/
def tickWith (s : Layout T) : Rust (Layout T × CustomEvent T) :=
  match s.customEventReleaseQueue.popFront with
  | (some released, customEventReleaseQueue) =>
    pure ({ s with customEventReleaseQueue }, .release released)
  | (none, _) => do
    let s ← s.tickChordsV2 cfg
    let s := { s with keysToSuppressForOneCycle := .empty }
    match s.actionQueue.popFront with
    | (some qa, actionQueue) => do
      let (s, custom, _) ← act cfg ⟨qa.action, qa.coord, qa.delay, false, qa.layerStack⟩ 0
        ({ s with actionQueue }.note (.actionTaken qa))
      pure (s, custom)
    | (none, _) => s.tickMainWith look cfg

/-- Only ticks look. -/
def stepWith (s : Layout T) : LayoutOp → Rust (Layout T × CustomEvent T)
  | .tick => s.tickWith look cfg
  | op => s.step cfg op

end Look

section Code

variable {cfg : LayoutConfig C R T}

/-- With the looks of the code it is the code. -/
theorem tickWaitingWith_tickWt (s : Layout T) :
    s.tickWaitingWith (WaitingState.tickWt cfg.overflowChecks) cfg = s.tickWaiting cfg := by
  unfold tickWaitingWith tickWaiting
  cases hw : s.waiting with
  | none => rfl
  | some w => rfl

/-- The same for the loop. -/
theorem tickExtraWaitingsWith_tickWt :
    ∀ (n i : Nat) (s : Layout T),
      tickExtraWaitingsWith (WaitingState.tickWt cfg.overflowChecks) n i s =
        tickExtraWaitings cfg n i s
  | 0, _, _ => rfl
  | n + 1, i, s => by
    unfold tickExtraWaitingsWith tickExtraWaitings
    cases s.extraWaiting.items[i]? with
    | none => rfl
    | some w =>
      refine bind_congr_ok fun t _ => ?_
      dsimp only
      rw [tickExtraWaitingsWith_tickWt n]
      rfl

/-- The same for the other decisions. -/
theorem processExtraWaitingsWith_tickWt (custom : CustomEvent T) (s : Layout T) :
    s.processExtraWaitingsWith (WaitingState.tickWt cfg.overflowChecks) cfg custom =
      s.processExtraWaitings cfg custom := by
  have h : tickExtraWaitingsWith (WaitingState.tickWt cfg.overflowChecks)
      s.extraWaiting.items.length 0 s = tickExtraWaitings cfg s.extraWaiting.items.length 0 s :=
    tickExtraWaitingsWith_tickWt _ 0 s
  cases custom with
  | noEvent => exact congrArg (· >>= _) h
  | press v => rfl
  | release v => rfl

/-- With the code's own looks it is the code's own step. -/
theorem stepWith_tickWt (s : Layout T) (op : LayoutOp) :
    s.stepWith (WaitingState.tickWt cfg.overflowChecks) cfg op = s.step cfg op := by
  have hmain : ∀ s : Layout T,
      s.tickMainWith (WaitingState.tickWt cfg.overflowChecks) cfg = s.tickMain cfg := by
    intro s
    unfold tickMainWith tickLooksWith
    simp only [tickWaitingWith_tickWt, processExtraWaitingsWith_tickWt, bind_assoc]
    rfl
  cases op with
  | tick =>
    unfold stepWith Layout.step tickWith
    simp only [hmain]
    rfl
  | _ => rfl

end Code

/-- A step of the layout without the fast paths. -/
def stepFull (cfg : LayoutConfig C R T) : Layout T → LayoutOp → Rust (Layout T × CustomEvent T) :=
  stepWith (WaitingState.tickWtFull cfg.overflowChecks) cfg

/-! ## The looks of a tick -/

section Looks

variable (cfg : LayoutConfig C R T)

/-- The look of the decision that waits, if there is one. -/
def waitingLooks (s : Layout T) : List (Look T) := s.waiting.toList.map fun w => ⟨w, s.queue⟩

/-- The decisions from index `i` on, until one falls. -/
def extraLooks : Nat → Nat → Layout T → List (Look T)
  | 0, _, _ => []
  | n + 1, i, s =>
    match s.extraWaiting.items[i]? with
    | none => []
    | some w =>
      ⟨w, s.queue⟩ ::
        match w.tickWt cfg.overflowChecks s.queue with
        | .error _ => []
        | .ok t =>
          match t.decision with
          | some _ => []
          | none => extraLooks n (i + 1) ((s.setExtraWaiting i t.waiting).afterTickWt t)

/-- The other decisions look only when nothing has happened in the tick. -/
def processLooks (custom : CustomEvent T) (s : Layout T) : List (Look T) :=
  match custom with
  | .noEvent => extraLooks cfg s.extraWaiting.items.length 0 s
  | _ => []

/-- The looks from the state on in which they start. -/
def looksFrom (custom : CustomEvent T) (s : Layout T) : List (Look T) :=
  s.waitingLooks ++
    match s.tickWaiting cfg with
    | .error _ => []
    | .ok (s, e) => processLooks cfg (s.updateCustom custom e).2 (s.updateCustom custom e).1

/-- One-shot keys end before the looks. -/
def mainLooks (s : Layout T) : List (Look T) :=
  match s.beforeLooks cfg with
  | .error _ => []
  | .ok (s, custom) => s.looksFrom cfg custom

/-- The looks of a step in their order; `none` for a step in which the queue gets no older. -/
def looks (s : Layout T) : LayoutOp → Option (List (Look T))
  | .tick =>
    match s.customEventReleaseQueue.popFront with
    | (some _, _) => none
    | (none, _) =>
      match s.tickChordsV2 cfg with
      | .error _ => none
      | .ok s =>
        match s.actionQueue.popFront with
        | (some _, _) => none
        | (none, _) => some (mainLooks cfg { s with keysToSuppressForOneCycle := .empty })
  | _ => none

end Looks

end Layout

/-! ## What the decisions have seen -/

/-- The events that the decision of a number saw last, as old as they are now. -/
abbrev Memory := Nat → Option (List Queued)

namespace Memory

/-- The last look of a decision takes the place of the ones before. -/
def see (m : Memory) (look : Look T) : Memory := fun id =>
  if id = look.waiting.id then some look.queue.items else m id

/-- Looks one after the other. -/
def sees (m : Memory) (looks : List (Look T)) : Memory := looks.foldl see m

@[simp] theorem see_self (m : Memory) (look : Look T) :
    m.see look look.waiting.id = some look.queue.items := if_pos rfl

theorem see_of_ne {m : Memory} {look : Look T} {id : Nat} (h : id ≠ look.waiting.id) :
    m.see look id = m id := if_neg h

/-- The looks of two parts of a tick. -/
theorem sees_append (m : Memory) (looks looks' : List (Look T)) :
    m.sees (looks ++ looks') = (m.sees looks).sees looks' := List.foldl_append

/-- A decision that was not looked at. -/
theorem sees_of_notMem {id : Nat} :
    ∀ {looks : List (Look T)} {m : Memory}, (∀ look ∈ looks, look.waiting.id ≠ id) →
      m.sees looks id = m id
  | [], _, _ => rfl
  | look :: looks, m, h => by
    have hrest : (m.see look).sees looks id = m.see look id :=
      sees_of_notMem fun look' hlook' => h look' (List.mem_cons_of_mem _ hlook')
    show (m.see look).sees looks id = m id
    rw [hrest, see_of_ne fun heq => h look List.mem_cons_self heq.symm]

/-- What is not remembered after some looks was not looked at. -/
theorem of_sees_eq_none {id : Nat} :
    ∀ {looks : List (Look T)} {m : Memory}, m.sees looks id = none → m id = none
  | [], _, h => h
  | look :: looks, m, h => by
    have hrest : (m.see look).sees looks id = none := h
    have hsee : m.see look id = none := of_sees_eq_none hrest
    unfold see at hsee
    split at hsee
    · cases hsee
    · exact hsee

/-- The memory after a step: what was not looked at got older with the queue. -/
def after (m : Memory) : Option (List (Look T)) → Memory
  | none => m
  | some looks => fun id =>
    if looks.any fun look => look.waiting.id == id then m.sees looks id
    else (m id).map olderEvents

/-- Each look sees the events of the look before it, or a queue of another length. -/
def SeesSame : Memory → List (Look T) → Prop
  | _, [] => True
  | m, look :: looks => look.SeesSame (m look.waiting.id) ∧ (m.see look).SeesSame looks

/-- The condition for two parts of a tick. -/
theorem seesSame_append :
    ∀ {looks looks' : List (Look T)} {m : Memory},
      m.SeesSame (looks ++ looks') ↔ m.SeesSame looks ∧ (m.sees looks).SeesSame looks'
  | [], _, _ => ⟨fun h => ⟨trivial, h⟩, fun h => h.2⟩
  | look :: looks, looks', m => by
    have ih := @seesSame_append looks looks' (m.see look)
    constructor
    · rintro ⟨h, hrest⟩
      exact ⟨⟨h, (ih.mp hrest).1⟩, (ih.mp hrest).2⟩
    · rintro ⟨⟨h, hrest⟩, hrest'⟩
      exact ⟨h, ih.mpr ⟨hrest, hrest'⟩⟩

end Memory

/-- The memory fits the layout: what a pending decision saw is undecided, and a decision that
has not started is not remembered. Beside `waiting` only hold-taps are pending. -/
structure Remembered (m : Memory) (s : Layout T) : Prop where
  waiting : ∀ w, s.waiting = some w → Remembers w (m w.id)
  extraWaiting : ∀ w ∈ s.extraWaiting.items, Remembers w (m w.id) ∧ ∃ cfg, w.config = .holdTap cfg
  unique : s.pendingIds.Nodup
  created : ∀ id ∈ s.pendingIds, id < s.created
  fresh : ∀ id, s.created ≤ id → m id = none

namespace Remembered

variable {m : Memory} {s s' : Layout T} {w : WaitingState T}

/-- Decisions may end. -/
theorem of_sublist (h : Remembered m s) (hwaiting : ∀ w, s'.waiting = some w → s.waiting = some w)
    (hextra : s'.extraWaiting.items.Sublist s.extraWaiting.items)
    (hcreated : s'.created = s.created) : Remembered m s' := by
  -- no decision is pending that was not
  have hids : s'.pendingIds.Sublist s.pendingIds := by
    refine List.Sublist.append ?_ (hextra.map _)
    cases hw : s'.waiting with
    | none => exact List.nil_sublist _
    | some w => rw [hwaiting w hw]
  constructor
  · exact fun w hw => h.waiting w (hwaiting w hw)
  · exact fun w hw => h.extraWaiting w (hextra.subset hw)
  · exact h.unique.sublist hids
  · rw [hcreated]
    exact fun id hid => h.created id (hids.subset hid)
  · rw [hcreated]
    exact h.fresh

theorem of_watched (h : Remembered m s) (heq : s'.watched = s.watched) : Remembered m s' := by
  have hwaiting : s'.waiting = s.waiting := congrArg Layout.Watched.waiting heq
  have hextra : s'.extraWaiting = s.extraWaiting := congrArg Layout.Watched.extraWaiting heq
  have hcreated : s'.created = s.created := congrArg Layout.Watched.created heq
  refine h.of_sublist ?_ ?_ hcreated
  · rw [hwaiting]
    exact fun _ hw => hw
  · rw [hextra]

/-- A decision that starts has seen nothing. -/
theorem start_id {w : Nat → WaitingState T} (h : Remembered m s) (hw : Layout.Starts w) :
    m (w s.created).id = none := by
  rw [(hw s.created).1]
  exact h.fresh _ (Nat.le_refl _)

/-- So it has nothing to compare the queue with. -/
theorem start_remembers {w : Nat → WaitingState T} (h : Remembered m s) (hw : Layout.Starts w) :
    Remembers (w s.created) (m (w s.created).id) := by
  rw [h.start_id hw]
  exact (hw s.created).2

/-- A decision may take the place of the one that waits. -/
theorem setWaiting {w : Nat → WaitingState T} (h : Remembered m s) (hw : Layout.Starts w) :
    Remembered m (s.setWaiting w) := by
  have hids : (s.extraWaiting.items.map fun w => w.id).Sublist s.pendingIds :=
    List.sublist_append_right _ _
  -- the number of what starts is the next one, which no decision has
  have hpending : (s.setWaiting w).pendingIds =
      s.created :: s.extraWaiting.items.map fun w => w.id := by
    rw [Layout.setWaiting_eq]
    exact congrArg (fun id => id :: s.extraWaiting.items.map fun w => w.id) (hw s.created).1
  have hcreated : (s.setWaiting w).created = s.created + 1 := by rw [Layout.setWaiting_eq]
  constructor
  · intro w' hw'
    rw [Layout.setWaiting_eq] at hw'
    cases hw'
    exact h.start_remembers hw
  · rw [Layout.setWaiting_eq]
    exact h.extraWaiting
  · rw [hpending]
    refine List.nodup_cons.mpr ⟨fun hmem => ?_, h.unique.sublist hids⟩
    exact Nat.lt_irrefl _ (h.created _ (hids.subset hmem))
  · intro id hid
    rw [hpending] at hid
    rw [hcreated]
    rcases List.mem_cons.mp hid with rfl | hid
    · exact Nat.lt_succ_self _
    · exact Nat.lt_succ_of_lt (h.created id (hids.subset hid))
  · rw [hcreated]
    exact fun id hid => h.fresh id (Nat.le_of_succ_le hid)

/-- A hold-tap may start beside it, and the oldest one beside it may be dropped. -/
theorem pushExtraWaiting {w : Nat → WaitingState T} (h : Remembered m s) (hw : Layout.Starts w)
    (hkind : ∀ id, ∃ cfg, (w id).config = .holdTap cfg) : Remembered m (s.pushExtraWaiting w) := by
  have hitems : (s.pushExtraWaiting w).extraWaiting.items.Sublist
      (s.extraWaiting.items ++ [w s.created]) := by
    rw [Layout.pushExtraWaiting_eq]
    exact Bounded.pushBack_sublist _ _
  have hwaiting : (s.pushExtraWaiting w).waiting = s.waiting := by rw [Layout.pushExtraWaiting_eq]
  have hcreated : (s.pushExtraWaiting w).created = s.created + 1 := by
    rw [Layout.pushExtraWaiting_eq]
  have hids : (s.pushExtraWaiting w).pendingIds.Sublist (s.pendingIds ++ [s.created]) := by
    unfold Layout.pendingIds
    rw [hwaiting, List.append_assoc]
    -- the decision that is pushed comes last, and one of the others may be dropped
    refine List.Sublist.append (List.Sublist.refl _) ?_
    have hmap := hitems.map fun w : WaitingState T => w.id
    rw [List.map_append, List.map_singleton, (hw s.created).1] at hmap
    exact hmap
  constructor
  · rw [hwaiting]
    exact h.waiting
  · intro w' hw'
    rcases List.mem_append.mp (hitems.subset hw') with hw' | hw'
    · exact h.extraWaiting w' hw'
    · obtain rfl := List.mem_singleton.mp hw'
      exact ⟨h.start_remembers hw, hkind _⟩
  · refine List.Nodup.sublist hids (List.nodup_append.mpr ⟨h.unique, List.nodup_singleton _, ?_⟩)
    intro id hid id' hid'
    obtain rfl := List.mem_singleton.mp hid'
    exact Nat.ne_of_lt (h.created id hid)
  · intro id hid
    rw [hcreated]
    rcases List.mem_append.mp (hids.subset hid) with hid | hid
    · exact Nat.lt_succ_of_lt (h.created id hid)
    · obtain rfl := List.mem_singleton.mp hid
      exact Nat.lt_succ_self _
  · rw [hcreated]
    exact fun id hid => h.fresh id (Nat.le_of_succ_le hid)

/-- A decision is taken out. -/
theorem takeWaiting {idx : Option Nat} (h : Remembered m s) (w : WaitingState T)
    (outcome : WaitingAction) : Remembered m (s.takeWaiting w outcome idx) := by
  cases idx with
  | none => exact h.of_sublist (fun _ hw => by cases hw) (List.Sublist.refl _) rfl
  | some i =>
    refine h.of_sublist (fun _ hw => hw) ?_ rfl
    show (s.extraWaiting.removeAt i).items.Sublist _
    rw [Bounded.removeAt_items]
    exact List.eraseIdx_sublist _ _

/-- A decision that has ended may be remembered in any way. -/
theorem see_ended (h : Remembered m s) {look : Look T} (hlt : look.waiting.id < s.created)
    (hended : look.waiting.id ∉ s.pendingIds) : Remembered (m.see look) s := by
  have hother : ∀ w : WaitingState T, w.id ∈ s.pendingIds → m.see look w.id = m w.id := by
    intro w hw
    refine Memory.see_of_ne fun heq => hended ?_
    rw [← heq]
    exact hw
  constructor
  · intro w hw
    have hmem : w.id ∈ s.pendingIds := by
      unfold Layout.pendingIds
      rw [hw]
      exact List.mem_cons_self
    rw [hother w hmem]
    exact h.waiting w hw
  · intro w hw
    rw [hother w (List.mem_append_right _ (List.mem_map_of_mem hw))]
    exact h.extraWaiting w hw
  · exact h.unique
  · exact h.created
  · intro id hid
    rw [Memory.see_of_ne (Nat.ne_of_gt (Nat.lt_of_lt_of_le hlt hid))]
    exact h.fresh id hid

section Waiting

variable {queue : Queue} {t : Ticked T}

/-- The number of the decision that waits is that of no other. -/
theorem id_lt_of_waiting (h : Remembered m s) (hw : s.waiting = some w) :
    w.id < s.created ∧ w.id ∉ s.extraWaiting.items.map fun w => w.id := by
  have hpending : s.pendingIds = w.id :: s.extraWaiting.items.map fun w => w.id := by
    unfold Layout.pendingIds
    rw [hw]
    rfl
  have hunique := h.unique
  rw [hpending] at hunique
  refine ⟨h.created _ ?_, (List.nodup_cons.mp hunique).1⟩
  rw [hpending]
  exact List.mem_cons_self

/-- A look of what waits that decides nothing. -/
theorem look_waiting (h : Remembered m s) (hw : s.waiting = some w)
    (ht : Look.Undecided ⟨w, queue⟩ t) :
    Remembered (m.see ⟨w, queue⟩) ({ s with waiting := some t.waiting }.afterTickWt t) := by
  rcases h.id_lt_of_waiting hw with ⟨hlt, hnotMem⟩
  have hid : t.waiting.id = w.id := ht.id
  have hpending : { s with waiting := some t.waiting }.pendingIds = s.pendingIds := by
    unfold Layout.pendingIds
    rw [hw]
    exact congrArg (fun id => id :: s.extraWaiting.items.map fun w => w.id) hid
  have hlooked : Remembered (m.see ⟨w, queue⟩) { s with waiting := some t.waiting } := by
    constructor
    · intro w' hw'
      cases hw'
      rw [hid]
      exact (Memory.see_self m ⟨w, queue⟩).symm ▸ ht.remembers
    · intro w' hw'
      have hne : w'.id ≠ w.id := fun heq =>
        hnotMem (heq ▸ List.mem_map_of_mem (f := fun w : WaitingState T => w.id) hw')
      rw [Memory.see_of_ne hne]
      exact h.extraWaiting w' hw'
    · rw [hpending]
      exact h.unique
    · rw [hpending]
      exact h.created
    · intro id hid'
      rw [Memory.see_of_ne (Nat.ne_of_gt (Nat.lt_of_lt_of_le hlt hid'))]
      exact h.fresh id hid'
  refine hlooked.of_watched ?_
  rw [Layout.afterTickWt_eq]
  rfl

/-- A look of what waits that decides, and what waits is taken out. -/
theorem take_waiting (h : Remembered m s) (hw : s.waiting = some w) (outcome : WaitingAction) :
    Remembered (m.see ⟨w, queue⟩)
      (({ s with waiting := some t.waiting }.afterTickWt t).takeWaiting t.waiting outcome
        none) := by
  rcases h.id_lt_of_waiting hw with ⟨hlt, hnotMem⟩
  have htaken : Remembered m { s with waiting := none } :=
    h.of_sublist (fun _ hw => by cases hw) (List.Sublist.refl _) rfl
  have hended : Remembered (m.see ⟨w, queue⟩) { s with waiting := none } :=
    htaken.see_ended hlt hnotMem
  refine hended.of_watched ?_
  rw [Layout.takeWaiting_eq, Layout.afterTickWt_eq]
  rfl

end Waiting

section Extra

variable {queue : Queue} {t : Ticked T} {i : Nat}

/-- The number of the decision at an index is that of no other. -/
theorem id_lt_of_extra (h : Remembered m s) (hi : s.extraWaiting.items[i]? = some w) :
    w.id < s.created ∧ (∀ w', s.waiting = some w' → w'.id ≠ w.id) ∧
      ∀ j w', s.extraWaiting.items[j]? = some w' → w'.id = w.id → i = j := by
  have hmem : w.id ∈ s.extraWaiting.items.map fun w => w.id :=
    List.mem_map_of_mem (List.mem_of_getElem? hi)
  have hunique := List.nodup_append.mp h.unique
  refine ⟨h.created _ (List.mem_append_right _ hmem), ?_, ?_⟩
  · intro w' hw'
    refine hunique.2.2 w'.id ?_ w.id hmem
    rw [hw']
    exact List.mem_cons_self
  · intro j w' hj hid
    have hget : ∀ k, (s.extraWaiting.items.map fun w => w.id)[k]? =
        s.extraWaiting.items[k]?.map fun w : WaitingState T => w.id := fun k => List.getElem?_map
    have hlt : i < (s.extraWaiting.items.map fun w => w.id).length := by
      rw [List.length_map]
      exact (List.getElem?_eq_some_iff.mp hi).1
    refine (List.getElem?_inj hlt hunique.2.1).mp ?_
    rw [hget, hget, hi, hj, Option.map_some, Option.map_some, hid]

/-- A look of an extra decision that decides nothing. -/
theorem look_extra (h : Remembered m s) (hi : s.extraWaiting.items[i]? = some w)
    (ht : Look.Undecided ⟨w, queue⟩ t) :
    Remembered (m.see ⟨w, queue⟩) ((s.setExtraWaiting i t.waiting).afterTickWt t) := by
  rcases h.id_lt_of_extra hi with ⟨hlt, hwaiting, hextra⟩
  have hid : t.waiting.id = w.id := ht.id
  have hids : ((s.extraWaiting.items.set i t.waiting).map fun w => w.id) =
      s.extraWaiting.items.map fun w => w.id := by
    rw [List.map_set, hid]
    refine List.ext_getElem? fun j => ?_
    rw [List.getElem?_set]
    split
    · rename_i hij
      obtain rfl := hij
      rw [List.getElem?_map, hi]
      simp [(List.getElem?_eq_some_iff.mp hi).1]
    · rfl
  have hpending : (s.setExtraWaiting i t.waiting).pendingIds = s.pendingIds :=
    congrArg (fun ids => (s.waiting.toList.map fun w => w.id) ++ ids) hids
  have hlooked : Remembered (m.see ⟨w, queue⟩) (s.setExtraWaiting i t.waiting) := by
    constructor
    · intro w' hw'
      rw [Memory.see_of_ne (hwaiting w' hw')]
      exact h.waiting w' hw'
    · intro w' hw'
      rcases List.mem_iff_getElem?.mp hw' with ⟨j, hj⟩
      have hj : (s.extraWaiting.items.set i t.waiting)[j]? = some w' := hj
      rw [List.getElem?_set] at hj
      split at hj
      · split at hj
        · cases hj
          rw [hid]
          refine ⟨(Memory.see_self m ⟨w, queue⟩).symm ▸ ht.remembers, ?_⟩
          rcases (h.extraWaiting w (List.mem_of_getElem? hi)).2 with ⟨cfg, hcfg⟩
          exact ⟨cfg, ht.holdTap cfg hcfg⟩
        · cases hj
      · rename_i hij
        rw [Memory.see_of_ne fun heq => hij (hextra j w' hj heq)]
        exact h.extraWaiting w' (List.mem_of_getElem? hj)
    · rw [hpending]
      exact h.unique
    · rw [hpending]
      exact h.created
    · intro id hid'
      rw [Memory.see_of_ne (Nat.ne_of_gt (Nat.lt_of_lt_of_le hlt hid'))]
      exact h.fresh id hid'
  refine hlooked.of_watched ?_
  rw [Layout.afterTickWt_eq]
  rfl

/-- A look of an extra decision that decides, and the decision is taken out. -/
theorem take_extra (h : Remembered m s) (hi : s.extraWaiting.items[i]? = some w)
    (outcome : WaitingAction) :
    Remembered (m.see ⟨w, queue⟩) (((s.setExtraWaiting i t.waiting).afterTickWt t).takeWaiting
      t.waiting outcome (some i)) := by
  rcases h.id_lt_of_extra hi with ⟨hlt, hwaiting, hextra⟩
  have htaken : Remembered m { s with extraWaiting := s.extraWaiting.removeAt i } := by
    refine h.of_sublist (fun _ hw => hw) ?_ rfl
    show (s.extraWaiting.removeAt i).items.Sublist _
    rw [Bounded.removeAt_items]
    exact List.eraseIdx_sublist _ _
  have hended : Remembered (m.see ⟨w, queue⟩)
      { s with extraWaiting := s.extraWaiting.removeAt i } := by
    refine htaken.see_ended hlt fun hmem => ?_
    rcases List.mem_append.mp hmem with hmem | hmem
    · rcases List.mem_map.mp hmem with ⟨w', hw', heq⟩
      exact hwaiting w' (Option.mem_toList.mp hw') heq
    · rcases List.mem_map.mp hmem with ⟨w', hw', heq⟩
      have hw' : w' ∈ s.extraWaiting.items.eraseIdx i := hw'
      rcases List.mem_eraseIdx_iff_getElem?.mp hw' with ⟨j, hj, hget⟩
      exact hj (hextra j w' hget heq).symm
  refine hended.of_watched ?_
  have hitems : (s.setExtraWaiting i t.waiting).extraWaiting.removeAt i =
      s.extraWaiting.removeAt i := Bounded.ext List.eraseIdx_set_eq
  rw [Layout.afterTickWt_eq]
  exact congrArg (fun extraWaiting =>
    (⟨s.waiting, extraWaiting, s.created, s.tapDanceEager⟩ : Layout.Watched T)) hitems

end Extra

end Remembered

/-- Across this what was remembered is, and what waits was waiting or is new. -/
def KeepsMemory (m : Memory) (s s' : Layout T) : Prop :=
  Remembered m s →
    Remembered m s' ∧ ∀ w, s'.waiting = some w → s.waiting = some w ∨ m w.id = none

namespace KeepsMemory

variable {m : Memory} {s s' : Layout T}

/-- Nothing new waits. -/
theorem of_remembered (hwaiting : ∀ w, s'.waiting = some w → s.waiting = some w)
    (h : Remembered m s → Remembered m s') : KeepsMemory m s s' :=
  fun hs => ⟨h hs, fun w hw => .inl (hwaiting w hw)⟩

theorem of_watched (heq : s'.watched = s.watched) : KeepsMemory m s s' := by
  refine of_remembered ?_ fun h => h.of_watched heq
  have hwaiting : s'.waiting = s.waiting := congrArg Layout.Watched.waiting heq
  rw [hwaiting]
  exact fun _ hw => hw

/-- The eager tap-dance is no decision. -/
theorem of_tapDanceEager {tapDanceEager : Option (TapDanceEagerState T)}
    (heq : s'.watched = { s.watched with tapDanceEager }) : KeepsMemory m s s' := by
  have hsame : KeepsMemory m s { s with tapDanceEager } :=
    of_remembered (fun _ hw => hw) fun h => { h with }
  intro hs
  rcases hsame hs with ⟨hs₁, hwaiting₁⟩
  have heq' : s'.watched = { s with tapDanceEager }.watched := heq
  rcases of_watched heq' hs₁ with ⟨hs₂, hwaiting₂⟩
  exact ⟨hs₂, fun w hw => (hwaiting₂ w hw).elim (hwaiting₁ w) .inr⟩

theorem follows (m : Memory) : Layout.Follows (KeepsMemory m : Layout T → Layout T → Prop) where
  trans h h' hs := by
    rcases h hs with ⟨hs₁, hwaiting₁⟩
    rcases h' hs₁ with ⟨hs₂, hwaiting₂⟩
    exact ⟨hs₂, fun w hw => (hwaiting₂ w hw).elim (hwaiting₁ w) .inr⟩
  same heq := of_watched heq
  setWaiting s w hw hs := by
    refine ⟨hs.setWaiting hw, fun w' hw' => .inr ?_⟩
    rw [Layout.setWaiting_eq] at hw'
    cases hw'
    exact hs.start_id hw
  pushExtraWaiting s w hw hkind hs := by
    refine ⟨hs.pushExtraWaiting hw hkind, fun w' hw' => .inl ?_⟩
    rw [Layout.pushExtraWaiting_eq] at hw'
    exact hw'
  takeWaiting s w idx outcome _ := by
    refine of_remembered ?_ fun hs => hs.takeWaiting w outcome
    cases idx with
    | none => exact fun _ hw => by cases hw
    | some i => exact fun _ hw => hw
  startTapDanceEager s coord td := by
    unfold Layout.startTapDanceEager
    dsimp only
    split
    · exact of_tapDanceEager rfl
    · split
      · exact of_tapDanceEager rfl
      · exact of_watched rfl
  takePress s p := by
    unfold Layout.takePress
    split
    · exact of_tapDanceEager rfl
    · split
      · exact of_tapDanceEager rfl
      · exact of_watched rfl

end KeepsMemory

/-! ## A tick -/

section Tick

variable {cfg : LayoutConfig C R T} {m : Memory} {s : Layout T}

/-- The look of a decision in a layout that is remembered. -/
theorem Remembers.tick_eq (overflowChecks : Bool) {w : WaitingState T} {queue : Queue}
    (h : Remembers w (m w.id)) (hsame : Look.SeesSame ⟨w, queue⟩ (m w.id)) :
    w.tickWtFull overflowChecks queue = w.tickWt overflowChecks queue := by
  have heq := h.tickWt_eq overflowChecks hsame
  exact heq.symm

namespace Layout

/-- What waits at the end was looked at, or is new. -/
def WaitsLookedAt (m : Memory) (looks : List (Look T)) (s : Layout T) : Prop :=
  ∀ w, s.waiting = some w → (∃ look ∈ looks, look.waiting.id = w.id) ∨ m w.id = none

/-- The first look is the same without the fast path, and what waits afterwards was looked at or
is new. -/
theorem tickWaiting_full (h : Remembered m s) (hsame : m.SeesSame s.waitingLooks) :
    s.tickWaitingWith (WaitingState.tickWtFull cfg.overflowChecks) cfg = s.tickWaiting cfg ∧
      ∀ s' e, s.tickWaiting cfg = .ok (s', e) →
        Remembered (m.sees s.waitingLooks) s' ∧
          WaitsLookedAt m s.waitingLooks s' := by
  cases hw : s.waiting with
  | none =>
    have hlooks : s.waitingLooks = [] := by
      unfold waitingLooks
      rw [hw]
      rfl
    rw [hlooks]
    constructor
    · unfold tickWaitingWith
      rw [hw]
    · intro s' e hs'
      rcases (tickWaiting_follows (KeepsMemory.follows m) hw).of_ok hs' h with ⟨hkept, hwaits⟩
      refine ⟨hkept, fun w' hw' => .inr ?_⟩
      rcases hwaits w' hw' with hold | hnew
      · rw [hw] at hold
        cases hold
      · exact hnew
  | some w =>
    have hlooks : s.waitingLooks = [⟨w, s.queue⟩] := by
      unfold waitingLooks
      rw [hw]
      rfl
    rw [hlooks] at hsame ⊢
    have heq := (h.waiting w hw).tick_eq cfg.overflowChecks hsame.1
    constructor
    · unfold tickWaitingWith tickWaiting
      rw [hw]
      dsimp only
      rw [heq]
    · intro s' e hs'
      unfold tickWaiting at hs'
      rw [hw] at hs'
      rcases bind_eq_ok.mp hs' with ⟨t, ht, hdecide⟩
      rw [← heq] at ht
      -- the layout after the look and before the decision is carried out
      let s₁ : Layout T := { s with waiting := some t.waiting }.afterTickWt t
      have hs₁ : s₁.waitingAt none = some t.waiting := by
        show ({ s with waiting := some t.waiting }.afterTickWt t).waiting = _
        rw [afterTickWt_eq]
      cases hdecision : t.decision with
      | none =>
        rw [hdecision] at hdecide
        cases pure_eq_ok.mp hdecide
        -- the look decides nothing, and its events are what the decision has seen last
        have hundecided := hsame.1.undecided ht hdecision
        refine ⟨h.look_waiting hw hundecided, fun w' hw' => .inl ?_⟩
        obtain rfl : t.waiting = w' := Option.some.inj (hs₁.symm.trans hw')
        exact ⟨⟨w, s.queue⟩, List.mem_singleton_self _, hundecided.id.symm⟩
      | some d =>
        rcases d with ⟨outcome, pq⟩
        rw [hdecision] at hdecide
        have htaken : Remembered (m.see ⟨w, s.queue⟩) (s₁.takeWaiting t.waiting outcome none) :=
          h.take_waiting hw outcome
        have hkeeps := (decide_takes (KeepsMemory.follows (m.see ⟨w, s.queue⟩)) pq hs₁
          (fun _ => rfl)).of_ok hdecide
        rcases hkeeps htaken with ⟨hkept, hwaits⟩
        refine ⟨hkept, fun w' hw' => ?_⟩
        rcases hwaits w' hw' with hold | hnew
        · cases hold
        · have hsees : m.sees [⟨w, s.queue⟩] w'.id = none := hnew
          exact .inr (Memory.of_sees_eq_none hsees)

/-- What the loop over the extra decisions leaves, once the one that fell is taken out. -/
def LeavesRemembered (m : Memory) (s : Layout T) :
    Option (Nat × WaitingAction × Option PressedQueue) → Prop
  | none => Remembered m s
  | some (i, outcome, _) => outcome ≠ .noOp ∧
      ∃ w, s.waitingAt (some i) = some w ∧ Remembered m (s.takeWaiting w outcome (some i))

/-- The same for the looks of the loop. When one of them decides, the decision is not to drop
what waits. -/
theorem tickExtraWaitings_full :
    ∀ (n i : Nat) {m : Memory} {s : Layout T}, Remembered m s → m.SeesSame (extraLooks cfg n i s) →
      tickExtraWaitingsWith (WaitingState.tickWtFull cfg.overflowChecks) n i s =
          tickExtraWaitings cfg n i s ∧
        ∀ s' d, tickExtraWaitings cfg n i s = .ok (s', d) →
          s'.waiting = s.waiting ∧ LeavesRemembered (m.sees (extraLooks cfg n i s)) s' d
  | 0, _, m, s, h, _ => by
    refine ⟨rfl, fun s' d hs' => ?_⟩
    cases hs'
    exact ⟨rfl, h⟩
  | n + 1, i, m, s, h, hsame => by
    unfold tickExtraWaitingsWith tickExtraWaitings
    unfold extraLooks at hsame ⊢
    cases hi : s.extraWaiting.items[i]? with
    | none =>
      refine ⟨rfl, fun s' d hs' => ?_⟩
      cases hs'
      exact ⟨rfl, h⟩
    | some w =>
      rw [hi] at hsame
      dsimp only at hsame ⊢
      have hextra := h.extraWaiting w (List.mem_of_getElem? hi)
      have heq := hextra.1.tick_eq cfg.overflowChecks hsame.1
      rw [heq]
      cases ht : w.tickWt cfg.overflowChecks s.queue with
      | error p =>
        refine ⟨rfl, fun s' d hs' => ?_⟩
        cases hs'
      | ok t =>
        have htFull := heq.trans ht
        rw [ht] at hsame
        simp only [ok_bind] at hsame ⊢
        have hwaiting : ((s.setExtraWaiting i t.waiting).afterTickWt t).waiting = s.waiting := by
          rw [afterTickWt_eq]
          rfl
        cases hdecision : t.decision with
        | none =>
          rw [hdecision] at hsame
          dsimp only at hsame ⊢
          -- the loop goes on with the next decision
          have hundecided := hsame.1.undecided htFull hdecision
          have hlooked := h.look_extra hi hundecided
          rcases tickExtraWaitings_full n (i + 1) hlooked hsame.2 with ⟨hrest, hleaves⟩
          refine ⟨hrest, fun s' d hs' => ?_⟩
          rcases hleaves s' d hs' with ⟨hwaiting', hleft⟩
          exact ⟨hwaiting'.trans hwaiting, hleft⟩
        | some decided =>
          rcases decided with ⟨outcome, pq⟩
          dsimp only
          refine ⟨rfl, fun s' d hs' => ?_⟩
          cases hs'
          rcases hextra.2 with ⟨htc, hconfig⟩
          refine ⟨hwaiting, ?_, t.waiting, ?_, h.take_extra hi outcome⟩
          · intro hdrop
            rw [hdrop] at hdecision
            exact WaitingState.tickWtFull_ne_noOp hsame.1.regular hconfig htFull hdecision
          · show ((s.setExtraWaiting i t.waiting).afterTickWt t).extraWaiting.items[i]? = _
            rw [afterTickWt_eq]
            exact List.getElem?_set_self (List.getElem?_eq_some_iff.mp hi).1

/-- The other decisions, with what is performed for the one that fell. -/
theorem processExtraWaitings_full {custom : CustomEvent T} (h : Remembered m s)
    (hsame : m.SeesSame (processLooks cfg custom s)) :
    s.processExtraWaitingsWith (WaitingState.tickWtFull cfg.overflowChecks) cfg custom =
        s.processExtraWaitings cfg custom ∧
      ∀ s' e, s.processExtraWaitings cfg custom = .ok (s', e) →
        Remembered (m.sees (processLooks cfg custom s)) s' ∧
          ∀ w, s'.waiting = some w →
            s.waiting = some w ∨ m.sees (processLooks cfg custom s) w.id = none := by
  unfold processExtraWaitingsWith processExtraWaitings
  unfold processLooks at hsame ⊢
  cases custom with
  | noEvent =>
    dsimp only at hsame ⊢
    rcases tickExtraWaitings_full s.extraWaiting.items.length 0 h hsame with ⟨heq, hleaves⟩
    rw [heq]
    refine ⟨rfl, fun s' e hs' => ?_⟩
    rcases bind_eq_ok.mp hs' with ⟨⟨s₁, decided⟩, hs₁, hdecide⟩
    rcases hleaves s₁ decided hs₁ with ⟨hwaiting, hleft⟩
    cases decided with
    | none =>
      cases pure_eq_ok.mp hdecide
      refine ⟨hleft, fun w hw => .inl ?_⟩
      rw [← hwaiting]
      exact hw
    | some d =>
      rcases d with ⟨i, outcome, pq⟩
      rcases hleft with ⟨hdrop, w, hw, hleft⟩
      have hkeeps := (decide_takes
        (KeepsMemory.follows (m.sees (extraLooks cfg s.extraWaiting.items.length 0 s))) pq hw
        (fun heq => absurd heq hdrop)).of_ok hdecide
      rcases hkeeps hleft with ⟨hkept, hwaits⟩
      refine ⟨hkept, fun w' hw' => ?_⟩
      rw [← hwaiting]
      exact hwaits w' hw'
  | _ =>
    refine ⟨rfl, fun s' e hs' => ?_⟩
    cases hs'
    exact ⟨h, fun w hw => .inl hw⟩

/-- A tick from the state on in which the looks start. -/
theorem looksFrom_full {custom : CustomEvent T} (h : Remembered m s)
    (hsame : m.SeesSame (s.looksFrom cfg custom)) :
    s.tickLooksWith (WaitingState.tickWtFull cfg.overflowChecks) cfg custom =
        s.tickLooksWith (WaitingState.tickWt cfg.overflowChecks) cfg custom ∧
      ∀ s' e, s.tickLooksWith (WaitingState.tickWt cfg.overflowChecks) cfg custom = .ok (s', e) →
        Remembered (m.sees (s.looksFrom cfg custom)) s' ∧
          WaitsLookedAt m (s.looksFrom cfg custom) s' := by
  unfold tickLooksWith
  simp only [tickWaitingWith_tickWt, processExtraWaitingsWith_tickWt]
  unfold looksFrom at hsame ⊢
  rcases Memory.seesSame_append.mp hsame with ⟨hsame₁, hsame₂⟩
  rcases tickWaiting_full h hsame₁ with ⟨heq, hkept⟩
  rw [heq, Memory.sees_append]
  cases hs₁ : s.tickWaiting cfg with
  | error p =>
    refine ⟨rfl, fun s' e hs' => ?_⟩
    cases hs'
  | ok r =>
    rcases r with ⟨s₁, e₁⟩
    rw [hs₁] at hsame₂
    simp only [ok_bind] at hsame₂ ⊢
    rcases hkept s₁ e₁ hs₁ with ⟨hkept₁, hlooked₁⟩
    have hkept₂ : Remembered (m.sees s.waitingLooks) (s₁.updateCustom custom e₁).1 :=
      hkept₁.of_watched (discard_watched _)
    have hwaiting₂ : (s₁.updateCustom custom e₁).1.waiting = s₁.waiting :=
      congrArg Watched.waiting (discard_watched (s := s₁) (custom.lost e₁))
    rcases processExtraWaitings_full hkept₂ hsame₂ with ⟨heq₂, hextra⟩
    rw [heq₂]
    refine ⟨rfl, fun s' e hs' => ?_⟩
    rcases hextra s' e hs' with ⟨hkept', hwaits⟩
    refine ⟨hkept', fun w hw => ?_⟩
    rcases hwaits w hw with hold | hnew
    · rw [hwaiting₂] at hold
      -- what waited after the first look was looked at in it
      rcases hlooked₁ w hold with ⟨look, hlook, hid⟩ | hnone
      · exact .inl ⟨look, List.mem_append_left _ hlook, hid⟩
      · exact .inr hnone
    · rw [← Memory.sees_append] at hnew
      exact .inr (Memory.of_sees_eq_none hnew)

end Layout

/-- At the end of a tick what was not looked at is a tick older. Only extra hold-taps, and what
is new, were not looked at. -/
theorem Remembered.after {looks : List (Look T)} (h : Remembered (m.sees looks) s)
    (hwaits : Layout.WaitsLookedAt m looks s) : Remembered (m.after (some looks)) s := by
  have hany : ∀ {look : Look T} {id : Nat}, look ∈ looks → look.waiting.id = id →
      (looks.any fun look => look.waiting.id == id) = true :=
    fun hlook heq => List.any_eq_true.mpr ⟨_, hlook, beq_iff_eq.mpr heq⟩
  have hlooked : ∀ id, (looks.any fun look => look.waiting.id == id) = true →
      m.after (some looks) id = m.sees looks id := fun id hid => if_pos hid
  have hpassed : ∀ id, ¬ (looks.any fun look => look.waiting.id == id) = true →
      m.after (some looks) id = (m id).map olderEvents ∧ m.sees looks id = m id := by
    exact fun id hid =>
      ⟨if_neg hid, Memory.sees_of_notMem fun look hlook heq => hid (hany hlook heq)⟩
  constructor
  · intro w hw
    by_cases hid : (looks.any fun look => look.waiting.id == w.id) = true
    · rw [hlooked w.id hid]
      exact h.waiting w hw
    · rcases hwaits w hw with ⟨look, hlook, heq⟩ | hnew
      · exact absurd (hany hlook heq) hid
      · have hold := h.waiting w hw
        rw [(hpassed w.id hid).2, hnew] at hold
        rw [(hpassed w.id hid).1, hnew]
        exact hold
  · intro w hw
    rcases h.extraWaiting w hw with ⟨hold, cfg, hconfig⟩
    refine ⟨?_, cfg, hconfig⟩
    by_cases hid : (looks.any fun look => look.waiting.id == w.id) = true
    · rw [hlooked w.id hid]
      exact hold
    · rw [(hpassed w.id hid).1]
      rw [(hpassed w.id hid).2] at hold
      exact hold.pass hconfig
  · exact h.unique
  · exact h.created
  · intro id hid
    have hnone := h.fresh id hid
    by_cases hid' : (looks.any fun look => look.waiting.id == id) = true
    · rw [hlooked id hid']
      exact hnone
    · rw [(hpassed id hid').1, Memory.of_sees_eq_none hnone]
      rfl

namespace Layout

/-- Timers, macros and one-shot keys that end leave the memory right. -/
theorem beforeLooks_keeps :
    Ensures (s.beforeLooks cfg) (fun r => KeepsMemory m s r.1) fun _ => True := by
  have htimers : KeepsMemory m s
      { s.tickTimers with oneshot := s.tickTimers.oneshot.tickOsh.1 } :=
    .of_tapDanceEager (processSequences_watched (s := s.ageInputs))
  exact (releaseOneshots_follows (KeepsMemory.follows m) _ _ _).mono
    (fun _ hr => (KeepsMemory.follows m).trans htimers hr) fun _ hp => hp

/-- The whole part of a tick past the action queue. -/
theorem tickMain_full (h : Remembered m s) (hsame : m.SeesSame (s.mainLooks cfg)) :
    s.tickMainWith (WaitingState.tickWtFull cfg.overflowChecks) cfg =
        s.tickMainWith (WaitingState.tickWt cfg.overflowChecks) cfg ∧
      ∀ s' e, s.tickMainWith (WaitingState.tickWt cfg.overflowChecks) cfg = .ok (s', e) →
        Remembered (m.after (some (s.mainLooks cfg))) s' := by
  unfold tickMainWith
  unfold mainLooks at hsame ⊢
  cases hs₁ : s.beforeLooks cfg with
  | error p =>
    refine ⟨rfl, fun s' e hs' => ?_⟩
    cases hs'
  | ok r =>
    rcases r with ⟨s₁, custom⟩
    rw [hs₁] at hsame
    simp only [ok_bind] at hsame ⊢
    have hkept := ((beforeLooks_keeps.of_ok hs₁) h).1
    rcases looksFrom_full hkept hsame with ⟨heq, hlooks⟩
    rw [heq]
    refine ⟨rfl, fun s' e hs' => ?_⟩
    rcases bind_eq_ok.mp hs' with ⟨⟨s₂, custom₂⟩, hs₂, hs'⟩
    rcases hlooks s₂ custom₂ hs₂ with ⟨hremembered, hwaits⟩
    have hs'' : s₂.processSequenceCustom custom₂ = (s', e) := pure_eq_ok.mp hs'
    have hend := processSequenceCustom_watched (s := s₂) custom₂
    rw [hs''] at hend
    exact (hremembered.after hwaits).of_watched hend

/-- A tick without the fast paths is the tick, and what was seen is remembered. -/
theorem tick_full (h : Remembered m s) (hsame : m.SeesSame ((s.looks cfg .tick).getD [])) :
    s.tickWith (WaitingState.tickWtFull cfg.overflowChecks) cfg =
        s.tickWith (WaitingState.tickWt cfg.overflowChecks) cfg ∧
      ∀ s' e, s.tickWith (WaitingState.tickWt cfg.overflowChecks) cfg = .ok (s', e) →
        Remembered (m.after (s.looks cfg .tick)) s' := by
  unfold tickWith
  unfold looks at hsame ⊢
  rcases hreleases : s.customEventReleaseQueue.popFront with ⟨_ | released, releases⟩
  · rw [hreleases] at hsame
    dsimp only at hsame ⊢
    cases hs₁ : s.tickChordsV2 cfg with
    | error p =>
      refine ⟨rfl, fun s' e hs' => ?_⟩
      cases hs'
    | ok s₁ =>
      rw [hs₁] at hsame
      simp only [ok_bind] at hsame ⊢
      have hchords : Remembered m s₁ := h.of_watched (tickChordsV2_watched hs₁)
      rcases hactions : s₁.actionQueue.popFront with ⟨_ | qa, actions⟩
      · rw [hactions] at hsame
        dsimp only at hsame ⊢
        have hcleared : Remembered m { s₁ with keysToSuppressForOneCycle := .empty } :=
          hchords.of_watched rfl
        exact tickMain_full hcleared hsame
      · -- an action of the action queue, and no look
        dsimp only
        refine ⟨rfl, fun s' e hs' => ?_⟩
        rcases bind_eq_ok.mp hs' with ⟨r, hr, hs'⟩
        cases pure_eq_ok.mp hs'
        have hact := (doAction_follows (KeepsMemory.follows m) cfg cfg.stackDepth).call
        have hstart : Remembered m (({ s₁ with
            keysToSuppressForOneCycle := .empty, actionQueue := actions } : Layout T).note
              (.actionTaken qa)) := hchords.of_watched rfl
        exact ((hact _ _ _).of_ok hr hstart).1
  · dsimp only
    refine ⟨rfl, fun s' e hs' => ?_⟩
    cases hs'
    exact h.of_watched rfl

/-- A step is the same without the fast paths, and the memory is right after it. -/
theorem step_full {op : LayoutOp} (h : Remembered m s)
    (hsame : m.SeesSame ((s.looks cfg op).getD [])) :
    s.stepFull cfg op = s.step cfg op ∧
      ∀ s' e, s.step cfg op = .ok (s', e) → Remembered (m.after (s.looks cfg op)) s' := by
  by_cases hop : op = .tick
  · subst hop
    -- only a tick looks
    have hcode : s.step cfg .tick = s.tickWith (WaitingState.tickWt cfg.overflowChecks) cfg :=
      (stepWith_tickWt s .tick).symm
    rw [hcode]
    exact tick_full h hsame
  · have hsteps : ∀ s' e, s.step cfg op = .ok (s', e) → Remembered m s' := fun s' e hs' =>
      ((step_follows (KeepsMemory.follows m) hop).of_ok hs' h).1
    cases op with
    | tick => exact absurd rfl hop
    | _ => exact ⟨rfl, hsteps⟩

end Layout

end Tick

/-! ## Runs -/

/-- A step of the layout, with what the decisions have seen. -/
def watch (cfg : LayoutConfig C R T) (s : Layout T × Memory) (op : LayoutOp) :
    Rust ((Layout T × Memory) × CustomEvent T) := do
  let (s', e) ← s.1.step cfg op
  pure ((s', s.2.after (s.1.looks cfg op)), e)

/-- In the step, a queue of the length that a decision saw last holds what it saw. -/
def SeesSame (cfg : LayoutConfig C R T) (s : Layout T × Memory) (op : LayoutOp) : Prop :=
  s.2.SeesSame ((s.1.looks cfg op).getD [])

/-- So are all the steps of a run. -/
theorem Remembered.run_eq {cfg : LayoutConfig C R T} :
    ∀ {ops : List LayoutOp} {m : Memory} {s : Layout T}, Remembered m s →
      Along (watch cfg) (SeesSame cfg) (s, m) ops →
        run (Layout.stepFull cfg) s ops = run (Layout.step cfg) s ops
  | [], _, _, _, _ => rfl
  | op :: ops, m, s, h, hsame => by
    rcases Layout.step_full h hsame.1 with ⟨heq, hkept⟩
    have hfirst : Layout.stepFull cfg s op = s.step cfg op := heq
    unfold run
    rw [hfirst]
    refine bind_congr_ok fun r hr => ?_
    rcases r with ⟨s', e⟩
    have hwatch : watch cfg (s, m) op = .ok ((s', m.after (s.looks cfg op)), e) := by
      unfold watch
      rw [hr]
      rfl
    have hrest := (hkept s' e hr).run_eq (hsame.tail hwatch)
    dsimp only
    rw [hrest]

/-- Nothing was looked at yet. -/
theorem new_remembered (delay : Nat) :
    Remembered (fun _ => none) (Layout.new delay : Layout T) where
  waiting _ hw := by cases hw
  extraWaiting _ hw := by cases hw
  unique := List.nodup_nil
  created _ hid := by cases hid
  fresh _ _ := rfl

/-- The fast paths make no difference to a run in which every decision sees the same events
whenever the queue is as long as at its last look: it does the same without them. -/
theorem fast_path_unobservable (cfg : LayoutConfig C R T) (delay : Nat) (ops : List LayoutOp)
    (hsame : Along (watch cfg) (SeesSame cfg) (Layout.new delay, fun _ => none) ops) :
    run (Layout.stepFull cfg) (.new delay) ops = run (Layout.step cfg) (.new delay) ops :=
  (new_remembered delay).run_eq hsame

/-! ## A tap-dance and a hold-tap on a virtual key -/

/-- `Memory.SeesSame` for decisions that are regular at sight. -/
def Memory.seesPlainly : Memory → List (Look T) → Bool
  | _, [] => true
  | m, look :: looks =>
    look.waiting.isPlain && (look.queue.items.all fun q => q.since ≤ u16Max) &&
      ((m look.waiting.id).all fun events =>
        look.queue.items.length != look.waiting.prevQueueLen ||
          look.queue.items == olderEvents events) &&
      (m.see look).seesPlainly looks

theorem Memory.SeesSame.of_plainly :
    ∀ {looks : List (Look T)} {m : Memory}, m.seesPlainly looks = true → m.SeesSame looks
  | [], _, _ => trivial
  | look :: looks, m, h => by
    unfold seesPlainly at h
    simp only [Bool.and_eq_true] at h
    rcases h with ⟨⟨⟨hplain, hsince⟩, hevents⟩, hrest⟩
    refine ⟨⟨.of_isPlain hplain, ?_, ?_⟩, SeesSame.of_plainly hrest⟩
    · exact fun q hq => of_decide_eq_true (List.all_eq_true.mp hsince q hq)
    · intro events hseen hlen
      have hsees := (Option.all_eq_true _ _).mp hevents events hseen
      rcases Bool.or_eq_true_iff.mp hsees with hne | heq
      · exact absurd hlen (bne_iff_ne.mp hne)
      · exact eq_of_beq heq

/-- A lazy tap-dance and a hold-tap on one key. -/
def tapDanceAndHoldTap : LayoutConfig 16 2 Nat :=
  oneLayer [.switch ⟨[⟨[], .tapDance ⟨[.custom 1, .custom 2, .noOp, .noOp], 200, .lazy⟩,
      .fallthrough⟩,
    ⟨[], .holdTap ⟨200, .custom 5, .custom 6, .custom 7, .permissiveHold, 0, none, none,
      twoHundred_le_u16Max⟩, .break⟩], 0⟩]

/-- A press of the virtual key. -/
def pressVirtual : LayoutOp := .event (.press 1 1)

/-- Both wait, and the tap-dance counts another press. -/
theorem fast_path_unobservable_counted :
    run (Layout.stepFull tapDanceAndHoldTap) (.new 0)
        [pressVirtual, .tick, .tick, .tick, pressVirtual, .tick, .tick] =
      run (Layout.step tapDanceAndHoldTap) (.new 0)
        [pressVirtual, .tick, .tick, .tick, pressVirtual, .tick, .tick] := by
  have hplain : Along (watch tapDanceAndHoldTap)
      (fun s op => s.2.seesPlainly ((s.1.looks tapDanceAndHoldTap op).getD []) = true)
      (Layout.new 0, fun _ => none)
      [pressVirtual, .tick, .tick, .tick, pressVirtual, .tick, .tick] := by
    decide +kernel
  have hsame : Along (watch tapDanceAndHoldTap) (SeesSame tapDanceAndHoldTap)
      (Layout.new 0, fun _ => none)
      [pressVirtual, .tick, .tick, .tick, pressVirtual, .tick, .tick] :=
    hplain.mono fun _ _ h => .of_plainly h
  exact fast_path_unobservable tapDanceAndHoldTap 0 _ hsame

/-- The virtual key is pressed three times without a release. With another key the tap-dance is
over, and takes out two presses, as many as there are new events: the hold-tap does not look
at the press and the release for which it would be held. -/
theorem fast_path_unobservable_fails :
    (∃ s, run (Layout.step tapDanceAndHoldTap) (.new 0)
        [pressVirtual, .tick, .tick, pressVirtual, pressVirtual, .tick, press 3, release 3, .tick] =
          .ok (s, List.replicate 8 .noEvent ++ [.noEvent])) ∧
      ∃ s, run (Layout.stepFull tapDanceAndHoldTap) (.new 0)
        [pressVirtual, .tick, .tick, pressVirtual, pressVirtual, .tick, press 3, release 3, .tick] =
          .ok (s, List.replicate 8 .noEvent ++ [.press 5]) := by
  have hcode : endsWith (Layout.step tapDanceAndHoldTap)
      (fun _ os => os == List.replicate 8 .noEvent ++ [.noEvent]) (.new 0)
      [pressVirtual, .tick, .tick, pressVirtual, pressVirtual, .tick, press 3, release 3, .tick] =
        true := by decide
  have hfull : endsWith (Layout.stepFull tapDanceAndHoldTap)
      (fun _ os => os == List.replicate 8 .noEvent ++ [.press 5]) (.new 0)
      [pressVirtual, .tick, .tick, pressVirtual, pressVirtual, .tick, press 3, release 3, .tick] =
        true := by decide
  constructor
  · rcases of_endsWith hcode with ⟨s, os, hrun, hcheck⟩
    rw [eq_of_beq hcheck] at hrun
    exact ⟨s, hrun⟩
  · rcases of_endsWith hfull with ⟨s, os, hrun, hcheck⟩
    rw [eq_of_beq hcheck] at hrun
    exact ⟨s, hrun⟩

end Kanata
