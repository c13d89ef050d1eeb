import Kanata.Layout.Told

/-!
# Kanata.Layout.Repeating — the chord that `rpt` remembers

A key that is pressed while one-shot keys are active is remembered together with
their key codes, in the layout's own buffer. `rpt` presses the keys of the buffer and
remembers again, so with active one-shot keys it writes the buffer that it reads.
`Chorded` follows a remembered chord through the trace of a run.
-/

namespace Kanata

open Fallible Machine

variable {C R : Nat} {T : Type}

/-! ## The buffer -/

/-- A chord can be pushed behind other keys while it is read from the start of the
buffer: every cell holds, when it is read, the key that was there before. -/
def ReadsBack (held kcs : List KeyCode) : Prop :=
  ∀ i < kcs.length, (held ++ kcs)[i]? = kcs[i]?

namespace MultiKeyBuffer

variable {b b₀ : MultiKeyBuffer} {kcs kcs' : List KeyCode}

/-- The keys of the buffer. -/
structure Holds (b : MultiKeyBuffer) (kcs : List KeyCode) : Prop where
  size_eq : b.size = kcs.length
  keys_eq : b.keys b.size = kcs

/-- The buffer was cleared, then these keys were pushed; the cells behind them are
those of the old buffer. -/
structure Wrote (b₀ b : MultiKeyBuffer) (kcs : List KeyCode) : Prop where
  size_eq : b.size = kcs.length
  cells : b.buf = kcs ++ b₀.buf.drop kcs.length

theorem clear_wrote (b : MultiKeyBuffer) : Wrote b b.clear [] := ⟨rfl, rfl⟩

theorem Wrote.holds (h : Wrote b₀ b kcs) : b.Holds kcs := by
  constructor
  · exact h.size_eq
  · unfold keys
    rw [h.cells, h.size_eq]
    exact List.take_left

theorem Wrote.push (h : Wrote b₀ b kcs) (hroom : kcs.length < bufCap) (kc : KeyCode) :
    Wrote b₀ (b.push kc) (kcs ++ [kc]) := by
  have hbuf := b₀.length_eq
  have hsize : b.size < bufCap := by
    rw [h.size_eq]
    exact hroom
  have hlen : (kcs ++ [kc]).length = kcs.length + 1 := List.length_append
  unfold MultiKeyBuffer.push
  rw [if_pos hsize]
  constructor
  · show b.size + 1 = _
    rw [hlen, h.size_eq]
  · -- the cell after the keys is replaced
    show b.buf.set b.size kc = _
    rw [hlen, h.cells, h.size_eq, List.set_append_right _ _ (Nat.le_refl _), Nat.sub_self,
      List.drop_eq_getElem_cons (by omega), List.set_cons_zero, List.append_assoc]
    rfl

theorem Wrote.pushAll :
    ∀ {kcs' : List KeyCode} {b : MultiKeyBuffer} {kcs : List KeyCode}, Wrote b₀ b kcs →
      kcs.length + kcs'.length ≤ bufCap → Wrote b₀ (kcs'.foldl .push b) (kcs ++ kcs')
  | [], b, kcs, h, _ => by
    rw [List.append_nil]
    exact h
  | kc :: kcs', b, kcs, h, hroom => by
    rw [List.length_cons] at hroom
    rw [List.foldl_cons, List.append_cons]
    refine Wrote.pushAll (h.push (by omega) kc) ?_
    rw [List.length_append]
    show kcs.length + 1 + kcs'.length ≤ bufCap
    omega

/-- The buffer's own keys, pushed behind others. -/
theorem Wrote.pushOwn {held : List KeyCode} (hb₀ : b₀.Holds kcs) (hback : ReadsBack held kcs)
    (hroom : held.length + kcs.length ≤ bufCap) :
    ∀ {n i : Nat} {b : MultiKeyBuffer}, i + n = kcs.length → Wrote b₀ b (held ++ kcs.take i) →
      Wrote b₀ (b.pushOwn n i) (held ++ kcs)
  | 0, i, b, hn, h => by
    have hall : kcs.take i = kcs := List.take_of_length_le (by omega)
    rw [hall] at h
    exact h
  | n + 1, i, b, hn, h => by
    have hi : i < kcs.length := by omega
    have hwritten : (held ++ kcs.take i).length = held.length + i := by
      rw [List.length_append, List.length_take]
      omega
    have hread : b.buf[i]? = kcs[i]? := by
      rw [h.cells]
      cases held with
      | nil =>
        -- nothing was pushed in front: the cell is as it was
        have hkeys := hb₀.keys_eq
        unfold MultiKeyBuffer.keys at hkeys
        rw [hb₀.size_eq] at hkeys
        have htake : (kcs.take i).length = i := by
          rw [List.length_take]
          omega
        have hold : kcs[i]? = b₀.buf[i]? :=
          calc
            kcs[i]? = (b₀.buf.take kcs.length)[i]? := by rw [hkeys]
            _ = b₀.buf[i]? := List.getElem?_take_of_lt hi
        rw [List.nil_append, List.getElem?_append_right (Nat.le_of_eq htake), List.getElem?_drop,
          htake, Nat.sub_self, Nat.add_zero, hold]
      | cons k held =>
        have hlt : i < (k :: held ++ kcs.take i).length := by
          rw [hwritten, List.length_cons]
          omega
        have hbefore := hback i hi
        rw [List.getElem?_append_left hlt, ← hbefore, List.getElem?_append,
          List.getElem?_append]
        split
        · rfl
        · rename_i hge
          rw [List.getElem?_take_of_lt]
          rw [List.length_cons] at hge ⊢
          omega
    have hkc : kcs[i]? = some kcs[i] := List.getElem?_eq_getElem hi
    have hpush := h.push (by omega) kcs[i]
    unfold MultiKeyBuffer.pushOwn
    rw [hread, hkc]
    refine Wrote.pushOwn hb₀ hback hroom (by omega) ?_
    rw [List.append_assoc, List.take_append_getElem] at hpush
    exact hpush

end MultiKeyBuffer

/-! ## What a press does -/

/-- The one-shot keys that a press of another key gets from `handle_press`. -/
def OneShotState.activeKeys (o : OneShotState) : List KCoord :=
  if o.keys.items.isEmpty ∨ o.ticksToIgnoreEvents > 0 then [] else o.keys.items

theorem OneShotState.handlePress_other (o : OneShotState) (coord : KCoord) :
    (o.handlePress (.other coord)).2 = o.activeKeys := by
  unfold handlePress activeKeys
  split
  · rfl
  · dsimp only
    split
    · rfl
    · rfl

/-- The key codes that are held at these coordinates. -/
def heldAt (coords : List KCoord) (states : List (State T)) : List KeyCode :=
  states.filterMap (State.keycodeInCoords coords)

theorem heldAt_nil (states : List (State T)) : heldAt [] states = [] := by
  refine List.filterMap_eq_nil_iff.mpr ?_
  intro st _
  cases st <;> rfl

/-- The states of a chord that was pressed. -/
def pressedStates (coord : KCoord) (flags : NormalKeyFlags) (kcs : List KeyCode) :
    List (State T) :=
  kcs.map fun kc => .normalKey kc coord flags

namespace Layout

variable {cfg : LayoutConfig C R T} {s s' : Layout T} {call : Call T} {kcs : List KeyCode}

/-- The two layouts repeat the same, and have the same one-shot keys. -/
structure SameMemory (s s' : Layout T) : Prop where
  rptAction : s'.rptAction = s.rptAction
  buffer : s'.rptMultikeyKeyBuffer = s.rptMultikeyKeyBuffer
  active : s'.oneshot.activeKeys = s.oneshot.activeKeys

theorem SameMemory.refl (s : Layout T) : SameMemory s s := ⟨rfl, rfl, rfl⟩

theorem SameMemory.trans {s₁ s₂ s₃ : Layout T} (h : SameMemory s₁ s₂) (h' : SameMemory s₂ s₃) :
    SameMemory s₁ s₃ :=
  ⟨h'.rptAction.trans h.rptAction, h'.buffer.trans h.buffer, h'.active.trans h.active⟩

theorem clearOnNextAction_spec :
    ∀ {states states' : List (State T)} {s s' : Layout T},
      clearOnNextAction cfg states s = .ok (states', s') →
        states' = unflagged states ∧ SameMemory s s'
  | [], states', s, s', h => by
    obtain ⟨rfl, rfl⟩ := Prod.mk.inj (pure_eq_ok.mp h)
    exact ⟨rfl, .refl s⟩
  | st :: states, states', s, s', h => by
    -- a state that stays
    have hstays : unflagged (st :: states) = st :: unflagged states →
        (clearOnNextAction cfg states s >>= fun r => pure (st :: r.1, r.2)) = .ok (states', s') →
          states' = unflagged (st :: states) ∧ SameMemory s s' := by
      intro hkeep hrest
      rcases bind_eq_ok.mp hrest with ⟨⟨rest, s₁⟩, hinner, heq⟩
      obtain ⟨rfl, rfl⟩ := Prod.mk.inj (pure_eq_ok.mp heq)
      rcases clearOnNextAction_spec hinner with ⟨rfl, hsame⟩
      exact ⟨hkeep.symm, hsame⟩
    cases st with
    | normalKey keycode coord flags =>
      by_cases hflag : flags.clearOnNextAction = true
      · simp only [clearOnNextAction, hflag, if_true] at h
        rcases bind_eq_ok.mp h with ⟨ticks, _, h⟩
        rcases clearOnNextAction_spec h with ⟨rfl, hsame⟩
        refine ⟨by simp [unflagged, hflag], SameMemory.trans ?_ hsame⟩
        split
        · exact ⟨rfl, rfl, rfl⟩
        · exact ⟨rfl, rfl, rfl⟩
      · simp only [clearOnNextAction, hflag] at h
        exact hstays (by simp [unflagged, hflag]) h
    | _ => exact hstays (by simp [unflagged]) h

/-- The output chords of the last action end, and that is all. -/
theorem beforeAction_spec {coord : KCoord} (h : beforeAction cfg coord s = .ok s') :
    s'.states.items = unflagged s.states.items ∧ SameMemory s s' := by
  unfold beforeAction at h
  rcases bind_eq_ok.mp h with ⟨⟨states, s₁⟩, hclear, heq⟩
  obtain rfl := pure_eq_ok.mp heq
  rcases clearOnNextAction_spec hclear with ⟨hstates, hsame⟩
  have hle : (unflagged s.states.items).length ≤ statesLen :=
    Nat.le_trans (List.length_filter_le _ _) s.states.length_le
  -- whether the last press is forgotten makes no difference
  split at hstates
  all_goals
    rename_i hcoord
    subst hstates
    refine ⟨List.take_of_length_le hle, SameMemory.trans ?_ (hsame.trans ⟨rfl, rfl, rfl⟩)⟩
    first
    | rw [if_pos hcoord]
      exact ⟨rfl, rfl, rfl⟩
    | rw [if_neg hcoord]
      exact .refl s

theorem unflagged_unflagged (states : List (State T)) :
    unflagged (unflagged states) = unflagged states := by
  unfold unflagged
  rw [List.filter_filter]
  simp only [Bool.and_self]

theorem pushHistoricalKey_memory (s : Layout T) (kc : KeyCode) :
    SameMemory s (s.pushHistoricalKey kc) := by
  rw [pushHistoricalKey_eq]
  exact ⟨rfl, rfl, rfl⟩

/-- One key code of an output chord. -/
theorem pressKeyCode_spec (call : Call T) (s : Layout T) (kc : KeyCode)
    (hroom : s.states.items.length < statesLen) :
    (pressKeyCode call s kc).states.items =
        s.states.items ++ [.normalKey kc call.coord ⟨!call.isOneshot, false⟩] ∧
      SameMemory s (pressKeyCode call s kc) := by
  have hpush : ∀ s₁ : Layout T, s₁.states = s.states → SameMemory s s₁ →
      ((s₁.pushHistoricalKey kc).pushState
          (.normalKey kc call.coord ⟨!call.isOneshot, false⟩)).states.items =
          s.states.items ++ [.normalKey kc call.coord ⟨!call.isOneshot, false⟩] ∧
        SameMemory s ((s₁.pushHistoricalKey kc).pushState
          (.normalKey kc call.coord ⟨!call.isOneshot, false⟩)) := by
    intro s₁ hstates hsame
    constructor
    · rw [pushHistoricalKey_eq]
      show (s₁.states.pushIgnore _).items = _
      rw [Bounded.pushIgnore_items, hstates, List.take_of_length_le]
      rw [List.length_append]
      exact hroom
    · exact (hsame.trans (pushHistoricalKey_memory s₁ kc)).trans ⟨rfl, rfl, rfl⟩
  unfold pressKeyCode
  dsimp only
  split
  · exact hpush _ rfl ⟨rfl, rfl, rfl⟩
  · exact hpush s rfl (.refl s)

theorem pressKeyCodes_spec (call : Call T) :
    ∀ {kcs : List KeyCode} {s : Layout T}, s.states.items.length + kcs.length ≤ statesLen →
      (kcs.foldl (pressKeyCode call) s).states.items =
          s.states.items ++ pressedStates call.coord ⟨!call.isOneshot, false⟩ kcs ∧
        SameMemory s (kcs.foldl (pressKeyCode call) s)
  | [], s, _ => ⟨(List.append_nil _).symm, .refl s⟩
  | kc :: kcs, s, hroom => by
    rw [List.length_cons] at hroom
    rcases pressKeyCode_spec call s kc (by omega) with ⟨hstates, hsame⟩
    have hroom' : (pressKeyCode call s kc).states.items.length + kcs.length ≤ statesLen := by
      rw [hstates, List.length_append]
      show s.states.items.length + 1 + kcs.length ≤ statesLen
      omega
    rcases pressKeyCodes_spec call hroom' with ⟨hrest, hsame'⟩
    refine ⟨?_, hsame.trans hsame'⟩
    rw [List.foldl_cons, hrest, hstates, List.append_assoc]
    rfl

/-! ## What is remembered -/

/-- The key codes that the active one-shot keys hold when an action is performed. -/
def oneshotKeys (s : Layout T) : List KeyCode :=
  heldAt s.oneshot.activeKeys (unflagged s.states.items)

/-- `rpt` repeats this chord. -/
structure Remembers (s : Layout T) (kcs : List KeyCode) : Prop where
  rptAction : s.rptAction = some .multiKeyBuffer
  buffer : s.rptMultikeyKeyBuffer.Holds kcs

/-- A press of the chord at the coordinate is remembered whole: the coordinate is not that
of an active one-shot key, and there is room in the states and in the buffer. -/
structure MayRemember (s : Layout T) (coord : KCoord) (kcs : List KeyCode) : Prop where
  other : coord ∉ s.oneshot.activeKeys
  states_room : (unflagged s.states.items).length + kcs.length ≤ statesLen
  buffer_room : s.oneshotKeys.length + kcs.length ≤ bufCap

/-- The chord was pressed at the coordinate, and nothing else was. -/
def Pressed (s s' : Layout T) (coord : KCoord) (flags : NormalKeyFlags) (kcs : List KeyCode) :
    Prop :=
  s'.states.items = unflagged s.states.items ++ pressedStates coord flags kcs

theorem heldAt_pressed {coords : List KCoord} {coord : KCoord} {flags : NormalKeyFlags}
    (hother : coord ∉ coords) (states : List (State T)) (kcs : List KeyCode) :
    heldAt coords (states ++ pressedStates coord flags kcs) = heldAt coords states := by
  have hnone : heldAt coords (pressedStates (T := T) coord flags kcs) = [] := by
    refine List.filterMap_eq_nil_iff.mpr ?_
    intro st hst
    rcases List.mem_map.mp hst with ⟨kc, _, rfl⟩
    simp [State.keycodeInCoords, hother]
  unfold heldAt at hnone ⊢
  rw [List.filterMap_append, hnone, List.append_nil]

theorem finishKeyCodes_active (hcall : call.isOneshot = false)
    (hactive : s.oneshot.activeKeys ≠ []) (kcs : List KeyCode)
    (pushKeys : MultiKeyBuffer → MultiKeyBuffer) :
    (s.finishKeyCodes call kcs pushKeys).states = s.states ∧
      (s.finishKeyCodes call kcs pushKeys).rptAction = some .multiKeyBuffer ∧
      (s.finishKeyCodes call kcs pushKeys).rptMultikeyKeyBuffer =
        pushKeys ((heldAt s.oneshot.activeKeys s.states.items).foldl .push
          s.rptMultikeyKeyBuffer.clear) := by
  have hcoords := s.oneshot.handlePress_other call.coord
  have hkeys : (s.oneshot.activeKeys.isEmpty) = false := List.isEmpty_eq_false_iff.mpr hactive
  unfold finishKeyCodes
  simp only [oneshotHandlePress, setRptBuffer, note, hcall, hcoords, hkeys, Bool.false_eq_true,
    if_false, heldAt, and_self]

theorem finishKeyCodes_inactive (hcall : call.isOneshot = false)
    (hactive : s.oneshot.activeKeys = []) (kcs : List KeyCode)
    (pushKeys : MultiKeyBuffer → MultiKeyBuffer) :
    (s.finishKeyCodes call kcs pushKeys).states = s.states ∧
      (s.finishKeyCodes call kcs pushKeys).rptAction = some call.action ∧
      (s.finishKeyCodes call kcs pushKeys).rptMultikeyKeyBuffer = s.rptMultikeyKeyBuffer := by
  have hcoords := s.oneshot.handlePress_other call.coord
  unfold finishKeyCodes
  simp only [oneshotHandlePress, hcall, hcoords, hactive, Bool.false_eq_true, if_false,
    List.isEmpty_nil, if_true, setRptAction, note, and_self]

/-- The end of a press with active one-shot keys. The chord may be pushed in any way that
leaves it behind the keys that are held. -/
theorem finishKeyCodes_remembers {s₁ : Layout T} {flags : NormalKeyFlags}
    {pushKeys : MultiKeyBuffer → MultiKeyBuffer} (hcall : call.isOneshot = false)
    (hactive : s.oneshot.activeKeys ≠ [])
    (hmay : s.MayRemember call.coord kcs) (hsame : SameMemory s s₁)
    (hpressed : Pressed s s₁ call.coord flags kcs)
    (hpush : ∀ b, MultiKeyBuffer.Wrote s.rptMultikeyKeyBuffer b s.oneshotKeys →
      MultiKeyBuffer.Wrote s.rptMultikeyKeyBuffer (pushKeys b) (s.oneshotKeys ++ kcs)) :
    Pressed s (s₁.finishKeyCodes call kcs pushKeys) call.coord flags kcs ∧
      (s₁.finishKeyCodes call kcs pushKeys).Remembers (s.oneshotKeys ++ kcs) := by
  have hactive₁ : s₁.oneshot.activeKeys ≠ [] := by
    rw [hsame.active]
    exact hactive
  rcases finishKeyCodes_active hcall hactive₁ kcs pushKeys with ⟨hstates, hrpt, hbuffer⟩
  have hheld : heldAt s₁.oneshot.activeKeys s₁.states.items = s.oneshotKeys := by
    rw [hsame.active, hpressed, heldAt_pressed hmay.other]
    rfl
  rw [hheld, hsame.buffer] at hbuffer
  have hroom := hmay.buffer_room
  have hlen : ([] : List KeyCode).length + s.oneshotKeys.length ≤ bufCap := by
    rw [List.length_nil]
    omega
  have hwrote : MultiKeyBuffer.Wrote s.rptMultikeyKeyBuffer
      (s₁.finishKeyCodes call kcs pushKeys).rptMultikeyKeyBuffer (s.oneshotKeys ++ kcs) := by
    rw [hbuffer]
    exact hpush _ ((MultiKeyBuffer.clear_wrote s.rptMultikeyKeyBuffer).pushAll hlen)
  constructor
  · unfold Pressed
    rw [hstates]
    exact hpressed
  · exact ⟨hrpt, hwrote.holds⟩

/-! ## The action -/

/-- The layout in which an action is matched: the output chords of the last action have
ended. -/
structure Entered (s s₁ : Layout T) : Prop where
  states_eq : s₁.states.items = unflagged s.states.items
  memory : SameMemory s s₁

theorem Entered.trans {s₁ s₂ : Layout T} (h : Entered s s₁) (h' : Entered s₁ s₂) :
    Entered s s₂ := by
  constructor
  · rw [h'.states_eq, h.states_eq, unflagged_unflagged]
  · exact h.memory.trans h'.memory

theorem doAction_enters {depth count : Nat} {given : Call T}
    {r : Layout T × CustomEvent T × Nat} (hresolve : cfg.resolveTrans given = .ok call)
    (h : doAction cfg depth given count s = .ok r) :
    ∃ depth' s₁ s₂, Entered s s₁ ∧
      perform (doAction cfg depth') cfg call count s₁ = .ok (s₂, r.2) ∧
      r.1 = s₂.note (.finished call s₂.found) := by
  cases depth with
  | zero => exact absurd h (by simp [doAction, panicWith])
  | succ depth =>
    unfold doAction at h
    rw [hresolve] at h
    rw [ok_bind] at h
    rcases bind_eq_ok.mp h with ⟨s₁, hbefore, h⟩
    rcases bind_eq_ok.mp h with ⟨r₂, hperform, h⟩
    rw [← pure_eq_ok.mp h]
    rcases beforeAction_spec hbefore with ⟨hstates, hsame⟩
    have hnote : SameMemory s₁ (s₁.note (.performed call.action call.coord s₁.found)) :=
      ⟨rfl, rfl, rfl⟩
    exact ⟨depth, s₁.note (.performed call.action call.coord s₁.found), r₂.1,
      ⟨hstates, hsame.trans hnote⟩, hperform, rfl⟩

/-- A chord is pressed behind what is held. -/
theorem Entered.pressed {s₁ : Layout T} (call : Call T) (h : Entered s s₁)
    (hroom : (unflagged s.states.items).length + kcs.length ≤ statesLen) :
    Pressed s (kcs.foldl (pressKeyCode call) (s₁.updateCoord call.coord)) call.coord
        ⟨!call.isOneshot, false⟩ kcs ∧
      SameMemory s (kcs.foldl (pressKeyCode call) (s₁.updateCoord call.coord)) := by
  have hroom₁ : (s₁.updateCoord call.coord).states.items.length + kcs.length ≤ statesLen := by
    show s₁.states.items.length + kcs.length ≤ statesLen
    rw [h.states_eq]
    exact hroom
  rcases pressKeyCodes_spec call hroom₁ with ⟨hstates, hsame⟩
  constructor
  · unfold Pressed
    rw [hstates, ← h.states_eq]
    rfl
  · have hcoord : SameMemory s₁ (s₁.updateCoord call.coord) := ⟨rfl, rfl, rfl⟩
    exact (h.memory.trans hcoord).trans hsame

theorem doKeyCode_remembers {s₁ : Layout T} {kc : KeyCode} (hcall : call.isOneshot = false)
    (hactive : s.oneshot.activeKeys ≠ [])
    (hmay : s.MayRemember call.coord [kc]) (hentered : Entered s s₁) :
    (s₁.doKeyCode call kc).Remembers (s.oneshotKeys ++ [kc]) := by
  have hsame : SameMemory s (((s₁.updateCoord call.coord).pushHistoricalKey kc).pushState
      (.normalKey kc call.coord ⟨false, false⟩)) := by
    rw [pushHistoricalKey_eq]
    exact hentered.memory.trans ⟨rfl, rfl, rfl⟩
  have hpressed : Pressed s (((s₁.updateCoord call.coord).pushHistoricalKey kc).pushState
      (.normalKey kc call.coord ⟨false, false⟩)) call.coord ⟨false, false⟩ [kc] := by
    unfold Pressed
    rw [pushHistoricalKey_eq]
    show (s₁.states.pushIgnore _).items = _
    rw [Bounded.pushIgnore_items, hentered.states_eq, List.take_of_length_le]
    · rfl
    · rw [List.length_append]
      exact hmay.states_room
  exact (finishKeyCodes_remembers hcall hactive hmay hsame hpressed fun b hwrote =>
    hwrote.push hmay.buffer_room kc).2

theorem doMultipleKeyCodes_remembers {s₁ : Layout T} {pushKeys : MultiKeyBuffer → MultiKeyBuffer}
    (call : Call T) (hcall : call.isOneshot = false) (hactive : s.oneshot.activeKeys ≠ [])
    (hmay : s.MayRemember call.coord kcs) (hentered : Entered s s₁)
    (hpush : ∀ b, MultiKeyBuffer.Wrote s.rptMultikeyKeyBuffer b s.oneshotKeys →
      MultiKeyBuffer.Wrote s.rptMultikeyKeyBuffer (pushKeys b) (s.oneshotKeys ++ kcs)) :
    Pressed s (s₁.doMultipleKeyCodes call kcs pushKeys) call.coord ⟨!call.isOneshot, false⟩ kcs ∧
      (s₁.doMultipleKeyCodes call kcs pushKeys).Remembers (s.oneshotKeys ++ kcs) := by
  rcases hentered.pressed call hmay.states_room with ⟨hpressed, hsame⟩
  exact finishKeyCodes_remembers hcall hactive hmay hsame hpressed hpush

/-- `rpt` presses the buffer that it writes. -/
theorem doMultiKeyBuffer_remembers {s₁ : Layout T} (call : Call T) (hcall : call.isOneshot = false)
    (haction : call.action = .multiKeyBuffer) (hrem : s.Remembers kcs)
    (hmay : s.MayRemember call.coord kcs) (hback : ReadsBack s.oneshotKeys kcs)
    (hentered : Entered s s₁) :
    Pressed s (s₁.doMultiKeyBuffer call) call.coord ⟨!call.isOneshot, false⟩ kcs ∧
      (s₁.doMultiKeyBuffer call).Remembers (s.oneshotKeys ++ kcs) := by
  have hsize := hrem.buffer.size_eq
  have hkeys := hrem.buffer.keys_eq
  unfold doMultiKeyBuffer
  dsimp only
  rw [hentered.memory.buffer, hkeys, hsize]
  by_cases hactive : s.oneshot.activeKeys = []
  · -- the buffer is left as it is
    rcases hentered.pressed call hmay.states_room with ⟨hpressed, hsame⟩
    have hactive₁ := hsame.active.trans hactive
    have hnone : s.oneshotKeys = [] := by
      unfold oneshotKeys
      rw [hactive]
      exact heldAt_nil _
    rcases finishKeyCodes_inactive hcall hactive₁ kcs (·.pushOwn kcs.length 0) with
      ⟨hstates, hrpt, hbuffer⟩
    unfold doMultipleKeyCodes
    constructor
    · unfold Pressed
      rw [hstates]
      exact hpressed
    · rw [hnone]
      constructor
      · rw [hrpt, haction]
      · rw [hbuffer, hsame.buffer]
        exact hrem.buffer
  · refine doMultipleKeyCodes_remembers call hcall hactive hmay hentered ?_
    intro b hwrote
    refine MultiKeyBuffer.Wrote.pushOwn hrem.buffer hback hmay.buffer_room (Nat.zero_add _) ?_
    rw [List.take_zero, List.append_nil]
    exact hwrote

/-- The key codes of a key or an output chord. -/
def outputKeys : Action T → Option (List KeyCode)
  | .keyCode kc => some [kc]
  | .multipleKeyCodes kcs => some kcs
  | _ => none

/-- A key or an output chord that is pressed while one-shot keys are active is remembered with
their key codes. -/
theorem press_remembers (hcall : CallOf cfg call s s')
    (hkeys : outputKeys call.action = some kcs) (hnot : call.isOneshot = false)
    (hactive : s.oneshot.activeKeys ≠ []) (hmay : s.MayRemember call.coord kcs) :
    s'.Remembers (s.oneshotKeys ++ kcs) := by
  rcases hcall with ⟨given, depth, count, e, count', hresolve, h⟩
  rcases doAction_enters hresolve h with ⟨depth', s₁, s₂, hentered, h, hlast⟩
  have hdone : s₂.Remembers (s.oneshotKeys ++ kcs) := by
    unfold perform at h
    cases haction : call.action with
    | keyCode kc =>
      rw [haction] at h hkeys
      obtain rfl : [kc] = kcs := Option.some.inj hkeys
      obtain rfl := congrArg Prod.fst (pure_eq_ok.mp h)
      exact doKeyCode_remembers hnot hactive hmay hentered
    | multipleKeyCodes kcs' =>
      rw [haction] at h hkeys
      obtain rfl : kcs' = kcs := Option.some.inj hkeys
      obtain rfl := congrArg Prod.fst (pure_eq_ok.mp h)
      exact (doMultipleKeyCodes_remembers call hnot hactive hmay hentered fun b hwrote =>
        hwrote.pushAll hmay.buffer_room).2
    | _ =>
      rw [haction] at hkeys
      cases hkeys
  rw [show s' = s₂.note _ from hlast]
  exact ⟨hdone.1, hdone.2⟩

/-- A repeat of the remembered chord. -/
theorem repeat_remembers (hcall : CallOf cfg call s s') (hrepeat : call.action = .repeat)
    (hnot : call.isOneshot = false) (hrem : s.Remembers kcs) (hmay : s.MayRemember call.coord kcs)
    (hback : ReadsBack s.oneshotKeys kcs) :
    Pressed s s' call.coord ⟨true, false⟩ kcs ∧ s'.Remembers (s.oneshotKeys ++ kcs) := by
  rcases hcall with ⟨given, depth, count, e, count', hresolve, h⟩
  rcases doAction_enters hresolve h with ⟨depth', s₁, s₂, hentered, h, hlast⟩
  have hrpt : s₁.rptAction = some .multiKeyBuffer := hentered.memory.rptAction.trans hrem.rptAction
  -- `rpt` performs the buffer as an action of its own
  simp only [perform, hrepeat, doRepeat, hrpt, actDiscarding] at h
  rcases bind_eq_ok.mp h with ⟨⟨s₃, custom, count₃⟩, hinner, heq⟩
  have hs₂ : s₃.discard custom = s₂ := congrArg Prod.fst (pure_eq_ok.mp heq)
  have hresolve' : cfg.resolveTrans ⟨.multiKeyBuffer, call.coord, call.delay, call.isOneshot, []⟩ =
      .ok ⟨.multiKeyBuffer, call.coord, call.delay, call.isOneshot, []⟩ := rfl
  rcases doAction_enters hresolve' hinner with ⟨depth'', s₄, s₅, hentered', hinner, hlast'⟩
  have hs₅ : s₄.doMultiKeyBuffer ⟨.multiKeyBuffer, call.coord, call.delay, call.isOneshot, []⟩ =
      s₅ := congrArg Prod.fst (pure_eq_ok.mp hinner)
  have hdone := doMultiKeyBuffer_remembers
    ⟨.multiKeyBuffer, call.coord, call.delay, call.isOneshot, []⟩ hnot rfl hrem hmay hback
    (hentered.trans hentered')
  rw [hs₅, hnot] at hdone
  rw [show s' = s₂.note _ from hlast, ← hs₂, show s₃ = s₅.note _ from hlast', discard_eq]
  exact ⟨hdone.1, hdone.2.1, hdone.2.2⟩

/-! ## Runs -/

/-- As `MayRemember`, and the chord can be pushed behind the one-shot keys while it is read:
always so without their key codes. -/
structure MayRepeat (s : Layout T) (coord : KCoord) (kcs : List KeyCode) : Prop extends
    MayRemember s coord kcs where
  readsBack : ReadsBack s.oneshotKeys kcs

/-- At this point of a run `rpt` repeats this chord, as the trace tells it. -/
def RemembersAt (past : List (Occurrence T)) (kcs : List KeyCode) : Prop :=
  (Told.of past).rptAction = some .multiKeyBuffer ∧
    (Told.of past).rptMultikeyKeyBuffer.Holds kcs

/-- A call of `do_action` in a run with this trace: it goes from a point of the trace to a
later one, and what it finds and leaves is what the trace has there. -/
structure CallIn (cfg : LayoutConfig C R T) (trace : List (Occurrence T)) (call : Call T)
    (t t' : Layout T) : Prop where
  performs : CallOf cfg call t t'
  notes : ∃ t₁ during, t.beforeAction cfg call.coord = .ok t₁ ∧ t'.trace =
    t.trace ++ .performed call.action call.coord t₁.found :: (during ++ [.finished call t'.found])
  passed : t'.trace <+: trace
  before : t.rptAction = (Told.of t.trace).rptAction ∧
    t.rptMultikeyKeyBuffer = (Told.of t.trace).rptMultikeyKeyBuffer
  after : t'.told = .of t'.trace

/-- The chord that is to be repeated at a point of a run: a key or an output chord was pressed
while one-shot keys were active, and every action that is remembered from then on is `rpt`. -/
inductive Chorded (cfg : LayoutConfig C R T) (trace : List (Occurrence T)) :
    List (Occurrence T) → List KeyCode → Prop where
  | press {t t' : Layout T} {call : Call T} {kcs : List KeyCode}
    (hcall : CallIn cfg trace call t t') (hkeys : outputKeys call.action = some kcs)
    (hnot : call.isOneshot = false) (hactive : t.oneshot.activeKeys ≠ [])
    (hmay : t.MayRemember call.coord kcs) : Chorded cfg trace t'.trace (t.oneshotKeys ++ kcs)
  | repeat {t t' : Layout T} {call : Call T} {kcs : List KeyCode}
    (hcall : CallIn cfg trace call t t') (hrepeat : call.action = .repeat)
    (hchord : Chorded cfg trace t.trace kcs) (hnot : call.isOneshot = false)
    (hmay : t.MayRepeat call.coord kcs) :
    Chorded cfg trace t'.trace (t.oneshotKeys ++ kcs)
  | other {past os : List (Occurrence T)} {kcs : List KeyCode} (hchord : Chorded cfg trace past kcs)
    (hos : ∀ o ∈ os, o.topic ≠ .memory) : Chorded cfg trace (past ++ os) kcs

theorem CallIn.remembers {trace : List (Occurrence T)} (h : CallIn cfg trace call s s')
    (hrem : RemembersAt s.trace kcs) : s.Remembers kcs := by
  constructor
  · rw [h.before.1]
    exact hrem.1
  · rw [h.before.2]
    exact hrem.2

theorem CallIn.remembersAt {trace : List (Occurrence T)} (h : CallIn cfg trace call s s')
    (hrem : s'.Remembers kcs) : RemembersAt s'.trace kcs := by
  unfold RemembersAt
  rw [← h.after]
  exact ⟨hrem.rptAction, hrem.buffer⟩

/-- Notes about something else leave it alone. -/
theorem RemembersAt.append {past : List (Occurrence T)} (hrem : RemembersAt past kcs) :
    ∀ {os : List (Occurrence T)}, (∀ o ∈ os, o.topic ≠ .memory) → RemembersAt (past ++ os) kcs := by
  have hkeeps : ∀ (os : List (Occurrence T)) (v : Told T), (∀ o ∈ os, o.topic ≠ .memory) →
      (os.foldl Told.next v).rptAction = v.rptAction ∧
        (os.foldl Told.next v).rptMultikeyKeyBuffer = v.rptMultikeyKeyBuffer := by
    intro os
    induction os with
    | nil => exact fun _ _ => ⟨rfl, rfl⟩
    | cons o os ih =>
      intro v hos
      have hrest := ih (v.next o) fun o' ho' => hos o' (List.mem_cons_of_mem _ ho')
      have ho := hos o List.mem_cons_self
      rw [List.foldl_cons, hrest.1, hrest.2]
      cases o <;> first | exact ⟨rfl, rfl⟩ | exact absurd rfl ho
  intro os hos
  unfold RemembersAt
  rw [Told.of_append, (hkeeps os _ hos).1, (hkeeps os _ hos).2]
  exact hrem

theorem Chorded.remembersAt {trace past : List (Occurrence T)} (h : Chorded cfg trace past kcs) :
    RemembersAt past kcs := by
  induction h with
  | press hcall hkeys hnot hactive hmay =>
    exact hcall.remembersAt (press_remembers hcall.performs hkeys hnot hactive hmay)
  | «repeat» hcall hrepeat _ hnot hmay ih =>
    exact hcall.remembersAt (repeat_remembers hcall.performs hrepeat hnot (hcall.remembers ih)
      hmay.toMayRemember hmay.readsBack).2
  | other _ hos ih => exact ih.append hos

/-- What a call finds is noted where it begins. -/
theorem CallIn.begins {notes : List (Occurrence T)} (h : CallIn cfg notes call s s') :
    ∃ found, notes[s.trace.length]? = some (.performed call.action call.coord found) ∧
      s.trace = notes.take s.trace.length ∧
      found.oneshot.activeKeys = s.oneshot.activeKeys ∧
        found.states = unflagged s.states.items := by
  rcases h.notes with ⟨s₁, during, hbefore, hnotes⟩
  rcases h.passed with ⟨later, rfl⟩
  rcases beforeAction_spec hbefore with ⟨hstates, hmemory⟩
  rw [hnotes, List.append_assoc]
  refine ⟨s₁.found, ?_, ?_, hmemory.active, hstates⟩
  · rw [List.getElem?_append_right (Nat.le_refl _), Nat.sub_self]
    rfl
  · exact List.take_left.symm

/-- The actions that a run performs are calls in it. -/
theorem callIn_of_finished {delay : Nat} {ops : List LayoutOp} {os : List (CustomEvent T)}
    {past later : List (Occurrence T)} {left : Found T}
    (h : run (Layout.step cfg) (.new delay) ops = .ok (s', os))
    (htrace : s'.trace = past ++ .finished call left :: later) :
    ∃ t t', t'.trace = past ++ [.finished call left] ∧ t'.found = left ∧
      CallIn cfg s'.trace call t t' := by
  rcases run_right h htrace with ⟨t, t', ht, hcall, htrace', hleft, htold⟩
  rcases hcall.trace ht with ⟨t₁, during, hbefore, hnotes⟩
  have hpassed : t'.trace <+: s'.trace := by
    rw [htrace, htrace']
    exact ⟨later, List.append_assoc _ _ _⟩
  -- the note of the action says what `rpt` repeated when the call began
  rcases hpassed with ⟨rest, hrest⟩
  have hperformed : s'.trace =
      t.trace ++ .performed call.action call.coord t₁.found ::
        (during ++ [.finished call t'.found] ++ rest) := by
    rw [← hrest, hnotes, List.append_assoc]
    rfl
  have hfound := run_right h hperformed
  have hmemory := (beforeAction_spec hbefore).2
  refine ⟨t, t', htrace', hleft, hcall, ⟨t₁, during, hbefore, hnotes⟩, ⟨rest, hrest⟩, ?_, ?_⟩
  · exact ⟨hmemory.rptAction.symm.trans hfound.1, hmemory.buffer.symm.trans hfound.2⟩
  · rw [htold, htrace', Told.of_append]
    rfl

/-- What a run does with the chord that `rpt` repeats. -/
structure RepeatsChords (cfg : LayoutConfig C R T) (s' : Layout T) : Prop where
  /-- Every action that is performed is performed by a call in the run. -/
  calls : ∀ past call left later, s'.trace = past ++ .finished call left :: later →
    ∃ t t', t'.trace = past ++ [.finished call left] ∧ t'.found = left ∧
      CallIn cfg s'.trace call t t'
  /-- A repeat presses the chord and nothing else, and the chord that is remembered then is that
  of the active one-shot keys followed by it. -/
  repeats : ∀ call t t' kcs, CallIn cfg s'.trace call t t' → call.action = .repeat →
    Chorded cfg s'.trace t.trace kcs → call.isOneshot = false → t.MayRepeat call.coord kcs →
      Pressed t t' call.coord ⟨true, false⟩ kcs ∧ t'.Remembers (t.oneshotKeys ++ kcs)
  /-- Nothing else changes it. -/
  remembers : ∀ kcs, Chorded cfg s'.trace s'.trace kcs → s'.Remembers kcs

/-- In every run, a repeat presses the remembered chord and nothing else, and the chord that is
remembered then is that of the active one-shot keys followed by it. -/
theorem rpt_repeats {delay : Nat} {ops : List LayoutOp} {os : List (CustomEvent T)}
    (h : run (Layout.step cfg) (.new delay) ops = .ok (s', os)) : RepeatsChords cfg s' where
  calls _ _ _ _ htrace := callIn_of_finished h htrace
  repeats call t t' kcs hcall hrepeat hchord hnot hmay :=
    repeat_remembers hcall.performs hrepeat hnot (hcall.remembers hchord.remembersAt)
      hmay.toMayRemember
      hmay.readsBack
  remembers kcs hchord := by
    have hrem := hchord.remembersAt
    unfold RemembersAt at hrem
    rw [← run_told h] at hrem
    exact ⟨hrem.1, hrem.2⟩

end Layout

/-- A one-shot Ctrl that ends with the release of the next key, a key and `rpt`. -/
def ctrlAndRepeat : LayoutConfig 16 2 Nat :=
  oneLayer [.oneShot ⟨.keyCode keyLeftCtrl, 500, .endOnFirstRelease⟩, .keyCode keyA, .repeat]

/-- Only note `i` begins to perform such an action at the coordinate. It finds these one-shot
keys, with their key codes, and room for another chord of two keys. -/
def beginsOnlyAt (p : Action Nat → Bool) (c : KCoord) (i : Nat) (active : List KCoord)
    (held : List KeyCode) (notes : List (Occurrence Nat)) : Bool :=
  notes.zipIdx.all fun o =>
    match o.1 with
    | .performed action c' found => !(p action && c' == c) ||
      (o.2 == i && found.oneshot.activeKeys == active && heldAt active found.states == held &&
        decide (found.states.length + 2 ≤ statesLen))
    | _ => true

/-- The call of such an action in a run with these notes. -/
theorem Layout.CallIn.of_beginsOnlyAt {cfg : LayoutConfig 16 2 Nat} {notes : List (Occurrence Nat)}
    {call : Call Nat} {t t' : Layout Nat} {p : Action Nat → Bool} {i : Nat} {active : List KCoord}
    {held : List KeyCode} (h : CallIn cfg notes call t t')
    (hbegins : beginsOnlyAt p call.coord i active held notes = true) (hp : p call.action = true) :
    t.trace = notes.take i ∧ t.oneshot.activeKeys = active ∧ t.oneshotKeys = held ∧
      (unflagged t.states.items).length + 2 ≤ statesLen := by
  rcases h.begins with ⟨found, hnote, hprefix, hactive, hstates⟩
  have hmem : (Occurrence.performed call.action call.coord found, t.trace.length) ∈ notes.zipIdx :=
    List.mk_mem_zipIdx_iff_getElem?.mpr hnote
  have hfinds := List.all_eq_true.mp hbegins _ hmem
  simp only [hp, beq_self_eq_true, Bool.and_self, Bool.not_true, Bool.false_or, Bool.and_eq_true,
    beq_iff_eq, decide_eq_true_eq] at hfinds
  rcases hfinds with ⟨⟨⟨hi, hkeys⟩, hheld⟩, hroom⟩
  rw [hactive] at hkeys
  rw [hstates] at hheld hroom
  refine ⟨?_, hkeys, ?_, hroom⟩
  · rw [← hi]
    exact hprefix
  · unfold Layout.oneshotKeys
    rw [hkeys, hheld]

def Action.isKeyA : Action Nat → Bool
  | .keyCode kc => kc == keyA
  | _ => false

def Action.isRepeat : Action Nat → Bool
  | .repeat => true
  | _ => false

theorem outputKeys_of_isKeyA {action : Action Nat} (h : action.isKeyA = true) :
    Layout.outputKeys action = some [keyA] := by
  unfold Action.isKeyA at h
  split at h
  · rw [beq_iff_eq.mp h]
    rfl
  · cases h

theorem eq_repeat_of_isRepeat {action : Action Nat} (h : action.isRepeat = true) :
    action = .repeat := by
  unfold Action.isRepeat at h
  split at h
  · rfl
  · cases h

/-- The call of such an action at the coordinate is finished. -/
def Occurrence.isFinishOf (p : Action Nat → Bool) (c : KCoord) : Occurrence Nat → Bool
  | .finished call _ => p call.action && call.coord == c && !call.isOneshot
  | _ => false

theorem of_isFinishOf {p : Action Nat → Bool} {c : KCoord} {o : Occurrence Nat}
    (h : o.isFinishOf p c = true) : ∃ call left, o = .finished call left ∧ p call.action = true ∧
      call.coord = c ∧ call.isOneshot = false := by
  unfold Occurrence.isFinishOf at h
  split at h
  · rename_i call left
    simp only [Bool.and_eq_true, beq_iff_eq, Bool.not_eq_true'] at h
    exact ⟨call, left, rfl, h.1.1, h.1.2, h.2⟩
  · cases h

/-- The chord of Ctrl and the key is pressed as notes 23 to 26, and repeated without a one-shot
key as notes 40 to 46. -/
def pressedAndRepeated (notes : List (Occurrence Nat)) : Bool :=
  beginsOnlyAt Action.isKeyA (0, 2) 23 [(0, 1)] [keyLeftCtrl] notes &&
    notes[26]?.any (Occurrence.isFinishOf Action.isKeyA (0, 2)) &&
    ((notes.drop 27).take 13).all (fun o => o.topic != .memory) &&
    beginsOnlyAt Action.isRepeat (0, 3) 40 [] [] notes &&
    notes[46]?.any (Occurrence.isFinishOf Action.isRepeat (0, 3))

/-- `rpt_repeats` for a repeat after the one-shot: it presses Ctrl and the key. -/
theorem rpt_repeats_after_oneshot :
    ∃ s os call t t', run (Layout.step ctrlAndRepeat) (.new 0)
        [press 1, .tick, release 1, .tick, press 2, .tick, release 2, .tick, .tick, press 3,
          .tick] =
          .ok (s, os) ∧
      Layout.CallIn ctrlAndRepeat s.trace call t t' ∧ call.action = .repeat ∧
      Layout.Pressed t t' (0, 3) ⟨true, false⟩ [keyLeftCtrl, keyA] ∧
      t'.Remembers [keyLeftCtrl, keyA] := by
  have hends : endsWith (Layout.step ctrlAndRepeat) (fun s _ => pressedAndRepeated s.trace) (.new 0)
      [press 1, .tick, release 1, .tick, press 2, .tick, release 2, .tick, .tick, press 3, .tick] =
        true := by
    decide
  rcases of_endsWith hends with ⟨s, os, hrun, hcheck⟩
  have hrepeats := Layout.rpt_repeats hrun
  simp only [pressedAndRepeated, Bool.and_eq_true] at hcheck
  rcases hcheck with ⟨⟨⟨⟨hbegins, hfinish⟩, hquiet⟩, hbegins'⟩, hfinish'⟩
  rcases (Option.any_eq_true _ _).mp hfinish with ⟨o, ho, hfinish⟩
  rcases (Option.any_eq_true _ _).mp hfinish' with ⟨o', ho', hfinish'⟩
  rcases of_isFinishOf hfinish with ⟨call, left, rfl, hkey, hcoord, hnot⟩
  rcases of_isFinishOf hfinish' with ⟨call', left', rfl, hrepeat, hcoord', hnot'⟩
  rcases hrepeats.calls _ _ _ _ (eq_take_cons_drop ho) with ⟨t, t₁, htrace, -, hcall⟩
  rcases hrepeats.calls _ _ _ _ (eq_take_cons_drop ho') with ⟨t', t₁', -, -, hcall'⟩
  have hkeys : Layout.outputKeys call.action = some [keyA] := outputKeys_of_isKeyA hkey
  obtain ⟨-, hactive, hheld, hroom⟩ := hcall.of_beginsOnlyAt (hcoord ▸ hbegins) hkey
  obtain ⟨htrace', hactive', hheld', hroom'⟩ := hcall'.of_beginsOnlyAt (hcoord' ▸ hbegins') hrepeat
  have hmay : t.MayRemember call.coord [keyA] := by
    refine ⟨?_, ?_, ?_⟩
    · rw [hactive, hcoord]
      decide
    · exact Nat.le_of_succ_le hroom
    · rw [hheld]
      decide
  have hmay' : t'.MayRepeat call'.coord [keyLeftCtrl, keyA] := by
    refine ⟨⟨?_, hroom', ?_⟩, ?_⟩
    · rw [hactive']
      exact List.not_mem_nil
    · rw [hheld']
      decide
    · rw [hheld']
      exact fun _ _ => rfl
  have hpressed : Layout.Chorded ctrlAndRepeat s.trace t₁.trace [keyLeftCtrl, keyA] := by
    have hpress := Layout.Chorded.press hcall hkeys hnot (by rw [hactive]; decide) hmay
    rwa [hheld] at hpress
  have hchord : Layout.Chorded ctrlAndRepeat s.trace t'.trace [keyLeftCtrl, keyA] := by
    have hfirst : s.trace.take 27 = t₁.trace := by
      rw [htrace, List.take_add_one, ho]
      rfl
    have hlater : t'.trace = t₁.trace ++ (s.trace.drop 27).take 13 := by
      rw [htrace', ← hfirst]
      exact @List.take_add _ s.trace 27 13
    rw [hlater]
    exact .other hpressed fun o ho => bne_iff_ne.mp (List.all_eq_true.mp hquiet o ho)
  have hdone :=
    hrepeats.repeats call' t' t₁' _ hcall' (eq_repeat_of_isRepeat hrepeat) hchord hnot' hmay'
  rw [hheld', hcoord'] at hdone
  exact ⟨s, os, call', t', t₁', hrun, hcall', eq_repeat_of_isRepeat hrepeat, hdone⟩

/-- A repeat while the one-shot is still active: the buffer is read back from the keys that
were just pushed, and the key is lost. -/
theorem rpt_repeats_fails :
    ∃ s os s' os', run (Layout.step ctrlAndRepeat) (.new 0)
          [press 1, .tick, release 1, .tick, press 2, .tick] = .ok (s, os) ∧
      run (Layout.step ctrlAndRepeat) s [press 3, .tick] = .ok (s', os') ∧
      s.rptMultikeyKeyBuffer.keys s.rptMultikeyKeyBuffer.size = [keyLeftCtrl, keyA] ∧
      s.oneshotKeys = [keyLeftCtrl] ∧
      s'.rptMultikeyKeyBuffer.keys s'.rptMultikeyKeyBuffer.size =
        [keyLeftCtrl, keyLeftCtrl, keyLeftCtrl] ∧
      ¬ s'.Remembers ([keyLeftCtrl] ++ [keyLeftCtrl, keyA]) := by
  have hends : endsWith (Layout.step ctrlAndRepeat)
      (fun s _ => decide (
        s.rptMultikeyKeyBuffer.keys s.rptMultikeyKeyBuffer.size = [keyLeftCtrl, keyA] ∧
        s.oneshotKeys = [keyLeftCtrl] ∧
        endsWith (Layout.step ctrlAndRepeat) (fun s' _ => decide (
          s'.rptMultikeyKeyBuffer.keys s'.rptMultikeyKeyBuffer.size =
            [keyLeftCtrl, keyLeftCtrl, keyLeftCtrl])) s [press 3, .tick] = true)) (.new 0)
      [press 1, .tick, release 1, .tick, press 2, .tick] = true := by
    decide
  rcases of_endsWith hends with ⟨s, os, hrun, hcheck⟩
  rcases of_decide_eq_true hcheck with ⟨hbuffer, hheld, hnext⟩
  rcases of_endsWith hnext with ⟨s', os', hrun', hbuffer'⟩
  have hbuffer' := of_decide_eq_true hbuffer'
  refine ⟨s, os, s', os', hrun, hrun', hbuffer, hheld, hbuffer', ?_⟩
  intro hrem
  have hkeys := hrem.buffer.keys_eq
  rw [hbuffer'] at hkeys
  exact absurd hkeys (by decide)

end Kanata
