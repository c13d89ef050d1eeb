import Kanata.Layout.Told
import Kanata.Layout.Layers
import Mathlib.Data.List.Induction

/-!
# Kanata.Layout.EagerTapDance — the presses of an eager tap-dance

While an eager tap-dance is active, the presses of its coordinate perform its actions one
after the other. Whether it is active is read off the trace: `StaysActive` says that since
its start no other tap-dance started, no other key of the real row was pressed, the presses
of its coordinate came in time and an action is left.

The source compares the coordinate of a press with the last coordinate of the real row that
performed an action, not with that of the tap-dance: for a tap-dance on a virtual key the
two differ. `Agrees` says that they do not.
-/

namespace Kanata

open Fallible Machine

variable {C R : Nat} {T : Type}

/-! ## What the trace says about a tap-dance -/

/-- The actions of the calls that presses of the coordinate made. -/
def pressedAt (c : KCoord) (os : List (Occurrence T)) : List (Action T) :=
  os.filterMap fun o =>
    match o with
    | .pressed call _ => if call.coord = c then some call.action else none
    | _ => none

/-- The ticks since the last press of the coordinate, after one more note. -/
def countTick (c : KCoord) (n : Nat) : Occurrence T → Nat
  | .danceAged => n + 1
  | .pressed call _ => if call.coord = c then 0 else n
  | _ => n

def ticksSince (c : KCoord) (os : List (Occurrence T)) : Nat := os.foldl (countTick c) 0

/-- Since the tap-dance started, nothing ended it. -/
structure StaysActive (td : TapDance (Action T)) (c : KCoord) (during : List (Occurrence T)) :
    Prop where
  noStart : ∀ c' td', .danceStarted c' td' ∉ during
  /-- No other key of the real row was pressed. -/
  noOther : ∀ call last, .pressed call last ∈ during → call.coord.1 = realKeyRow → call.coord = c
  /-- At no time was the timeout over since the last press. -/
  inTime : ∀ before after, during = before ++ after → ticksSince c before < td.timeout
  left : (pressedAt c during).length + 1 < td.actions.length

/-- At each press, the coordinate of the tap-dance is pressed if and only if the last one of the
real row is. -/
def Agrees (c : KCoord) (os : List (Occurrence T)) : Prop :=
  ∀ call last, .pressed call last ∈ os → (call.coord = last ↔ call.coord = c)

/-- The tap-dance of the trace. -/
def danced (td : TapDance (Action T)) (c : KCoord) (during : List (Occurrence T)) :
    TapDanceEagerState T :=
  ⟨c, td.actions, td.timeout - ticksSince c during, td.timeout, 1 + (pressedAt c during).length⟩

section Dance

variable {td : TapDance (Action T)} {c p last : KCoord} {during : List (Occurrence T)}
  {o : Occurrence T} {call : Call T}

theorem pressedAt_append (os os' : List (Occurrence T)) :
    pressedAt c (os ++ os') = pressedAt c os ++ pressedAt c os' := List.filterMap_append

theorem StaysActive.init (h : StaysActive td c (during ++ [o])) : StaysActive td c during where
  noStart c' td' ho := h.noStart c' td' (List.mem_append_left _ ho)
  noOther call last ho := h.noOther call last (List.mem_append_left _ ho)
  inTime before after heq := h.inTime before (after ++ [o]) (by rw [heq, List.append_assoc])
  left := by
    have hleft := h.left
    rw [pressedAt_append, List.length_append] at hleft
    omega

theorem Agrees.init (h : Agrees c (during ++ [o])) : Agrees c during :=
  fun call last ho => h call last (List.mem_append_left _ ho)

theorem StaysActive.active (h : StaysActive td c during) :
    (danced td c during).isExpired = false := by
  have htime := h.inTime during [] (List.append_nil _).symm
  have hleft := h.left
  exact Bool.or_eq_false_iff.mpr
    ⟨beq_eq_false_iff_ne.mpr (show td.timeout - ticksSince c during ≠ 0 by omega),
      decide_eq_false (show ¬ td.actions.length ≤ 1 + (pressedAt c during).length by omega)⟩

/-- A press of the coordinate is taken. -/
theorem danceTaking_eq_some {tde : TapDanceEagerState T} (hp : p = last)
    (h : tde.isExpired = false) :
    danceTaking (some tde) last p = some tde := by
  unfold danceTaking
  rw [if_pos hp]
  simp [Option.filter, h]

theorem danceTaking_eq_none {dance : Option (TapDanceEagerState T)} (hp : p ≠ last) :
    danceTaking dance last p = none := if_neg hp

/-- A tap-dance that stays active counts the presses of its coordinate and the ticks since. By
induction on what happened since it started, from the end. -/
theorem told_danced {past : List (Occurrence T)} (h : StaysActive td c during)
    (hagrees : Agrees c during) :
    (Told.of (past ++ .danceStarted c td :: during)).tapDanceEager = some (danced td c during) := by
  induction during using List.reverseRecOn with
  | nil =>
    rw [Told.of_append]
    rfl
  | append_singleton during o ih =>
    have hbefore := ih h.init hagrees.init
    have hticks : ticksSince c (during ++ [o]) = countTick c (ticksSince c during) o :=
      List.foldl_append
    have hpresses := pressedAt_append (c := c) during [o]
    rw [← List.cons_append, ← List.append_assoc, Told.of_append]
    show ((Told.of (past ++ .danceStarted c td :: during)).next o).tapDanceEager = _
    cases o with
    | danceStarted c' td' =>
      exact absurd (List.mem_append_right _ List.mem_cons_self) (h.noStart c' td')
    | danceAged =>
      have hactive := h.active
      show danceTicked _ = _
      rw [hbefore]
      have hticked : (danced td c during).tickTde = danced td c (during ++ [.danceAged]) := by
        unfold danced TapDanceEagerState.tickTde
        rw [hticks, hpresses]
        simp [pressedAt, countTick, Nat.sub_sub]
      unfold danceTicked
      dsimp only
      rw [hticked, hactive]
      rfl
    | pressed call last =>
      show dancePressed _ last call.coord = _
      rw [hbefore]
      have hmem : Occurrence.pressed call last ∈ during ++ [.pressed call last] :=
        List.mem_append_right _ List.mem_cons_self
      by_cases hc : call.coord = c
      · have hlast := (hagrees call last hmem).mpr hc
        unfold dancePressed
        rw [danceTaking_eq_some hlast h.init.active]
        unfold danced TapDanceEagerState.incrTaps
        rw [hticks, hpresses]
        simp [pressedAt, countTick, hc, Nat.add_assoc]
      · have hlast : call.coord ≠ last := fun heq => hc ((hagrees call last hmem).mp heq)
        have hvirtual : call.coord.1 ≠ realKeyRow := fun hreal =>
          hc (h.noOther call last hmem hreal)
        unfold dancePressed
        rw [danceTaking_eq_none hlast]
        dsimp only
        rw [if_neg hvirtual]
        unfold danced
        rw [hticks, hpresses]
        simp [pressedAt, countTick, hc]
    | _ =>
      show (Told.of (past ++ .danceStarted c td :: during)).tapDanceEager = _
      rw [hbefore]
      unfold danced
      rw [hticks, hpresses]
      simp [pressedAt, countTick]

/-- No tap-dance is active. -/
def Over (dance : Option (TapDanceEagerState T)) : Prop :=
  ∀ tde, dance = some tde → tde.isExpired = true

theorem Over.danceTaking {dance : Option (TapDanceEagerState T)} (h : Over dance)
    (last p : KCoord) :
    danceTaking dance last p = none := by
  unfold Kanata.danceTaking
  split
  · cases dance with
    | none => rfl
    | some tde => simp [Option.filter, h tde rfl]
  · rfl

/-- Only a start makes a tap-dance active again. -/
theorem Over.next {v : Told T} (h : Over v.tapDanceEager) (ho : ∀ c td, o ≠ .danceStarted c td) :
    Over (v.next o).tapDanceEager := by
  cases o with
  | danceStarted c td => exact absurd rfl (ho c td)
  | danceAged =>
    show Over (danceTicked v.tapDanceEager)
    unfold danceTicked
    split
    · split
      · exact fun _ htde => by cases htde
      · -- one that is expired is expired a tick later
        rename_i tde htde hactive
        refine absurd ?_ hactive
        rcases Bool.or_eq_true_iff.mp (h tde htde) with htime | htaps
        · have hzero : tde.timeout = 0 := beq_iff_eq.mp htime
          exact Bool.or_eq_true_iff.mpr (.inl (by simp [TapDanceEagerState.tickTde, hzero]))
        · exact Bool.or_eq_true_iff.mpr (.inr htaps)
    · exact fun _ htde => by cases htde
  | pressed call last =>
    show Over (dancePressed v.tapDanceEager last call.coord)
    unfold dancePressed
    rw [h.danceTaking]
    dsimp only
    split
    · intro tde htde
      rcases Option.map_eq_some_iff.mp htde with ⟨tde', _, rfl⟩
      rfl
    · exact h
  | _ => exact h

theorem Over.append : ∀ {os past : List (Occurrence T)}, Over (Told.of past).tapDanceEager →
    (∀ c td, .danceStarted c td ∉ os) → Over (Told.of (past ++ os)).tapDanceEager
  | [], past, h, _ => by
    rw [List.append_nil]
    exact h
  | o :: os, past, h, hos => by
    rw [List.append_cons]
    refine Over.append ?_ fun c td hmem => hos c td (List.mem_cons_of_mem _ hmem)
    rw [Told.of_append]
    exact h.next fun c td heq => hos c td (heq ▸ List.mem_cons_self)

end Dance

/-! ## Runs -/

namespace Layout

variable {cfg : LayoutConfig C R T} {s' : Layout T}

/-- What an eager tap-dance at a coordinate does in a run to this layout. -/
structure IsolatesDance (cfg : LayoutConfig C R T) (s' : Layout T) (td : TapDance (Action T))
    (c : KCoord) : Prop where
  /-- While it is active, the next press of its coordinate makes a call for the next action, and
  a press of another coordinate for what the layers have there. -/
  next : ∀ past during call last later,
    s'.trace = past ++ .danceStarted c td :: (during ++ .pressed call last :: later) →
    StaysActive td c during → Agrees c (during ++ [.pressed call last]) →
      (call.coord = c → td.actions[1 + (pressedAt c during).length]? = some call.action) ∧
        (call.coord ≠ c → call.action = .trans)
  /-- So its presses performed the actions after the first in order. -/
  inOrder : ∀ past during later, s'.trace = past ++ .danceStarted c td :: (during ++ later) →
    StaysActive td c during → Agrees c during →
      pressedAt c during = (td.actions.drop 1).take (pressedAt c during).length
  /-- After the last action it is over, until a tap-dance starts. -/
  ends : ∀ past during call last more call' last' later,
    s'.trace = past ++ .danceStarted c td ::
      (during ++ .pressed call last :: (more ++ .pressed call' last' :: later)) →
    StaysActive td c during → Agrees c (during ++ [.pressed call last]) → call.coord = c →
    (pressedAt c during).length + 2 = td.actions.length →
    (∀ c' td', .danceStarted c' td' ∉ more) → call'.action = .trans

/-- A press makes a call, and performs first what the call stands for. -/
def PressPerforms (cfg : LayoutConfig C R T) (s : Layout T) : Prop :=
  ∀ depth c since s' e, s.dequeuePress (Layout.doAction cfg depth) cfg c since = .ok (s', e) →
    ∃ call call' found rest, call.coord = c ∧ cfg.resolveTrans call = .ok call' ∧
      s'.trace = s.trace ++ .pressed call s.lastPressTracker.coord ::
        .performed call'.action c found :: rest

/-- The tap-dance starts with its first action. -/
def StartsDance (s : Layout T) : Prop :=
  ∀ (act : DoAction T) (td : TapDance (Action T)) (call : Call T) (count : Nat)
    (r : Layout T × CustomEvent T × Nat), doEagerTapDance act td call count s = .ok r →
    ∃ action, td.actions[0]? = some action ∧
      act { call with action, isOneshot := false } count
        ((s.updateCoord call.coord).startTapDanceEager call.coord td) = .ok r

theorem startsDance (s : Layout T) : s.StartsDance := by
  intro act td call count r h
  unfold doEagerTapDance WaitingState.indexInto at h
  rcases bind_eq_ok.mp h with ⟨action, haction, h⟩
  cases hget : td.actions[0]? with
  | none =>
    rw [hget] at haction
    cases haction
  | some a =>
    rw [hget] at haction
    cases haction
    exact ⟨_, rfl, h⟩

theorem pressPerforms (hs : s'.Obeys (Discipline.free cfg)) : s'.PressPerforms cfg := by
  intro depth c since s₁ e h
  rcases s'.dequeuePress_calls (Layout.doAction cfg depth) cfg since with ⟨action, n, _, heq⟩
  rw [heq] at h
  rcases performPressed_trace hs h with ⟨layerStack, call', found, rest, _, hcall', htrace⟩
  exact ⟨_, call', found, rest, rfl, hcall', htrace⟩

section Runs

variable {delay : Nat} {ops : List LayoutOp} {os : List (CustomEvent T)}
  {td : TapDance (Action T)} {c : KCoord}

theorem next_action (h : run (Layout.step cfg) (.new delay) ops = .ok (s', os))
    {past during later : List (Occurrence T)} {call : Call T} {last : KCoord}
    (htrace : s'.trace = past ++ .danceStarted c td :: (during ++ .pressed call last :: later))
    (hund : StaysActive td c during) (hagrees : Agrees c (during ++ [.pressed call last])) :
    (call.coord = c → td.actions[1 + (pressedAt c during).length]? = some call.action) ∧
      (call.coord ≠ c → call.action = .trans) := by
  have hsplit : s'.trace =
      (past ++ .danceStarted c td :: during) ++ .pressed call last :: later := by
    rw [htrace, List.append_assoc]
    rfl
  have hright : CallsFor _ call last := run_right h hsplit
  rw [told_danced hund hagrees.init] at hright
  unfold CallsFor at hright
  have hmem := hagrees call last (List.mem_append_right _ List.mem_cons_self)
  constructor
  · intro hc
    rw [danceTaking_eq_some (hmem.mpr hc) hund.active] at hright
    exact hright
  · intro hc
    rw [danceTaking_eq_none fun heq => hc (hmem.mp heq)] at hright
    exact hright

/-- By induction on the notes since the start, from the end: each press performs the next action. -/
theorem pressed_inOrder (h : run (Layout.step cfg) (.new delay) ops = .ok (s', os))
    {past during later : List (Occurrence T)}
    (htrace : s'.trace = past ++ .danceStarted c td :: (during ++ later))
    (hund : StaysActive td c during) (hagrees : Agrees c during) :
    pressedAt c during = (td.actions.drop 1).take (pressedAt c during).length := by
  induction during using List.reverseRecOn generalizing later with
  | nil => rfl
  | append_singleton during o ih =>
    rw [List.append_assoc] at htrace
    have hbefore := ih htrace hund.init hagrees.init
    have hpresses := pressedAt_append (c := c) during [o]
    cases o with
    | pressed call last =>
      by_cases hc : call.coord = c
      · have hnext := (next_action h htrace hund.init hagrees).1 hc
        have hone : pressedAt c [.pressed call last] = [call.action] := by simp [pressedAt, hc]
        rw [hpresses, hone, List.length_append, List.length_singleton, List.take_add_one,
          List.getElem?_drop, hnext, ← hbefore]
        rfl
      · have hnone : pressedAt c [.pressed call last] = [] := by simp [pressedAt, hc]
        rw [hpresses, hnone, List.append_nil]
        exact hbefore
    | _ =>
      rw [hpresses]
      simpa [pressedAt] using hbefore

theorem dance_ends (h : run (Layout.step cfg) (.new delay) ops = .ok (s', os))
    {past during more later : List (Occurrence T)} {call call' : Call T} {last last' : KCoord}
    (htrace : s'.trace = past ++ .danceStarted c td ::
      (during ++ .pressed call last :: (more ++ .pressed call' last' :: later)))
    (hund : StaysActive td c during) (hagrees : Agrees c (during ++ [.pressed call last]))
    (hc : call.coord = c) (hall : (pressedAt c during).length + 2 = td.actions.length)
    (hmore : ∀ c' td', .danceStarted c' td' ∉ more) : call'.action = .trans := by
  have hsplit : s'.trace = (past ++ .danceStarted c td :: during ++ [.pressed call last] ++ more) ++
      .pressed call' last' :: later := by
    rw [htrace]
    simp
  have hlast := (hagrees call last (List.mem_append_right _ List.mem_cons_self)).mpr hc
  have hover : Over (Told.of
      (past ++ .danceStarted c td :: during ++ [.pressed call last])).tapDanceEager := by
    rw [Told.of_append]
    show Over (dancePressed (Told.of (past ++ .danceStarted c td :: during)).tapDanceEager last
      call.coord)
    rw [told_danced hund hagrees.init]
    unfold dancePressed
    rw [danceTaking_eq_some hlast hund.active]
    intro tde htde
    cases htde
    exact Bool.or_eq_true_iff.mpr (.inr (decide_eq_true
      (show td.actions.length ≤ 1 + (pressedAt c during).length + 1 by omega)))
  have hright : CallsFor _ call' last' := run_right h hsplit
  unfold CallsFor at hright
  rwa [(hover.append hmore).danceTaking] at hright

/-- In every run, the actions of an eager tap-dance are performed in order, by the presses of
its coordinate alone, as long as it is active. -/
theorem tap_dance_isolated (h : run (Layout.step cfg) (.new delay) ops = .ok (s', os)) :
    (∀ td c, IsolatesDance cfg s' td c) ∧ s'.PressPerforms cfg ∧ s'.StartsDance := by
  have hobeys := (@run_advances _ _ _ cfg delay ops s' os (fun _ _ => True) trivial
    (fun _ _ _ _ _ _ => trivial) h).1
  refine ⟨fun td c => ⟨?_, ?_, ?_⟩, pressPerforms hobeys, startsDance s'⟩
  · exact fun _ _ _ _ _ htrace hund hagrees => next_action h htrace hund hagrees
  · exact fun _ _ _ htrace hund hagrees => pressed_inOrder h htrace hund hagrees
  · exact fun _ _ _ _ _ _ _ _ htrace hund hagrees hc hall hmore =>
      dance_ends h htrace hund hagrees hc hall hmore

end Runs

end Layout

/-! ## A tap-dance on a virtual key -/

/-- Neither a press nor a start. -/
def Occurrence.isNoDance : Occurrence T → Bool
  | .pressed _ _ => false
  | .danceStarted _ _ => false
  | _ => true

theorem ticksSince_le_length (c : KCoord) (os : List (Occurrence T)) :
    ticksSince c os ≤ os.length := by
  induction os using List.reverseRecOn with
  | nil => exact Nat.le_refl 0
  | append_singleton os o ih =>
    have hlast : ticksSince c (os ++ [o]) = countTick c (ticksSince c os) o := List.foldl_append
    rw [hlast, List.length_append, List.length_singleton]
    unfold countTick
    split
    · omega
    · split <;> omega
    · omega

theorem pressedAt_of_noDance (c : KCoord) {os : List (Occurrence T)}
    (h : os.all Occurrence.isNoDance = true) : pressedAt c os = [] := by
  refine List.filterMap_eq_nil_iff.mpr fun o ho => ?_
  have hno := List.all_eq_true.mp h o ho
  cases o <;> first | rfl | cases hno

/-- Before the second press of a short run. -/
theorem StaysActive.of_noDance {td : TapDance (Action T)} {during : List (Occurrence T)}
    (c : KCoord)
    (hnone : during.all Occurrence.isNoDance = true) (htime : during.length < td.timeout)
    (hleft : 1 < td.actions.length) : StaysActive td c during := by
  have hno := List.all_eq_true.mp hnone
  have hpressed := pressedAt_of_noDance c hnone
  constructor
  · exact fun c' td' ho => Bool.noConfusion (hno _ ho)
  · exact fun call last ho => Bool.noConfusion (hno _ ho)
  · intro before after heq
    have hle := ticksSince_le_length c before
    rw [heq, List.length_append] at htime
    omega
  · rw [hpressed]
    exact hleft

/-- From a note at an index to another one some notes later. -/
theorem exists_between {os : List (Occurrence T)} {i j : Nat} {o o' : Occurrence T}
    (ho : os[i]? = some o) (ho' : (os.drop (i + 1))[j]? = some o') :
    os = os.take i ++ o ::
      ((os.drop (i + 1)).take j ++ o' :: (os.drop (i + 1)).drop (j + 1)) := by
  rw [← eq_take_cons_drop ho']
  exact eq_take_cons_drop ho

/-- An eager tap-dance. -/
def twoActions : TapDance (Action Nat) := ⟨[.custom 1, .custom 2], 200, .eager⟩

/-- The tap-dance, and a plain key. -/
def tapDanceAndKey : LayoutConfig 16 2 Nat := oneLayer [.tapDance twoActions, .custom 3]

/-- The start of the tap-dance at the coordinate. -/
def Occurrence.isStartAt (c : KCoord) : Occurrence Nat → Bool
  | .danceStarted c' ⟨[.custom 1, .custom 2], 200, .eager⟩ => c' == c
  | _ => false

/-- A press at the coordinate, which is the last one of the real row too. -/
def Occurrence.isPressAt (c : KCoord) : Occurrence Nat → Bool
  | .pressed call last => call.coord == c && last == c
  | _ => false

def Occurrence.isSecond : Occurrence Nat → Bool
  | .pressed ⟨.custom 2, _, _, _, _⟩ _ => true
  | _ => false

theorem eq_of_isStartAt {c : KCoord} {o : Occurrence Nat} (h : o.isStartAt c = true) :
    o = .danceStarted c twoActions := by
  unfold Occurrence.isStartAt at h
  split at h
  · rw [beq_iff_eq.mp h]
    rfl
  · cases h

theorem eq_of_isPressAt {c : KCoord} {o : Occurrence Nat} (h : o.isPressAt c = true) :
    ∃ call, o = .pressed call c ∧ call.coord = c := by
  unfold Occurrence.isPressAt at h
  split at h
  · rename_i call last
    rw [Bool.and_eq_true, beq_iff_eq, beq_iff_eq] at h
    exact ⟨call, by rw [h.2], h.1⟩
  · cases h

theorem action_of_isSecond {call : Call Nat} {last : KCoord}
    (h : (Occurrence.pressed call last).isSecond = true) : call.action = .custom 2 := by
  unfold Occurrence.isSecond at h
  split at h
  · rename_i heq
    cases heq
    rfl
  · cases h

/-- The tap-dance starts as note `i`, and note `j` after it is a press, with neither in between. -/
def startAndPress (i j : Nat) (c p : KCoord) (notes : List (Occurrence Nat)) : Bool :=
  notes[i]?.any (Occurrence.isStartAt c) && (notes.drop (i + 1))[j]?.any (Occurrence.isPressAt p) &&
    ((notes.drop (i + 1)).take j).all Occurrence.isNoDance && decide (j < 200)

theorem of_startAndPress {i j : Nat} {c p : KCoord} {notes : List (Occurrence Nat)}
    (h : startAndPress i j c p notes = true) :
    ∃ past during call later,
      notes = past ++ .danceStarted c twoActions :: (during ++ .pressed call p :: later) ∧
        (notes.drop (i + 1))[j]? = some (.pressed call p) ∧ call.coord = p ∧
        during.all Occurrence.isNoDance = true ∧ StaysActive twoActions c during := by
  simp only [startAndPress, Bool.and_eq_true, decide_eq_true_eq] at h
  rcases h with ⟨⟨⟨hstart, hpress⟩, hnone⟩, hlt⟩
  rcases (Option.any_eq_true _ _).mp hstart with ⟨o, ho, hstart⟩
  rcases (Option.any_eq_true _ _).mp hpress with ⟨o', ho', hpress⟩
  obtain rfl := eq_of_isStartAt hstart
  rcases eq_of_isPressAt hpress with ⟨call, rfl, hcoord⟩
  refine ⟨_, _, call, _, exists_between ho ho', ho', hcoord, hnone,
    .of_noDance c hnone ?_ (by decide)⟩
  exact Nat.lt_of_le_of_lt (List.length_take_le _ _) hlt

/-- The key of the tap-dance is pressed twice: the second press performs its second action. -/
theorem tap_dance_isolated_second :
    ∃ s os past during call later,
      run (Layout.step tapDanceAndKey) (.new 0) [press 1, .tick, release 1, .tick, press 1, .tick] =
        .ok (s, os) ∧
      s.trace = past ++ .danceStarted (0, 1) twoActions ::
        (during ++ .pressed call (0, 1) :: later) ∧
      call.action = .custom 2 := by
  have hends : endsWith (Layout.step tapDanceAndKey)
      (fun s _ => startAndPress 7 15 (0, 1) (0, 1) s.trace) (.new 0)
      [press 1, .tick, release 1, .tick, press 1, .tick] = true := by
    decide
  rcases of_endsWith hends with ⟨s, os, hrun, hcheck⟩
  rcases of_startAndPress hcheck with ⟨past, during, call, later, htrace, _, hcoord, hnone, hund⟩
  have hagrees : Agrees (0, 1) (during ++ [.pressed call (0, 1)]) := by
    intro call' last hmem
    rcases List.mem_append.mp hmem with hmem | hmem
    · exact Bool.noConfusion (List.all_eq_true.mp hnone _ hmem)
    · cases List.mem_singleton.mp hmem
      exact Iff.rfl
  have hnext := ((Layout.tap_dance_isolated hrun).1 twoActions (0, 1)).next past during call (0, 1)
    later htrace hund hagrees
  refine ⟨s, os, past, during, call, later, hrun, htrace, ?_⟩
  have haction := hnext.1 hcoord
  rw [pressedAt_of_noDance _ hnone] at haction
  exact (Option.some.inj haction).symm

/-- While the tap-dance of a virtual key is active, a press of the last key of the real row
performs its second action, in place of the key's own. -/
theorem tap_dance_isolated_fails :
    ∃ s os past during call later,
      run (Layout.step tapDanceAndKey) (.new 0)
        [press 2, .tick, release 2, .tick, .event (.press 1 1), .tick, press 2, .tick] =
          .ok (s, os) ∧
      s.trace = past ++ .danceStarted (1, 1) twoActions ::
        (during ++ .pressed call (0, 2) :: later) ∧
      StaysActive twoActions (1, 1) during ∧ call.coord = (0, 2) ∧ call.action = .custom 2 := by
  have hends : endsWith (Layout.step tapDanceAndKey)
      (fun s _ => startAndPress 22 10 (1, 1) (0, 2) s.trace &&
        (s.trace.drop 23)[10]?.any Occurrence.isSecond) (.new 0)
      [press 2, .tick, release 2, .tick, .event (.press 1 1), .tick, press 2, .tick] = true := by
    decide
  rcases of_endsWith hends with ⟨s, os, hrun, hcheck⟩
  rw [Bool.and_eq_true] at hcheck
  rcases of_startAndPress hcheck.1 with ⟨past, during, call, later, htrace, hpress, hcoord, _, hund⟩
  have hsecond := hcheck.2
  rw [hpress] at hsecond
  exact ⟨s, os, past, during, call, later, hrun, htrace, hund, hcoord, action_of_isSecond hsecond⟩

end Kanata
