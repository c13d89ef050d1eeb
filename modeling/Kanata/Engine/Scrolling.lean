import Kanata.Basic
import Kanata.Lib.Machine
import Mathlib.Algebra.BigOperators.Group.List.Basic
import Mathlib.Algebra.Order.Ring.Abs
import Mathlib.Data.List.Induction
import Mathlib.Tactic.LinearCombination

/-!
# Kanata.Engine.Scrolling — the two resolutions of the scroll wheel

`KbdOut::scroll` of `oskbd/linux.rs` writes a distance in units of high resolution
as it is, and what it makes in whole units of low resolution. What does not make a
whole unit is kept for the next call of the same axis, without its direction.

* `scroll_total`: a call from a state that calls can leave, with what it writes; no
  addition overflows;
* `InStep`: how far apart the two streams are, kept by calls that turn only where
  nothing is left over;
* `scroll_conserves`: over any calls no addition overflows, and the streams stay
  together if they turn only where nothing is left over.
-/

namespace Kanata

open Fallible

inductive MWheelDirection where
  | up
  | down
  | left
  | right
deriving DecidableEq, Repr

inductive RelativeAxisCode where
  | relWheel
  | relHwheel
  | relWheelHiRes
  | relHwheelHiRes
deriving DecidableEq, Repr

/-- An `InputEvent` of the relative type. -/
structure InputEvent where
  code : RelativeAxisCode
  value : Int
deriving DecidableEq, Repr

/-- `HI_RES_SCROLL_UNITS_IN_LO_RES`. -/
def hiResScrollUnitsInLoRes : UInt16 := 120

/-- An addition of `u16` that panics when it overflows. -/
def checkedAdd (a b : UInt16) : Rust UInt16 :=
  if a.toNat + b.toNat < 65536 then .ok (a + b)
  else panicWith "attempt to add with overflow"

/-- The part of `KbdOut` that scrolling uses. -/
structure KbdOut where
  accumulatedScroll : UInt16
  accumulatedHscroll : UInt16
deriving DecidableEq, Repr

namespace KbdOut

def new : KbdOut := ⟨0, 0⟩

/-- The next state, and the events handed to the device. -/
def scroll (k : KbdOut) (direction : MWheelDirection) (hiResDistance : UInt16) :
    Rust (KbdOut × List InputEvent) := do
  let loResDistance := hiResDistance / hiResScrollUnitsInLoRes
  let leftoverHiResDistance := hiResDistance % hiResScrollUnitsInLoRes
  let (k, loResDistance) ← match direction with
    | .up | .down => do
      let accumulated ← checkedAdd k.accumulatedScroll leftoverHiResDistance
      let loResDistance ← checkedAdd loResDistance (accumulated / hiResScrollUnitsInLoRes)
      pure ({ k with accumulatedScroll := accumulated % hiResScrollUnitsInLoRes }, loResDistance)
    | .left | .right => do
      let accumulated ← checkedAdd k.accumulatedHscroll leftoverHiResDistance
      let loResDistance ← checkedAdd loResDistance (accumulated / hiResScrollUnitsInLoRes)
      pure ({ k with accumulatedHscroll := accumulated % hiResScrollUnitsInLoRes }, loResDistance)
  let hiResScrollEvent : InputEvent :=
    { code := match direction with
        | .up | .down => .relWheelHiRes
        | .left | .right => .relHwheelHiRes
      value := match direction with
        | .up | .right => hiResDistance.toNat
        | .down | .left => -hiResDistance.toNat }
  let loResScrollEvent : InputEvent :=
    { code := match direction with
        | .up | .down => .relWheel
        | .left | .right => .relHwheel
      value := match direction with
        | .up | .right => loResDistance.toNat
        | .down | .left => -loResDistance.toNat }
  if loResDistance > 0 then pure (k, [hiResScrollEvent, loResScrollEvent])
  else pure (k, [hiResScrollEvent])

/-- A call of `scroll` is a step of the device. -/
def scrollStep (k : KbdOut) (call : MWheelDirection × UInt16) :
    Rust (KbdOut × List InputEvent) := k.scroll call.1 call.2

end KbdOut

/-! ## Axes -/

inductive WheelAxis where
  | vertical
  | horizontal
deriving DecidableEq, Repr

namespace MWheelDirection

def axis : MWheelDirection → WheelAxis
  | up | down => .vertical
  | left | right => .horizontal

/-- Up and right are positive. -/
def sign : MWheelDirection → Int
  | up | right => 1
  | down | left => -1

end MWheelDirection

namespace WheelAxis

def loRes : WheelAxis → RelativeAxisCode
  | vertical => .relWheel
  | horizontal => .relHwheel

def hiRes : WheelAxis → RelativeAxisCode
  | vertical => .relWheelHiRes
  | horizontal => .relHwheelHiRes

end WheelAxis

/-- What is left over on an axis. -/
def KbdOut.accumulated (k : KbdOut) : WheelAxis → UInt16
  | .vertical => k.accumulatedScroll
  | .horizontal => k.accumulatedHscroll

def KbdOut.keep (k : KbdOut) (leftover : UInt16) : WheelAxis → KbdOut
  | .vertical => { k with accumulatedScroll := leftover }
  | .horizontal => { k with accumulatedHscroll := leftover }

@[simp] theorem KbdOut.accumulated_keep (k : KbdOut) (leftover : UInt16) (axis axis' : WheelAxis) :
    (k.keep leftover axis).accumulated axis' =
      if axis' = axis then leftover else k.accumulated axis' := by
  cases axis <;> cases axis' <;> rfl

/-- The sum of the values written for a code. -/
def written (code : RelativeAxisCode) (events : List InputEvent) : Int :=
  ((events.filter fun e => e.code = code).map InputEvent.value).sum

@[simp] theorem written_nil (code : RelativeAxisCode) : written code [] = 0 := rfl

@[simp] theorem written_cons (code : RelativeAxisCode) (e : InputEvent) (events : List InputEvent) :
    written code (e :: events) = (if e.code = code then e.value else 0) + written code events := by
  unfold written
  rw [List.filter_cons]
  split <;> simp_all

theorem written_append (code : RelativeAxisCode) (xs ys : List InputEvent) :
    written code (xs ++ ys) = written code xs + written code ys := by
  simp [written]

/-! ## One call -/

/-- The events of a call whose distance makes `lo` whole units. -/
def scrollEvents (direction : MWheelDirection) (hiResDistance lo : UInt16) : List InputEvent :=
  if lo > 0 then
    [⟨direction.axis.hiRes, direction.sign * hiResDistance.toNat⟩,
      ⟨direction.axis.loRes, direction.sign * lo.toNat⟩]
  else [⟨direction.axis.hiRes, direction.sign * hiResDistance.toNat⟩]

/-- The two branches of a call are the same up to the axis. -/
theorem KbdOut.scroll_eq (k : KbdOut) (direction : MWheelDirection) (hiResDistance : UInt16) :
    k.scroll direction hiResDistance = (do
      let accumulated ← checkedAdd (k.accumulated direction.axis)
        (hiResDistance % hiResScrollUnitsInLoRes)
      let lo ← checkedAdd (hiResDistance / hiResScrollUnitsInLoRes)
        (accumulated / hiResScrollUnitsInLoRes)
      pure (k.keep (accumulated % hiResScrollUnitsInLoRes) direction.axis,
        scrollEvents direction hiResDistance lo)) := by
  have hite : ∀ (c : Prop) [Decidable c] (k : KbdOut) (a b : List InputEvent),
      (if c then pure (k, a) else pure (k, b) : Rust (KbdOut × List InputEvent)) =
        pure (k, if c then a else b) := by
    intro c _ k a b
    split <;> rfl
  cases direction <;>
    simp only [KbdOut.scroll, pure_bind, hite, scrollEvents, MWheelDirection.axis,
      MWheelDirection.sign, KbdOut.accumulated, KbdOut.keep, WheelAxis.hiRes, WheelAxis.loRes,
      one_mul, Int.neg_mul]

/-- What is left over and what a call brings make up the units and the next leftover. -/
theorem checkedAdd_leftover {acc distance : UInt16} (h : acc.toNat < 120) :
    ∃ accumulated lo,
      checkedAdd acc (distance % hiResScrollUnitsInLoRes) = .ok accumulated ∧
      checkedAdd (distance / hiResScrollUnitsInLoRes) (accumulated / hiResScrollUnitsInLoRes) =
        .ok lo ∧
      (accumulated % hiResScrollUnitsInLoRes).toNat = (acc.toNat + distance.toNat) % 120 ∧
      lo.toNat = (acc.toNat + distance.toNat) / 120 := by
  have hunits : hiResScrollUnitsInLoRes.toNat = 120 := rfl
  have hdistance := distance.toNat_lt
  have hfirst : acc.toNat + (distance % hiResScrollUnitsInLoRes).toNat < 65536 := by
    rw [UInt16.toNat_mod, hunits]
    omega
  have haccumulated : (acc + distance % hiResScrollUnitsInLoRes).toNat =
      acc.toNat + distance.toNat % 120 := by
    rw [UInt16.toNat_add, Nat.mod_eq_of_lt hfirst, UInt16.toNat_mod, hunits]
  have hsecond : (distance / hiResScrollUnitsInLoRes).toNat +
      ((acc + distance % hiResScrollUnitsInLoRes) / hiResScrollUnitsInLoRes).toNat < 65536 := by
    rw [UInt16.toNat_div, UInt16.toNat_div, haccumulated, hunits]
    omega
  refine ⟨_, _, if_pos hfirst, if_pos hsecond, ?_, ?_⟩
  · rw [UInt16.toNat_mod, haccumulated, hunits]
    omega
  · rw [UInt16.toNat_add, Nat.mod_eq_of_lt hsecond, UInt16.toNat_div, UInt16.toNat_div,
      haccumulated, hunits]
    omega

/-- What a call writes for a code. -/
theorem written_scrollEvents (direction : MWheelDirection) (hiResDistance lo : UInt16)
    (axis : WheelAxis) :
    written axis.hiRes (scrollEvents direction hiResDistance lo) =
        (if direction.axis = axis then direction.sign * hiResDistance.toNat else 0) ∧
      written axis.loRes (scrollEvents direction hiResDistance lo) =
        (if direction.axis = axis then direction.sign * lo.toNat else 0) := by
  unfold scrollEvents
  split
  · cases direction <;> cases axis <;>
      simp [MWheelDirection.axis, WheelAxis.hiRes, WheelAxis.loRes]
  · next hlo =>
    -- no unit is an event that is not written
    have hzero : lo.toNat = 0 := by
      rw [gt_iff_lt, UInt16.lt_iff_toNat_lt] at hlo
      simpa using hlo
    cases direction <;> cases axis <;>
      simp [MWheelDirection.axis, WheelAxis.hiRes, WheelAxis.loRes, hzero]

/-! ## All calls -/

/-- The calls on an axis that scroll at all. -/
def moves (axis : WheelAxis) (calls : List (MWheelDirection × UInt16)) :
    List (MWheelDirection × UInt16) :=
  calls.filter fun call => call.1.axis = axis && call.2.toNat ≠ 0

/-- The distance of some calls, whatever their direction. -/
def distance (calls : List (MWheelDirection × UInt16)) : Nat :=
  (calls.map fun call => call.2.toNat).sum

/-- Where a call turns back, the calls up to there have made whole units. -/
def WholeTurns (calls : List (MWheelDirection × UInt16)) : Prop :=
  ∀ pre a b post, calls = pre ++ a :: b :: post → a.1 ≠ b.1 → 120 ∣ distance (pre ++ [a])

/-- How far the units written are ahead of the distance, if `calls` go one way since
the last whole unit. -/
def ahead (calls : List (MWheelDirection × UInt16)) : Int :=
  match calls.getLast? with
  | none => 0
  | some call => -(call.1.sign * (distance calls % 120 : Nat))

theorem distance_concat (calls : List (MWheelDirection × UInt16))
    (call : MWheelDirection × UInt16) :
    distance (calls ++ [call]) = distance calls + call.2.toNat := by
  simp [distance]

theorem ahead_concat (calls : List (MWheelDirection × UInt16)) (call : MWheelDirection × UInt16) :
    ahead (calls ++ [call]) = -(call.1.sign * ((distance calls + call.2.toNat) % 120 : Nat)) := by
  unfold ahead
  rw [List.getLast?_concat, distance_concat]

theorem WholeTurns.prefix {calls calls' : List (MWheelDirection × UInt16)}
    (h : WholeTurns (calls ++ calls')) : WholeTurns calls := by
  rintro pre a b post rfl hne
  exact h pre a b (post ++ calls') (by simp) hne

/-- A call changes how far ahead the units are by what it takes from the leftover,
in its own direction. -/
theorem WholeTurns.ahead_eq {calls : List (MWheelDirection × UInt16)}
    {call : MWheelDirection × UInt16} (h : WholeTurns (calls ++ [call])) :
    ahead calls = -(call.1.sign * (distance calls % 120 : Nat)) := by
  rcases List.eq_nil_or_concat' calls with rfl | ⟨calls, last, rfl⟩
  · simp [ahead, distance]
  · rw [ahead_concat, distance_concat]
    by_cases hsame : last.1 = call.1
    · rw [hsame]
    · -- nothing is left over where the direction changes
      have hwhole := h calls last call [] (by simp) hsame
      rw [distance_concat] at hwhole
      rw [Nat.mod_eq_zero_of_dvd hwhole]
      simp

theorem moves_concat (axis : WheelAxis) (calls : List (MWheelDirection × UInt16))
    (call : MWheelDirection × UInt16) :
    moves axis (calls ++ [call]) =
      if call.1.axis = axis ∧ call.2.toNat ≠ 0 then moves axis calls ++ [call]
      else moves axis calls := by
  unfold moves
  rw [List.filter_append]
  split <;> simp_all

/-- The state and the streams of an axis after some calls. -/
structure InStep (axis : WheelAxis) (calls : List (MWheelDirection × UInt16)) (k : KbdOut)
    (events : List InputEvent) : Prop where
  accumulated : (k.accumulated axis).toNat = distance (moves axis calls) % 120
  difference : WholeTurns (moves axis calls) →
    120 * written axis.loRes events - written axis.hiRes events = ahead (moves axis calls)

section Step

variable {axis : WheelAxis} {calls : List (MWheelDirection × UInt16)} {k k' : KbdOut}
  {events events' : List InputEvent} {call : MWheelDirection × UInt16}

/-- A call that leaves an axis alone. -/
theorem InStep.idle (h : InStep axis calls k events)
    (hmoves : moves axis (calls ++ [call]) = moves axis calls)
    (haccumulated : k'.accumulated axis = k.accumulated axis)
    (hhiRes : written axis.hiRes events' = 0) (hloRes : written axis.loRes events' = 0) :
    InStep axis (calls ++ [call]) k' (events ++ events') := by
  constructor
  · rw [haccumulated, hmoves]
    exact h.accumulated
  · intro hturns
    rw [hmoves] at hturns ⊢
    rw [written_append, written_append, hhiRes, hloRes, add_zero, add_zero]
    exact h.difference hturns

/-- A call that scrolls on an axis. -/
theorem InStep.move (h : InStep axis calls k events)
    (hmoves : moves axis (calls ++ [call]) = moves axis calls ++ [call])
    (haccumulated : (k'.accumulated axis).toNat =
      ((k.accumulated axis).toNat + call.2.toNat) % 120)
    (hhiRes : written axis.hiRes events' = call.1.sign * call.2.toNat)
    (hloRes : written axis.loRes events' =
      call.1.sign * (((k.accumulated axis).toNat + call.2.toNat) / 120 : Nat)) :
    InStep axis (calls ++ [call]) k' (events ++ events') := by
  constructor
  · rw [haccumulated, hmoves, distance_concat, h.accumulated, Nat.mod_add_mod]
  · intro hturns
    rw [hmoves] at hturns ⊢
    have hbefore := h.difference hturns.prefix
    rw [hturns.ahead_eq] at hbefore
    rw [written_append, written_append, hhiRes, hloRes, ahead_concat, h.accumulated]
    generalize distance (moves axis calls) = total at hbefore ⊢
    -- what was left over and the call make whole units and the new leftover
    have hdivision := Nat.div_add_mod (total % 120 + call.2.toNat) 120
    rw [Nat.mod_add_mod] at hdivision
    have hdivision : (120 * ((total % 120 + call.2.toNat) / 120 : Nat) : Int) +
        ((total + call.2.toNat) % 120 : Nat) = (total % 120 : Nat) + call.2.toNat := by
      exact_mod_cast hdivision
    linear_combination hbefore + call.1.sign * hdivision

/-- A call does not overflow and keeps the balance of each axis. -/
theorem InStep.scroll (h : ∀ axis, InStep axis calls k events) :
    ∃ k' events', k.scrollStep call = .ok (k', events') ∧
      ∀ axis, InStep axis (calls ++ [call]) k' (events ++ events') := by
  have hlt : (k.accumulated call.1.axis).toNat < 120 := by
    rw [(h call.1.axis).accumulated]
    exact Nat.mod_lt _ (Nat.zero_lt_succ 119)
  rcases @checkedAdd_leftover _ call.2 hlt with ⟨accumulated, lo, hfirst, hsecond, hleft, hlo⟩
  refine ⟨k.keep (accumulated % hiResScrollUnitsInLoRes) call.1.axis,
    scrollEvents call.1 call.2 lo, ?_, fun axis => ?_⟩
  · rw [KbdOut.scrollStep, KbdOut.scroll_eq, hfirst, ok_bind, hsecond, ok_bind]
    rfl
  · have hwritten := written_scrollEvents call.1 call.2 lo axis
    have hmoves := moves_concat axis calls call
    by_cases haxis : call.1.axis = axis
    · subst haxis
      rw [if_pos rfl, if_pos rfl] at hwritten
      by_cases hzero : call.2.toNat = 0
      · -- a distance of zero brings nothing and makes no unit
        rw [if_neg fun hboth => hboth.2 hzero] at hmoves
        have hlo : lo.toNat = 0 := by omega
        refine (h _).idle hmoves ?_ (by simp [hwritten.1, hzero]) (by simp [hwritten.2, hlo])
        rw [KbdOut.accumulated_keep, if_pos rfl, ← UInt16.toNat_inj, hleft]
        omega
      · rw [if_pos ⟨rfl, hzero⟩] at hmoves
        refine (h _).move hmoves ?_ hwritten.1 (by rw [hwritten.2, hlo])
        rw [KbdOut.accumulated_keep, if_pos rfl, hleft]
    · rw [if_neg haxis, if_neg haxis] at hwritten
      rw [if_neg fun hboth => haxis hboth.1] at hmoves
      refine (h axis).idle hmoves ?_ hwritten.1 hwritten.2
      rw [KbdOut.accumulated_keep, if_neg (Ne.symm haxis)]

end Step

theorem inStep_new (axis : WheelAxis) : InStep axis [] KbdOut.new [] := by
  constructor
  · cases axis <;> rfl
  · exact fun _ => rfl

/-- Over all calls there is no overflow, and the balance is kept. -/
theorem run_inStep (calls : List (MWheelDirection × UInt16)) :
    ∃ k events, Machine.run KbdOut.scrollStep KbdOut.new calls = .ok (k, events) ∧
      ∀ axis, InStep axis calls k events.flatten := by
  induction calls using List.reverseRecOn with
  | nil => exact ⟨KbdOut.new, [], rfl, inStep_new⟩
  | append_singleton calls call ih =>
    rcases ih with ⟨k, events, hrun, hinStep⟩
    rcases @InStep.scroll _ _ _ call hinStep with ⟨k', events', hstep, hinStep'⟩
    refine ⟨k', events ++ [events'], ?_, ?_⟩
    · refine Machine.run_append_eq_ok.mpr ⟨k, events, [events'], hrun, ?_, rfl⟩
      exact Machine.run_cons_eq_ok.mpr ⟨k', events', [], hstep, rfl, rfl⟩
    · simpa using hinStep'

theorem abs_ahead_lt (calls : List (MWheelDirection × UInt16)) : |ahead calls| < 120 := by
  unfold ahead
  split
  · exact abs_lt.mpr (by omega)
  · next call _ =>
    have hsign : |call.1.sign| = 1 := by cases call.1 <;> rfl
    rw [abs_neg, abs_mul, hsign, one_mul, Nat.abs_cast]
    exact_mod_cast Nat.mod_lt _ (Nat.zero_lt_succ 119)

/-- No calls overflow, and the two streams of an axis differ by less than a unit if
the calls turn only where nothing is left over. -/
theorem scroll_conserves (calls : List (MWheelDirection × UInt16)) :
    ∃ k events, Machine.run KbdOut.scrollStep KbdOut.new calls = .ok (k, events) ∧
      ∀ axis, WholeTurns (moves axis calls) →
        |120 * written axis.loRes events.flatten - written axis.hiRes events.flatten| < 120 := by
  rcases run_inStep calls with ⟨k, events, hrun, hinStep⟩
  refine ⟨k, events, hrun, fun axis hturns => ?_⟩
  rw [(hinStep axis).difference hturns]
  exact abs_ahead_lt _

/-- A turn after a whole unit. -/
theorem scroll_conserves_turn :
    ∃ k events, Machine.run KbdOut.scrollStep KbdOut.new [(.up, 60), (.up, 60), (.down, 250)] =
        .ok (k, events) ∧
      |120 * written .relWheel events.flatten - written .relWheelHiRes events.flatten| < 120 := by
  rcases scroll_conserves [(.up, 60), (.up, 60), (.down, 250)] with ⟨k, events, hrun, hbound⟩
  refine ⟨k, events, hrun, hbound .vertical ?_⟩
  intro pre a b post heq hne
  have hmoves : moves .vertical [(.up, 60), (.up, 60), (.down, 250)] =
      [(.up, 60), (.up, 60), (.down, 250)] := rfl
  rw [hmoves] at heq
  rcases pre with _ | ⟨c, _ | ⟨d, pre⟩⟩
  · simp only [List.nil_append, List.cons.injEq] at heq
    rcases heq with ⟨rfl, rfl, _⟩
    exact absurd rfl hne
  · simp only [List.cons_append, List.nil_append, List.cons.injEq] at heq
    rcases heq with ⟨rfl, rfl, rfl, _⟩
    exact ⟨1, rfl⟩
  · -- too few calls are left for a turn
    have hlength := congrArg List.length heq
    simp only [List.length_cons, List.length_append, List.length_nil] at hlength
    omega

/-- Half a unit up and half a unit down is written as a unit down. -/
theorem scroll_conserves_fails :
    ∃ k events, Machine.run KbdOut.scrollStep KbdOut.new [(.up, 60), (.down, 60)] =
        .ok (k, events) ∧
      ¬|120 * written .relWheel events.flatten - written .relWheelHiRes events.flatten| < 120 :=
  ⟨⟨0, 0⟩, [[⟨.relWheelHiRes, 60⟩], [⟨.relWheelHiRes, -60⟩, ⟨.relWheel, -1⟩]], rfl, by decide⟩

end Kanata
