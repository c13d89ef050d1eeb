import Kanata.Basic
import Kanata.Lib.Machine

/-!
# Kanata.Engine.MouseMovement — moving the pointer with keys

`handle_move_mouse` of `kanata/mod.rs` and the custom actions that start and stop it. While a
key is held, the pointer moves each time its interval has passed. With smooth diagonals a move
waits for the next one, and is sent together with a move on the other axis.

`smooth_diagonals`: smoothing keeps the moves and their order. In each stretch between two
releases at most the last move is missing, the one that waits when a key is released.

The distances that are computed with floating point numbers are parameters.
-/

namespace Kanata

open Fallible Machine

inductive MoveDirection where
  | up
  | down
  | left
  | right
deriving DecidableEq, Repr

inductive Axis where
  | vertical
  | horizontal
deriving DecidableEq, Repr

def MoveDirection.axis : MoveDirection → Axis
  | .up | .down => .vertical
  | .left | .right => .horizontal

structure CalculatedMouseMove where
  direction : MoveDirection
  distance : Nat
deriving DecidableEq, Repr

/-- What the program computes with floating point numbers: how much a move has accelerated
after some of the ticks of its acceleration, and a distance that is scaled by a speed. -/
structure MouseFloats where
  increment : (minDistance maxDistance accelTime ticksFromMin : Nat) → Nat
  scale : (distance modifier : Nat) → Nat

/-- The increment is a function of the ticks instead of their factor. -/
structure MoveMouseAccelState where
  accelTicksFromMin : Nat
  accelTicksUntilMax : Nat
  accelIncrement : Nat → Nat
  minDistance : Nat
  maxDistance : Nat

structure MoveMouseState where
  direction : MoveDirection
  interval : Nat
  ticksUntilMove : Nat
  distance : Nat
  moveMouseAccelState : Option MoveMouseAccelState

/-- The part of `Kanata` that moves the pointer. -/
structure MouseState where
  moveMouseStateVertical : Option MoveMouseState
  moveMouseStateHorizontal : Option MoveMouseState
  moveMouseSpeedModifiers : List Nat
  movemouseBuffer : Option (Axis × CalculatedMouseMove)

/-- The options and the floating point functions. -/
structure MouseConfig where
  movemouseInheritAccelState : Bool
  movemouseSmoothDiagonals : Bool
  floats : MouseFloats

/-- The moves of one write. -/
abbrev MouseWrite := List CalculatedMouseMove

namespace MouseState

def new : MouseState := ⟨none, none, [], none⟩

/-- `apply_mouse_distance_modifiers`. -/
def applyMouseDistanceModifiers (cfg : MouseConfig) (initialDistance : Nat)
    (mods : List Nat) : Nat :=
  mods.foldl cfg.floats.scale initialDistance

def setAxis (s : MouseState) (axis : Axis) (mms : Option MoveMouseState) : MouseState :=
  match axis with
  | .vertical => { s with moveMouseStateVertical := mms }
  | .horizontal => { s with moveMouseStateHorizontal := mms }

def getAxis (s : MouseState) : Axis → Option MoveMouseState
  | .vertical => s.moveMouseStateVertical
  | .horizontal => s.moveMouseStateHorizontal

/-- One tick of an acceleration. The distance stays below the maximal one. -/
def accelerate (mms : MoveMouseState) : MoveMouseState :=
  match mms.moveMouseAccelState with
  | some mmas =>
    if mmas.accelTicksUntilMax ≠ 0 then
      { mms with
        distance := mmas.minDistance + mmas.accelIncrement mmas.accelTicksFromMin
        moveMouseAccelState := some { mmas with
          accelTicksFromMin := mmas.accelTicksFromMin + 1
          accelTicksUntilMax := mmas.accelTicksUntilMax - 1 } }
    else { mms with distance := mmas.maxDistance }
  | none => mms

/-- A move is sent, or waits for one on the other axis. -/
def sendMove (cfg : MouseConfig) (s : MouseState) (currentMove : CalculatedMouseMove) :
    MouseState × List MouseWrite :=
  if cfg.movemouseSmoothDiagonals then
    let axis := currentMove.direction.axis
    match s.movemouseBuffer with
    | some (previousAxis, previousMove) =>
      if axis = previousAxis then
        ({ s with movemouseBuffer := some (axis, currentMove) }, [[previousMove]])
      else ({ s with movemouseBuffer := none }, [[previousMove, currentMove]])
    | none => ({ s with movemouseBuffer := some (axis, currentMove) }, [])
  else (s, [[currentMove]])

/-- One axis of `handle_move_mouse`. The interval is not zero. -/
def handleAxis (cfg : MouseConfig) (axis : Axis) (s : MouseState) : MouseState × List MouseWrite :=
  match (s.getAxis axis).map accelerate with
  | some mms =>
    if mms.ticksUntilMove = 0 then
      let currentMove : CalculatedMouseMove := ⟨mms.direction,
        applyMouseDistanceModifiers cfg mms.distance s.moveMouseSpeedModifiers⟩
      (s.setAxis axis (some { mms with ticksUntilMove := mms.interval - 1 })).sendMove cfg
        currentMove
    else (s.setAxis axis (some { mms with ticksUntilMove := mms.ticksUntilMove - 1 }), [])
  | none => (s, [])

def handleMoveMouse (cfg : MouseConfig) (s : MouseState) : MouseState × List MouseWrite :=
  let vertical := s.handleAxis cfg .vertical
  let horizontal := vertical.1.handleAxis cfg .horizontal
  (horizontal.1, vertical.2 ++ horizontal.2)

/-- The press of `MoveMouse`. -/
def moveMouse (s : MouseState) (direction : MoveDirection) (interval distance : Nat) : MouseState :=
  s.setAxis direction.axis (some ⟨direction, interval, 0, distance, none⟩)

/-- The acceleration that a new move takes over, or starts. -/
def accelState (cfg : MouseConfig) (s : MouseState) (accelTime minDistance maxDistance : Nat) :
    MoveMouseAccelState :=
  let started : MoveMouseAccelState :=
    ⟨0, accelTime, cfg.floats.increment minDistance maxDistance accelTime, minDistance, maxDistance⟩
  if cfg.movemouseInheritAccelState then
    match s.moveMouseStateHorizontal.bind MoveMouseState.moveMouseAccelState,
      s.moveMouseStateVertical.bind MoveMouseState.moveMouseAccelState with
    | some mmas, _ => mmas
    | none, some mmas => mmas
    | none, none => started
  else started

/-- The press of `MoveMouseAccel`. -/
def moveMouseAccel (cfg : MouseConfig) (s : MouseState) (direction : MoveDirection)
    (interval accelTime minDistance maxDistance : Nat) : MouseState :=
  s.setAxis direction.axis (some ⟨direction, interval, 0, minDistance,
    some (s.accelState cfg accelTime minDistance maxDistance)⟩)

/-- The release of `MoveMouse` and `MoveMouseAccel`. -/
def releaseMove (cfg : MouseConfig) (s : MouseState) (direction : MoveDirection) : MouseState :=
  let s :=
    match s.getAxis direction.axis with
    | some mms => if mms.direction = direction then s.setAxis direction.axis none else s
    | none => s
  if cfg.movemouseSmoothDiagonals then { s with movemouseBuffer := none } else s

end MouseState

inductive MouseOp where
  | moveMouse (direction : MoveDirection) (interval distance : Nat)
  | moveMouseAccel (direction : MoveDirection) (interval accelTime minDistance maxDistance : Nat)
  | releaseMove (direction : MoveDirection)
  | moveMouseSpeed (speed : Nat)
  | releaseSpeed (speed : Nat)
  | handleMoveMouse
deriving DecidableEq, Repr

open MouseState in
/-- What a press, a release or a tick does. -/
def MouseConfig.step (cfg : MouseConfig) (s : MouseState) :
    MouseOp → Rust (MouseState × List MouseWrite)
  | .moveMouse direction interval distance => pure (s.moveMouse direction interval distance, [])
  | .moveMouseAccel direction interval accelTime minDistance maxDistance =>
    pure (s.moveMouseAccel cfg direction interval accelTime minDistance maxDistance, [])
  | .releaseMove direction => pure (s.releaseMove cfg direction, [])
  | .moveMouseSpeed speed =>
    pure ({ s with moveMouseSpeedModifiers := s.moveMouseSpeedModifiers ++ [speed] }, [])
  | .releaseSpeed speed =>
    pure ({ s with moveMouseSpeedModifiers := s.moveMouseSpeedModifiers.erase speed }, [])
  | .handleMoveMouse => pure (s.handleMoveMouse cfg)

/-! ## Smoothing -/

def MouseConfig.plain (cfg : MouseConfig) : MouseConfig :=
  { cfg with movemouseSmoothDiagonals := false }

def MouseConfig.smooth (cfg : MouseConfig) : MouseConfig :=
  { cfg with movemouseSmoothDiagonals := true }

def MouseOp.isReleaseMove : MouseOp → Bool
  | .releaseMove _ => true
  | _ => false

/-- The moves that are sent up to each release and after the last one. What a release itself
sends begins the next stretch. -/
def stretchesFrom (moves : List CalculatedMouseMove) :
    List (MouseOp × List MouseWrite) → List (List CalculatedMouseMove)
  | [] => [moves]
  | (op, writes) :: rest =>
    if op.isReleaseMove then moves :: stretchesFrom writes.flatten rest
    else stretchesFrom (moves ++ writes.flatten) rest

/-- The stretches of a run. -/
def stretches (ops : List MouseOp) (writes : List (List MouseWrite)) :
    List (List CalculatedMouseMove) :=
  stretchesFrom [] (ops.zip writes)

/-- No move is outside the stretches. -/
theorem flatten_stretchesFrom (moves : List CalculatedMouseMove)
    (sent : List (MouseOp × List MouseWrite)) :
    (stretchesFrom moves sent).flatten = moves ++ (sent.flatMap Prod.snd).flatten := by
  induction sent generalizing moves with
  | nil => simp [stretchesFrom]
  | cons head rest ih =>
    unfold stretchesFrom
    split <;> simp [ih]

/-- The last move may be missing. -/
def MayLackLast (plain smooth : List CalculatedMouseMove) : Prop :=
  ∃ waiting : Option CalculatedMouseMove, plain = smooth ++ waiting.toList

namespace MouseState

variable {cfg : MouseConfig} {s s' : MouseState} {writes writes' : List MouseWrite}

/-- The move that waits for one on the other axis. -/
def waitingMove (s : MouseState) : Option CalculatedMouseMove := s.movemouseBuffer.map Prod.snd

def unbuffered (s : MouseState) : MouseState := { s with movemouseBuffer := none }

/-- What smoothing makes of a call: the same state, and the same moves, of which one may be
the one that waited, and one may wait. -/
def Lags (s : MouseState) (plain smooth : MouseState × List MouseWrite) : Prop :=
  smooth.1.unbuffered = plain.1 ∧
    s.waitingMove.toList ++ plain.2.flatten = smooth.2.flatten ++ smooth.1.waitingMove.toList

theorem sendMove_lags (cfg : MouseConfig) (s : MouseState) (currentMove : CalculatedMouseMove) :
    Lags s (s.unbuffered.sendMove cfg.plain currentMove) (s.sendMove cfg.smooth currentMove) := by
  have hplain : s.unbuffered.sendMove cfg.plain currentMove = (s.unbuffered, [[currentMove]]) := rfl
  have hsmooth : cfg.smooth.movemouseSmoothDiagonals = true := rfl
  rw [hplain]
  unfold sendMove Lags waitingMove
  rw [if_pos hsmooth]
  rcases hbuffer : s.movemouseBuffer with _ | ⟨previousAxis, previousMove⟩
  · exact ⟨rfl, rfl⟩
  · dsimp only
    split <;> exact ⟨rfl, rfl⟩

@[simp] theorem getAxis_unbuffered (s : MouseState) (axis : Axis) :
    s.unbuffered.getAxis axis = s.getAxis axis := by
  cases axis <;> rfl

@[simp] theorem setAxis_unbuffered (s : MouseState) (axis : Axis) (mms : Option MoveMouseState) :
    s.unbuffered.setAxis axis mms = (s.setAxis axis mms).unbuffered := by
  cases axis <;> rfl

@[simp] theorem waitingMove_setAxis (s : MouseState) (axis : Axis) (mms : Option MoveMouseState) :
    (s.setAxis axis mms).waitingMove = s.waitingMove := by
  cases axis <;> rfl

/-- A call that sends nothing. -/
theorem lags_quiet (h : s'.waitingMove = s.waitingMove) :
    Lags s (s'.unbuffered, []) (s', []) := by
  refine ⟨rfl, ?_⟩
  rw [h]
  exact List.append_nil _

theorem handleAxis_lags (cfg : MouseConfig) (axis : Axis) (s : MouseState) :
    Lags s (s.unbuffered.handleAxis cfg.plain axis) (s.handleAxis cfg.smooth axis) := by
  unfold handleAxis
  rw [getAxis_unbuffered]
  rcases (s.getAxis axis).map accelerate with _ | mms
  · exact lags_quiet rfl
  · dsimp only
    split
    · have hsend := sendMove_lags cfg
        (s.setAxis axis (some { mms with ticksUntilMove := mms.interval - 1 }))
        ⟨mms.direction, applyMouseDistanceModifiers cfg mms.distance s.moveMouseSpeedModifiers⟩
      rw [← setAxis_unbuffered] at hsend
      unfold Lags at hsend
      rw [waitingMove_setAxis] at hsend
      exact hsend
    · rw [setAxis_unbuffered]
      exact lags_quiet (waitingMove_setAxis _ _ _)

theorem handleMoveMouse_lags (cfg : MouseConfig) (s : MouseState) :
    Lags s (s.unbuffered.handleMoveMouse cfg.plain) (s.handleMoveMouse cfg.smooth) := by
  have hvertical := handleAxis_lags cfg .vertical s
  have hhorizontal := handleAxis_lags cfg .horizontal (s.handleAxis cfg.smooth .vertical).1
  unfold handleMoveMouse
  dsimp only
  rw [hvertical.1] at hhorizontal
  refine ⟨hhorizontal.1, ?_⟩
  rw [List.flatten_append, List.flatten_append, ← List.append_assoc, hvertical.2, List.append_assoc,
    hhorizontal.2, List.append_assoc]

/-- A release ends the move that waits. -/
theorem releaseMove_unbuffered (cfg : MouseConfig) (s : MouseState) (direction : MoveDirection) :
    (s.releaseMove cfg.smooth direction).unbuffered =
        s.unbuffered.releaseMove cfg.plain direction ∧
      (s.releaseMove cfg.smooth direction).waitingMove = none := by
  have hsmooth : cfg.smooth.movemouseSmoothDiagonals = true := rfl
  have hplain : cfg.plain.movemouseSmoothDiagonals = false := rfl
  unfold releaseMove
  rw [if_pos hsmooth, hplain, if_neg Bool.false_ne_true, getAxis_unbuffered]
  refine ⟨?_, rfl⟩
  split
  · split
    · rw [setAxis_unbuffered]
      rfl
    · rfl
  · rfl

theorem moveMouse_unbuffered (s : MouseState) (direction : MoveDirection)
    (interval distance : Nat) :
    s.unbuffered.moveMouse direction interval distance =
      (s.moveMouse direction interval distance).unbuffered :=
  setAxis_unbuffered s _ _

theorem moveMouseAccel_unbuffered (cfg : MouseConfig) (s : MouseState) (direction : MoveDirection)
    (interval accelTime minDistance maxDistance : Nat) :
    s.unbuffered.moveMouseAccel cfg.plain direction interval accelTime minDistance maxDistance =
      (s.moveMouseAccel cfg.smooth direction interval accelTime minDistance
        maxDistance).unbuffered :=
  setAxis_unbuffered s _ _

/-- A step other than a release lags, and a release drops the move that waits. -/
theorem step_lags (cfg : MouseConfig) (s : MouseState) (op : MouseOp) :
    ∃ plain smooth, cfg.plain.step s.unbuffered op = .ok plain ∧
      cfg.smooth.step s op = .ok smooth ∧
      if op.isReleaseMove then smooth.1.unbuffered = plain.1 ∧ plain.2 = [] ∧ smooth.2 = [] ∧
        smooth.1.waitingMove = none
      else Lags s plain smooth := by
  cases op with
  | moveMouse direction interval distance =>
    refine ⟨_, _, rfl, rfl, ?_⟩
    rw [moveMouse_unbuffered]
    exact lags_quiet (waitingMove_setAxis _ _ _)
  | moveMouseAccel direction interval accelTime minDistance maxDistance =>
    refine ⟨_, _, rfl, rfl, ?_⟩
    rw [moveMouseAccel_unbuffered]
    exact lags_quiet (waitingMove_setAxis _ _ _)
  | releaseMove direction =>
    rcases releaseMove_unbuffered cfg s direction with ⟨hstate, hwaiting⟩
    exact ⟨_, _, rfl, rfl, hstate, rfl, rfl, hwaiting⟩
  | moveMouseSpeed speed => exact ⟨_, _, rfl, rfl, lags_quiet rfl⟩
  | releaseSpeed speed => exact ⟨_, _, rfl, rfl, lags_quiet rfl⟩
  | handleMoveMouse => exact ⟨_, _, rfl, rfl, handleMoveMouse_lags cfg s⟩

/-- The stretches of a run from a state in which a move may wait: it is missing from those
sent so far. -/
theorem run_stretches (cfg : MouseConfig) : ∀ (ops : List MouseOp) (s : MouseState),
    ∃ (s' : MouseState) (writes writes' : List (List MouseWrite)),
      run cfg.plain.step s.unbuffered ops = .ok (s'.unbuffered, writes) ∧
      run cfg.smooth.step s ops = .ok (s', writes') ∧
      ∀ moves moves', moves = moves' ++ s.waitingMove.toList →
        List.Forall₂ MayLackLast (stretchesFrom moves (ops.zip writes))
          (stretchesFrom moves' (ops.zip writes'))
  | [], s => ⟨s, [], [], rfl, rfl, fun _ _ hmoves => .cons ⟨_, hmoves⟩ .nil⟩
  | op :: ops, s => by
    rcases step_lags cfg s op with ⟨plain, smooth, hplain, hsmooth, hstep⟩
    rcases run_stretches cfg ops smooth.1 with ⟨s', writes, writes', hrun, hrun', hstretches⟩
    have hunbuffered : smooth.1.unbuffered = plain.1 := by
      split at hstep
      · exact hstep.1
      · exact hstep.1
    rw [hunbuffered] at hrun
    refine ⟨s', plain.2 :: writes, smooth.2 :: writes',
      run_cons_eq_ok.mpr ⟨_, _, _, hplain, hrun, rfl⟩,
      run_cons_eq_ok.mpr ⟨_, _, _, hsmooth, hrun', rfl⟩, fun moves moves' hmoves => ?_⟩
    rw [List.zip_cons_cons, List.zip_cons_cons, stretchesFrom, stretchesFrom]
    split at hstep
    · -- the stretch ends, and the move that waited is dropped
      rename_i hrelease
      rcases hstep with ⟨-, hnone, hnone', hwaiting⟩
      rw [if_pos hrelease, if_pos hrelease, hnone, hnone']
      refine .cons ⟨_, hmoves⟩ (hstretches _ _ ?_)
      rw [hwaiting]
      rfl
    · rename_i hrelease
      rw [if_neg hrelease, if_neg hrelease]
      refine hstretches _ _ ?_
      rw [hmoves, List.append_assoc, hstep.2, List.append_assoc]

end MouseState

/-- However the pointer is moved, smoothing sends the same moves in the same order, except that
in each stretch between two releases the last one may be missing. Nothing else changes. -/
theorem smooth_diagonals (cfg : MouseConfig) (ops : List MouseOp) :
    ∃ (s' : MouseState) (writes writes' : List (List MouseWrite)),
      run cfg.plain.step .new ops = .ok (s'.unbuffered, writes) ∧
      run cfg.smooth.step .new ops = .ok (s', writes') ∧
      List.Forall₂ MayLackLast (stretches ops writes) (stretches ops writes') := by
  rcases MouseState.run_stretches cfg ops .new with ⟨s', writes, writes', hrun, hrun', hstretches⟩
  exact ⟨s', writes, writes', hrun, hrun', hstretches [] [] rfl⟩

end Kanata
