import Kanata.Basic
import Kanata.Lib.Bounded

/-!
# Kanata.Keyberon.Event — key events and their queues

A press or release at a coordinate, and the same with the time it has waited.
-/

namespace Kanata

/-- A key press or release at row `i`, column `j`. -/
inductive Event where
  | press (i j : Nat)
  | release (i j : Nat)
deriving DecidableEq, Repr

/-- `Event::coord`. -/
def Event.coord : Event → KCoord
  | .press i j => (i, j)
  | .release i j => (i, j)

/-- `Event::is_press`. -/
def Event.isPress : Event → Bool
  | .press _ _ => true
  | .release _ _ => false

/-- An event with the number of ticks since it arrived. -/
structure Queued where
  event : Event
  since : Nat
  /-- History variable, read by no function of the model: the number of the
  arrival, and `none` for an event that the program made itself. -/
  origin : Option Nat
deriving DecidableEq, Repr

def Queued.newPress (i j : Nat) : Queued := ⟨.press i j, 0, none⟩

def Queued.newRelease (i j : Nat) : Queued := ⟨.release i j, 0, none⟩

/-- `Queued::tick_qd`. -/
def Queued.tickQd (qd : Queued) : Queued := { qd with since := satAdd qd.since 1 }

@[simp] theorem Queued.tickQd_event (qd : Queued) : qd.tickQd.event = qd.event := rfl

@[simp] theorem Queued.tickQd_origin (qd : Queued) : qd.tickQd.origin = qd.origin := rfl

/-- `QUEUE_SIZE`. -/
def queueSize : Nat := 32

abbrev Queue := Bounded queueSize Queued

end Kanata
