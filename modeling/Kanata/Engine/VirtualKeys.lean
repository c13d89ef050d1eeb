import Kanata.Engine.HeldVkeys
import Kanata.Keyberon.Layout

/-!
# Kanata.Engine.VirtualKeys — what the engine does to virtual keys

`handle_fakekey_action` of `src/kanata/mod.rs` gives the events of a virtual key to the
layout. It is called by custom actions, and by `tick_idle_timeout` and
`tick_physical_idle_timeout` for the actions that wait until nothing happened for a while.
-/

namespace Kanata

open Fallible

inductive FakeKeyAction where
  | press
  | release
  | tap
  | toggle
deriving DecidableEq, Repr

/-- `FakeKeyOnIdle`. -/
structure FakeKeyOnIdle where
  coord : KCoord
  action : FakeKeyAction
  idleDuration : Nat
deriving DecidableEq, Repr

variable {T : Type} {C R : Nat}

/-- `states_has_coord`. -/
def statesHasCoord (states : List (State T)) (c : KCoord) : Bool :=
  states.any fun st => st.coord == some c

/-- `handle_fakekey_action`. -/
def handleFakekeyAction (cfg : LayoutConfig C R T) (action : FakeKeyAction) (layout : Layout T)
    (x y : Nat) : Rust (Layout T) :=
  match action with
  | .press => layout.event cfg (.press x y)
  | .release => layout.event cfg (.release x y)
  | .tap => do
    let layout ← layout.event cfg (.press x y)
    layout.event cfg (.release x y)
  | .toggle =>
    if statesHasCoord layout.states.items (x, y) then layout.event cfg (.release x y)
    else layout.event cfg (.press x y)

/-- An insertion into one of the hash sets of waiting actions. -/
def insertIdle (waiting : List FakeKeyOnIdle) (fkd : FakeKeyOnIdle) : List FakeKeyOnIdle :=
  if waiting.contains fkd then waiting else waiting ++ [fkd]

/-- What the closure of `retain` does to the layout. -/
def processIdle (cfg : LayoutConfig C R T) (ticksSince : Nat) (layout : Layout T)
    (wfd : FakeKeyOnIdle) : Rust (Layout T) :=
  if ticksSince ≥ wfd.idleDuration then
    handleFakekeyAction cfg wfd.action layout wfd.coord.1 wfd.coord.2
  else pure layout

/-- The actions that waited long enough are done and not retained. -/
def tickWaiting (iter : HashOrder FakeKeyOnIdle) (cfg : LayoutConfig C R T)
    (waiting : List FakeKeyOnIdle) (ticksSince : Nat) (layout : Layout T) :
    Rust (Layout T × List FakeKeyOnIdle) := do
  let layout ← (iter.order waiting).foldlM (processIdle cfg ticksSince) layout
  pure (layout, waiting.filter fun wfd => decide (ticksSince < wfd.idleDuration))

/-- Events for the layout, one after the other. -/
def events (cfg : LayoutConfig C R T) (es : List Event) (layout : Layout T) : Rust (Layout T) :=
  es.foldlM (fun layout e => layout.event cfg e) layout

/-- Nothing is done when nothing waits. -/
theorem tickWaiting_nil (iter : HashOrder FakeKeyOnIdle) (cfg : LayoutConfig C R T)
    (ticksSince : Nat) (layout : Layout T) :
    tickWaiting iter cfg [] ticksSince layout = .ok (layout, []) := by
  unfold tickWaiting
  rw [(iter.perm []).eq_nil]
  rfl

end Kanata
