import Kanata.Chord.Coordinates
import Kanata.Keyberon.Layout

/-!
# Kanata.Layout.Discipline — which actions are performed where

Actions reach `do_action` along many paths: from the layers, out of other
actions, remembered for `rpt`, held by a waiting key, put in the action queue,
handed out by chords v2. A `Discipline` says which actions may be performed at
which coordinates and is closed under all these paths; `Obeys` says it of
everything that a layout holds. Proofs about runs pick a discipline and never
follow an action themselves.
-/

namespace Kanata

variable {C R : Nat} {T : Type}

/-- The coordinates at which a chord group may act when its key `c` was pressed:
`c` itself and the other keys of the group. -/
def ChordsGroup.MayActAt {A : Type} (group : ChordsGroup A) (c c' : KCoord) : Prop :=
  c' = c ∨ c' ∈ group.coords.map (·.1)

/-- `do_action` remembers the action for `rpt` when it performs it. -/
def Action.isRemembered : Action T → Bool
  | .trans => false
  | .layer _ => false
  | .defaultLayer _ => false
  | .holdTap _ => false
  | .tapDance _ => false
  | .chords _ => false
  | .repeat => false
  | .src => false
  | _ => true

/-- The panics of `resolve_coord` and of the index into `src_keys`. -/
def lookupPanics : List String :=
  ["index out of bounds: layers", "assertion failed: x <= self.layers[0].len()",
    "index out of bounds: rows of a layer", "assertion failed: y <= self.layers[0][0].len()",
    "assertion failed: usize::from(layer) <= self.layers.len()",
    "index out of bounds: columns of a layer", "index out of bounds: src_keys"]

/-- A key was looked up where there is none. -/
def Panic.IsLookup (p : Panic) : Prop := p.msg ∈ lookupPanics

instance (p : Panic) : Decidable p.IsLookup := inferInstanceAs (Decidable (_ ∈ _))

/-- A closed choice of actions and coordinates, `E` being the panics that are
allowed. Only those of key lookups can be excluded. -/
structure Discipline (cfg : LayoutConfig C R T) (E : Panic → Prop) where
  otherPanics : ∀ p : Panic, ¬ p.IsLookup → E p
  /-- The action may be performed at the coordinate. -/
  performs : Action T → KCoord → Prop
  /-- The action may be remembered for `rpt`. -/
  repeats : Action T → Prop
  /-- The coordinate may be pressed. -/
  presses : KCoord → Prop
  /-- The layer may be in a layer stack. -/
  layers : Nat → Prop
  /-- Events may come in at the front of the queue. -/
  fronts : Prop := True
  /-- A waiting state may be resolved so. What waits for a key that overflows is
  resolved to hold. -/
  resolves : WaitingAction → Prop
  resolves_hold : resolves .hold
  layers_zero : layers 0
  layer : ∀ {v c}, performs (.layer v) c → layers (asU16 v)
  defaultLayer : ∀ {v}, v < cfg.layers.length → layers (asU16 v)
  press : ∀ {c}, presses c → performs .trans c
  /-- A coordinate at which chords v2 make their fake presses. -/
  triggers : presses Chord.triggerTapholdCoord
  remember : ∀ {a c}, performs a c → a.isRemembered = true → repeats a
  repeatKeys : repeats .multiKeyBuffer
  rpt : ∀ {a c}, performs .repeat c → repeats a → performs a c
  trans : ∀ {call : Call T}, performs .trans call.coord → (∀ l ∈ call.layerStack, layers l) →
    Fallible.Ensures (cfg.resolveCoord call.coord call.layerStack)
      (fun r => performs r.1 call.coord ∧ ∀ l ∈ r.2, layers l) E
  src : ∀ {c}, performs .src c →
    Fallible.Ensures (cfg.srcKey c.2) (fun a => performs a c) E
  holdTap : ∀ {ht c}, performs (.holdTap ht) c →
    performs ht.hold c ∧ performs ht.tap c ∧ performs ht.timeoutAction c
  oneShot : ∀ {os c}, performs (.oneShot os) c → performs os.action c
  tapDance : ∀ {td c}, performs (.tapDance td) c → ∀ a ∈ td.actions, performs a c
  /-- Later taps of an eager tap-dance are performed where the last real press was. -/
  tapDanceEager : ∀ {td c c'}, performs (.tapDance td) c → presses c' →
    ∀ a ∈ td.actions, performs a c'
  chords : ∀ {group c c'}, performs (.chords group) c → group.MayActAt c c' →
    ∀ ka ∈ group.chords, performs ka.2 c'
  multipleActions : ∀ {as c}, performs (.multipleActions as) c → ∀ a ∈ as, performs a c
  fork : ∀ {fcfg c}, performs (.fork fcfg) c → performs fcfg.left c ∧ performs fcfg.right c
  switch : ∀ {sw c}, performs (.switch sw) c → ∀ case ∈ sw.cases, performs case.action c
  noOp : ∀ c, performs .noOp c
  /-- The actions of chords v2 are performed at the virtual coordinates. -/
  chordsV2 : ∀ {chords key possible}, cfg.chordsV2 = some chords →
    chords.chords.mapping key = some possible →
    ∀ chord ∈ possible, ∀ coord, Chord.IsCoord coord → performs chord.action (0, coord)

/-- The discipline that allows everything. -/
def Discipline.free (cfg : LayoutConfig C R T) : Discipline cfg fun _ => True where
  otherPanics _ _ := trivial
  performs _ _ := True
  repeats _ := True
  presses _ := True
  layers _ := True
  resolves _ := True
  resolves_hold := trivial
  layers_zero := trivial
  layer _ := trivial
  defaultLayer _ := trivial
  press _ := trivial
  triggers := trivial
  remember _ _ := trivial
  repeatKeys := trivial
  rpt _ _ := trivial
  trans _ _ := Fallible.ensures_iff_of_ok.mpr fun _ _ => ⟨trivial, fun _ _ => trivial⟩
  src _ := Fallible.ensures_iff_of_ok.mpr fun _ _ => trivial
  holdTap _ := ⟨trivial, trivial, trivial⟩
  oneShot _ := trivial
  tapDance _ _ _ := trivial
  tapDanceEager _ _ _ _ := trivial
  chords _ _ _ _ := trivial
  multipleActions _ _ _ := trivial
  fork _ := ⟨trivial, trivial⟩
  switch _ _ _ := trivial
  noOp _ := trivial
  chordsV2 _ _ _ _ _ _ := trivial

namespace WaitingConfig

/-- The actions that the decision may still bring in. -/
def Obeys {cfg : LayoutConfig C R T} {E : Panic → Prop} (D : Discipline cfg E) (coord : KCoord) :
    WaitingConfig T → Prop
  | .holdTap _ => True
  | .tapDance tds => ∀ a ∈ tds.actions, D.performs a coord
  | .chord group => ∀ c, group.MayActAt coord c → ∀ ka ∈ group.chords, D.performs ka.2 c

/-- The decision is not a hold-tap's. -/
def IsUndecided : WaitingConfig T → Prop
  | .holdTap _ => False
  | .tapDance _ => True
  | .chord _ => True

end WaitingConfig

section Obeys

variable {cfg : LayoutConfig C R T} {E : Panic → Prop} (D : Discipline cfg E)

/-- A waiting state holds only actions that it may perform, and has counted no more ticks than
a `u16` can. -/
structure WaitingState.Obeys (w : WaitingState T) : Prop where
  hold : D.performs w.hold w.coord
  tap : D.performs w.tap w.coord
  timeoutAction : D.performs w.timeoutAction w.coord
  config : w.config.Obeys D w.coord
  undecided : w.config.IsUndecided → w.hold = .noOp ∧ w.timeoutAction = .noOp
  layerStack : ∀ l ∈ w.layerStack, D.layers l
  ticks_le : w.ticks ≤ u16Max

/-- A call performs what it may and carries layers that may be in a stack. -/
structure Call.Obeys (call : Call T) : Prop where
  action : D.performs call.action call.coord
  layerStack : ∀ l ∈ call.layerStack, D.layers l

structure QueuedAction.Obeys (qa : QueuedAction T) : Prop where
  action : D.performs qa.action qa.coord
  layerStack : ∀ l ∈ qa.layerStack, D.layers l

/-- An event presses only coordinates that may be pressed. -/
def Queued.Obeys (q : Queued) : Prop :=
  match q.event with
  | .press i j => D.presses (i, j)
  | .release _ _ => True

def TapDanceEagerState.Obeys (tde : TapDanceEagerState T) : Prop :=
  ∀ a ∈ tde.actions, ∀ c, D.presses c → D.performs a c

/-- A layer that is held may be in a layer stack. -/
def State.Obeys (st : State T) : Prop :=
  match st with
  | .layerModifier value _ => D.layers (asU16 value)
  | _ => True

/-- Everything in the layout keeps to the discipline. -/
structure Layout.Obeys (s : Layout T) : Prop where
  defaultLayer : D.layers (asU16 s.defaultLayer)
  states : ∀ st ∈ s.states.items, st.Obeys D
  waiting : ∀ w ∈ s.waiting, w.Obeys D
  extraWaiting : ∀ w ∈ s.extraWaiting.items, w.Obeys D
  tapDanceEager : ∀ tde ∈ s.tapDanceEager, tde.Obeys D
  queue : ∀ q ∈ s.queue.items, q.Obeys D
  chordsQueue : ∀ q ∈ s.chordsV2.queue.items, q.Obeys D
  actionQueue : ∀ qa ∈ s.actionQueue.items, qa.Obeys D
  rptAction : ∀ a ∈ s.rptAction, D.repeats a
  activeChords : ∀ ach ∈ s.chordsV2.activeChords.items, D.performs ach.action (0, ach.coordinate)
  nextCoord : Chord.IsCoord s.chordsV2.nextCoord

end Obeys

end Kanata
