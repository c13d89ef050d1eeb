import Mathlib.Algebra.Group.Nat.Defs
import Kanata.Layout.Uniform
import Kanata.Parser.Chord
import Kanata.Parser.Sequence

/-!
# Kanata.Parser.ChordGroups — `defchords` and the action `chord`

A translation of `parser/src/cfg/chord_v1.rs`. An action `(chord group key)` is
parsed before its group is complete, so `parse_chord` leaves a placeholder that
`resolve_chord_groups` replaces: one recursion over the actions of a layer collects
the coordinates of the placeholders of each group, another puts the groups in.
-/

namespace Kanata.ChordGroups

open Chord (ChordParserState parseNonZeroU16)

variable {T : Type}

/-- `ChordGroup`. The chords stand in the order in which the map is walked. -/
structure ChordGroup where
  id : Nat
  name : String
  keys : List String
  coords : List (KCoord × ChordKeys)
  chords : List (ChordKeys × SExpr)
  timeout : Nat

/-- `ParserState`. The groups are the values of `chord_groups`, sorted by id. -/
structure ParserState (T : Type) extends ChordParserState (Action T) where
  chordGroups : List ChordGroup

/-! ## The placeholder -/

def chordErr : String := "Action chord expects a chords group name followed by an identifier"

/-- `parse_chord`. -/
def parseChord (acParams : List SExpr) (s : ParserState T) : Parse (Action T) :=
  match acParams with
  | [groupExpr, keyExpr] => do
    let name ← okOrExpr groupExpr chordErr (← groupExpr.atom s.vars)
    match s.chordGroups.find? fun group => group.name == name with
    | none => bailExpr groupExpr ("Referenced unknown chord group: " ++ name ++ ".")
    | some group =>
      let key ← okOrExpr groupExpr chordErr (← keyExpr.atom s.vars)
      match group.keys.findIdx? fun e => e == key with
      | none =>
        bailExpr keyExpr
          ("Identifier \"" ++ key ++ "\" is not used in chord group \"" ++ name ++ "\".")
      | some chordKeyIndex =>
        pure (.chords ⟨[((0, group.id), 2 ^ chordKeyIndex)], [], group.timeout⟩)
  | _ => bail chordErr

/-! ## `defchords` -/

mutual

/-- The `Debug` format of an expression. -/
def debugExpr : SExpr → String
  | .atomNode t _ => t
  | .listNode items _ => "(" ++ " ".intercalate (debugExprs items) ++ ")"

def debugExprs : List SExpr → List String
  | [] => []
  | e :: es => debugExpr e :: debugExprs es

end

def defchordsMsg : String :=
  "Incorrect number of elements found in defchords.\nThere should be the group name, " ++
    "followed by timeout, followed by keys-action pairs"

/-- `MAX_CHORD_KEYS`. -/
def maxChordKeys : Nat := 128

/-- The closure that folds the keys of a chord: the keys of the group so far and the
mask. -/
def addKey (s : ParserState T) (keysExpr : SExpr) (acc : List String × ChordKeys)
    (key : SExpr) : Parse (List String × ChordKeys) := do
  let (keys, mask) := acc
  let name ← okOrExpr key ("Chord keys cannot be lists. Invalid key name: " ++ debugExpr key)
    (← key.atom s.vars)
  match keys.findIdx? fun k => k == name with
  | some index => pure (keys, mask ||| 2 ^ index)
  | none =>
    if keys.length + 1 > maxChordKeys then
      bailExpr keysExpr ("Maximum number of keys in a chords group (" ++ toString maxChordKeys ++
        ") exceeded - found " ++ toString (keys.length + 1))
    else pure (keys ++ [name], mask ||| 2 ^ keys.length)

/-- The loop over the pairs of a group. -/
def addChords (s : ParserState T) : List SExpr → ChordGroup → Parse ChordGroup
  | [], group => pure group
  | [keysExpr], _ =>
    bailExpr keysExpr "Key list found without action - add an action for this chord"
  | keysExpr :: action :: rest, group => do
    let chordKeys ← okOrExpr keysExpr "Chord must be a list/set of keys" (← keysExpr.list s.vars)
    let (keys, mask) ← chordKeys.foldlM (addKey s keysExpr) (group.keys, 0)
    if group.chords.any fun chord => chord.1 == mask then
      bailExpr keysExpr ("Duplicate chord in group " ++ group.name)
    else addChords s rest { group with keys, chords := group.chords ++ [(mask, action)] }

/-- One `defchords`. -/
def parseChordGroup (s : ParserState T) (groups : List ChordGroup) (expr : SExpr)
    (items : List SExpr) : Parse (List ChordGroup) := do
  match ← checkFirstExpr items "defchords" with
  | [] => bailExpr expr defchordsMsg
  | nameExpr :: rest =>
    let name ← okOrExpr expr defchordsMsg (← nameExpr.atom s.vars)
    match rest with
    | [] => bailExpr expr defchordsMsg
    | timeoutExpr :: pairs =>
      let timeout ← parseNonZeroU16 timeoutExpr s.toChordParserState "timeout"
      if groups.length > u16Max then
        bailExpr expr "Maximum number of chord groups exceeded."
      else
        let group ← addChords s pairs ⟨groups.length, name, [], [], [], timeout.val⟩
        if groups.any fun group => group.name == name then
          bailExpr expr ("Duplicate chords group: " ++ name)
        else pure (groups ++ [group])

/-- `parse_chord_groups`: the expressions with their items. -/
def parseChordGroups (exprs : List (SExpr × List SExpr)) (s : ParserState T) :
    Parse (List ChordGroup) :=
  exprs.foldlM (fun groups expr => parseChordGroup s groups expr.1 expr.2) []

/-! ## The coordinates of the placeholders -/

/-- `chord_groups[group_id].coords.push((coord, keys))`. -/
def pushCoord (coord : KCoord) (groups : List ChordGroup) (entry : KCoord × ChordKeys) :
    Rust (List ChordGroup) :=
  match groups[entry.1.2]? with
  | some group =>
    pure (groups.set entry.1.2 { group with coords := group.coords ++ [(coord, entry.2)] })
  | none => panicWith "index out of bounds"

mutual

/-- `find_chords_coords`. -/
def findChordsCoords (coord : KCoord) :
    Action T → List ChordGroup → Rust (List ChordGroup)
  | .chords ⟨coords, _, _⟩, groups => coords.foldlM (pushCoord coord) groups
  | .holdTap ⟨_, hold, tap, _, _, _, _, _, _⟩, groups => do
    let groups ← findChordsCoords coord tap groups
    findChordsCoords coord hold groups
  | .oneShot ⟨action, _, _⟩, groups => findChordsCoords coord action groups
  | .multipleActions actions, groups => findInActions coord actions groups
  | .tapDance ⟨actions, _, _⟩, groups => findInActions coord actions groups
  | .fork ⟨left, right, _⟩, groups => do
    let groups ← findChordsCoords coord left groups
    findChordsCoords coord right groups
  | .switch ⟨cases, _⟩, groups => findInCases coord cases groups
  | _, groups => pure groups

def findInActions (coord : KCoord) :
    List (Action T) → List ChordGroup → Rust (List ChordGroup)
  | [], groups => pure groups
  | action :: actions, groups => do
    let groups ← findChordsCoords coord action groups
    findInActions coord actions groups

def findInCases (coord : KCoord) :
    List (SwitchCase (Action T)) → List ChordGroup → Rust (List ChordGroup)
  | [], groups => pure groups
  | ⟨_, action, _⟩ :: cases, groups => do
    let groups ← findChordsCoords coord action groups
    findInCases coord cases groups

end

/-! ## Putting the groups in -/

/-- `ac.unwrap_or(old)`. -/
def orOld (new : Option (Action T)) (old : Action T) : Action T := new.getD old

mutual

/-- `fill_chords`. -/
def fillChords (chordGroups : List (ChordsGroup (Action T))) :
    Action T → Rust (Option (Action T))
  | .chords ⟨coords, _, _⟩ =>
    match coords with
    | [] => panicWith "unresolved chords should have exactly one entry"
    | ((_, groupId), _) :: _ =>
      match chordGroups[groupId]? with
      | some group => pure (some (.chords group))
      | none => panicWith "index out of bounds"
  | .holdTap ⟨timeout, hold, tap, timeoutAction, config, tapHoldInterval, onPress, idle, h⟩ => do
    let newTap ← fillChords chordGroups tap
    let newHold ← fillChords chordGroups hold
    if newTap.isSome || newHold.isSome then
      pure (some (.holdTap ⟨timeout, orOld newHold hold, orOld newTap tap, timeoutAction, config,
        tapHoldInterval, onPress, idle, h⟩))
    else pure none
  | .oneShot ⟨action, timeout, endConfig⟩ => do
    let new ← fillChords chordGroups action
    pure (new.map fun action => .oneShot ⟨action, timeout, endConfig⟩)
  | .multipleActions actions => do
    let (actions, changed) ← fillActions chordGroups actions
    pure (if changed then some (.multipleActions actions) else none)
  | .tapDance ⟨actions, timeout, config⟩ => do
    let (actions, changed) ← fillActions chordGroups actions
    pure (if changed then some (.tapDance ⟨actions, timeout, config⟩) else none)
  | .fork ⟨left, right, rightTriggers⟩ => do
    let newLeft ← fillChords chordGroups left
    let newRight ← fillChords chordGroups right
    if newLeft.isSome || newRight.isSome then
      pure (some (.fork ⟨orOld newLeft left, orOld newRight right, rightTriggers⟩))
    else pure none
  | .switch ⟨cases, callbacks⟩ => do
    let cases ← fillCases chordGroups cases
    pure (some (.switch ⟨cases, callbacks⟩))
  | _ => pure none

/-- The actions with the new ones, and whether any is new. -/
def fillActions (chordGroups : List (ChordsGroup (Action T))) :
    List (Action T) → Rust (List (Action T) × Bool)
  | [] => pure ([], false)
  | action :: actions => do
    let new ← fillChords chordGroups action
    let (actions, changed) ← fillActions chordGroups actions
    pure (orOld new action :: actions, new.isSome || changed)

def fillCases (chordGroups : List (ChordsGroup (Action T))) :
    List (SwitchCase (Action T)) → Rust (List (SwitchCase (Action T)))
  | [] => pure []
  | ⟨boolExpr, action, breakOrFallthrough⟩ :: cases => do
    let new ← fillChords chordGroups action
    let cases ← fillCases chordGroups cases
    pure (⟨boolExpr, orOld new action, breakOrFallthrough⟩ :: cases)

end

/-! ## The layers -/

/-- `IntermediateLayers`: the rows of each layer and the cells of each row. There are
two rows of 767 cells, which the casts of the coordinates do not change. -/
abbrev IntermediateLayers (T : Type) := List (List (List (Action T)))

/-- The cells with their coordinates, in the order of the loops. -/
def cells (layers : IntermediateLayers T) : List (KCoord × Action T) :=
  layers.flatMap fun layer =>
    layer.zipIdx.flatMap fun (row, i) => row.zipIdx.map fun (cell, j) => ((i, j), cell)

/-- The check that every key has a coordinate, and the group with its actions. -/
def resolveGroup (s : ParserState T) (group : ChordGroup) : Parse (ChordsGroup (Action T)) := do
  match group.keys.zipIdx.find? fun (_, keyIndex) =>
      !group.coords.any fun (_, keys) => keys &&& 2 ^ keyIndex != 0 with
  | some (key, _) =>
    bail ("coord group `" ++ group.name ++ "` defines unused key `" ++ key ++
      "`, did you forget to bind `(chord " ++ group.name ++ " " ++ key ++ ")`?")
  | none =>
    let chords ← group.chords.mapM fun (mask, action) => do
      pure (mask, ← s.parseAction action)
    pure ⟨group.coords, chords, group.timeout⟩

/-- The first half of `resolve_chord_groups`. -/
def resolvedGroups (layers : IntermediateLayers T) (s : ParserState T) :
    Parse (List (ChordsGroup (Action T))) := do
  let chordGroups ← (cells layers).foldlM
    (fun groups cell => findChordsCoords cell.1 cell.2 groups) s.chordGroups
  chordGroups.mapM (resolveGroup s)

/-- The second half. -/
def fillCell (chordGroups : List (ChordsGroup (Action T))) (cell : Action T) :
    Rust (Action T) := do
  pure (orOld (← fillChords chordGroups cell) cell)

/-- `resolve_chord_groups`. -/
def resolveChordGroups (layers : IntermediateLayers T) (s : ParserState T) :
    Parse (IntermediateLayers T) := do
  let chordGroups ← resolvedGroups layers s
  layers.mapM fun layer => layer.mapM fun row => row.mapM fun cell =>
    (fillCell chordGroups cell : Parse (Action T))

end Kanata.ChordGroups
