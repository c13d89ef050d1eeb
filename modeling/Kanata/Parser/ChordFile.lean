import Kanata.Keyberon.Action
import Kanata.Lexing.Words
import Kanata.Parser.Chord

/-!
# Kanata.Parser.ChordFile — chord files

The part of `parser/src/cfg/chord.rs` that reads included files. The characters of a line
are translated to key names one by one, put together to the text of an expression, and
parsed as such. The chunk that comes of it may have any number of items.

* `ChordFiles`: what is read besides the configuration;
* `spliceText`: the text of a line as an expression;
* `parseDefchordv2`: the parser with its files.
-/

namespace Kanata.ChordFile

open Fallible Chord Lexer

/-- What the file parser reads besides `ParserState`: the files, the first row of the first
layer, and the names of keys and letter cases of the platform. -/
structure ChordFiles (T : Type) where
  readToString : String → Option (List Char)
  firstLayer : List (Action T)
  keyCodeToString : KeyCode → String
  fromU16 : Nat → Option OsCode
  osCodeToString : OsCode → String
  toLowercase : String → String
  isUppercase : Char → Bool

structure ChordDefinition where
  keys : List Char
  action : List Char
deriving DecidableEq, Repr

/-- `ChordTranslation`, without its maps. -/
structure ChordTranslation where
  timeout : SExpr
  releaseBehaviour : SExpr
  disabledLayers : SExpr

/-- `postprocess_map`. -/
def postprocessMap : List (String × String) :=
  [("semicolon", ";"), ("colon", "S-."), ("slash", "/"), ("apostrophe", "'"), ("dot", "."),
    (" ", "spc")]

section Translation

variable {T : Type} (files : ChordFiles T)

/-- `target_map`. Of the pairs of one key the last one counts. -/
def targetMap : List (String × String) :=
  (files.firstLayer.zipIdx.filterMap fun (layout, idx) => do
    let kc ← layout.keyCodes.head?
    let osc ← if idx ≤ u16Max then files.fromU16 idx else none
    pure (files.toLowercase (files.keyCodeToString kc),
      files.toLowercase (files.osCodeToString osc))) ++ [(" ", "spc")]

/-- The body of `participant_keys`. -/
def participantKey (key : Char) : String :=
  match (targetMap files).reverse.lookup (files.toLowercase (String.singleton key)) with
  | some c => (postprocessMap.lookup c).getD c
  | none => String.singleton key

def participantKeys (keys : List Char) : List String := keys.map (participantKey files)

def postProcess (converted : String) : String :=
  (postprocessMap.lookup converted).getD <|
    if converted.toList.all files.isUppercase then "S-" ++ files.toLowercase converted
    else converted

/-- `ChordTranslation::action`. There is no second place in an empty list. -/
def actionStrings (action : List Char) : Rust (List String) :=
  let strings := action.map fun c => postProcess files (String.singleton c)
  if 1 ≤ strings.length then pure (strings.insertIdx 1 "50" ++ ["sldr", "spc", "nop0"])
  else panicWith "insertion index (is 1) should be <= len (is 0)"

/-- The text that is put together from the keys and the action. -/
def spliceText (keys action : List String) : List Char :=
  '(' :: '(' :: (Text.join ' ' (keys.map String.toList) ++ ')' :: ' ' :: '(' ::
    ("macro ".toList ++ Text.join ' ' (action.map String.toList) ++ [')', ')']))

/-- `sexpr::parse(..).unwrap()[0].t`. -/
def parseSpliced (text : List Char) : Rust (List SExpr) :=
  match Lexer.parse text true with
  | .error (.panic p) => .error p
  | .error (.error _) => panicWith "called `Result::unwrap()` on an `Err` value"
  | .ok ([], _) => panicWith "index out of bounds"
  | .ok ((items, _) :: _, _) => pure items

def translateChord (t : ChordTranslation) (chordDef : ChordDefinition) : Rust (List SExpr) := do
  let action ← actionStrings files chordDef.action
  let participantAction ← parseSpliced (spliceText (participantKeys files chordDef.keys) action)
  pure (participantAction ++ [t.timeout, t.releaseBehaviour, t.disabledLayers])

/-- A line of `parse_input`. -/
def parseLine (line : List Char) : Rust ChordDefinition :=
  match Text.split '\t' line with
  | keys :: action :: _ => pure ⟨keys, action⟩
  | _ => panicWith ("Each line needs to have an action separated by a tab character, got '" ++
      String.ofList line ++ "'")

/-- The lines that `parse_input` looks at. -/
def chordLines (input : List Char) : List (List Char) :=
  (Text.lines input).filter Text.isMeaningful

def parseInput (input : List Char) : Rust (List ChordDefinition) :=
  (chordLines input).mapM parseLine

def parseChordFile (fileName : String) : Rust (List ChordDefinition) :=
  match files.readToString fileName with
  | some inputData => parseInput inputData
  | none => panicWith ("Unable to read file " ++ fileName)

end Translation

/-! ## All chunks -/

section Chunks

variable {A T : Type} (s : ChordParserState A) (files : ChordFiles T)

/-- The chords of the lines of a file. -/
def parseDefinitions (t : ChordTranslation) : List ChordDefinition → List (List Nat) →
    Rust (List (List Nat) × List (Except ParseError (ChordV2 A)))
  | [], keySets => pure (keySets, [])
  | chordDef :: chordDefs, keySets => do
    let chunk ← translateChord files t chordDef
    let (keySets, chord) ← parseSingleChord s chunk keySets
    let (keySets, chords) ← parseDefinitions t chordDefs keySets
    pure (keySets, chord :: chords)

/-- The name of an included file. -/
def includedName (chunk : ChordChunk) : Rust String := do
  match chunk.keys with
  | .listNode (_ :: fileName :: _) _ =>
    match ← fileName.atom s.vars with
    | some name => pure name
    | none => panicWith "called `Option::unwrap()` on a `None` value"
  | _ => panicWith "index out of bounds"

def parseIncluded (chunk : ChordChunk) (keySets : List (List Nat)) :
    Rust (List (List Nat) × List (Except ParseError (ChordV2 A))) := do
  let fileName ← includedName s chunk
  let chordDefinitions ← parseChordFile files fileName
  parseDefinitions s files ⟨chunk.timeout, chunk.releaseBehaviour, chunk.disabledLayers⟩
    chordDefinitions keySets

/-- The chords of a chunk, or of the file that it includes. -/
def parseSource (chunk : ChordChunk) (keySets : List (List Nat)) :
    Rust (List (List Nat) × List (Except ParseError (ChordV2 A))) :=
  if isInclude chunk then parseIncluded s files chunk keySets
  else do
    let (keySets, chord) ← parseSingleChord s chunk.items keySets
    pure (keySets, [chord])

/-- The chords of all chunks. -/
def parseAll : List ChordChunk → List (List Nat) → Rust (List (Except ParseError (ChordV2 A)))
  | [], _ => pure []
  | chunk :: chunks, keySets => do
    let (keySets, chords) ← parseSource s files chunk keySets
    let more ← parseAll chunks keySets
    pure (chords ++ more)

/-- The end of `parse_defchordv2`, after the chunks. -/
def collectChords (remainder : List SExpr) (results : List (Except ParseError (ChordV2 A))) :
    Parse (ChordsForKeys A) := do
  let chords ← allOk results
  match remainder.getLast? with
  | some last => bailExpr last ("Incomplete chord entry. Each chord entry must have 5 items:\n"
      ++ "participating-keys, action, timeout, release-type, disabled-layers")
  | none => pure (chordsContainer chords)

/-- `parse_defchordv2`. -/
def parseDefchordv2 (exprs : List SExpr) : Parse (ChordsForKeys A) := do
  match exprs with
  | [] => liftRust (panicWith "index out of bounds")
  | head :: rest =>
    match ← head.atom none with
    | none => liftRust (panicWith "should be atom")
    | some _ =>
      let (chunks, remainder) := chunksExact rest
      let results ← liftRust (parseAll s files chunks [])
      collectChords remainder results

end Chunks

end Kanata.ChordFile
