import Mathlib.Data.List.Sort
import Kanata.Keyberon.Chord
import Kanata.Lib.Fallible
import Kanata.Parser.SExpr

/-!
# Kanata.Parser.Chord — chords v2 in the configuration

The code of `parser/src/cfg/chord.rs` for one chord: `defchordsv2` lists chords in chunks
of five items, each chunk is parsed on its own, and the chords are filed under each of
their keys. A chord has at least two keys by its type. A chunk may instead include a file;
that and the parser of the whole list are in `Kanata.Parser.ChordFile`.
-/

namespace Kanata.Chord

open Fallible

/-- The five items of a chord. -/
structure ChordChunk where
  keys : SExpr
  action : SExpr
  timeout : SExpr
  releaseBehaviour : SExpr
  disabledLayers : SExpr

/-- The items as a slice. -/
def ChordChunk.items (chunk : ChordChunk) : List SExpr :=
  [chunk.keys, chunk.action, chunk.timeout, chunk.releaseBehaviour, chunk.disabledLayers]

/-- What the chord parser reads of `ParserState`. `strToOscode` is the table of key
names and `parseAction` the parser of actions. -/
structure ChordParserState (A : Type) where
  vars : Option Vars
  layerIdxs : List (String × Nat)
  strToOscode : String → Option OsCode
  parseAction : SExpr → Parse A

variable {A : Type}

/-- `parse_non_zero_u16`. -/
def parseNonZeroU16 (expr : SExpr) (s : ChordParserState A) (label : String) :
    Parse { n : Nat // n ≤ u16Max } := do
  let a ← expr.atom s.vars
  okOrExpr expr (label ++ " must be 1-65535") <|
    match h : a.bind (parseUInt u16Max) with
    | some n => if n = 0 then none else some ⟨n, by
        rcases a with _ | a
        · simp at h
        · exact parseUInt_le h⟩
    | none => none

def parseKey (key : SExpr) (s : ChordParserState A) : Parse Nat := do
  let name ← key.atom s.vars
  let k ← okOrExpr key "The first chord item must be a list of keys.\nInvalid key name."
    (name.bind s.strToOscode)
  pure k.code

def parseParticipatingKeys (keys : SExpr) (s : ChordParserState A) :
    Parse { ks : List Nat // 2 ≤ ks.length } := do
  let l ← okOrExpr keys "The first chord item must be a list of keys." (← keys.list s.vars)
  let participants ← l.mapM (parseKey · s)
  if h : participants.length < 2 then
    bailExpr keys "The minimum number of participating chord keys is 2"
  else
    pure ⟨participants.insertionSort (· ≤ ·), by
      rw [List.length_insertionSort]
      exact Nat.le_of_not_lt h⟩

def ReleaseBehaviour.ofString : String → Option ReleaseBehaviour
  | "first-release" => some .onFirstRelease
  | "all-released" => some .onLastRelease
  | _ => none

def parseReleaseBehaviour (expr : SExpr) (s : ChordParserState A) : Parse ReleaseBehaviour := do
  let name ← expr.atom s.vars
  okOrExpr expr "Chord release behaviour must be one of:\nfirst-release | all-released"
    (name.bind ReleaseBehaviour.ofString)

def parseDisabledLayers (expr : SExpr) (s : ChordParserState A) : Parse (List Nat) := do
  let l ← okOrExpr expr "Disabled layers must be a list of layer names" (← expr.list s.vars)
  l.mapM fun layer => do
    let name ← layer.atom s.vars
    let idx ← okOrExpr layer "Not a known layer name." (name.bind fun l => s.layerIdxs.lookup l)
    pure (idx % (u16Max + 1))

/-- An error is a result, a panic is not. -/
def attempt {α : Type} : Parse α → Rust (Except ParseError α)
  | .ok a => pure (.ok a)
  | .error (.error e) => pure (.error e)
  | .error (.panic p) => .error p

/-- `chunk[i]`. -/
def item (chunk : List SExpr) (i : Nat) : Rust SExpr :=
  match chunk[i]? with
  | some e => pure e
  | none => panicWith "index out of bounds"

/-- The items of `parse_single_chord` after the keys. -/
def parseChordItems (s : ChordParserState A) (chunk : List SExpr)
    (participants : { ks : List Nat // 2 ≤ ks.length }) : Parse (ChordV2 A) := do
  let action ← s.parseAction (← liftRust (item chunk 1))
  let timeout ← parseNonZeroU16 (← liftRust (item chunk 2)) s "chord timeout"
  let releaseBehaviour ← parseReleaseBehaviour (← liftRust (item chunk 3)) s
  let disabledLayers ← parseDisabledLayers (← liftRust (item chunk 4)) s
  match participants, timeout with
  | ⟨participatingKeys, two_le⟩, ⟨pendingDuration, pending_le⟩ =>
    pure {
      action
      participatingKeys
      pendingDuration
      disabledLayers
      releaseBehaviour
      two_le := two_le
      pending_le := pending_le }

/-- `parse_single_chord`. The key sets seen so far are threaded through, also past
an error. -/
def parseSingleChord (s : ChordParserState A) (chunk : List SExpr) (keySets : List (List Nat)) :
    Rust (List (List Nat) × Except ParseError (ChordV2 A)) := do
  let keys ← item chunk 0
  match ← attempt (parseParticipatingKeys keys s) with
  | .error e => pure (keySets, .error e)
  | .ok participants =>
    if keySets.contains participants then
      pure (keySets, .error ⟨"Duplicate participating-keys, key sets may be used only once.",
        some keys.span⟩)
    else do
      let chord ← attempt (parseChordItems s chunk participants)
      pure (participants :: keySets, chord)

/-- `chunks_exact(5)` with its remainder. -/
def chunksExact : List SExpr → List ChordChunk × List SExpr
  | keys :: action :: timeout :: release :: layers :: rest =>
    let (chunks, remainder) := chunksExact rest
    (⟨keys, action, timeout, release, layers⟩ :: chunks, remainder)
  | remainder => ([], remainder)

/-- Whether the keys are an `(include file)` list. -/
def isInclude (chunk : ChordChunk) : Bool :=
  match chunk.keys with
  | .listNode (.atomNode a _ :: _) _ => a == "include"
  | _ => false

/-- File a chord under one of its keys. -/
def fileUnder (chord : ChordV2 A) (container : ChordsForKeys A) (pkey : Nat) : ChordsForKeys A :=
  ⟨fun key => if key = pkey then some ((container.mapping key).getD [] ++ [chord])
    else container.mapping key⟩

/-- `chords_container`, filled. -/
def chordsContainer (chords : List (ChordV2 A)) : ChordsForKeys A :=
  chords.foldl (fun container chord => chord.participatingKeys.foldl (fileUnder chord) container)
    ⟨fun _ => none⟩

/-- The first error, if there is one. -/
def allOk : List (Except ParseError (ChordV2 A)) → Parse (List (ChordV2 A))
  | [] => pure []
  | .ok chord :: results => do
    let chords ← allOk results
    pure (chord :: chords)
  | .error e :: _ => .error (.error e)

end Kanata.Chord
