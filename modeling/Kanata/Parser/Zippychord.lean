import Kanata.Basic
import Kanata.Lib.Fallible
import Kanata.Lib.Text
import Kanata.Parser.Subset

/-!
# Kanata.Parser.Zippychord — the zippychord file

The file processing of `parser/src/cfg/zippychord.rs`. Each line has a chord or a
sequence of chords, a tab and an output. The chords of a sequence lead through nested
maps, which are shared: a map is behind an address, and the heap of all maps is passed
along.

* `processFile`: the lines of a file, one after the other;
* `nextChord_isKey`: a chord is a sorted key with an item at least;
* `nextChord_toOption`: which chords a line has does not depend on its place.
-/

namespace Kanata

open Fallible BinarySearch SubsetMap

inductive ZchOutput where
  | lowercase (osc : OsCode)
  | uppercase (osc : OsCode)
  | altGr (osc : OsCode)
  | shiftAltGr (osc : OsCode)
  | noEraseLowercase (osc : OsCode)
  | noEraseUppercase (osc : OsCode)
  | noEraseAltGr (osc : OsCode)
  | noEraseShiftAltGr (osc : OsCode)
deriving DecidableEq, Repr

/-- The followups are the address of a map. -/
structure ZchChordOutput where
  zchOutput : List ZchOutput
  zchFollowups : Option Nat
deriving DecidableEq, Repr

abbrev ZchPossibleChords := SubsetMap Nat ZchChordOutput

/-- The maps behind `Arc<Mutex<_>>`, by address. The first one is the result. -/
abbrev ZchHeap := List ZchPossibleChords

/-- What the file processing reads besides the file: the configured outputs, the table
of key names, and the letter case of characters. -/
structure ZippyParser where
  userCfgCharToOutput : Char → Option (List ZchOutput)
  strToOscode : String → Option OsCode
  toLowercase : Char → Char
  isUppercase : Char → Bool

theorem keySpace_le : 57 ≤ keyCodeMax := by decide

/-- `OsCode::KEY_SPACE`. -/
def keySpace : OsCode := ⟨57, keySpace_le⟩

/-- A line is given by its index. -/
inductive ZippyError where
  | noTab (lineNumber : Nat) (line : List Char)
  | noInput (lineNumber : Nat) (line : List Char)
  | unknownOutput (outChar : Char) (lineNumber : Nat) (line : List Char)
  | unknownInput (keyName : Char) (lineNumber : Nat) (line : List Char)
  | duplicateChord (input : List Char) (lineNumber : Nat) (line : List Char)
deriving DecidableEq, Repr

namespace ZippyError

def place (lineNumber : Nat) (line : List Char) : String :=
  "\n" ++ toString (lineNumber + 1) ++ ": " ++ String.ofList line

def msg : ZippyError → String
  | noTab n line => "Input and output are separated by a tab, but found no tab:" ++ place n line
  | noInput n line => "No input defined; line must not begin with a tab:" ++ place n line
  | unknownOutput c n line =>
    "Unknown output key name '" ++ String.singleton c ++ "':" ++ place n line
  | unknownInput c n line =>
    "Unknown input key name: '" ++ String.singleton c ++ "':" ++ place n line
  | duplicateChord input n line =>
    "Found duplicate input chord, which is disallowed " ++ String.ofList input ++ ":" ++
      place n line

end ZippyError

/-- `ZchSortedChord::zch_insert`. -/
def zchInsert (zchKeys : List Nat) (key : Nat) : List Nat :=
  match searchBy (cmpKey id key) zchKeys with
  | .ok _ => zchKeys
  | .error pos => zchKeys.insertIdx pos key

section Parser

variable (s : ZippyParser)

/-- The outputs of a character. -/
def outputOfChar (outChar : Char) (lineNumber : Nat) (line : List Char) :
    Except ZippyError (List ZchOutput) :=
  match s.userCfgCharToOutput outChar with
  | some out => pure out
  | none => do
    let outKey := s.toLowercase outChar
    let osc ← if outKey = ' ' then pure keySpace else
      match s.strToOscode (String.singleton outKey) with
      | some osc => pure osc
      | none => .error (.unknownOutput outChar lineNumber line)
    pure [if s.isUppercase outChar then .uppercase osc else .lowercase osc]

/-- The outputs of a character are put at the end. -/
def extendOutput (lineNumber : Nat) (line : List Char) (zchOutput : List ZchOutput)
    (outChar : Char) : Except ZippyError (List ZchOutput) := do
  let out ← outputOfChar s outChar lineNumber line
  pure (zchOutput ++ out)

/-- The key of a character of a chord is put into the chord. -/
def insertChordChar (lineNumber : Nat) (line : List Char) (inputChord : List Nat)
    (chordChar : Char) : Except ZippyError (List Nat) :=
  match s.strToOscode (String.singleton chordChar) with
  | some osc => pure (zchInsert inputChord osc.code)
  | none => .error (.unknownInput chordChar lineNumber line)

/-- The next chord of an input, and what is left of the input. -/
def nextChord (lineNumber : Nat) (line input : List Char) :
    Except ZippyError (List Nat × List Char) := do
  let (isSpaceIncluded, input) := match input with
    | ' ' :: rest => (true, rest)
    | _ => (false, input)
  let inputChord := if isSpaceIncluded then zchInsert [] keySpace.code else []
  let (chordChars, input) := (Text.splitOnce ' ' input).getD (input, [])
  let inputChord ← chordChars.foldlM (insertChordChar s lineNumber line) inputChord
  pure (inputChord, input)

/-- `ssm_get_or_is_subset_ksorted` of the map at an address. -/
def ZchHeap.get (heap : ZchHeap) (map : Nat) (inputChord : List Nat) :
    GetOrIsSubsetOfKnownKey ZchChordOutput :=
  match heap[map]? with
  | some chords => chords.ssmGetOrIsSubsetKsorted inputChord
  | none => .neither

/-- `ssm_insert_ksorted` into the map at an address. -/
def ZchHeap.insert (heap : ZchHeap) (map : Nat) (inputChord : List Nat)
    (output : ZchChordOutput) : ZchHeap :=
  heap.modify map fun chords => (chords.ssmInsertKsorted inputChord output).1

/-- The `while` loop over the chords of an input. Each round takes a character at least,
so that there are no more rounds than characters. -/
def walkChords (lineNumber : Nat) (line input : List Char) (output : List ZchOutput) :
    Nat → List Char → Nat → ZchHeap → Except ZippyError ZchHeap
  | 0, _, _, heap => pure heap
  | rounds + 1, inputLeft, possibleChordsMap, heap =>
    if inputLeft = [] then pure heap
    else do
      let (inputChord, inputLeft) ← nextChord s lineNumber line inputLeft
      match inputLeft, heap.get possibleChordsMap inputChord with
      | [], .hasValue _ => .error (.duplicateChord input lineNumber line)
      | [], _ => pure (heap.insert possibleChordsMap inputChord ⟨output, none⟩)
      | _ :: _, .hasValue nextNestedMap =>
        match nextNestedMap.zchFollowups with
        | none =>
          let map := heap.length
          walkChords lineNumber line input output rounds inputLeft map
            ((heap ++ [ssmNew]).insert possibleChordsMap inputChord
              ⟨nextNestedMap.zchOutput, some map⟩)
        | some followup =>
          walkChords lineNumber line input output rounds inputLeft followup heap
      | _ :: _, _ =>
        let map := heap.length
        walkChords lineNumber line input output rounds inputLeft map
          ((heap ++ [ssmNew]).insert possibleChordsMap inputChord ⟨[], some map⟩)

/-- The body of the fold over the lines. -/
def processLine (heap : ZchHeap) (numbered : List Char × Nat) : Except ZippyError ZchHeap :=
  let (line, lineNumber) := numbered
  match Text.splitOnce '\t' line with
  | none => .error (.noTab lineNumber line)
  | some (input, output) =>
    if input = [] then .error (.noInput lineNumber line)
    else do
      let zchOutput ← output.foldlM (extendOutput s lineNumber line) []
      walkChords s lineNumber line input zchOutput input.length input 0 heap

/-- The processing of a file with these lines. -/
def processLines (lines : List (List Char)) : Except ZippyError ZchHeap :=
  (lines.zipIdx.filter fun numbered => Text.isMeaningful numbered.1).foldlM (processLine s) [ssmNew]

/-- The processing of a file with this content. An error is its message. -/
def processFile (inputData : List Char) : Except String ZchHeap :=
  (processLines s (Text.lines inputData)).mapError ZippyError.msg

end Parser

/-! ## Errors -/

/-- The message ends with the number of the line and the line itself. -/
def ZippyError.Names (n : Nat) (line : List Char) (e : ZippyError) : Prop :=
  ∃ text, e.msg = text ++ ZippyError.place n line

section Errors

variable (s : ZippyParser) (n : Nat) (line : List Char)

theorem extendOutput_names (out : List ZchOutput) (outChar : Char) :
    Ensures (extendOutput s n line out outChar) (fun _ => True) (ZippyError.Names n line) := by
  unfold extendOutput outputOfChar
  split
  · trivial
  · dsimp only
    split
    · trivial
    · split
      · trivial
      · exact ⟨"Unknown output key name '" ++ String.singleton outChar ++ "':", rfl⟩

theorem nextChord_names (input : List Char) :
    Ensures (nextChord s n line input) (fun _ => True) (ZippyError.Names n line) := by
  have hinsert : ∀ chord c,
      Ensures (insertChordChar s n line chord c) (fun _ => True) (ZippyError.Names n line) := by
    intro chord c
    unfold insertChordChar
    split
    · trivial
    · exact ⟨"Unknown input key name: '" ++ String.singleton c ++ "':", rfl⟩
  have hchars := fun chars : List Char =>
    Ensures.foldlM fun c (_ : c ∈ chars) chord => hinsert chord c
  unfold nextChord
  split
  exact (hchars _ _).andThen fun _ _ => trivial

theorem walkChords_names (input : List Char) (output : List ZchOutput) :
    ∀ (rounds : Nat) (inputLeft : List Char) (map : Nat) (heap : ZchHeap),
      Ensures (walkChords s n line input output rounds inputLeft map heap) (fun _ => True)
        (ZippyError.Names n line)
  | 0, _, _, _ => trivial
  | rounds + 1, inputLeft, map, heap => by
    unfold walkChords
    split
    · trivial
    · refine (nextChord_names s n line inputLeft).andThen fun next _ => ?_
      rcases next with ⟨inputChord, rest⟩
      dsimp only
      split
      · exact ⟨"Found duplicate input chord, which is disallowed " ++ String.ofList input ++ ":",
          rfl⟩
      · trivial
      · split <;> exact walkChords_names input output rounds _ _ _
      · exact walkChords_names input output rounds _ _ _

theorem processLine_names (heap : ZchHeap) :
    Ensures (processLine s heap (line, n)) (fun _ => True) (ZippyError.Names n line) := by
  unfold processLine
  dsimp only
  split
  · exact ⟨"Input and output are separated by a tab, but found no tab:", rfl⟩
  · split
    · exact ⟨"No input defined; line must not begin with a tab:", rfl⟩
    · exact (Ensures.foldlM (fun c _ out => extendOutput_names s n line out c) []).andThen
        fun out _ => walkChords_names s n line _ out _ _ _ _

/-- An error of the file names a line that is not skipped, and its number in the file. -/
theorem processFile_names {inputData : List Char} {m : String}
    (h : processFile s inputData = .error m) :
    ∃ (n : Nat) (line : List Char) (text : String), (Text.lines inputData)[n]? = some line ∧
      Text.isMeaningful line = true ∧ m = text ++ ZippyError.place n line := by
  have hlines : Ensures (processLines s (Text.lines inputData)) (fun _ => True) fun e =>
      ∃ (n : Nat) (line : List Char), (Text.lines inputData)[n]? = some line ∧
        Text.isMeaningful line = true ∧ e.Names n line := by
    refine Ensures.foldlM (fun numbered hmem heap => ?_) [ssmNew]
    rcases numbered with ⟨line, n⟩
    rcases List.mem_filter.mp hmem with ⟨hline, hmeaningful⟩
    have hat : (Text.lines inputData)[n]? = some line := List.mem_zipIdx_iff_getElem?.mp hline
    exact (processLine_names s n line heap).mono (fun _ _ => trivial)
      fun e he => ⟨n, line, hat, hmeaningful, he⟩
  unfold processFile at h
  cases hfile : processLines s (Text.lines inputData) with
  | ok heap =>
    rw [hfile] at h
    cases h
  | error e =>
    rw [hfile] at h
    cases h
    rcases hlines.of_error hfile with ⟨n, line, hat, hmeaningful, text, htext⟩
    exact ⟨n, line, text, hat, hmeaningful, htext⟩

end Errors

/-! ## Chords -/

/-- A chord stays sorted and gains the key. -/
theorem zchInsert_isKey {zchKeys : List Nat} (h : zchKeys.Pairwise (· < ·)) (key : Nat) :
    IsKey (zchInsert zchKeys key) := by
  have hsorted : SortedBy id zchKeys := h
  unfold zchInsert
  rcases hsearch : searchBy (cmpKey id key) zchKeys with pos | pos
  · rcases hsorted.search_error hsearch with ⟨pre, post, rfl, rfl, hpre, hpost⟩
    have happend := List.pairwise_append.mp h
    dsimp only
    rw [insertIdx_length]
    refine ⟨by simp, List.pairwise_append.mpr ⟨happend.1, ?_, fun a ha b hb => ?_⟩⟩
    · exact List.pairwise_cons.mpr ⟨hpost, happend.2.1⟩
    · rcases List.mem_cons.mp hb with rfl | hb
      · exact hpre a ha
      · exact happend.2.2 a ha b hb
  · rcases search_ok hsearch with ⟨pre, x, post, rfl, -, -⟩
    exact ⟨by simp, h⟩

section Chords

variable {s : ZippyParser} {n : Nat} {line : List Char}

theorem insertChordChars_sorted : ∀ {chars : List Char} {chord chord' : List Nat},
    chord.Pairwise (· < ·) → chars.foldlM (insertChordChar s n line) chord = .ok chord' →
    chord'.Pairwise (· < ·) ∧ (chars ≠ [] ∨ chord ≠ [] → chord' ≠ [])
  | [], chord, chord', h, hfold => by
    cases hfold
    simp [h]
  | c :: chars, chord, chord', h, hfold => by
    rw [List.foldlM_cons, bind_eq_ok] at hfold
    rcases hfold with ⟨chord₁, hfirst, hrest⟩
    unfold insertChordChar at hfirst
    split at hfirst
    · next osc _ =>
      cases hfirst
      have hkey := zchInsert_isKey h osc.code
      rcases insertChordChars_sorted hkey.2 hrest with ⟨hsorted, hne⟩
      exact ⟨hsorted, fun _ => hne (.inr hkey.1)⟩
    · cases hfirst

/-- The characters up to the next space, all of them if there is none. -/
theorem splitOnce_getD (input : List Char) :
    let parts := (Text.splitOnce ' ' input).getD (input, [])
    parts.2.length ≤ input.length ∧
      (input ≠ [] → input.head? ≠ some ' ' → parts.1 ≠ [] ∧ parts.2.length < input.length) := by
  rcases hsplit : Text.splitOnce ' ' input with _ | ⟨before, after⟩
  · simp only [Option.getD_none, List.length_nil]
    refine ⟨Nat.zero_le _, fun hne _ => ⟨hne, List.length_pos_of_ne_nil hne⟩⟩
  · simp only [Option.getD_some]
    have hlength := Text.length_splitOnce hsplit
    refine ⟨hlength.le, fun hne hhead => ⟨?_, hlength⟩⟩
    rintro rfl
    cases input with
    | nil => exact hne rfl
    | cons c input =>
      unfold Text.splitOnce at hsplit
      split at hsplit
      · next hc => exact hhead (by rw [hc]; rfl)
      · simp at hsplit

/-- A chord is never empty: it has a space, or a character before the next space. -/
theorem nextChord_isKey {input rest : List Char} {chord : List Nat} (hinput : input ≠ [])
    (h : nextChord s n line input = .ok (chord, rest)) :
    IsKey chord ∧ rest.length < input.length := by
  have hspace := zchInsert_isKey List.Pairwise.nil keySpace.code
  unfold nextChord at h
  split at h
  next isSpaceIncluded left heq =>
  have hparts := splitOnce_getD left
  generalize (Text.splitOnce ' ' left).getD (left, []) = parts at h hparts
  simp only [bind_eq_ok, pure_eq_ok, Prod.mk.injEq] at h
  rcases h with ⟨_, hfold, rfl, rfl⟩
  split at heq
  · next tail =>
    cases heq
    rcases insertChordChars_sorted hspace.2 hfold with ⟨hsorted, hne⟩
    refine ⟨⟨hne (.inr hspace.1), hsorted⟩, ?_⟩
    exact Nat.lt_succ_of_le hparts.1
  · next hnospace =>
    cases heq
    have hhead : input.head? ≠ some ' ' := by
      intro hhead
      rcases List.head?_eq_some_iff.mp hhead with ⟨tail, rfl⟩
      exact hnospace tail rfl
    rcases hparts.2 hinput hhead with ⟨hchars, hlt⟩
    rcases insertChordChars_sorted List.Pairwise.nil hfold with ⟨hsorted, hne⟩
    exact ⟨⟨hne (.inl hchars), hsorted⟩, hlt⟩

/-- Which chord comes next does not depend on the place of the line in the file. -/
theorem nextChord_toOption (n' : Nat) (line' input : List Char) :
    (nextChord s n line input).toOption = (nextChord s n' line' input).toOption := by
  have hinsert : ∀ (chord : List Nat) (c : Char),
      (insertChordChar s n line chord c).toOption =
        (insertChordChar s n' line' chord c).toOption := by
    intro chord c
    unfold insertChordChar
    split <;> rfl
  unfold nextChord
  split
  rw [toOption_bind, toOption_bind, toOption_foldlM, toOption_foldlM]
  simp only [hinsert]

/-- The outputs of the characters do not depend on it either. -/
theorem outputs_toOption (n' : Nat) (line' output : List Char) :
    (output.foldlM (extendOutput s n line) []).toOption =
      (output.foldlM (extendOutput s n' line') []).toOption := by
  have hextend : ∀ (out : List ZchOutput) (c : Char),
      (extendOutput s n line out c).toOption = (extendOutput s n' line' out c).toOption := by
    intro out c
    unfold extendOutput outputOfChar
    split
    · rfl
    · dsimp only
      split
      · rfl
      · split <;> rfl
  rw [toOption_foldlM, toOption_foldlM]
  simp only [hextend]

end Chords

/-! ## Paths -/

section Paths

variable (s : ZippyParser)

/-- The chords of an input. -/
def chordPath : Nat → List Char → Option (List (List Nat))
  | 0, _ => some []
  | rounds + 1, inputLeft =>
    if inputLeft = [] then some []
    else do
      let (inputChord, inputLeft) ← (nextChord s 0 [] inputLeft).toOption
      let path ← chordPath rounds inputLeft
      pure (inputChord :: path)

/-- The chord path of a line and its output, if the line has them. -/
def lineEntry (line : List Char) : Option (List (List Nat) × List ZchOutput) := do
  let (input, output) ← Text.splitOnce '\t' line
  if input = [] then none
  else do
    let zchOutput ← (output.foldlM (extendOutput s 0 []) []).toOption
    let path ← chordPath s input.length input
    pure (path, zchOutput)

/-- The chord paths of the lines of a file, with their outputs. -/
def entriesOf (lines : List (List Char)) : List (List (List Nat) × List ZchOutput) :=
  (lines.filter Text.isMeaningful).filterMap (lineEntry s)

end Paths

end Kanata
