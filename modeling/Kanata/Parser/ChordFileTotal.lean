import Kanata.Parser.ChordFile
import Kanata.Parser.Vars

/-!
# Kanata.Parser.ChordFileTotal — when the chord parser returns

* `Safe`: the parts that are not about files return a value or an error;
* `LineFits`: what a line of an included file needs for its text to be an expression;
* `translateChord_words`: a line whose characters are words gives a chunk with just these
  keys;
* `chord_files_total`: if the parser does not panic then its files and lines are as they
  need to be, and if they are, and the characters before the tab are words, it returns, and
  gives each line its chord.
-/

namespace Kanata.ChordFile

open Fallible Chord Lexer

/-! ## Parsers that return -/

section Answers

variable {A : Type} {s : ChordParserState A}

/-- No variable refers to itself, and the parser of actions returns. -/
structure Safe (s : ChordParserState A) : Prop where
  atom : ∀ e : SExpr, ∃ a, e.atom s.vars = .ok a
  action : ∀ e, Answers (s.parseAction e)

/-- References have an end when no variable refers to itself over any number of them. -/
theorem Safe.of_loopless {vars : Vars} (hvars : s.vars = some vars)
    (hloopless : Acyclic.Loopless (Refers vars)) (haction : ∀ e, Answers (s.parseAction e)) :
    Safe s where
  atom e := by
    rcases (resolves_iff_loopless.mpr hloopless e).endsAfter with ⟨n, hn⟩
    rw [hvars]
    exact hn.atom
  action := haction

theorem listAux_of_atomAux_some {vars : Option Vars} {fuel : Nat} {e : SExpr} {a : String}
    (h : SExpr.atomAux vars fuel e = .ok (some a)) : SExpr.listAux vars fuel e = .ok none := by
  induction fuel generalizing e with
  | zero =>
    cases e with
    | listNode l sp => cases h
    | atomNode t sp =>
      simp only [SExpr.atomAux, SExpr.listAux] at h ⊢
      split at h
      · rfl
      · cases h
  | succ fuel ih =>
    cases e with
    | listNode l sp => cases h
    | atomNode t sp =>
      simp only [SExpr.atomAux, SExpr.listAux] at h ⊢
      split at h
      · rfl
      · exact ih h

theorem Safe.list (h : Safe s) (e : SExpr) : ∃ l, e.list s.vars = .ok l := by
  rcases h.atom e with ⟨_ | a, ha⟩
  · rcases SExpr.list_of_atom_none ha with ⟨l, hl⟩
    exact ⟨some l, hl⟩
  · exact ⟨none, listAux_of_atomAux_some ha⟩

/-- A parser that begins with a look at an atom. -/
theorem Safe.bind_atom (h : Safe s) (e : SExpr) {α : Type} {f : Option String → Parse α}
    (hf : ∀ a, Answers (f a)) : Answers (liftRust (e.atom s.vars) >>= f) := by
  rcases h.atom e with ⟨a, ha⟩
  rw [ha]
  exact hf a

theorem Safe.bind_list (h : Safe s) (e : SExpr) {α : Type} {f : Option (List SExpr) → Parse α}
    (hf : ∀ l, Answers (f l)) : Answers (liftRust (e.list s.vars) >>= f) := by
  rcases h.list e with ⟨l, hl⟩
  rw [hl]
  exact hf l

theorem Safe.parseKey (h : Safe s) (key : SExpr) : Answers (Chord.parseKey key s) :=
  h.bind_atom key fun _ => (answers_okOrExpr _ _ _).bind fun _ => trivial

theorem Safe.parseParticipatingKeys (h : Safe s) (keys : SExpr) :
    Answers (Chord.parseParticipatingKeys keys s) := by
  refine h.bind_list keys fun _ => (answers_okOrExpr _ _ _).bind fun l => ?_
  refine (Answers.mapM h.parseKey l).bind fun participants => ?_
  split
  · exact ⟨_, rfl⟩
  · trivial

theorem Safe.parseNonZeroU16 (h : Safe s) (e : SExpr) (label : String) :
    Answers (Chord.parseNonZeroU16 e s label) :=
  h.bind_atom e fun _ => answers_okOrExpr _ _ _

theorem Safe.parseReleaseBehaviour (h : Safe s) (e : SExpr) :
    Answers (Chord.parseReleaseBehaviour e s) :=
  h.bind_atom e fun _ => answers_okOrExpr _ _ _

theorem Safe.parseDisabledLayers (h : Safe s) (e : SExpr) :
    Answers (Chord.parseDisabledLayers e s) := by
  refine h.bind_list e fun _ => (answers_okOrExpr _ _ _).bind fun l => ?_
  refine Answers.mapM (fun layer => ?_) l
  exact h.bind_atom layer fun _ => (answers_okOrExpr _ _ _).bind fun _ => trivial

/-- An attempt at a parser that returns is a result. -/
theorem attempt_answers {α : Type} {x : Parse α} (h : Answers x) :
    ∃ r, Chord.attempt x = .ok r ∧ ∀ a, r = .ok a → x = .ok a := by
  rcases x with (e | p) | a
  · exact ⟨.error e, rfl, by rintro a ⟨⟩⟩
  · rcases h with ⟨e, he⟩
    cases he
  · refine ⟨.ok a, rfl, ?_⟩
    rintro a' ⟨⟩
    rfl

end Answers

/-! ## The chord of a line -/

section Lines

variable {A T : Type} (s : ChordParserState A) (files : ChordFiles T)

/-- The code of the key that a word names. -/
def codeOf (name : String) : Option Nat :=
  match (SExpr.atomNode name default).atom s.vars with
  | .ok (some a) => (s.strToOscode a).map KeyCode.code
  | _ => none

/-- The text of an included file. -/
def includedText (chunk : ChordChunk) : Option (List Char) :=
  match includedName s chunk with
  | .ok fileName => files.readToString fileName
  | .error _ => none

/-- A line has a tab and an action behind it, and the text that is made of them is an
expression. -/
def LineFits (line : List Char) : Prop :=
  ∃ keys action rest, Text.split '\t' line = keys :: action :: rest ∧ action ≠ [] ∧
    ∀ strings, actionStrings files action = .ok strings →
      (Lexer.parse (spliceText (participantKeys files keys) strings) true).isOk = true

/-- The characters before the tab stand for one word each. -/
def WordLine (line : List Char) : Prop :=
  ∀ keys ∈ (Text.split '\t' line).head?, ∀ c ∈ keys, Word (participantKey files c).toList

/-- What a chunk needs if it includes a file. -/
def IncludeFits (chunk : ChordChunk) : Prop :=
  ∃ text, includedText s files chunk = some text ∧ ∀ line ∈ chordLines text, LineFits files line

/-- What chords are made of. -/
inductive Source where
  | chunk (chunk : ChordChunk)
  | line (line : List Char)

/-- Where the chords of a chunk come from. -/
def sourcesOf (chunk : ChordChunk) : List Source :=
  if isInclude chunk then
    (((includedText s files chunk).map chordLines).getD []).map Source.line
  else [.chunk chunk]

/-- The keys of the chord of a line are the translations of its characters. -/
def Produces : Source → ChordV2 A → Prop
  | .chunk _, _ => True
  | .line line, chord =>
    ∃ keys rest codes, Text.split '\t' line = keys :: rest ∧
      List.Forall₂ (fun c code => codeOf s (participantKey files c) = some code) keys codes ∧
      chord.participatingKeys = codes.insertionSort (· ≤ ·)

end Lines

section Line

variable {A T : Type} {s : ChordParserState A} {files : ChordFiles T}

theorem atom_span (t : String) (span : Span) (vars : Option Vars) :
    (SExpr.atomNode t span).atom vars = (SExpr.atomNode t default).atom vars := by
  unfold SExpr.atom
  cases Vars.depth vars <;> unfold SExpr.atomAux <;> rfl

theorem parseKey_atom {w : String} {span : Span} {code : Nat}
    (h : parseKey (.atomNode w span) s = .ok code) : codeOf s w = some code := by
  unfold parseKey at h
  rw [bind_eq_ok] at h
  rcases h with ⟨name, hname, h⟩
  rw [bind_eq_ok] at h
  rcases h with ⟨k, hk, hcode⟩
  rw [pure_eq_ok] at hcode
  subst hcode
  have hname : (SExpr.atomNode w span).atom s.vars = .ok name := liftRust_eq_ok.mp hname
  rw [atom_span] at hname
  rw [okOrExpr_eq_ok] at hk
  rcases Option.bind_eq_some_iff.mp hk with ⟨a, rfl, ha⟩
  rw [codeOf, hname]
  dsimp only
  rw [ha]
  rfl

theorem actionStrings_isOk {action : List Char} :
    (∃ strings, actionStrings files action = .ok strings) ↔ action ≠ [] := by
  unfold actionStrings
  rcases action with _ | ⟨c, action⟩
  · simp [panicWith]
  · simp [pure, Except.pure]

/-- The participants of a list of words are the keys that they name. -/
theorem parseParticipatingKeys_words {keys : List SExpr} {ws : List String} {span : Span}
    {participants : { ks : List Nat // 2 ≤ ks.length }}
    (hkeys : List.Forall₂ AtomOf keys (ws.map String.toList))
    (h : parseParticipatingKeys (.listNode keys span) s = .ok participants) :
    ∃ codes, List.Forall₂ (fun w code => codeOf s w = some code) ws codes ∧
      participants.val = codes.insertionSort (· ≤ ·) := by
  have hlist : (SExpr.listNode keys span).list s.vars = .ok (some keys) := by
    unfold SExpr.list
    cases Vars.depth s.vars <;> rfl
  unfold parseParticipatingKeys at h
  rw [hlist] at h
  change (keys.mapM (parseKey · s) >>= _) = _ at h
  rw [bind_eq_ok] at h
  rcases h with ⟨codes, hcodes, h⟩
  refine ⟨codes, ?_, ?_⟩
  · have hparsed := mapM_forall₂ hcodes
    rw [List.forall₂_map_right_iff] at hkeys
    clear hcodes h hlist
    induction hkeys generalizing codes with
    | nil =>
      cases hparsed
      exact .nil
    | cons hatom _ ih =>
      rcases hparsed with _ | ⟨hcode, hparsed⟩
      rcases hatom with ⟨span', rfl⟩
      rw [String.ofList_toList] at hcode
      exact .cons (parseKey_atom hcode) (ih _ hparsed)
  · split at h
    · cases h
    · cases h
      rfl

/-- A line whose characters are words gives a chunk that begins with just these keys and has
the five items that a chord needs. -/
theorem translateChord_words {t : ChordTranslation} {keys action : List Char}
    (hwords : ∀ c ∈ keys, Word (participantKey files c).toList) (hne : action ≠ [])
    (hparse : ∀ strings, actionStrings files action = .ok strings →
      (Lexer.parse (spliceText (participantKeys files keys) strings) true).isOk = true) :
    ∃ nodes span rest, translateChord files t ⟨keys, action⟩ = .ok (.listNode nodes span :: rest) ∧
      5 ≤ (SExpr.listNode nodes span :: rest).length ∧
      List.Forall₂ AtomOf nodes ((participantKeys files keys).map String.toList) := by
  rcases actionStrings_isOk.mpr hne with ⟨strings, hstrings⟩
  rcases exists_ok_of_isOk (hparse strings hstrings) with ⟨⟨trees, metadata⟩, htrees⟩
  have hwords : ∀ w ∈ (participantKeys files keys).map String.toList, Word w := by
    intro w hw
    rcases List.mem_map.mp hw with ⟨name, hname, rfl⟩
    rcases List.mem_map.mp hname with ⟨c, hc, rfl⟩
    exact hwords c hc
  rcases parse_spliced hwords htrees with ⟨nodes, span, next, items, span', more, rfl, hnodes⟩
  refine ⟨nodes, span, next :: (items ++ [t.timeout, t.releaseBehaviour, t.disabledLayers]), ?_,
    ?_, hnodes⟩
  · unfold translateChord
    rw [hstrings, ok_bind, parseSpliced, htrees]
    rfl
  · simp

theorem item_eq_ok {chunk : List SExpr} {i : Nat} (h : i < chunk.length) :
    item chunk i = .ok chunk[i] := by
  unfold item
  rw [List.getElem?_eq_getElem h]
  rfl

theorem bind_item {chunk : List SExpr} {i : Nat} (h : i < chunk.length) {α : Type}
    {f : SExpr → Parse α} (hf : ∀ e, Answers (f e)) :
    Answers (liftRust (item chunk i) >>= f) := by
  rw [item_eq_ok h]
  exact hf _

theorem Safe.parseChordItems (h : Safe s) {chunk : List SExpr} (hlen : 5 ≤ chunk.length)
    (participants : { ks : List Nat // 2 ≤ ks.length }) :
    Answers (Chord.parseChordItems s chunk participants) := by
  refine bind_item (by omega) fun e => (h.action e).bind fun action => ?_
  refine bind_item (by omega) fun e => (h.parseNonZeroU16 e _).bind fun timeout => ?_
  refine bind_item (by omega) fun e => (h.parseReleaseBehaviour e).bind fun release => ?_
  refine bind_item (by omega) fun e => (h.parseDisabledLayers e).bind fun layers => ?_
  trivial

theorem parseChordItems_keys {chunk : List SExpr}
    {participants : { ks : List Nat // 2 ≤ ks.length }} {chord : ChordV2 A}
    (h : Chord.parseChordItems s chunk participants = .ok chord) :
    chord.participatingKeys = participants := by
  unfold Chord.parseChordItems at h
  simp only [bind_eq_ok, pure_eq_ok] at h
  rcases h with ⟨_, _, _, _, _, _, _, _, _, _, _, _, _, _, _, _, rfl⟩
  rfl

/-- A chunk that has the items that a chord needs. -/
theorem Safe.parseSingleChord (h : Safe s) {keys : SExpr} {rest : List SExpr}
    (hlen : 5 ≤ (keys :: rest).length) (keySets : List (List Nat)) :
    ∃ keySets' r, Chord.parseSingleChord s (keys :: rest) keySets = .ok (keySets', r) ∧
      ∀ chord, r = .ok chord → ∃ participants,
        Chord.parseParticipatingKeys keys s = .ok participants ∧
          chord.participatingKeys = participants.val := by
  have hkeys : item (keys :: rest) 0 = .ok keys := rfl
  rcases attempt_answers (h.parseParticipatingKeys keys) with ⟨e | participants, hr, hok⟩
  · refine ⟨keySets, .error e, ?_, by rintro chord ⟨⟩⟩
    unfold Chord.parseSingleChord
    rw [hkeys, ok_bind, hr]
    rfl
  · have hparticipants := hok participants rfl
    rcases attempt_answers (h.parseChordItems hlen participants) with ⟨chord, hchord, hok'⟩
    by_cases hseen : keySets.contains participants.val
    · have hduplicate : Chord.parseSingleChord s (keys :: rest) keySets = .ok (keySets,
          .error ⟨"Duplicate participating-keys, key sets may be used only once.",
            some keys.span⟩) := by
        unfold Chord.parseSingleChord
        rw [hkeys, ok_bind, hr, ok_bind]
        dsimp only
        rw [if_pos hseen]
        rfl
      exact ⟨_, _, hduplicate, by rintro chord ⟨⟩⟩
    · refine ⟨participants.val :: keySets, chord, ?_, ?_⟩
      · unfold Chord.parseSingleChord
        rw [hkeys, ok_bind, hr, ok_bind]
        dsimp only
        rw [if_neg hseen, hchord]
        rfl
      · intro chord' heq
        exact ⟨participants, hparticipants, parseChordItems_keys (hok' chord' heq)⟩

end Line

/-! ## All chords -/

section All

variable {A T : Type} {s : ChordParserState A} {files : ChordFiles T}

theorem allOk_append :
    ∀ {rs rs' : List (Except ParseError (ChordV2 A))} {chords : List (ChordV2 A)},
    allOk (rs ++ rs') = .ok chords →
    ∃ cs cs', allOk rs = .ok cs ∧ allOk rs' = .ok cs' ∧ chords = cs ++ cs'
  | [], rs', chords, h => ⟨[], chords, rfl, h, rfl⟩
  | .error e :: rs, rs', chords, h => by cases h
  | .ok chord :: rs, rs', chords, h => by
    rw [List.cons_append, allOk, bind_eq_ok] at h
    rcases h with ⟨rest, hrest, heq⟩
    rcases allOk_append hrest with ⟨cs, cs', hcs, hcs', rfl⟩
    cases heq
    refine ⟨chord :: cs, cs', ?_, hcs', rfl⟩
    rw [allOk, hcs]
    rfl

theorem allOk_cons {r : Except ParseError (ChordV2 A)} {rs : List (Except ParseError (ChordV2 A))}
    {chords : List (ChordV2 A)} (h : allOk (r :: rs) = .ok chords) :
    ∃ chord cs, r = .ok chord ∧ allOk rs = .ok cs ∧ chords = chord :: cs := by
  rcases r with e | chord
  · cases h
  · rw [allOk, bind_eq_ok] at h
    rcases h with ⟨cs, hcs, heq⟩
    cases heq
    exact ⟨chord, cs, rfl, hcs, rfl⟩

/-- The computation returns results, and if all of them are chords, the sources are what
they are made of. -/
def Yields (s : ChordParserState A) (files : ChordFiles T) (sources : List Source)
    (x : Rust (List (List Nat) × List (Except ParseError (ChordV2 A)))) : Prop :=
  ∃ keySets results, x = .ok (keySets, results) ∧
    ∀ chords, allOk results = .ok chords → List.Forall₂ (Produces s files) sources chords

/-- Each line of a file has its chord. -/
theorem Safe.parseDefinitions (h : Safe s) (t : ChordTranslation) :
    ∀ {lines : List (List Char)} {chordDefs : List ChordDefinition} (keySets : List (List Nat)),
      List.Forall₂ (fun line chordDef => parseLine line = .ok chordDef) lines chordDefs →
      (∀ line ∈ lines, LineFits files line ∧ WordLine files line) →
      Yields s files (lines.map Source.line)
        (ChordFile.parseDefinitions s files t chordDefs keySets)
  | _, _, keySets, .nil, _ => by
    refine ⟨keySets, [], rfl, ?_⟩
    rintro chords ⟨⟩
    exact .nil
  | line :: lines, chordDef :: chordDefs, keySets, .cons hline hlines, hfits => by
    rcases hfits line List.mem_cons_self with ⟨⟨keys, action, rest, hsplit, hne, hparse⟩, hwords⟩
    have hchordDef : chordDef = ⟨keys, action⟩ := by
      rw [parseLine, hsplit] at hline
      exact (Except.ok.inj hline).symm
    subst hchordDef
    have hchars : ∀ c ∈ keys, Word (participantKey files c).toList :=
      hwords keys (by rw [hsplit]; rfl)
    rcases translateChord_words (t := t) hchars hne hparse
      with ⟨nodes, span, items, hchunk, hlen, hnodes⟩
    rcases h.parseSingleChord hlen keySets with ⟨keySets₁, r, hr, hkeys⟩
    have hrest := h.parseDefinitions t keySets₁ hlines fun line' hline' =>
      hfits line' (List.mem_cons_of_mem line hline')
    rcases hrest with ⟨keySets₂, results, hresults, hproduces⟩
    refine ⟨keySets₂, r :: results, ?_, ?_⟩
    · unfold ChordFile.parseDefinitions
      rw [hchunk, ok_bind, hr, ok_bind]
      dsimp only
      rw [hresults]
      rfl
    · intro chords hchords
      rcases allOk_cons hchords with ⟨chord, cs, hchord, hcs, rfl⟩
      rcases hkeys chord hchord with ⟨participants, hparticipants, hsame⟩
      rcases parseParticipatingKeys_words hnodes hparticipants with ⟨codes, hcodes, hsorted⟩
      refine .cons ⟨keys, _, codes, hsplit, ?_, ?_⟩ (hproduces cs hcs)
      · rwa [participantKeys, List.forall₂_map_left_iff] at hcodes
      · rw [hsame, hsorted]

/-- The lines of what a chunk includes stand for words. -/
def WordLines (s : ChordParserState A) (files : ChordFiles T) (chunk : ChordChunk) : Prop :=
  ∀ text, includedText s files chunk = some text → ∀ line ∈ chordLines text, WordLine files line

theorem parseInput_forall₂ {text : List Char} (h : ∀ line ∈ chordLines text, LineFits files line) :
    ∃ chordDefs, parseInput text = .ok chordDefs ∧
      List.Forall₂ (fun line chordDef => parseLine line = .ok chordDef) (chordLines text)
        chordDefs := by
  have hlines : ∀ line ∈ chordLines text, ∃ chordDef, parseLine line = .ok chordDef := by
    intro line hline
    rcases h line hline with ⟨keys, action, rest, hsplit, -⟩
    exact ⟨⟨keys, action⟩, by rw [parseLine, hsplit]; rfl⟩
  rcases exists_mapM hlines with ⟨chordDefs, hchordDefs⟩
  exact ⟨chordDefs, hchordDefs, mapM_forall₂ hchordDefs⟩

theorem Safe.parseSource (h : Safe s) {chunk : ChordChunk} (keySets : List (List Nat))
    (hfits : isInclude chunk = true → IncludeFits s files chunk)
    (hwords : isInclude chunk = true → WordLines s files chunk) :
    Yields s files (sourcesOf s files chunk) (ChordFile.parseSource s files chunk keySets) := by
  unfold ChordFile.parseSource sourcesOf
  split
  · next hinclude =>
    rcases hfits hinclude with ⟨text, htext, hlines⟩
    have hwords := hwords hinclude text htext
    rcases parseInput_forall₂ hlines with ⟨chordDefs, hchordDefs, hall⟩
    unfold includedText at htext
    split at htext
    · next fileName hname =>
      have hdefinitions := @Safe.parseDefinitions _ _ _ files h
        ⟨chunk.timeout, chunk.releaseBehaviour, chunk.disabledLayers⟩ _ _ keySets hall
        fun line hline => ⟨hlines line hline, hwords line hline⟩
      rw [includedText, hname]
      dsimp only
      rw [htext]
      unfold parseIncluded parseChordFile
      rw [hname, ok_bind, htext]
      dsimp only
      rw [hchordDefs, ok_bind]
      exact hdefinitions
    · cases htext
  · have hchunk := @Safe.parseSingleChord _ _ h chunk.keys
      [chunk.action, chunk.timeout, chunk.releaseBehaviour, chunk.disabledLayers]
      (Nat.le_refl 5) keySets
    rcases hchunk with ⟨keySets', r, hr, -⟩
    refine ⟨keySets', [r], ?_, ?_⟩
    · rw [ChordChunk.items, hr]
      rfl
    · intro chords hchords
      rcases allOk_cons hchords with ⟨chord, cs, -, hcs, rfl⟩
      cases hcs
      exact .cons trivial .nil

theorem Safe.parseAll (h : Safe s) : ∀ {chunks : List ChordChunk} (keySets : List (List Nat)),
    (∀ chunk ∈ chunks, isInclude chunk = true → IncludeFits s files chunk) →
    (∀ chunk ∈ chunks, isInclude chunk = true → WordLines s files chunk) →
    ∃ results, ChordFile.parseAll s files chunks keySets = .ok results ∧
      ∀ chords, allOk results = .ok chords →
        List.Forall₂ (Produces s files) (chunks.flatMap (sourcesOf s files)) chords
  | [], keySets, _, _ => by
    refine ⟨[], rfl, ?_⟩
    rintro chords ⟨⟩
    exact .nil
  | chunk :: chunks, keySets, hfits, hwords => by
    rcases h.parseSource keySets (hfits chunk List.mem_cons_self)
      (hwords chunk List.mem_cons_self) with ⟨keySets', results, hresults, hproduces⟩
    rcases h.parseAll keySets' (fun c hc => hfits c (List.mem_cons_of_mem chunk hc))
      (fun c hc => hwords c (List.mem_cons_of_mem chunk hc)) with ⟨more, hmore, hrest⟩
    refine ⟨results ++ more, ?_, ?_⟩
    · unfold ChordFile.parseAll
      rw [hresults, ok_bind]
      dsimp only
      rw [hmore]
      rfl
    · intro chords hchords
      rcases allOk_append hchords with ⟨cs, cs', hcs, hcs', rfl⟩
      rw [List.flatMap_cons]
      exact List.rel_append (hproduces cs hcs) (hrest cs' hcs')

/-! ## What a run without panic shows -/

theorem translateChord_fits {t : ChordTranslation} {chordDef : ChordDefinition}
    {chunk : List SExpr} (h : translateChord files t chordDef = .ok chunk) :
    chordDef.action ≠ [] ∧ ∀ strings, actionStrings files chordDef.action = .ok strings →
      (Lexer.parse (spliceText (participantKeys files chordDef.keys) strings) true).isOk =
        true := by
  unfold translateChord at h
  rw [bind_eq_ok] at h
  rcases h with ⟨action, haction, h⟩
  rw [bind_eq_ok] at h
  rcases h with ⟨items, hitems, -⟩
  refine ⟨actionStrings_isOk.mp ⟨action, haction⟩, ?_⟩
  intro strings hstrings
  rw [haction] at hstrings
  cases hstrings
  unfold parseSpliced at hitems
  split at hitems
  · cases hitems
  · cases hitems
  · cases hitems
  · next hparse =>
    rw [hparse]
    rfl

theorem parseDefinitions_fits {t : ChordTranslation} : ∀ {chordDefs : List ChordDefinition}
    {keySets : List (List Nat)} {r}, parseDefinitions s files t chordDefs keySets = .ok r →
    ∀ chordDef ∈ chordDefs, ∃ chunk, translateChord files t chordDef = .ok chunk
  | [], _, _, _ => by simp
  | chordDef :: chordDefs, keySets, r, h => by
    unfold parseDefinitions at h
    rw [bind_eq_ok] at h
    rcases h with ⟨chunk, hchunk, h⟩
    rw [bind_eq_ok] at h
    rcases h with ⟨⟨keySets', chord⟩, -, h⟩
    rw [bind_eq_ok] at h
    rcases h with ⟨rest, hrest, -⟩
    intro chordDef' hmem
    rcases List.mem_cons.mp hmem with rfl | hmem
    · exact ⟨chunk, hchunk⟩
    · exact parseDefinitions_fits hrest chordDef' hmem

theorem parseIncluded_fits {chunk : ChordChunk} {keySets : List (List Nat)} {r}
    (h : parseIncluded s files chunk keySets = .ok r) : IncludeFits s files chunk := by
  unfold parseIncluded at h
  rw [bind_eq_ok] at h
  rcases h with ⟨fileName, hname, h⟩
  rw [bind_eq_ok] at h
  rcases h with ⟨chordDefs, hchordDefs, h⟩
  have hdefinitions := parseDefinitions_fits h
  unfold parseChordFile at hchordDefs
  split at hchordDefs
  · next text htext =>
    refine ⟨text, ?_, ?_⟩
    · rw [includedText, hname]
      exact htext
    · intro line hline
      rcases exists_of_mem_mapM hchordDefs hline with ⟨chordDef, hmem, hchordDef⟩
      rcases hdefinitions chordDef hmem with ⟨items, hitems⟩
      rcases translateChord_fits hitems with ⟨hne, hparse⟩
      unfold parseLine at hchordDef
      split at hchordDef
      · next keys action rest hsplit =>
        cases hchordDef
        exact ⟨keys, action, rest, hsplit, hne, hparse⟩
      · cases hchordDef
  · cases hchordDefs

theorem parseAll_fits : ∀ {chunks : List ChordChunk} {keySets : List (List Nat)} {results},
    parseAll s files chunks keySets = .ok results →
    ∀ chunk ∈ chunks, isInclude chunk = true → IncludeFits s files chunk
  | [], _, _, _ => by simp
  | chunk :: chunks, keySets, results, h => by
    unfold parseAll at h
    rw [bind_eq_ok] at h
    rcases h with ⟨r, hr, h⟩
    rw [bind_eq_ok] at h
    rcases h with ⟨more, hmore, -⟩
    intro chunk' hmem hinclude
    rcases List.mem_cons.mp hmem with rfl | hmem
    · rw [parseSource, if_pos hinclude] at hr
      exact parseIncluded_fits hr
    · exact parseAll_fits hmore chunk' hmem hinclude

end All

/-! ## The parser -/

section Total

variable {A T : Type} (s : ChordParserState A) (files : ChordFiles T)

/-- The parser returns, and a container it returns has the chords of its sources, one for
each, where the keys of the chord of a line are the translations of its characters. -/
structure Total (exprs : List SExpr) : Prop where
  no_panic : ∀ p, parseDefchordv2 s files exprs ≠ .error (.panic p)
  sources : ∀ container, parseDefchordv2 s files exprs = .ok container →
    ∃ chords, container = chordsContainer chords ∧ List.Forall₂ (Produces s files)
      ((chunksExact exprs.tail).1.flatMap (sourcesOf s files)) chords

variable {s files}

/-- After the chunks the parser can only fail with an error. -/
theorem returns_collectChords (remainder : List SExpr)
    (results : List (Except ParseError (ChordV2 A))) :
    Answers (collectChords remainder results) := by
  have hall : Answers (allOk results) := by
    induction results with
    | nil => trivial
    | cons r results ih =>
      rcases r with e | chord
      · exact ⟨e, rfl⟩
      · exact ih.bind fun _ => trivial
  refine hall.bind fun chords => ?_
  split
  · exact ⟨_, rfl⟩
  · trivial

theorem parseDefchordv2_eq (name : String) (span : Span) (rest : List SExpr) :
    parseDefchordv2 s files (.atomNode name span :: rest) =
      (liftRust (parseAll s files (chunksExact rest).1 []) >>=
        collectChords (chunksExact rest).2) := by
  have htarget : Vars.target none name = none := by
    unfold Vars.target
    cases stripDollar name <;> rfl
  have hatom : (SExpr.atomNode name span).atom none = .ok (some name) := by
    unfold SExpr.atom SExpr.atomAux
    rw [htarget]
    rfl
  unfold parseDefchordv2
  dsimp only
  rw [hatom]
  rfl

/-- If the parser is total then all included files can be read, and their lines have tabs,
actions, and texts that are expressions. If they are so, and the characters before the tabs
are words, it is total. -/
theorem chord_files_total {name : String} {span : Span} {rest : List SExpr} :
    (Total s files (.atomNode name span :: rest) →
        ∀ chunk ∈ (chunksExact rest).1, isInclude chunk = true → IncludeFits s files chunk) ∧
      (Safe s →
        (∀ chunk ∈ (chunksExact rest).1, isInclude chunk = true → WordLines s files chunk) →
        (∀ chunk ∈ (chunksExact rest).1, isInclude chunk = true → IncludeFits s files chunk) →
        Total s files (.atomNode name span :: rest)) := by
  constructor
  · intro htotal
    rcases hall : parseAll s files (chunksExact rest).1 [] with p | results
    · refine absurd ?_ (htotal.no_panic p)
      rw [parseDefchordv2_eq, hall]
      rfl
    · exact parseAll_fits hall
  · intro hsafe hwords hfits
    rcases hsafe.parseAll [] hfits hwords with ⟨results, hresults, hproduces⟩
    have hcollect : parseDefchordv2 s files (.atomNode name span :: rest) =
        collectChords (chunksExact rest).2 results := by
      rw [parseDefchordv2_eq, hresults]
      rfl
    constructor
    · intro p hp
      rw [hcollect] at hp
      rcases (returns_collectChords _ results).of_error hp with ⟨e, he⟩
      cases he
    · intro container hcontainer
      rw [hcollect, collectChords, bind_eq_ok] at hcontainer
      rcases hcontainer with ⟨chords, hchords, hend⟩
      refine ⟨chords, ?_, hproduces chords hchords⟩
      split at hend
      · cases hend
      · cases hend
        rfl

end Total

/-! ## A file with one line -/

/-- Keys with one letter, and actions of any kind. -/
def letterKeys : ChordParserState Nat where
  vars := none
  layerIdxs := []
  strToOscode name := if name = "a" then some keyA else if name = "b" then some keyB else none
  parseAction _ := pure 0

/-- One file, `chords.txt`, for a layer without keys. -/
def oneFile (text : String) : ChordFiles Nat where
  readToString fileName := if fileName = "chords.txt" then some text.toList else none
  firstLayer := []
  keyCodeToString _ := ""
  fromU16 _ := none
  osCodeToString _ := ""
  toLowercase := id
  isUppercase := Char.isUpper

/-- What follows `defchordsv2` in
`(defchordsv2 (include chords.txt) () 100 all-released ())`. -/
def includeItems : List SExpr :=
  let atom (t : String) : SExpr := .atomNode t default
  [.listNode [atom "include", atom "chords.txt"] default, .listNode [] default, atom "100",
    atom "all-released", .listNode [] default]

theorem safe_letterKeys : Safe letterKeys := by
  constructor
  · intro e
    cases e with
    | listNode l span => exact ⟨none, rfl⟩
    | atomNode t span =>
      have htarget : Vars.target letterKeys.vars t = none := by
        unfold Vars.target
        cases stripDollar t <;> rfl
      refine ⟨some t, ?_⟩
      unfold SExpr.atom SExpr.atomAux
      rw [htarget]
      rfl
  · exact fun _ => trivial

/-- The line `ab`, a tab, `b`. -/
theorem chord_files_total_line :
    (∀ chunk ∈ (chunksExact includeItems).1, isInclude chunk = true →
        IncludeFits letterKeys (oneFile "ab\tb") chunk) ∧
      Total letterKeys (oneFile "ab\tb") (.atomNode "defchordsv2" default :: includeItems) := by
  have htext : ∀ chunk ∈ (chunksExact includeItems).1,
      includedText letterKeys (oneFile "ab\tb") chunk = some ['a', 'b', '\t', 'b'] := by
    intro chunk hchunk
    rw [List.mem_singleton.mp hchunk]
    rfl
  have hlines : ∀ line ∈ chordLines ['a', 'b', '\t', 'b'], line = ['a', 'b', '\t', 'b'] := by
    decide +kernel
  have hfits : ∀ chunk ∈ (chunksExact includeItems).1, isInclude chunk = true →
      IncludeFits letterKeys (oneFile "ab\tb") chunk := by
    intro chunk hchunk _
    refine ⟨_, htext chunk hchunk, ?_⟩
    intro line hline
    rw [hlines line hline]
    refine ⟨['a', 'b'], ['b'], [], rfl, by decide, ?_⟩
    rintro strings ⟨⟩
    decide +kernel
  refine ⟨hfits, chord_files_total.2 safe_letterKeys ?_ hfits⟩
  intro chunk hchunk _ text htext'
  rw [htext chunk hchunk] at htext'
  cases htext'
  intro line hline
  rw [hlines line hline]
  intro keys hkeys
  cases hkeys
  exact List.forall_mem_cons.mpr
    ⟨by decide +kernel, List.forall_mem_singleton.mpr (by decide +kernel)⟩

/-- A line without a tab panics. -/
theorem chord_files_total_fails :
    parseDefchordv2 letterKeys (oneFile "ab") (.atomNode "defchordsv2" default :: includeItems) =
        .error (.panic
          ⟨"Each line needs to have an action separated by a tab character, got 'ab'"⟩) ∧
      ¬Total letterKeys (oneFile "ab") (.atomNode "defchordsv2" default :: includeItems) := by
  have hpanics : parseDefchordv2 letterKeys (oneFile "ab")
      (.atomNode "defchordsv2" default :: includeItems) = .error (.panic
        ⟨"Each line needs to have an action separated by a tab character, got 'ab'"⟩) := rfl
  exact ⟨hpanics, fun h => h.no_panic _ hpanics⟩

end Kanata.ChordFile
