import Kanata.Lexing.Tokens

/-!
# Kanata.Lexing.Trees — the trees are the tokens

`Lexes cs p toks fin` is a run of the lexer from byte `p` on: the tokens `toks` in
a row up to the end of the source or to an error. The loop of the parser pushes
those of them that are not ignored (`parseLoop_eq`).

Read from left to right, the stack of open lists and the metadata are the tokens
pushed so far (`ReadsTo`), so at the end the trees are (`lexing_lossless`).
-/

namespace Kanata

/-- A token of the source with its byte range. -/
structure Lexeme where
  tok : Token
  start : Nat
  stop : Nat
deriving DecidableEq, Repr

/-- A tree read from left to right. -/
inductive TreeToken where
  | opening (start : Position)
  | closing (stop : Position)
  | atom (t : String) (span : Span)
deriving DecidableEq, Repr

mutual

def SExpr.flatten : SExpr → List TreeToken
  | .atomNode t span => [.atom t span]
  | .listNode es span => .opening span.start :: (SExpr.flattenAll es ++ [.closing span.stop])

def SExpr.flattenAll : List SExpr → List TreeToken
  | [] => []
  | e :: es => e.flatten ++ SExpr.flattenAll es

end

theorem SExpr.flattenAll_append (es es' : List SExpr) :
    SExpr.flattenAll (es ++ es') = SExpr.flattenAll es ++ SExpr.flattenAll es' := by
  induction es with
  | nil => rfl
  | cons e es ih => rw [List.cons_append, flattenAll, flattenAll, ih, List.append_assoc]

theorem SExpr.flattenAll_concat (es : List SExpr) (e : SExpr) :
    SExpr.flattenAll (es ++ [e]) = SExpr.flattenAll es ++ e.flatten := by
  rw [flattenAll_append, flattenAll, flattenAll, List.append_nil]

namespace Lexer

open Fallible Utf8 PositionCountingBytesIterator

/-- A top-level list as a tree. -/
def TopLevel.tree (t : TopLevel) : SExpr := .listNode t.1 t.2

/-! ## Runs of the lexer -/

/-- A run of the lexer from a byte position, which ends at the end of the source
or with an error message and its range. -/
inductive Lexes (cs : List Char) : Nat → List Lexeme → Option (String × Nat × Nat) → Prop
  | done : Lexes cs (encode cs).length [] none
  | error {p q : Nat} {b : UInt8} {msg : String} (hb : (encode cs)[p]? = some b)
      (h : tokenAfter b (iterAt (encode cs) (p + 1)) = .ok (.error msg, iterAt (encode cs) q))
      (hlt : p < q) (hlen : q ≤ (encode cs).length) : Lexes cs p [] (some (msg, p, q))
  | token {p q : Nat} {b : UInt8} {t : Token} {toks : List Lexeme}
      {fin : Option (String × Nat × Nat)} (hb : (encode cs)[p]? = some b)
      (h : tokenAfter b (iterAt (encode cs) (p + 1)) = .ok (.ok t, iterAt (encode cs) q))
      (hlt : p < q) (hat : TokenAt cs p t q) (rest : Lexes cs q toks fin) :
      Lexes cs p (⟨t, p, q⟩ :: toks) fin

/-- From every position there is a run. -/
theorem exists_lexes {cs : List Char} {p : Nat} (hp : p ≤ (encode cs).length) :
    ∃ toks fin, Lexes cs p toks fin := by
  induction hn : (encode cs).length - p using Nat.strongRecOn generalizing p with
  | _ n ih =>
    cases hb : (encode cs)[p]? with
    | none =>
      have hend : p = (encode cs).length :=
        Nat.le_antisymm hp (List.getElem?_eq_none_iff.mp hb)
      subst hend
      exact ⟨[], none, .done⟩
    | some b =>
      rcases tokenAfter_spec hb with ⟨res, q, hq, hlt, hlen, hat⟩
      cases res with
      | error msg => exact ⟨[], some (msg, p, q), .error hb hq hlt hlen⟩
      | ok t =>
        rcases ih ((encode cs).length - q) (by omega) hlen rfl with ⟨toks, fin, hrest⟩
        exact ⟨⟨t, p, q⟩ :: toks, fin, .token hb hq hlt (hat t rfl) hrest⟩

/-! ## The loop of the lexer -/

section Steps

variable {bs : List UInt8} {ignore : Bool} {fuel p q : Nat} {b : UInt8}

theorem nextToken_end (h : p = bs.length) :
    nextToken ignore (fuel + 1) (iterAt bs p) = .ok (none, iterAt bs p) := by
  unfold nextToken
  rw [pos_iterAt (Nat.le_of_eq h), next_iterAt_end (Nat.le_of_eq h.symm)]
  rfl

/-- A round of the loop consumes a token. -/
theorem nextToken_token {t : Token} (hb : bs[p]? = some b)
    (h : tokenAfter b (iterAt bs (p + 1)) = .ok (.ok t, iterAt bs q)) :
    nextToken ignore (fuel + 1) (iterAt bs p) =
      if t.isMeta && ignore then nextToken ignore fuel (iterAt bs q)
      else .ok (some (posAt bs p, .ok t), iterAt bs q) := by
  have hp : p ≤ bs.length := Nat.le_of_lt (List.getElem?_eq_some_iff.mp hb).1
  rw [nextToken, pos_iterAt hp, next_iterAt hb]
  simp only [ok_bind, h]
  rfl

theorem nextToken_error {msg : String} (hb : bs[p]? = some b)
    (h : tokenAfter b (iterAt bs (p + 1)) = .ok (.error msg, iterAt bs q)) :
    nextToken ignore (fuel + 1) (iterAt bs p) =
      .ok (some (posAt bs p, .error msg), iterAt bs q) := by
  have hp : p ≤ bs.length := Nat.le_of_lt (List.getElem?_eq_some_iff.mp hb).1
  rw [nextToken, pos_iterAt hp, next_iterAt hb]
  simp only [ok_bind, h]
  rfl

/-- Rounds beyond the number of bytes left are not used. -/
theorem nextToken_fuel {cs : List Char} {fuel' : Nat} (hp : p ≤ (encode cs).length)
    (hfuel : (encode cs).length - p < fuel) (hfuel' : (encode cs).length - p < fuel') :
    nextToken ignore fuel (iterAt (encode cs) p) =
      nextToken ignore fuel' (iterAt (encode cs) p) := by
  induction fuel generalizing p fuel' with
  | zero => exact absurd hfuel (Nat.not_lt_zero _)
  | succ fuel ih =>
    rcases Nat.exists_eq_succ_of_ne_zero (Nat.ne_of_gt (Nat.zero_lt_of_lt hfuel')) with ⟨k, rfl⟩
    cases hb : (encode cs)[p]? with
    | none =>
      have hend : p = (encode cs).length :=
        Nat.le_antisymm hp (List.getElem?_eq_none_iff.mp hb)
      rw [nextToken_end hend, nextToken_end hend]
    | some b =>
      rcases tokenAfter_spec hb with ⟨res, q, hq, hlt, hlen, _⟩
      cases res with
      | error e => rw [nextToken_error hb hq, nextToken_error hb hq]
      | ok t =>
        rw [nextToken_token hb hq, nextToken_token hb hq]
        split
        · exact ih hlen (by omega) (by omega)
        · rfl

theorem nextSpanned_end (h : p = bs.length) :
    nextSpanned ignore (iterAt bs p) = .ok (none, iterAt bs p) := by
  unfold nextSpanned
  rw [nextToken_end h]
  rfl

theorem nextSpanned_error {msg : String} (hb : bs[p]? = some b)
    (h : tokenAfter b (iterAt bs (p + 1)) = .ok (.error msg, iterAt bs q)) (hlt : p < q)
    (hlen : q ≤ bs.length) :
    nextSpanned ignore (iterAt bs p) = .ok (some (.error msg, spanAt bs p q), iterAt bs q) := by
  unfold nextSpanned
  rw [nextToken_error hb h]
  simp only [ok_bind]
  rw [pos_iterAt hlen]
  simp only [ok_bind]
  rw [span_new (Nat.le_of_lt hlt)]
  rfl

theorem nextSpanned_token {t : Token} (hb : bs[p]? = some b)
    (h : tokenAfter b (iterAt bs (p + 1)) = .ok (.ok t, iterAt bs q)) (hlt : p < q)
    (hlen : q ≤ bs.length) (hkeep : (t.isMeta && ignore) = false) :
    nextSpanned ignore (iterAt bs p) = .ok (some (.ok t, spanAt bs p q), iterAt bs q) := by
  unfold nextSpanned
  rw [nextToken_token hb h]
  simp only [hkeep, Bool.false_eq_true, if_false, ok_bind]
  rw [pos_iterAt hlen]
  simp only [ok_bind]
  rw [span_new (Nat.le_of_lt hlt)]
  rfl

theorem nextSpanned_skip {cs : List Char} {t : Token} (hb : (encode cs)[p]? = some b)
    (h : tokenAfter b (iterAt (encode cs) (p + 1)) = .ok (.ok t, iterAt (encode cs) q))
    (hlt : p < q) (hlen : q ≤ (encode cs).length) (hskip : (t.isMeta && ignore) = true) :
    nextSpanned ignore (iterAt (encode cs) p) = nextSpanned ignore (iterAt (encode cs) q) := by
  have hp : p < (encode cs).length := (List.getElem?_eq_some_iff.mp hb).1
  have hbytes : ∀ r, (iterAt (encode cs) r).bytes.length = (encode cs).length - r := by
    intro r
    exact List.length_drop
  unfold nextSpanned
  rw [nextToken_token hb h]
  simp only [hskip, if_true]
  rw [nextToken_fuel hlen (by rw [hbytes]; omega) (Nat.lt_succ_self _), hbytes]

end Steps

/-! ## The loop of the parser -/

theorem Lexes.le_length {cs : List Char} {p : Nat} {toks : List Lexeme}
    {fin : Option (String × Nat × Nat)} (h : Lexes cs p toks fin) : p ≤ (encode cs).length := by
  induction h with
  | done => exact Nat.le_refl _
  | error _ _ hlt hlen => exact Nat.le_trans (Nat.le_of_lt hlt) hlen
  | token _ _ hlt _ _ ih => exact Nat.le_trans (Nat.le_of_lt hlt) ih

/-- The tokens that the lexer hands to the parser. -/
def kept (ignoreWhitespaceAndComments : Bool) (toks : List Lexeme) : List Lexeme :=
  toks.filter fun l => !(l.tok.isMeta && ignoreWhitespaceAndComments)

def pushLexeme (s : List Char) (st : ParseState) (l : Lexeme) : Parse ParseState :=
  pushToken s st l.tok (spanAt (encode s) l.start l.stop)

/-- How the loop ends after the last token. -/
def endOfRun (s : List Char) (fin : Option (String × Nat × Nat)) (st : ParseState) :
    Parse ParseState :=
  match fin with
  | none => pure st
  | some (msg, p, q) => .error (.error ⟨msg, some (spanAt (encode s) p q)⟩)

theorem parseLoop_eq {s : List Char} {ignore : Bool} {p fuel : Nat} {toks : List Lexeme}
    {fin : Option (String × Nat × Nat)} {st : ParseState} (h : Lexes s p toks fin)
    (hfuel : (encode s).length - p < fuel) :
    parseLoop s ignore fuel (iterAt (encode s) p) st =
      (kept ignore toks).foldlM (pushLexeme s) st >>= endOfRun s fin := by
  induction h generalizing fuel st with
  | done =>
    rcases Nat.exists_eq_succ_of_ne_zero (Nat.ne_of_gt (Nat.zero_lt_of_lt hfuel)) with ⟨k, rfl⟩
    unfold parseLoop
    rw [nextSpanned_end rfl]
    rfl
  | error hb hq hlt hlen =>
    rcases Nat.exists_eq_succ_of_ne_zero (Nat.ne_of_gt (Nat.zero_lt_of_lt hfuel)) with ⟨k, rfl⟩
    unfold parseLoop
    rw [nextSpanned_error hb hq hlt hlen]
    rfl
  | @token p q b t toks fin hb hq hlt hat rest ih =>
    rcases Nat.exists_eq_succ_of_ne_zero (Nat.ne_of_gt (Nat.zero_lt_of_lt hfuel)) with ⟨k, rfl⟩
    have hlen : q ≤ (encode s).length := rest.le_length
    by_cases hskip : (t.isMeta && ignore) = true
    · -- the same round continues with the next token
      have hsame : parseLoop s ignore (k + 1) (iterAt (encode s) p) st =
          parseLoop s ignore (k + 1) (iterAt (encode s) q) st := by
        unfold parseLoop
        rw [nextSpanned_skip hb hq hlt hlen hskip]
      have hkept : kept ignore (⟨t, p, q⟩ :: toks) = kept ignore toks := by
        unfold kept
        rw [List.filter_cons_of_neg (by simpa using hskip)]
      rw [hsame, hkept]
      exact ih (by omega)
    · have hkeep : (t.isMeta && ignore) = false := by simpa using hskip
      have hkept : kept ignore (⟨t, p, q⟩ :: toks) = ⟨t, p, q⟩ :: kept ignore toks := by
        unfold kept
        rw [List.filter_cons_of_pos (by rw [hkeep]; rfl)]
      rw [hkept, List.foldlM_cons, bind_assoc]
      unfold parseLoop
      rw [nextSpanned_token hb hq hlt hlen hkeep]
      have hrest : ∀ st', parseLoop s ignore k (iterAt (encode s) q) st' =
          (kept ignore toks).foldlM (pushLexeme s) st' >>= endOfRun s fin := by
        intro st'
        exact ih (by omega)
      exact bind_congr_ok fun st' _ => hrest st'

/-! ## What has been read -/

/-- The text of a byte range. -/
def textOf (s : List Char) (p q : Nat) : String := String.ofList ((slice s p q).getD [])

/-- What a token is in the trees. -/
def treeToken (s : List Char) (l : Lexeme) : Option TreeToken :=
  match l.tok with
  | .open => some (.opening (posAt (encode s) l.start))
  | .close => some (.closing (posAt (encode s) l.stop))
  | .stringTok => some (.atom (textOf s l.start l.stop) (spanAt (encode s) l.start l.stop))
  | .blockComment | .lineComment | .whitespace => none

/-- What a token is in the metadata. -/
def metaItem (s : List Char) (l : Lexeme) : Option SExprMetaData :=
  match l.tok with
  | .open | .close | .stringTok => none
  | .blockComment =>
    some (.blockComment (textOf s l.start l.stop) (spanAt (encode s) l.start l.stop))
  | .lineComment =>
    some (.lineComment (textOf s l.start l.stop) (spanAt (encode s) l.start l.stop))
  | .whitespace =>
    some (.whitespace (textOf s l.start l.stop) (spanAt (encode s) l.start l.stop))

/-- The stack of open lists read from left to right. -/
def flattenStack : List Frame → List TreeToken
  | [] => []
  | [(es, _)] => SExpr.flattenAll es
  | (es, span) :: frame :: frames =>
    flattenStack (frame :: frames) ++ .opening span.start :: SExpr.flattenAll es

/-- Below the placeholder nothing, above it the lists that open before `p`. -/
def FramesOk (bs : List UInt8) (p : Nat) : List Frame → Prop
  | [] => False
  | [_] => True
  | (_, span) :: frame :: frames =>
    (∃ i j, span = spanAt bs i j ∧ i ≤ j ∧ j ≤ p) ∧ FramesOk bs p (frame :: frames)

/-- After the tokens `done`, which end before `p`. -/
structure ReadsTo (s : List Char) (done : List Lexeme) (p : Nat) (st : ParseState) : Prop where
  frames : FramesOk (encode s) p st.stack
  trees : flattenStack st.stack = done.filterMap (treeToken s)
  metadata : st.metadata = done.filterMap (metaItem s)

section Stack

variable {bs : List UInt8} {p q : Nat} {stack : List Frame}

theorem FramesOk.mono (hle : p ≤ q) : ∀ {stack : List Frame}, FramesOk bs p stack →
    FramesOk bs q stack
  | [], h => h
  | [_], h => h
  | (_, _) :: _ :: _, ⟨⟨i, j, hspan, hij, hj⟩, h⟩ =>
    ⟨⟨i, j, hspan, hij, Nat.le_trans hj hle⟩, h.mono hle⟩

theorem pushExpr_spec (e : SExpr) (h : FramesOk bs p stack) :
    ∃ stack', pushExpr e stack = .ok stack' ∧ FramesOk bs p stack' ∧
      flattenStack stack' = flattenStack stack ++ e.flatten := by
  rcases stack with _ | ⟨⟨es, span⟩, _ | ⟨frame, frames⟩⟩
  · exact h.elim
  · refine ⟨[(es ++ [e], span)], rfl, trivial, ?_⟩
    exact SExpr.flattenAll_concat es e
  · refine ⟨(es ++ [e], span) :: frame :: frames, rfl, h, ?_⟩
    unfold flattenStack
    rw [SExpr.flattenAll_concat, List.append_assoc, List.cons_append]

theorem cover_spanAt {i j : Nat} (hij : i ≤ j) (hjp : j ≤ p) (hpq : p ≤ q) :
    (spanAt bs i j).cover (spanAt bs p q) = .ok (spanAt bs i q) := by
  have hstart : (spanAt bs i j).start.absolute ≤ (spanAt bs p q).start.absolute :=
    Nat.le_trans hij hjp
  unfold Span.cover
  rw [if_pos hstart]
  by_cases hstop : (spanAt bs i j).stop.absolute ≥ (spanAt bs p q).stop.absolute
  · -- the closing parenthesis is not empty, so this is for equal ends only
    have hjq : j = q := Nat.le_antisymm (Nat.le_trans hjp hpq) hstop
    rw [if_pos hstop, hjq]
    exact span_new (Nat.le_trans hij (Nat.le_trans hjp hpq))
  · rw [if_neg hstop]
    exact span_new (Nat.le_trans hij (Nat.le_trans hjp hpq))

/-- A closing parenthesis is an error at the top level and closes a list elsewhere. -/
theorem closeList_spec (h : FramesOk bs p stack) (hpq : p ≤ q) :
    closeList (spanAt bs p q) stack =
        .error (.error ⟨"Unexpected closing parenthesis", some (spanAt bs p q)⟩) ∨
      ∃ stack', closeList (spanAt bs p q) stack = .ok stack' ∧ FramesOk bs p stack' ∧
        flattenStack stack' = flattenStack stack ++ [.closing (posAt bs q)] := by
  rcases stack with _ | ⟨⟨es, span⟩, _ | ⟨frame, frames⟩⟩
  · exact h.elim
  · exact .inl rfl
  · rcases h with ⟨⟨i, j, rfl, hij, hj⟩, hrest⟩
    rcases pushExpr_spec (.listNode es (spanAt bs i q)) hrest with ⟨stack', hpush, hok, hflat⟩
    refine .inr ⟨stack', ?_, hok, ?_⟩
    · unfold closeList
      simp only [cover_spanAt hij hj hpq]
      exact hpush
    · rw [hflat]
      unfold SExpr.flatten
      rw [flattenStack, List.append_assoc]
      rfl

end Stack

/-! ## Pushing tokens -/

/-- A token between boundaries, not before `p`. -/
structure Lexeme.Placed (s : List Char) (p : Nat) (l : Lexeme) : Prop where
  after : p ≤ l.start
  nonempty : l.start < l.stop
  start : Boundary s l.start
  stop : Boundary s l.stop

/-- Tokens one after the other. -/
def InOrder (s : List Char) : Nat → List Lexeme → Prop
  | _, [] => True
  | p, l :: toks => Lexeme.Placed s p l ∧ InOrder s l.stop toks

/-- Tokens in a row, without a gap. -/
def Covers : Nat → List Lexeme → Nat → Prop
  | p, [], stop => p = stop
  | p, l :: toks, stop => l.start = p ∧ l.start < l.stop ∧ Covers l.stop toks stop

section Push

variable {s : List Char} {p q : Nat} {toks done : List Lexeme} {fin : Option (String × Nat × Nat)}
  {st : ParseState} {l : Lexeme}

theorem Lexes.inOrder (h : Lexes s p toks fin) (hp : Boundary s p) : InOrder s p toks := by
  induction h with
  | done => trivial
  | error => trivial
  | token _ _ hlt hat _ ih => exact ⟨⟨Nat.le_refl _, hlt, hp, hat.1⟩, ih hat.1⟩

theorem Lexes.covers (h : Lexes s p toks none) : Covers p toks (encode s).length := by
  generalize hfin : none = fin at h
  induction h with
  | done => rfl
  | error => cases hfin
  | token _ _ hlt _ _ ih => exact ⟨rfl, hlt, ih hfin⟩

theorem InOrder.weaken (hle : p ≤ q) (h : InOrder s q toks) : InOrder s p toks := by
  cases toks with
  | nil => trivial
  | cons l toks => exact ⟨⟨Nat.le_trans hle h.1.after, h.1.nonempty, h.1.start, h.1.stop⟩, h.2⟩

theorem InOrder.kept (ignore : Bool) (h : InOrder s p toks) : InOrder s p (kept ignore toks) := by
  induction toks generalizing p with
  | nil => trivial
  | cons l toks ih =>
    unfold Lexer.kept
    rw [List.filter_cons]
    split
    · exact ⟨h.1, ih h.2⟩
    · exact (ih h.2).weaken (Nat.le_trans h.1.after (Nat.le_of_lt h.1.nonempty))

theorem InOrder.boundaries (h : InOrder s p toks) :
    ∀ l ∈ toks, Boundary s l.start ∧ Boundary s l.stop := by
  induction toks generalizing p with
  | nil =>
    intro l hl
    cases hl
  | cons l toks ih =>
    intro l' hl'
    rcases List.mem_cons.mp hl' with rfl | hl'
    · exact ⟨h.1.start, h.1.stop⟩
    · exact ih h.2 l' hl'

theorem textAt_eq (hp : Boundary s p) (hq : Boundary s q) (hle : p ≤ q) :
    textAt s (spanAt (encode s) p q) = .ok (textOf s p q) := by
  rcases slice_of_boundary hp hq hle with ⟨text, htext, _⟩
  have hstart : (spanAt (encode s) p q).start.absolute = p := rfl
  have hstop : (spanAt (encode s) p q).stop.absolute = q := rfl
  unfold textAt textOf
  rw [hstart, hstop, if_pos hle, htext]
  rfl

/-- A token of a tree goes on the stack. -/
theorem ReadsTo.onStack {stack' : List Frame} {t : TreeToken} (h : ReadsTo s done p st)
    (hframes : FramesOk (encode s) q stack') (hflat : flattenStack stack' =
      flattenStack st.stack ++ [t])
    (htree : treeToken s l = some t) (hmeta : metaItem s l = none) :
    ReadsTo s (done ++ [l]) q { st with stack := stack' } := by
  constructor
  · exact hframes
  · rw [hflat, h.trees, List.filterMap_append, List.filterMap_cons, htree]
    rfl
  · rw [List.filterMap_append, List.filterMap_cons, hmeta, ← h.metadata]
    exact (List.append_nil _).symm

/-- White space and comments go to the metadata. -/
theorem ReadsTo.onMetadata {item : SExprMetaData} (h : ReadsTo s done p st) (hle : p ≤ q)
    (htree : treeToken s l = none) (hmeta : metaItem s l = some item) :
    ReadsTo s (done ++ [l]) q { st with metadata := st.metadata ++ [item] } := by
  constructor
  · exact h.frames.mono hle
  · rw [List.filterMap_append, List.filterMap_cons, htree, ← h.trees]
    exact (List.append_nil _).symm
  · rw [List.filterMap_append, List.filterMap_cons, hmeta, ← h.metadata]
    rfl

/-- One more token is read, or the parser refuses it. -/
theorem pushLexeme_spec (h : ReadsTo s done p st) (hl : Lexeme.Placed s p l) :
    Ensures (pushLexeme s st l) (ReadsTo s (done ++ [l]) l.stop) Refused := by
  rcases l with ⟨tok, start, stop⟩
  have hle : start ≤ stop := Nat.le_of_lt hl.nonempty
  have hlater : p ≤ stop := Nat.le_trans hl.after hle
  have htext := textAt_eq hl.start hl.stop hle
  have hframes : FramesOk (encode s) start st.stack := h.frames.mono hl.after
  unfold pushLexeme pushToken
  cases tok with
  | «open» =>
    rcases hstack : st.stack with _ | ⟨frame, frames⟩
    · rw [hstack] at hframes
      exact hframes.elim
    · refine h.onStack ⟨⟨start, stop, rfl, hle, Nat.le_refl _⟩, ?_⟩ ?_ rfl rfl
      · rw [← hstack]
        exact hframes.mono hle
      · rw [hstack]
        rfl
  | close =>
    rcases closeList_spec hframes hle with herr | ⟨stack', hclose, hok, hflat⟩
    · simp only [herr]
      exact ⟨_, rfl⟩
    · simp only [hclose]
      exact h.onStack (hok.mono hle) hflat rfl rfl
  | stringTok =>
    rcases pushExpr_spec (.atomNode (textOf s start stop) (spanAt (encode s) start stop)) hframes
      with ⟨stack', hpush, hok, hflat⟩
    simp only [htext, liftM_ok, ok_bind, hpush]
    exact h.onStack (hok.mono hle) hflat rfl rfl
  | blockComment =>
    simp only [htext, liftM_ok, ok_bind]
    exact h.onMetadata hlater rfl rfl
  | lineComment =>
    simp only [htext, liftM_ok, ok_bind]
    exact h.onMetadata hlater rfl rfl
  | whitespace =>
    simp only [htext, liftM_ok, ok_bind]
    exact h.onMetadata hlater rfl rfl

/-- All tokens of a run are read, or the parser refuses one of them. -/
theorem pushAll_spec (h : ReadsTo s done p st) (htoks : InOrder s p toks) :
    Ensures (toks.foldlM (pushLexeme s) st) (fun st' => ∃ q, ReadsTo s (done ++ toks) q st')
      Refused := by
  induction toks generalizing done p st with
  | nil =>
    rw [List.append_nil]
    exact ⟨p, h⟩
  | cons l toks ih =>
    rw [List.foldlM_cons]
    refine Ensures.bind ((pushLexeme_spec h htoks.1).mono ?_ fun _ hE => hE)
    intro st' hst'
    have hrest := ih hst' htoks.2
    rwa [List.append_assoc, List.singleton_append] at hrest

/-- Metadata does not get in the way of the stack. -/
theorem pushLexeme_metadata {metadata : List SExprMetaData} (hl : l.tok.isMeta = false) :
    pushLexeme s { st with metadata } l =
      (pushLexeme s st l).map fun st' => { st' with metadata } := by
  rcases l with ⟨tok, start, stop⟩
  unfold pushLexeme pushToken
  cases tok with
  | «open» => rfl
  | close =>
    simp only
    cases closeList (spanAt (encode s) start stop) st.stack <;> rfl
  | stringTok =>
    simp only
    cases textAt s (spanAt (encode s) start stop) with
    | error e => rfl
    | ok t =>
      simp only [liftM_ok, ok_bind]
      cases pushExpr (.atomNode t (spanAt (encode s) start stop)) st.stack <;> rfl
  | blockComment => cases hl
  | lineComment => cases hl
  | whitespace => cases hl

theorem pushLexeme_isMeta (hl : Lexeme.Placed s p l) (hmeta : l.tok.isMeta = true) :
    ∃ metadata, pushLexeme s st l = .ok { st with metadata } := by
  rcases l with ⟨tok, start, stop⟩
  have htext := textAt_eq hl.start hl.stop (Nat.le_of_lt hl.nonempty)
  unfold pushLexeme pushToken
  simp only at htext hmeta ⊢
  cases tok with
  | «open» => cases hmeta
  | close => cases hmeta
  | stringTok => cases hmeta
  | blockComment =>
    simp only [htext, liftM_ok, ok_bind]
    exact ⟨_, rfl⟩
  | lineComment =>
    simp only [htext, liftM_ok, ok_bind]
    exact ⟨_, rfl⟩
  | whitespace =>
    simp only [htext, liftM_ok, ok_bind]
    exact ⟨_, rfl⟩

/-- Ignored tokens make no difference to the stack. -/
theorem pushAll_stack {metadata : List SExprMetaData} (htoks : InOrder s p toks) :
    (toks.foldlM (pushLexeme s) { st with metadata }).map (fun st' => st'.stack) =
      ((kept true toks).foldlM (pushLexeme s) st).map fun st' => st'.stack := by
  induction toks generalizing p st metadata with
  | nil => rfl
  | cons l toks ih =>
    rw [List.foldlM_cons]
    by_cases hmeta : l.tok.isMeta = true
    · have hkept : kept true (l :: toks) = kept true toks := by
        unfold kept
        rw [List.filter_cons_of_neg (by simp [hmeta])]
      rcases @pushLexeme_isMeta s p { st with metadata } l htoks.1 hmeta with ⟨metadata', hpush⟩
      rw [hkept, hpush]
      exact @ih l.stop st metadata' htoks.2
    · have hplain : l.tok.isMeta = false := by simpa using hmeta
      have hkept : kept true (l :: toks) = l :: kept true toks := by
        unfold kept
        rw [List.filter_cons_of_pos (by simp [hplain])]
      rw [hkept, List.foldlM_cons, pushLexeme_metadata hplain]
      cases pushLexeme s st l with
      | error e => rfl
      | ok st' => exact ih htoks.2

end Push

/-! ## Whole parses -/

section Whole

variable {s : List Char} {ignore : Bool} {trees : List TopLevel} {metadata : List SExprMetaData}

theorem mapM_topLevel_eq_ok {exprs : List SExpr} (h : exprs.mapM topLevel = .ok trees) :
    exprs = trees.map TopLevel.tree := by
  induction exprs generalizing trees with
  | nil =>
    rw [List.mapM_nil] at h
    cases h
    rfl
  | cons e exprs ih =>
    rw [List.mapM_cons, bind_eq_ok] at h
    rcases h with ⟨t, ht, h⟩
    rw [bind_eq_ok] at h
    rcases h with ⟨ts, hts, h⟩
    rw [pure_eq_ok] at h
    subst h
    cases e with
    | atomNode t' span => cases ht
    | listNode es span =>
      cases ht
      rw [ih hts]
      rfl

theorem mapM_topLevel_refused (exprs : List SExpr) :
    Ensures (exprs.mapM topLevel) (fun _ => True) Refused := by
  induction exprs with
  | nil => exact trivial
  | cons e exprs ih =>
    rw [List.mapM_cons]
    cases e with
    | atomNode t span => exact ⟨_, rfl⟩
    | listNode es span =>
      refine Ensures.bind ?_
      exact Ensures.bind (ih.mono (fun _ _ => trivial) fun _ hE => hE)

theorem readsTo_start : ReadsTo s [] 0 ⟨[([], default)], []⟩ := ⟨trivial, rfl, rfl⟩

/-- The parser on the tokens of a run. -/
theorem parseWith_eq {toks : List Lexeme} {fin : Option (String × Nat × Nat)}
    (h : Lexes s 0 toks fin) :
    parseWith s ignore =
      ((kept ignore toks).foldlM (pushLexeme s) ⟨[([], default)], []⟩ >>= endOfRun s fin) >>=
        finish := by
  unfold parseWith
  rw [new_eq_iterAt, parseLoop_eq h (show _ - 0 < (encode s).length + 1 from Nat.lt_succ_self _)]

theorem kept_false (toks : List Lexeme) : kept false toks = toks := by
  unfold kept
  simp

theorem finish_refused (st : ParseState) (hstack : st.stack ≠ []) :
    Ensures (finish st) (fun _ => True) Refused := by
  unfold finish
  rcases h : st.stack with _ | ⟨⟨exprs, span⟩, _ | ⟨⟨es, span'⟩, frames⟩⟩
  · exact absurd h hstack
  · exact Ensures.bind ((mapM_topLevel_refused exprs).mono (fun _ _ => trivial) fun _ hE => hE)
  · exact ⟨_, rfl⟩

/-- The trees come from the stack. -/
theorem finish_trees {st st' : ParseState} (h : st.stack = st'.stack) :
    (finish st).map Prod.fst = (finish st').map Prod.fst := by
  unfold finish
  rw [h]
  rcases st'.stack with _ | ⟨⟨exprs, span⟩, _ | ⟨⟨es, span'⟩, frames⟩⟩
  · rfl
  · simp only
    cases exprs.mapM topLevel <;> rfl
  · rfl

theorem finish_eq_ok {st : ParseState} (h : finish st = .ok (trees, metadata)) :
    flattenStack st.stack = SExpr.flattenAll (trees.map TopLevel.tree) ∧
      st.metadata = metadata := by
  unfold finish at h
  rcases hstack : st.stack with _ | ⟨⟨exprs, span⟩, _ | ⟨⟨es, span'⟩, frames⟩⟩
  · rw [hstack] at h
    cases h
  · rw [hstack] at h
    simp only [bind_eq_ok] at h
    rcases h with ⟨trees', htrees, h⟩
    cases h
    rw [flattenStack, mapM_topLevel_eq_ok htrees]
    exact ⟨rfl, rfl⟩
  · rw [hstack] at h
    cases h

theorem FramesOk.ne_nil {bs : List UInt8} {p : Nat} {stack : List Frame}
    (h : FramesOk bs p stack) : stack ≠ [] := by
  rintro rfl
  exact h

theorem parseWith_refused (ignore : Bool) :
    Ensures (parseWith s ignore) (fun _ => True) Refused := by
  rcases exists_lexes (Nat.zero_le (encode s).length) with ⟨toks, fin, hlex⟩
  have hall := pushAll_spec readsTo_start ((hlex.inOrder (boundary_zero s)).kept ignore)
  rw [parseWith_eq hlex]
  refine Ensures.bind (Ensures.bind (hall.mono ?_ fun _ hE => hE))
  rintro st ⟨q, hst⟩
  cases fin with
  | none => exact finish_refused st hst.frames.ne_nil
  | some e => exact ⟨_, rfl⟩

/-- Both modes give the same trees, or the same error. -/
theorem parseWith_trees : (parseWith s true).map Prod.fst = (parseWith s false).map Prod.fst := by
  rcases exists_lexes (Nat.zero_le (encode s).length) with ⟨toks, fin, hlex⟩
  have hstack := @pushAll_stack s 0 toks ⟨[([], default)], []⟩ [] (hlex.inOrder (boundary_zero s))
  rw [parseWith_eq hlex, parseWith_eq hlex, kept_false]
  generalize (kept true toks).foldlM (pushLexeme s) ⟨[([], default)], []⟩ = ignored at hstack ⊢
  generalize toks.foldlM (pushLexeme s) ⟨[([], default)], []⟩ = recorded at hstack ⊢
  cases ignored with
  | error e =>
    cases recorded with
    | error e' =>
      cases hstack
      rfl
    | ok st' => cases hstack
  | ok st =>
    cases recorded with
    | error e' => cases hstack
    | ok st' =>
      cases fin with
      | none => exact finish_trees (Except.ok.inj hstack).symm
      | some e => rfl

/-- Parsing never panics and gives the same trees in both modes. If it succeeds,
the source is a row of tokens between character boundaries, the trees read from
left to right are those that are in a tree, with their texts and spans, and the
metadata are the others. -/
theorem lexing_lossless (s : List Char) :
    (∀ ignore p, parseWith s ignore ≠ .error (.panic p)) ∧
      (parseWith s true).map Prod.fst = (parseWith s false).map Prod.fst ∧
      ∀ trees metadata, parseWith s false = .ok (trees, metadata) →
        ∃ toks, Lexes s 0 toks none ∧ Covers 0 toks (encode s).length ∧
          (∀ l ∈ toks, Boundary s l.start ∧ Boundary s l.stop) ∧
          SExpr.flattenAll (trees.map TopLevel.tree) = toks.filterMap (treeToken s) ∧
          metadata = toks.filterMap (metaItem s) := by
  refine ⟨?_, parseWith_trees, ?_⟩
  · intro ignore p h
    rcases (parseWith_refused ignore).of_error h with ⟨err, herr⟩
    cases herr
  · intro trees metadata h
    rcases exists_lexes (Nat.zero_le (encode s).length) with ⟨toks, fin, hlex⟩
    have horder := hlex.inOrder (boundary_zero s)
    rw [parseWith_eq hlex, kept_false, bind_eq_ok] at h
    rcases h with ⟨st, hst, hfinish⟩
    rw [bind_eq_ok] at hst
    rcases hst with ⟨st', hpush, hend⟩
    cases fin with
    | some e => cases hend
    | none =>
      cases hend
      rcases (pushAll_spec readsTo_start horder).of_ok hpush with ⟨q, hreads⟩
      rcases finish_eq_ok hfinish with ⟨htrees, hmeta⟩
      refine ⟨toks, hlex, hlex.covers, horder.boundaries, ?_, ?_⟩
      · rw [← htrees, hreads.trees]
        rfl
      · rw [← hmeta, hreads.metadata]
        rfl

/-- `lexing_lossless` for a list and a space. -/
theorem lexing_lossless_list :
    ∃ trees metadata, parseWith ['(', 'a', ')', ' '] false = .ok (trees, metadata) ∧
      ∃ toks, Lexes ['(', 'a', ')', ' '] 0 toks none ∧ Covers 0 toks 4 ∧
        (∀ l ∈ toks, Boundary ['(', 'a', ')', ' '] l.start ∧
          Boundary ['(', 'a', ')', ' '] l.stop) ∧
        SExpr.flattenAll (trees.map TopLevel.tree) =
          toks.filterMap (treeToken ['(', 'a', ')', ' ']) ∧
        metadata = toks.filterMap (metaItem ['(', 'a', ')', ' ']) :=
  ⟨_, _, rfl, (lexing_lossless ['(', 'a', ')', ' ']).2.2 _ _ rfl⟩

/-- `parse_` does not panic either. -/
theorem parse_refused (cfg : List Char) (ignore : Bool) :
    Ensures (parse cfg ignore) (fun _ => True) Refused := by
  have h := parseWith_refused (s := stripUtf8Bom cfg) ignore
  unfold parse
  cases hparse : parseWith (stripUtf8Bom cfg) ignore with
  | ok r => trivial
  | error e =>
    rcases h.of_error hparse with ⟨err, rfl⟩
    exact ⟨_, rfl⟩

/-- `parse_` is `parse_with` on the source without a byte order mark. -/
theorem parse_eq_ok {cfg : List Char} {r : List TopLevel × List SExprMetaData} :
    parse cfg ignore = .ok r ↔ parseWith (stripUtf8Bom cfg) ignore = .ok r := by
  unfold parse
  rcases parseWith (stripUtf8Bom cfg) ignore with (_ | _) | _
  · simp
  · simp
  · simp

end Whole

end Lexer

end Kanata
