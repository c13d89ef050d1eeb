import Kanata.Lexing.Trees
import Kanata.Lib.Text

/-!
# Kanata.Lexing.Words — words in parentheses

A text that is put together from words is read back as these words, whatever stands
behind it.

* `Word`: a text that the lexer takes for one token;
* `Reads`: the tokens between two positions, with the rest of the source present;
* `parse_spliced`: what begins with a list of words in a list is a tree that does.
-/

namespace Kanata.Lexer

open Fallible Utf8 PositionCountingBytesIterator

/-- No byte of the text starts another token, and it does not begin as a comment. -/
def Word (w : List Char) : Prop :=
  w ≠ [] ∧ (∀ b ∈ encode w, isStart b = false) ∧ ¬[semicolon, semicolon] <+: encode w ∧
    ¬[hash, bar] <+: encode w

instance (w : List Char) : Decidable (Word w) := inferInstanceAs (Decidable (_ ∧ _))

/-! ## One token -/

/-- The iterator says where it is. -/
theorem iterAt_injective {bs : List UInt8} {p q : Nat} (hp : p ≤ bs.length) (hq : q ≤ bs.length)
    (h : iterAt bs p = iterAt bs q) : p = q := by
  have hdrop := congrArg (fun it => it.bytes.length) h
  simp only [iterAt, List.length_drop] at hdrop
  omega

/-- A run that is at a token goes on behind it. -/
theorem Lexes.tail {cs : List Char} {p q : Nat} {b : UInt8} {t : Token} {toks : List Lexeme}
    {fin : Option (String × Nat × Nat)} (h : Lexes cs p toks fin)
    (hb : (encode cs)[p]? = some b) (hq : q ≤ (encode cs).length)
    (ht : tokenAfter b (iterAt (encode cs) (p + 1)) = .ok (.ok t, iterAt (encode cs) q)) :
    ∃ toks', toks = ⟨t, p, q⟩ :: toks' ∧ Lexes cs q toks' fin := by
  cases h with
  | done =>
    rw [List.getElem?_eq_none (Nat.le_refl _)] at hb
    cases hb
  | error hb' h' hlt hlen =>
    rw [hb] at hb'
    cases hb'
    rw [ht] at h'
    cases h'
  | token hb' h' hlt hat rest =>
    rw [hb] at hb'
    cases hb'
    rw [ht] at h'
    simp only [Except.ok.injEq, Prod.mk.injEq] at h'
    rcases h' with ⟨rfl, hiter⟩
    have hend := iterAt_injective hq rest.le_length hiter
    subst hend
    exact ⟨_, rfl, rest⟩

section Bytes

variable {bs : List UInt8} {p q : Nat} {b d : UInt8}

/-- A string goes on up to the next byte that starts a token. -/
theorem nextString_upTo (hpq : p ≤ q) (hq : bs[q]? = some d) (hd : isStart d = true)
    (hmid : ∀ r, p ≤ r → r < q → ∃ b', bs[r]? = some b' ∧ isStart b' = false) :
    nextString (iterAt bs p) = .ok (.ok .stringTok, iterAt bs q) := by
  have hlen := (List.getElem?_eq_some_iff.mp hq).1
  have hp : p ≤ bs.length := by omega
  rcases nextWhile_iterAt (fun b => !isStart b) hp with ⟨q', hq', hle, hlen', hall, hstop⟩
  -- the loop stops neither before the byte nor behind it
  have hend : q' = q := by
    rcases Nat.lt_trichotomy q' q with hlt | heq | hgt
    · rcases hmid q' hle hlt with ⟨b', hb', hno⟩
      have hyes := hstop b' hb'
      rw [hno] at hyes
      cases hyes
    · exact heq
    · rcases hall q hpq hgt with ⟨b', hb', hno⟩
      rw [hq] at hb'
      cases hb'
      rw [hd] at hno
      cases hno
  subst hend
  unfold nextString
  rw [hq']
  rfl

/-- A word is one token. -/
theorem tokenAfter_word (hb : bs[p]? = some b) (hpq : p < q) (hq : bs[q]? = some d)
    (hd : isStart d = true) (hquote : d ≠ quote)
    (hmid : ∀ r, p ≤ r → r < q → ∃ b', bs[r]? = some b' ∧ isStart b' = false)
    (hsemi : b = semicolon → bs[p + 1]? ≠ some semicolon)
    (hhash : b = hash → bs[p + 1]? ≠ some bar) :
    tokenAfter b (iterAt bs (p + 1)) = .ok (.ok .stringTok, iterAt bs q) := by
  have hstring : nextString (iterAt bs (p + 1)) = .ok (.ok .stringTok, iterAt bs q) :=
    nextString_upTo hpq hq hd fun r hr => hmid r (by omega)
  have hnot : isStart b = false := by
    rcases hmid p (Nat.le_refl p) hpq with ⟨b', hb', hno⟩
    rw [hb] at hb'
    cases hb'
    exact hno
  have hhead : ∀ i, (iterAt bs (p + 1)).bytes[i]? = bs[p + 1 + i]? := by
    intro i
    unfold iterAt
    rw [List.getElem?_drop]
  unfold isStart at hnot
  simp only [Bool.or_eq_false_iff, decide_eq_false_iff_not] at hnot
  unfold tokenAfter
  rw [if_neg hnot.1.1.1, if_neg hnot.1.1.2, if_neg hnot.1.2]
  by_cases hs : b = semicolon
  · rw [if_pos hs, hhead, if_neg (hsemi hs), hstring]
  rw [if_neg hs]
  by_cases hr : b = letterR
  · rw [if_pos hr, hhead, hhead, if_neg, hstring]
    rintro ⟨hnext, hafter⟩
    change bs[p + 1]? = some hash at hnext
    change bs[p + 2]? = some quote at hafter
    -- a raw string would need a quote in the word or right behind it
    rcases Nat.lt_trichotomy q (p + 2) with hlt | rfl | hgt
    · have hend : q = p + 1 := by omega
      rw [hend, hnext] at hq
      cases hq
      cases hd
    · rw [hafter] at hq
      cases hq
      exact hquote rfl
    · rcases hmid (p + 2) (by omega) hgt with ⟨b', hb', hno⟩
      rw [hafter] at hb'
      cases hb'
      cases hno
  rw [if_neg hr]
  by_cases hh : b = hash
  · rw [if_pos hh, hhead, if_neg (hhash hh), hstring]
  rw [if_neg hh, if_neg (by rw [hnot.2]; simp), hstring]

end Bytes

/-! ## Several tokens -/

/-- Wherever the lexer is at `p`, it reads `ls` and goes on at `q`. -/
def Reads (cs : List Char) (p : Nat) (ls : List Lexeme) (q : Nat) : Prop :=
  ∀ toks fin, Lexes cs p toks fin → ∃ toks', toks = ls ++ toks' ∧ Lexes cs q toks' fin

section Reads

variable {cs : List Char}

/-- What is read from one position to a second one and from there to a third one. -/
theorem Reads.append {p q r : Nat} {ls ls' : List Lexeme} (h : Reads cs p ls q)
    (h' : Reads cs q ls' r) : Reads cs p (ls ++ ls') r := by
  intro toks fin hlex
  rcases h toks fin hlex with ⟨toks₁, rfl, h₁⟩
  rcases h' toks₁ fin h₁ with ⟨toks₂, rfl, h₂⟩
  exact ⟨toks₂, by rw [List.append_assoc], h₂⟩

/-- One token is read if the lexer makes it there. -/
theorem reads_token {p q : Nat} {b : UInt8} {t : Token} (hb : (encode cs)[p]? = some b)
    (hq : q ≤ (encode cs).length)
    (ht : tokenAfter b (iterAt (encode cs) (p + 1)) = .ok (.ok t, iterAt (encode cs) q)) :
    Reads cs p [⟨t, p, q⟩] q :=
  fun _ _ hlex => hlex.tail hb hq ht

/-- The byte position behind a text. -/
def bytePos (before : List Char) : Nat := (encode before).length

/-- The bytes behind a text. -/
theorem getElem?_bytePos (before rest : List Char) (i : Nat) :
    (encode (before ++ rest))[bytePos before + i]? = (encode rest)[i]? := by
  rw [encode_append, bytePos, List.getElem?_append_right (Nat.le_add_right _ _),
    Nat.add_sub_cancel_left]

/-- The position behind two texts. -/
theorem bytePos_append (before after : List Char) :
    bytePos (before ++ after) = bytePos before + (encode after).length := by
  rw [bytePos, encode_append, List.length_append]
  rfl

/-- A part of the source ends in it. -/
theorem bytePos_le (before rest : List Char) (h : cs = before ++ rest) :
    bytePos before ≤ (encode cs).length := by
  subst h
  change _ ≤ bytePos (before ++ rest)
  rw [bytePos_append]
  exact Nat.le_add_right _ _

/-- The byte of an ASCII character. -/
theorem getElem?_ascii {before rest : List Char} {c : Char} {b : UInt8}
    (h : cs = before ++ c :: rest) (hc : String.utf8EncodeChar c = [b]) :
    (encode cs)[bytePos before]? = some b := by
  have hget := getElem?_bytePos before (c :: rest) 0
  rw [encode_cons, hc] at hget
  rw [h]
  exact hget

/-- An opening parenthesis. -/
theorem reads_open (before rest : List Char) (h : cs = before ++ '(' :: rest) :
    Reads cs (bytePos before) [⟨.open, bytePos before, bytePos (before ++ ['('])⟩]
      (bytePos (before ++ ['('])) := by
  refine reads_token (getElem?_ascii (b := openParen) h rfl)
    (bytePos_le _ rest (by simp [h])) ?_
  rw [bytePos_append]
  rfl

/-- A closing one. -/
theorem reads_close (before rest : List Char) (h : cs = before ++ ')' :: rest) :
    Reads cs (bytePos before) [⟨.close, bytePos before, bytePos (before ++ [')'])⟩]
      (bytePos (before ++ [')'])) := by
  refine reads_token (getElem?_ascii (b := closeParen) h rfl)
    (bytePos_le _ rest (by simp [h])) ?_
  rw [bytePos_append]
  rfl

/-- A space before something else than white space. -/
theorem reads_space (before rest : List Char) {b : UInt8} (h : cs = before ++ ' ' :: rest)
    (hb : (encode rest)[0]? = some b) (hnot : isAsciiWhitespace b = false) :
    Reads cs (bytePos before) [⟨.whitespace, bytePos before, bytePos (before ++ [' '])⟩]
      (bytePos (before ++ [' '])) := by
  have hbehind : cs = (before ++ [' ']) ++ rest := by simp [h]
  have hpos : bytePos (before ++ [' ']) = bytePos before + 1 := by
    rw [bytePos_append]
    rfl
  have hle := bytePos_le _ _ hbehind
  have hnext : (encode cs)[bytePos before + 1]? = some b := by
    rw [hbehind, ← hpos, ← hb]
    exact getElem?_bytePos (before ++ [' ']) rest 0
  refine reads_token (getElem?_ascii (b := 32) h rfl) hle ?_
  rw [hpos] at hle ⊢
  rcases nextWhile_iterAt isAsciiWhitespace hle with ⟨q, hq, hlt, -, hall, -⟩
  have hend : q = bytePos before + 1 := by
    rcases Nat.lt_or_eq_of_le hlt with hlt | heq
    · rcases hall _ (Nat.le_refl _) hlt with ⟨b', hb', hyes⟩
      rw [hnext] at hb'
      cases hb'
      rw [hnot] at hyes
      cases hyes
    · exact heq.symm
  subst hend
  change nextWhitespace _ = _
  unfold nextWhitespace
  rw [hq]
  rfl

/-- A word before a space or a parenthesis. -/
theorem reads_word (before w rest : List Char) {d : UInt8} (h : cs = before ++ (w ++ rest))
    (hw : Word w) (hd : (encode rest)[0]? = some d) (hstart : isStart d = true)
    (hquote : d ≠ quote) :
    Reads cs (bytePos before) [⟨.stringTok, bytePos before, bytePos (before ++ w)⟩]
      (bytePos (before ++ w)) := by
  rcases hw with ⟨hne, hbytes, hsemi, hhash⟩
  have hpos : bytePos (before ++ w) = bytePos before + (encode w).length := bytePos_append _ _
  have hget : ∀ i, (encode cs)[bytePos before + i]? = (encode w ++ encode rest)[i]? := by
    intro i
    rw [h, getElem?_bytePos, encode_append]
  -- a word has a byte
  have hlen : 0 < (encode w).length := by
    rcases w with _ | ⟨c, w⟩
    · exact absurd rfl hne
    · rw [encode_cons, List.length_append]
      exact Nat.add_pos_left (utf8EncodeChar_length_pos c) _
  have hend : (encode cs)[bytePos (before ++ w)]? = some d := by
    rw [hpos, hget, List.getElem?_append_right (Nat.le_refl _), Nat.sub_self, hd]
  rcases hfirst : encode w with _ | ⟨b, bytes⟩
  · rw [hfirst] at hlen
    cases hlen
  -- the second byte is in the word or starts the next token
  have hsecond : ∀ b', (encode cs)[bytePos before + 1]? = some b' → isStart b' = true ∨
      [b, b'] <+: encode w := by
    intro b' hb'
    rw [hget, hfirst, List.cons_append, List.getElem?_cons_succ] at hb'
    rcases bytes with _ | ⟨b'', bytes⟩
    · rw [List.nil_append, hd] at hb'
      cases hb'
      exact .inl hstart
    · cases hb'
      exact .inr ⟨bytes, by rw [hfirst]; rfl⟩
  refine reads_token (b := b) ?_ (bytePos_le _ rest (by simp [h])) ?_
  · have := hget 0
    rwa [hfirst] at this
  · refine tokenAfter_word ?_ (by omega) hend hstart hquote ?_ ?_ ?_
    · have := hget 0
      rwa [hfirst] at this
    · intro r hr hlt
      rcases Nat.exists_eq_add_of_le hr with ⟨i, rfl⟩
      have hi : i < (encode w).length := by omega
      rw [hget, List.getElem?_append_left hi, List.getElem?_eq_getElem hi]
      exact ⟨_, rfl, hbytes _ (List.getElem_mem hi)⟩
    · rintro rfl hb'
      rcases hsecond _ hb' with hno | hprefix
      · cases hno
      · exact hsemi hprefix
    · rintro rfl hb'
      rcases hsecond _ hb' with hno | hprefix
      · cases hno
      · exact hhash hprefix

/-! ## Words with spaces between them -/

/-- The tree tokens are atoms with the words as their texts. -/
def AtomsOf : List TreeToken → List (List Char) → Prop :=
  List.Forall₂ fun tok w => ∃ span, tok = .atom (String.ofList w) span

/-- The text between two positions. -/
theorem textOf_between {before w rest : List Char} (h : cs = before ++ (w ++ rest)) :
    textOf cs (bytePos before) (bytePos (before ++ w)) = String.ofList w := by
  have hlen : bytePos (before ++ w) - bytePos before = (encode w).length := by
    rw [bytePos_append, Nat.add_sub_cancel_left]
  rw [textOf, slice, h, bytePos, dropBytes_append, Option.bind_some, ← bytePos, hlen,
    takeBytes_append]
  rfl

/-- A word is an atom of a tree. -/
theorem treeToken_word {before w rest : List Char} (h : cs = before ++ (w ++ rest)) :
    treeToken cs ⟨.stringTok, bytePos before, bytePos (before ++ w)⟩ =
      some (.atom (String.ofList w)
        (spanAt (encode cs) (bytePos before) (bytePos (before ++ w)))) := by
  rw [← textOf_between h]
  rfl

/-- A word does not begin with a byte that ends one. -/
theorem Word.first {w rest : List Char} (h : Word w) :
    ∃ b, (encode (w ++ rest))[0]? = some b ∧ isStart b = false := by
  rcases w with _ | ⟨c, w⟩
  · exact absurd rfl h.1
  rcases hc : String.utf8EncodeChar c with _ | ⟨b, bytes⟩
  · have := utf8EncodeChar_length_pos c
    rw [hc] at this
    cases this
  · refine ⟨b, ?_, h.2.1 b ?_⟩
    · rw [encode_append, encode_cons, hc]
      rfl
    · rw [encode_cons, hc]
      exact List.mem_cons_self

/-- Words with spaces between them, before a closing parenthesis. -/
theorem reads_words : ∀ {ws : List (List Char)} (before rest : List Char),
    cs = before ++ (Text.join ' ' ws ++ ')' :: rest) → (∀ w ∈ ws, Word w) →
    ∃ ls, Reads cs (bytePos before) ls (bytePos (before ++ Text.join ' ' ws)) ∧
      AtomsOf (ls.filterMap (treeToken cs)) ws
  | [], before, rest, h, _ => by
    refine ⟨[], ?_, .nil⟩
    intro toks fin hlex
    rw [Text.join, List.append_nil]
    exact ⟨toks, rfl, hlex⟩
  | [w], before, rest, h, hws => by
    have hreads := reads_word _ _ _ h (hws w List.mem_cons_self)
      (d := closeParen) rfl rfl (by decide)
    refine ⟨_, hreads, ?_⟩
    rw [List.filterMap_cons_some (treeToken_word h)]
    exact .cons ⟨_, rfl⟩ .nil
  | w :: w' :: ws, before, rest, h, hws => by
    rw [Text.join, List.append_assoc, List.cons_append] at h
    have hw := hws w List.mem_cons_self
    have hrest : ∀ v ∈ w' :: ws, Word v := fun v hv => hws v (List.mem_cons_of_mem w hv)
    have hword := reads_word _ _ _ h hw (d := 32) rfl rfl (by decide)
    -- the space is one token, since the next word follows it at once
    have hspace : ∃ b, (encode (Text.join ' ' (w' :: ws) ++ ')' :: rest))[0]? = some b ∧
        isStart b = false := by
      rcases ws with _ | ⟨w'', ws⟩
      · exact (hrest w' List.mem_cons_self).first
      · rw [Text.join, List.append_assoc]
        exact (hrest w' List.mem_cons_self).first
    rcases hspace with ⟨b, hb, hnot⟩
    have hblank : isAsciiWhitespace b = false := by
      unfold isStart at hnot
      exact (Bool.or_eq_false_iff.mp hnot).2
    have hbehind : cs = (before ++ w) ++ ' ' :: (Text.join ' ' (w' :: ws) ++ ')' :: rest) := by
      rw [h, List.append_assoc]
    have hgap := reads_space _ _ hbehind hb hblank
    have hsplit : cs = (before ++ w ++ [' ']) ++ (Text.join ' ' (w' :: ws) ++ ')' :: rest) := by
      rw [h]
      simp
    rcases reads_words _ _ hsplit hrest with ⟨ls, hls, hatoms⟩
    -- the position behind all words
    have hend : before ++ w ++ [' '] ++ Text.join ' ' (w' :: ws) =
        before ++ Text.join ' ' (w :: w' :: ws) := by
      rw [Text.join]
      simp
    rw [hend] at hls
    refine ⟨_, (hword.append hgap).append hls, ?_⟩
    rw [List.append_assoc, List.singleton_append, List.filterMap_cons_some (treeToken_word h)]
    exact .cons ⟨_, rfl⟩ hatoms

end Reads

/-! ## Trees -/

/-- An atom with a word as its text. -/
def AtomOf (e : SExpr) (w : List Char) : Prop := ∃ span, e = .atomNode (String.ofList w) span

/-- The tokens of a list, with its parentheses. -/
theorem flattenAll_list (es rest : List SExpr) (span : Span) (after : List TreeToken) :
    SExpr.flattenAll (.listNode es span :: rest) ++ after = .opening span.start ::
      (SExpr.flattenAll es ++ .closing span.stop :: (SExpr.flattenAll rest ++ after)) := by
  simp [SExpr.flattenAll, SExpr.flatten]

/-- Atoms up to a closing parenthesis are the whole list. -/
theorem atoms_of_flatten : ∀ {atoms : List TreeToken} {ws : List (List Char)} {es : List SExpr}
    {c c' : Position} {after after' : List TreeToken}, AtomsOf atoms ws →
    SExpr.flattenAll es ++ .closing c :: after = atoms ++ .closing c' :: after' →
    List.Forall₂ AtomOf es ws ∧ after = after'
  | [], [], es, c, c', after, after', .nil, h => by
    rcases es with _ | ⟨_ | _, es⟩
    · rw [SExpr.flattenAll, List.nil_append, List.nil_append] at h
      exact ⟨.nil, (List.cons.inj h).2⟩
    · cases h
    · cases h
  | _ :: atoms, w :: ws, es, c, c', after, after', .cons ⟨span, htok⟩ hrest, h => by
    subst htok
    rcases es with _ | ⟨⟨t, span'⟩ | ⟨es', span'⟩, es⟩
    · cases h
    · rw [SExpr.flattenAll, SExpr.flatten] at h
      rcases List.cons.inj h with ⟨hatom, htail⟩
      cases hatom
      rcases atoms_of_flatten hrest htail with ⟨hes, rfl⟩
      exact ⟨.cons ⟨_, rfl⟩ hes, rfl⟩
    · rw [flattenAll_list] at h
      cases h

/-- Two opening parentheses, atoms, a closing one and another opening one: a list that
begins with a list of the atoms and has more. -/
theorem spliced_of_flatten {atoms : List TreeToken} {ws : List (List Char)} {es : List SExpr}
    {a b c d : Position} {more : List TreeToken} (hatoms : AtomsOf atoms ws)
    (h : SExpr.flattenAll es =
      .opening a :: .opening b :: (atoms ++ .closing c :: .opening d :: more)) :
    ∃ keys span next items span' rest,
      es = .listNode (.listNode keys span :: next :: items) span' :: rest ∧
        List.Forall₂ AtomOf keys ws := by
  rcases es with _ | ⟨_ | ⟨items, span'⟩, rest⟩
  · cases h
  · cases h
  rw [← List.append_nil (SExpr.flattenAll _), flattenAll_list] at h
  have houter := (List.cons.inj h).2
  rcases items with _ | ⟨_ | ⟨keys, span⟩, items⟩
  · cases houter
  · cases houter
  rw [flattenAll_list] at houter
  have hinner := (List.cons.inj houter).2
  rcases atoms_of_flatten hatoms hinner with ⟨hkeys, hafter⟩
  rcases items with _ | ⟨next, items⟩
  · -- the other opening parenthesis would be a closing one
    cases hafter
  · exact ⟨keys, span, next, items, span', rest, rfl, hkeys⟩

/-- The other mode gives the same trees. -/
theorem parseWith_mode {cs : List Char} {trees : List TopLevel} {metadata : List SExprMetaData}
    {ignore : Bool} (h : parseWith cs ignore = .ok (trees, metadata)) (ignore' : Bool) :
    ∃ metadata', parseWith cs ignore' = .ok (trees, metadata') := by
  -- white space and comments are no tokens of a tree
  have hsame : (parseWith cs ignore').map Prod.fst = .ok trees := by
    have hfst : (parseWith cs ignore).map Prod.fst = .ok trees := by rw [h]; rfl
    cases ignore <;> cases ignore'
    · exact hfst
    · rw [parseWith_trees, hfst]
    · rw [← parseWith_trees, hfst]
    · exact hfst
  rcases hparse : parseWith cs ignore' with e | ⟨trees', metadata'⟩
  · rw [hparse] at hsame
    cases hsame
  · rw [hparse] at hsame
    cases hsame
    exact ⟨metadata', rfl⟩

/-- The trees of a source have its tokens. -/
theorem parseWith_tokens {cs : List Char} {trees : List TopLevel} {metadata : List SExprMetaData}
    (h : parseWith cs false = .ok (trees, metadata)) :
    ∃ toks, Lexes cs 0 toks none ∧
      SExpr.flattenAll (trees.map TopLevel.tree) = toks.filterMap (treeToken cs) := by
  rcases exists_lexes (Nat.zero_le (encode cs).length) with ⟨toks, fin, hlex⟩
  rw [parseWith_eq hlex, kept_false, bind_eq_ok] at h
  rcases h with ⟨st, hst, hfinish⟩
  rcases bind_eq_ok.mp hst with ⟨st', hpush, hend⟩
  cases fin with
  | some e => cases hend
  | none =>
    cases hend
    rcases (pushAll_spec readsTo_start (hlex.inOrder (boundary_zero cs))).of_ok hpush with
      ⟨q, hreads⟩
    refine ⟨toks, hlex, ?_⟩
    rw [← (finish_eq_ok hfinish).1, hreads.trees]
    rfl

/-- The same for `parse`, which skips the mark at the beginning. -/
theorem parse_trees {cs : List Char} {trees : List TopLevel} {metadata : List SExprMetaData}
    {ignore : Bool} (h : parse cs ignore = .ok (trees, metadata)) :
    ∃ toks, Lexes (stripUtf8Bom cs) 0 toks none ∧
      SExpr.flattenAll (trees.map TopLevel.tree) =
        toks.filterMap (treeToken (stripUtf8Bom cs)) := by
  rcases parseWith_mode (parse_eq_ok.mp h) false with ⟨metadata', hplain⟩
  exact parseWith_tokens hplain

/-- What begins with a list of words in a list, and another list after it, is a tree that
does. -/
theorem parse_spliced {ws : List (List Char)} {rest : List Char} {trees : List TopLevel}
    {metadata : List SExprMetaData} {ignore : Bool} (hws : ∀ w ∈ ws, Word w)
    (h : parse ('(' :: '(' :: (Text.join ' ' ws ++ ')' :: ' ' :: '(' :: rest)) ignore =
      .ok (trees, metadata)) :
    ∃ keys span next items span' more,
      trees = (.listNode keys span :: next :: items, span') :: more ∧
        List.Forall₂ AtomOf keys ws := by
  rcases parse_trees h with ⟨toks, hlex, htrees⟩
  change Lexes ('(' :: '(' :: (Text.join ' ' ws ++ ')' :: ' ' :: '(' :: rest)) 0 toks none at hlex
  change _ =
    toks.filterMap (treeToken ('(' :: '(' :: (Text.join ' ' ws ++ ')' :: ' ' :: '(' :: rest)))
    at htrees
  -- the source is read piece by piece, and its tokens are those of the trees
  generalize hcs : '(' :: '(' :: (Text.join ' ' ws ++ ')' :: ' ' :: '(' :: rest) = cs at hlex htrees
  have hfirst := reads_open [] _ hcs.symm
  have hsecond := reads_open ['('] _ hcs.symm
  rcases reads_words ['(', '('] _ hcs.symm hws with ⟨ls, hwords, hatoms⟩
  have hclose := @reads_close cs (['(', '('] ++ Text.join ' ' ws) (' ' :: '(' :: rest)
    (by simp [← hcs])
  have hspace := @reads_space cs (['(', '('] ++ Text.join ' ' ws ++ [')']) ('(' :: rest)
    openParen (by simp [← hcs]) rfl rfl
  have hopen := @reads_open cs (['(', '('] ++ Text.join ' ' ws ++ [')'] ++ [' ']) rest
    (by simp [← hcs])
  rcases ((((hfirst.append hsecond).append hwords).append hclose).append hspace).append hopen
    _ _ hlex with ⟨toks', rfl, -⟩
  have hflatten : ∃ a b c d more, SExpr.flattenAll (trees.map TopLevel.tree) =
      .opening a :: .opening b ::
        (ls.filterMap (treeToken cs) ++ .closing c :: .opening d :: more) := by
    simp only [List.filterMap_append, List.append_assoc] at htrees
    exact ⟨_, _, _, _, _, htrees⟩
  rcases hflatten with ⟨a, b, c, d, more, hflatten⟩
  rcases spliced_of_flatten hatoms hflatten with
    ⟨keys, span, next, items, span', others, heq, hkeys⟩
  rcases trees with _ | ⟨tree, trees⟩
  · cases heq
  · rcases List.cons.inj heq with ⟨htree, -⟩
    rcases tree with ⟨es, span₁⟩
    cases htree
    exact ⟨keys, span, next, items, _, trees, rfl, hkeys⟩

end Kanata.Lexer
