import Kanata.Lexing.Words

/-!
# Kanata.Lexing.Printing — trees are read back as they are printed

`SExpr.fmt` is the text that the `Debug` implementation of `SExpr` writes: the texts of the
atoms, and lists in parentheses with a space between their elements.

* `StringBytes`: the bytes that are one atom, whatever stands around them: a word, a string in
  quotes or a raw string. An atom of a source is one of these (`stringBytes_of_token`), and
  each of these is read as an atom (`tokenAfter_stringBytes`).
* `Prints`: a part of the source is read, and makes trees of some shapes.
* `parse_fmt`: a tree of a source, printed and parsed again, is the tree with other spans.
-/

namespace Kanata

/-- A tree without its spans. -/
inductive Shape where
  | atom (t : String)
  | list (ts : List Shape)

mutual

def SExpr.shape : SExpr → Shape
  | .atomNode t _ => .atom t
  | .listNode es _ => .list (SExpr.shapes es)

def SExpr.shapes : List SExpr → List Shape
  | [] => []
  | e :: es => e.shape :: SExpr.shapes es

end

mutual

/-- `fmt` of `Debug`. -/
def SExpr.fmt : SExpr → List Char
  | .atomNode t _ => t.toList
  | .listNode es _ => '(' :: (Text.join ' ' (SExpr.fmts es) ++ [')'])

def SExpr.fmts : List SExpr → List (List Char)
  | [] => []
  | e :: es => e.fmt :: SExpr.fmts es

end

end Kanata

namespace Kanata.Lexer

open Fallible Utf8 PositionCountingBytesIterator

/-! ## The bytes of an atom -/

/-- From `p` on, the two bytes stand in a row at `r` for the first time. -/
structure FirstPair (end₁ end₂ : UInt8) (bs : List UInt8) (p r : Nat) : Prop where
  le : p ≤ r
  first : bs[r]? = some end₁
  second : bs[r + 1]? = some end₂
  none_before : ∀ i, p ≤ i → i < r → ¬(bs[i]? = some end₁ ∧ bs[i + 1]? = some end₂)

/-- A word: no byte that ends one, and no beginning of a comment. -/
structure WordBytes (w : List UInt8) : Prop where
  pos : 0 < w.length
  plain : ∀ (i : Nat) (b : UInt8), w[i]? = some b → isStart b = false
  not_line_comment : ¬(w[0]? = some semicolon ∧ w[1]? = some semicolon)
  not_block_comment : ¬(w[0]? = some hash ∧ w[1]? = some bar)

/-- A string in quotes, in one line. -/
structure QuotedBytes (w : List UInt8) : Prop where
  two_le : 2 ≤ w.length
  first : w[0]? = some quote
  last : w[w.length - 1]? = some quote
  inner : ∀ (i : Nat) (b : UInt8), 0 < i → i + 1 < w.length → w[i]? = some b →
    b ≠ quote ∧ b ≠ newline

/-- A raw string: it ends where a quote and a hash are found for the first time. -/
structure RawBytes (w : List UInt8) : Prop where
  five_le : 5 ≤ w.length
  letter : w[0]? = some letterR
  second : w[1]? = some hash
  third : w[2]? = some quote
  ends : FirstPair quote hash w 3 (w.length - 2)

/-- The bytes of an atom. -/
inductive StringBytes (w : List UInt8) : Prop
  | word (h : WordBytes w)
  | quoted (h : QuotedBytes w)
  | raw (h : RawBytes w)

section Bytes

variable {bs w : List UInt8} {p q : Nat} {b d : UInt8}

/-- The search for the end of a raw string or of a block comment. -/
theorem readUntilAux_first (end₁ end₂ : UInt8) (tok : Token) (err : String)
    (hp : p ≤ bs.length) :
    (∃ r, FirstPair end₁ end₂ bs p r ∧
      readUntilAux end₁ end₂ tok err (bs.drop (p + 1)) (iterAt bs p) =
        .ok (.ok tok, iterAt bs (r + 2))) ∨
    ((∀ r, ¬FirstPair end₁ end₂ bs p r) ∧
      ∃ q, readUntilAux end₁ end₂ tok err (bs.drop (p + 1)) (iterAt bs p) =
        .ok (.error err, iterAt bs q)) := by
  induction hn : bs.length - p generalizing p with
  | zero =>
    have hend : bs.length ≤ p := by omega
    refine .inr ⟨?_, p, ?_⟩
    · intro r hr
      have := (List.getElem?_eq_some_iff.mp hr.first).1
      have := hr.le
      omega
    · rw [List.drop_eq_nil_of_le (by omega)]
      rfl
  | succ n ih =>
    have hlt : p < bs.length := by omega
    have hb : bs[p]? = some bs[p] := List.getElem?_eq_getElem hlt
    by_cases hlt' : p + 1 < bs.length
    · have hb' : bs[p + 1]? = some bs[p + 1] := List.getElem?_eq_getElem hlt'
      -- one round looks at the byte at `p` and at the one behind it
      have hround : readUntilAux end₁ end₂ tok err (bs.drop (p + 1)) (iterAt bs p) =
          if bs[p] = end₁ ∧ bs[p + 1] = end₂ then .ok (.ok tok, iterAt bs (p + 2))
          else readUntilAux end₁ end₂ tok err (bs.drop (p + 2)) (iterAt bs (p + 1)) := by
        rw [List.drop_eq_getElem_cons hlt', readUntilAux, nextExpect_iterAt hb]
        simp only [ok_bind, next_iterAt hb']
        rfl
      rw [hround]
      by_cases hhere : bs[p] = end₁ ∧ bs[p + 1] = end₂
      · refine .inl ⟨p, ⟨Nat.le_refl p, ?_, ?_, fun i h₁ h₂ => by omega⟩, if_pos hhere⟩
        · rw [hb, hhere.1]
        · rw [hb', hhere.2]
      · rw [if_neg hhere]
        have hnot : ¬(bs[p]? = some end₁ ∧ bs[p + 1]? = some end₂) := by
          rw [hb, hb', Option.some.injEq, Option.some.injEq]
          exact hhere
        rcases ih hlt (by omega) with ⟨r, hr, hread⟩ | ⟨hnone, hread⟩
        · refine .inl ⟨r, ⟨Nat.le_of_succ_le hr.le, hr.first, hr.second, ?_⟩, hread⟩
          intro i hi hir
          rcases Nat.lt_or_eq_of_le hi with hlt | rfl
          · exact hr.none_before i hlt hir
          · exact hnot
        · refine .inr ⟨?_, hread⟩
          intro r hr
          rcases Nat.lt_or_eq_of_le hr.le with hlt | rfl
          · exact hnone r ⟨hlt, hr.first, hr.second, fun i hi => hr.none_before i (by omega)⟩
          · exact hnot ⟨hr.first, hr.second⟩
    · refine .inr ⟨?_, p, ?_⟩
      · intro r hr
        have := (List.getElem?_eq_some_iff.mp hr.second).1
        have := hr.le
        omega
      · rw [List.drop_eq_nil_of_le (by omega)]
        rfl

/-- There is one first place. -/
theorem FirstPair.unique {end₁ end₂ : UInt8} {r r' : Nat} (h : FirstPair end₁ end₂ bs p r)
    (h' : FirstPair end₁ end₂ bs p r') : r = r' := by
  -- the earlier of the two would be before the first one
  rcases Nat.lt_trichotomy r r' with hlt | heq | hgt
  · exact absurd ⟨h.first, h.second⟩ (h'.none_before r h.le hlt)
  · exact heq
  · exact absurd ⟨h'.first, h'.second⟩ (h.none_before r' h'.le hgt)

/-- Where a loop over bytes stops. -/
theorem nextWhile_stop (f : UInt8 → Bool) (hpq : p ≤ q) (hq : q ≤ bs.length)
    (hmid : ∀ r, p ≤ r → r < q → ∀ b, bs[r]? = some b → f b = true)
    (hstop : ∀ b, bs[q]? = some b → f b = false) :
    nextWhile f (iterAt bs p) = .ok (iterAt bs q) := by
  rcases nextWhile_iterAt f (Nat.le_trans hpq hq) with ⟨q', hq', hle, hlen, hall, hstop'⟩
  have hend : q' = q := by
    rcases Nat.lt_trichotomy q' q with hlt | heq | hgt
    · have hb : bs[q']? = some bs[q'] := List.getElem?_eq_getElem (by omega)
      have hyes := hmid q' hle hlt _ hb
      rw [hstop' _ hb] at hyes
      cases hyes
    · exact heq
    · rcases hall q hpq hgt with ⟨b, hb, hyes⟩
      rw [hstop b hb] at hyes
      cases hyes
  rw [hq', hend]

/-- The bytes that are left, from `p` on. -/
theorem head_iterAt (i : Nat) : (iterAt bs p).bytes[i]? = bs[p + i]? := by
  unfold iterAt
  rw [List.getElem?_drop]

/-- What the lexer reads from `p` to `q` is a string token. -/
def ReadsString (bs : List UInt8) (p q : Nat) : Prop :=
  ∃ b, bs[p]? = some b ∧ tokenAfter b (iterAt bs (p + 1)) = .ok (.ok .stringTok, iterAt bs q)

/-- The bytes from `p` on are those of `w`. -/
def CopyAt (bs : List UInt8) (p : Nat) (w : List UInt8) : Prop :=
  ∀ i, i < w.length → bs[p + i]? = w[i]?

/-- A pair that is found in the text is found at its place in the source. -/
theorem CopyAt.firstPair {end₁ end₂ : UInt8} {i r : Nat} (h : CopyAt bs p w)
    (hr : r + 2 ≤ w.length) (hfirst : FirstPair end₁ end₂ w i r) :
    FirstPair end₁ end₂ bs (p + i) (p + r) := by
  refine ⟨by have := hfirst.le; omega, ?_, ?_, ?_⟩
  · rw [h r (by omega)]
    exact hfirst.first
  · rw [Nat.add_assoc, h (r + 1) (by omega)]
    exact hfirst.second
  · intro j hj hjr
    rcases Nat.exists_eq_add_of_le (Nat.le_trans (Nat.le_add_right p i) hj) with ⟨k, rfl⟩
    rw [Nat.add_assoc, h k (by omega), h (k + 1) (by omega)]
    exact hfirst.none_before k (by omega) (by omega)

/-! ## Atoms are read -/

/-- A word before a byte that ends it. -/
theorem WordBytes.reads (h : WordBytes w) (hcopy : CopyAt bs p w)
    (hd : bs[p + w.length]? = some d) (hstart : isStart d = true) (hquote : d ≠ quote) :
    ReadsString bs p (p + w.length) := by
  have hpos := h.pos
  have hb : bs[p]? = some w[0] := by
    rw [← List.getElem?_eq_getElem hpos, ← hcopy 0 hpos]
    rfl
  have hplain : ∀ r, p ≤ r → r < p + w.length → ∃ b, bs[r]? = some b ∧ isStart b = false := by
    intro r hr hlt
    rcases Nat.exists_eq_add_of_le hr with ⟨i, rfl⟩
    have hi : i < w.length := by omega
    rw [hcopy i hi, List.getElem?_eq_getElem hi]
    exact ⟨_, rfl, h.plain i _ (List.getElem?_eq_getElem hi)⟩
  -- the second byte is in the word, or it is the one behind it
  have hsecond : ∀ b, bs[p + 1]? = some b → isStart b = false → w[1]? = some b := by
    intro b hb' hnot
    rcases Nat.lt_or_eq_of_le hpos with hlt | heq
    · rw [← hcopy 1 hlt]
      exact hb'
    · rw [← heq, hb'] at hd
      cases hd
      rw [hstart] at hnot
      cases hnot
  refine ⟨w[0], hb, tokenAfter_word hb (by omega) hd hstart hquote hplain ?_ ?_⟩
  · intro hsemi hnext
    refine h.not_line_comment ⟨?_, hsecond _ hnext rfl⟩
    rw [List.getElem?_eq_getElem hpos, hsemi]
  · intro hhash hnext
    refine h.not_block_comment ⟨?_, hsecond _ hnext rfl⟩
    rw [List.getElem?_eq_getElem hpos, hhash]

/-- A string in quotes ends itself, whatever stands behind it. -/
theorem QuotedBytes.reads (h : QuotedBytes w) (hcopy : CopyAt bs p w)
    (hle : p + w.length ≤ bs.length) : ReadsString bs p (p + w.length) := by
  have htwo := h.two_le
  -- the closing quote is the last byte of the text
  have hlast : bs[p + w.length - 1]? = some quote := by
    rw [Nat.add_sub_assoc (by omega), hcopy _ (by omega)]
    exact h.last
  have hinner : nextWhile (fun b => b ≠ quote && b ≠ newline) (iterAt bs (p + 1)) =
      .ok (iterAt bs (p + w.length - 1)) := by
    refine nextWhile_stop _ (by omega) (by omega) ?_ ?_
    · intro r hr hlt b hb
      rcases Nat.exists_eq_add_of_le (Nat.le_of_succ_le hr) with ⟨i, rfl⟩
      rw [hcopy i (by omega)] at hb
      simpa using h.inner i b (by omega) (by omega) hb
    · intro b hb
      rw [hlast] at hb
      cases hb
      rfl
  refine ⟨quote, by rw [← h.first, ← hcopy 0 (by omega)]; rfl, ?_⟩
  change quotedString (iterAt bs (p + 1)) = _
  unfold quotedString
  rw [hinner]
  simp only [ok_bind, next_iterAt hlast, if_true]
  rw [Nat.sub_add_cancel (by omega)]
  rfl

/-- The branch of `tokenAfter` for `r`, which begins a raw string or a word. -/
theorem tokenAfter_letterR (it : PositionCountingBytesIterator) :
    tokenAfter letterR it =
      if it.bytes[0]? = some hash ∧ it.bytes[1]? = some quote then
        readUntilMultilineStringEnd it.next.2.next.2
      else nextString it := rfl

theorem readUntilMultilineStringEnd_iterAt :
    readUntilMultilineStringEnd (iterAt bs p) =
      readUntilAux quote hash .stringTok
        "Unterminated multiline string. Add \"# after the end of your string." (bs.drop (p + 1))
        (iterAt bs p) := by
  unfold readUntilMultilineStringEnd
  rw [show (iterAt bs p).bytes.drop 1 = bs.drop (p + 1) from List.drop_drop]

/-- So does a raw string. -/
theorem RawBytes.reads (h : RawBytes w) (hcopy : CopyAt bs p w)
    (hle : p + w.length ≤ bs.length) : ReadsString bs p (p + w.length) := by
  have hfive := h.five_le
  have hsecond : bs[p + 1]? = some hash := (hcopy 1 (by omega)).trans h.second
  have hthird : bs[p + 2]? = some quote := (hcopy 2 (by omega)).trans h.third
  have hends := hcopy.firstPair (by omega) h.ends
  refine ⟨letterR, (hcopy 0 (by omega)).trans h.letter, ?_⟩
  rw [tokenAfter_letterR, head_iterAt, head_iterAt, if_pos ⟨hsecond, hthird⟩,
    next_iterAt hsecond, next_iterAt hthird, readUntilMultilineStringEnd_iterAt]
  rcases readUntilAux_first quote hash .stringTok _ (show p + 2 + 1 ≤ bs.length by omega) with
    ⟨r, hr, hread⟩ | ⟨hnone, -⟩
  · rw [hread, hr.unique hends]
    congr 3
    omega
  · exact absurd hends (hnone _)

/-- The bytes of an atom are read as an atom before a space or a parenthesis. -/
theorem tokenAfter_stringBytes (h : StringBytes w) (hcopy : CopyAt bs p w)
    (hd : bs[p + w.length]? = some d) (hstart : isStart d = true) (hquote : d ≠ quote) :
    ReadsString bs p (p + w.length) := by
  have hle := Nat.le_of_lt (List.getElem?_eq_some_iff.mp hd).1
  cases h with
  | word h => exact h.reads hcopy hd hstart hquote
  | quoted h => exact h.reads hcopy hle
  | raw h => exact h.reads hcopy hle

/-! ## What is read is an atom -/

/-- A byte of the text at its place in the source. -/
theorem CopyAt.get {i : Nat} {b : UInt8} (h : CopyAt bs p w) (hb : w[i]? = some b) :
    bs[p + i]? = some b ∧ i < w.length := by
  have hi := (List.getElem?_eq_some_iff.mp hb).1
  exact ⟨(h i hi).trans hb, hi⟩

/-- What is read as a word is one. -/
theorem wordBytes_of_nextString (hb : bs[p]? = some b) (hnot : isStart b = false)
    (hsemi : ¬(b = semicolon ∧ bs[p + 1]? = some semicolon))
    (hhash : ¬(b = hash ∧ bs[p + 1]? = some bar))
    (h : nextString (iterAt bs (p + 1)) = .ok (.ok .stringTok, iterAt bs q))
    (hq : q ≤ bs.length) (hcopy : CopyAt bs p w) (hlen : p + w.length = q) : WordBytes w := by
  have hp : p + 1 ≤ bs.length := (List.getElem?_eq_some_iff.mp hb).1
  rcases nextWhile_iterAt (fun b => !isStart b) hp with ⟨q', hq', hle, hlen', hall, -⟩
  have hend : q' = q := by
    unfold nextString at h
    rw [hq'] at h
    exact iterAt_injective hlen' hq (congrArg Prod.snd (Except.ok.inj h))
  subst hend
  -- the first byte of the text is the one that was looked at
  have hfirst : ∀ c, w[0]? = some c → c = b := by
    intro c hc
    have := (hcopy.get hc).1
    rw [Nat.add_zero, hb] at this
    exact (Option.some.inj this).symm
  refine ⟨by omega, ?_, ?_, ?_⟩
  · intro i c hc
    rcases Nat.eq_zero_or_pos i with rfl | hi
    · rw [hfirst c hc]
      exact hnot
    · rcases hcopy.get hc with ⟨hc', hlt⟩
      rcases hall (p + i) (by omega) (by omega) with ⟨c', hc'', hno⟩
      rw [hc'] at hc''
      cases hc''
      simpa using hno
  · rintro ⟨h₀, h₁⟩
    exact hsemi ⟨(hfirst _ h₀).symm, (hcopy.get h₁).1⟩
  · rintro ⟨h₀, h₁⟩
    exact hhash ⟨(hfirst _ h₀).symm, (hcopy.get h₁).1⟩

/-- What is read as a string in quotes is one. -/
theorem quotedBytes_of_quotedString (hb : bs[p]? = some quote)
    (h : quotedString (iterAt bs (p + 1)) = .ok (.ok .stringTok, iterAt bs q))
    (hq : q ≤ bs.length) (hcopy : CopyAt bs p w) (hlen : p + w.length = q) : QuotedBytes w := by
  have hp : p + 1 ≤ bs.length := (List.getElem?_eq_some_iff.mp hb).1
  rcases nextWhile_iterAt (fun b => b ≠ quote && b ≠ newline) hp with
    ⟨q', hq', hle, hlen', hall, -⟩
  unfold quotedString at h
  rw [hq'] at h
  simp only [ok_bind] at h
  -- the string is ended by a quote, otherwise there is an error
  have hlast : bs[q']? = some quote ∧ q = q' + 1 := by
    rcases hget : bs[q']? with _ | c
    · rw [next_iterAt_end (List.getElem?_eq_none_iff.mp hget), if_neg (by simp)] at h
      cases h
    · have hlt := (List.getElem?_eq_some_iff.mp hget).1
      rw [next_iterAt hget] at h
      by_cases hc : c = quote
      · subst hc
        rw [if_pos rfl] at h
        exact ⟨rfl, (iterAt_injective hlt hq (congrArg Prod.snd (Except.ok.inj h))).symm⟩
      · rw [if_neg (fun heq => hc (Option.some.inj heq))] at h
        cases h
  rcases hlast with ⟨hlast, rfl⟩
  refine ⟨by omega, ?_, ?_, ?_⟩
  · rw [← hcopy 0 (by omega)]
    exact hb
  · rw [← hcopy _ (by omega), show p + (w.length - 1) = q' by omega]
    exact hlast
  · intro i c hi hlt hc
    rcases hall (p + i) (by omega) (by omega) with ⟨c', hc', hyes⟩
    rw [(hcopy.get hc).1] at hc'
    cases hc'
    simpa using hyes

/-- What is read as a raw string is one. -/
theorem rawBytes_of_multilineString (hb : bs[p]? = some letterR) (h₁ : bs[p + 1]? = some hash)
    (h₂ : bs[p + 2]? = some quote)
    (h : readUntilMultilineStringEnd (iterAt bs (p + 3)) = .ok (.ok .stringTok, iterAt bs q))
    (hq : q ≤ bs.length) (hcopy : CopyAt bs p w) (hlen : p + w.length = q) : RawBytes w := by
  have hp : p + 3 ≤ bs.length := (List.getElem?_eq_some_iff.mp h₂).1
  rw [readUntilMultilineStringEnd_iterAt] at h
  rcases readUntilAux_first quote hash .stringTok _ hp with ⟨r, hr, hread⟩ | ⟨-, q', hread⟩
  · rw [hread] at h
    have hend : r + 2 ≤ bs.length := (List.getElem?_eq_some_iff.mp hr.second).1
    have heq := iterAt_injective hend hq (congrArg Prod.snd (Except.ok.inj h))
    have hrle := hr.le
    have hat : ∀ i, i < w.length → w[i]? = bs[p + i]? := fun i hi => (hcopy i hi).symm
    refine ⟨by omega, (hat 0 (by omega)).trans hb, (hat 1 (by omega)).trans h₁,
      (hat 2 (by omega)).trans h₂, ⟨by omega, ?_, ?_, ?_⟩⟩
    · rw [hat _ (by omega), show p + (w.length - 2) = r by omega]
      exact hr.first
    · rw [hat _ (by omega), show p + (w.length - 2 + 1) = r + 1 by omega]
      exact hr.second
    · intro i hi hlt
      rw [hat i (by omega), hat (i + 1) (by omega)]
      exact hr.none_before (p + i) (by omega) (by omega)
  · rw [hread] at h
    cases h

/-- The other scanners make no atom. -/
theorem lineComment_ne {it it' : PositionCountingBytesIterator} :
    lineComment it ≠ .ok (.ok .stringTok, it') := by
  intro h
  unfold lineComment at h
  rcases bind_eq_ok.mp h with ⟨_, -, h⟩
  cases h

/-- White space is no atom. -/
theorem nextWhitespace_ne {it it' : PositionCountingBytesIterator} :
    nextWhitespace it ≠ .ok (.ok .stringTok, it') := by
  intro h
  unfold nextWhitespace at h
  rcases bind_eq_ok.mp h with ⟨_, -, h⟩
  cases h

/-- Nor is a block comment. -/
theorem readUntilMultilineCommentEnd_ne (hp : p ≤ bs.length) {it' : PositionCountingBytesIterator} :
    readUntilMultilineCommentEnd (iterAt bs p) ≠ .ok (.ok .stringTok, it') := by
  intro h
  unfold readUntilMultilineCommentEnd at h
  rw [show (iterAt bs p).bytes.drop 1 = bs.drop (p + 1) from List.drop_drop] at h
  rcases readUntilAux_iterAt bar hash .blockComment _ hp with ⟨res, q', hread, -, -, hres⟩
  rw [hread] at h
  cases h
  cases (hres _ rfl).1

/-- What is read as an atom has the bytes of an atom. -/
theorem stringBytes_of_token (h : ReadsString bs p q) (hq : q ≤ bs.length)
    (hcopy : CopyAt bs p w) (hlen : p + w.length = q) : StringBytes w := by
  rcases h with ⟨b, hb, h⟩
  unfold tokenAfter at h
  by_cases hopen : b = openParen
  · rw [if_pos hopen] at h
    cases h
  rw [if_neg hopen] at h
  by_cases hclose : b = closeParen
  · rw [if_pos hclose] at h
    cases h
  rw [if_neg hclose] at h
  by_cases hquote : b = quote
  · rw [if_pos hquote] at h
    subst hquote
    exact .quoted (quotedBytes_of_quotedString hb h hq hcopy hlen)
  have hp : p + 1 ≤ bs.length := (List.getElem?_eq_some_iff.mp hb).1
  rw [if_neg hquote, head_iterAt, head_iterAt] at h
  -- a word may begin with a character that can also begin something else
  have hword : isAsciiWhitespace b = false →
      ¬(b = semicolon ∧ bs[p + 1]? = some semicolon) → ¬(b = hash ∧ bs[p + 1]? = some bar) →
      nextString (iterAt bs (p + 1)) = .ok (.ok .stringTok, iterAt bs q) → StringBytes w := by
    intro hblank hsemi hhash hnext
    refine .word (wordBytes_of_nextString hb ?_ hsemi hhash hnext hq hcopy hlen)
    simp [isStart, hopen, hclose, hquote, hblank]
  by_cases hs : b = semicolon
  · rw [if_pos hs] at h
    split at h
    · exact absurd h lineComment_ne
    · rename_i hsecond
      subst hs
      exact hword rfl (fun hcomment => hsecond hcomment.2) (fun hcomment => nomatch hcomment.1) h
  rw [if_neg hs] at h
  by_cases hr : b = letterR
  · rw [if_pos hr] at h
    subst hr
    split at h
    · rename_i hraw
      rw [next_iterAt hraw.1, next_iterAt hraw.2] at h
      exact .raw (rawBytes_of_multilineString hb hraw.1 hraw.2 h hq hcopy hlen)
    · exact hword rfl (fun hcomment => hs hcomment.1) (fun hcomment => nomatch hcomment.1) h
  rw [if_neg hr] at h
  by_cases hh : b = hash
  · rw [if_pos hh] at h
    split at h
    · rename_i hbar
      rw [next_iterAt hbar] at h
      exact absurd h (readUntilMultilineCommentEnd_ne (List.getElem?_eq_some_iff.mp hbar).1)
    · rename_i hsecond
      subst hh
      exact hword rfl (fun hcomment => hs hcomment.1) (fun hcomment => hsecond hcomment.2) h
  rw [if_neg hh] at h
  split at h
  · exact absurd h nextWhitespace_ne
  · rename_i hblank
    exact hword (Bool.eq_false_iff.mpr hblank) (fun hcomment => hs hcomment.1)
      (fun hcomment => hh hcomment.1) h

/-- An atom does not begin with white space. -/
theorem StringBytes.first (h : StringBytes w) :
    ∃ b, w[0]? = some b ∧ isAsciiWhitespace b = false := by
  cases h with
  | word h =>
    have hb := List.getElem?_eq_getElem h.pos
    refine ⟨_, hb, ?_⟩
    have hnot := h.plain 0 _ hb
    unfold isStart at hnot
    exact (Bool.or_eq_false_iff.mp hnot).2
  | quoted h => exact ⟨_, h.first, rfl⟩
  | raw h => exact ⟨_, h.letter, rfl⟩

end Bytes

/-! ## Parts of a source that make trees -/

/-- The texts of the atoms are atoms. -/
def Readable (es : List SExpr) : Prop :=
  ∀ t span, TreeToken.atom t span ∈ SExpr.flattenAll es → StringBytes (encode t.toList)

/-- Behind `before` the source has `w`, which is read as trees of the shapes of `es`: they
are added to the list that is open there. -/
def Prints (cs before w : List Char) (es : List SExpr) : Prop :=
  ∃ ls, Reads cs (bytePos before) ls (bytePos (before ++ w)) ∧
    ∀ exprs span frames metadata,
      FramesOk (encode cs) (bytePos before) ((exprs, span) :: frames) →
        ∃ es' metadata', ls.foldlM (pushLexeme cs) ⟨(exprs, span) :: frames, metadata⟩ =
            .ok ⟨(exprs ++ es', span) :: frames, metadata'⟩ ∧
          SExpr.shapes es' = SExpr.shapes es

section Rules

variable {cs before w w' rest : List Char} {es es' : List SExpr}

theorem bytePos_le_append (before w : List Char) : bytePos before ≤ bytePos (before ++ w) := by
  rw [bytePos_append]
  exact Nat.le_add_right _ _

/-- The open lists are right at every later position. -/
theorem FramesOk.later {bs : List UInt8} {p q : Nat} {exprs exprs' : List SExpr} {span : Span}
    {frames : List Frame} (h : FramesOk bs p ((exprs, span) :: frames)) (hle : p ≤ q) :
    FramesOk bs q ((exprs', span) :: frames) := by
  cases frames with
  | nil => trivial
  | cons frame frames => exact h.mono hle

theorem shapes_append (es es' : List SExpr) :
    SExpr.shapes (es ++ es') = SExpr.shapes es ++ SExpr.shapes es' := by
  induction es with
  | nil => rfl
  | cons e es ih => rw [List.cons_append, SExpr.shapes, ih, SExpr.shapes, List.cons_append]

/-- Nothing makes no tree. -/
theorem Prints.nil : Prints cs before [] [] := by
  refine ⟨[], ?_, ?_⟩
  · intro toks fin hlex
    rw [List.append_nil]
    exact ⟨toks, rfl, hlex⟩
  · intro exprs span frames metadata _
    exact ⟨[], metadata, by rw [List.append_nil]; rfl, rfl⟩

/-- Two parts one after the other. -/
theorem Prints.append (h : Prints cs before w es) (h' : Prints cs (before ++ w) w' es') :
    Prints cs before (w ++ w') (es ++ es') := by
  rcases h with ⟨ls, hreads, hbuilds⟩
  rcases h' with ⟨ls', hreads', hbuilds'⟩
  refine ⟨ls ++ ls', ?_, ?_⟩
  · rw [← List.append_assoc]
    exact hreads.append hreads'
  · intro exprs span frames metadata hframes
    rcases hbuilds exprs span frames metadata hframes with ⟨es₁, metadata₁, hfold, hshapes⟩
    rcases hbuilds' (exprs ++ es₁) span frames metadata₁
      (hframes.later (bytePos_le_append before w)) with ⟨es₂, metadata₂, hfold', hshapes'⟩
    refine ⟨es₁ ++ es₂, metadata₂, ?_, ?_⟩
    · rw [List.foldlM_append, hfold, ← List.append_assoc]
      exact hfold'
    · rw [shapes_append, shapes_append, hshapes, hshapes']

/-- A space before something else than white space is skipped. -/
theorem Prints.space (h : cs = before ++ ' ' :: rest) {b : UInt8}
    (hb : (encode rest)[0]? = some b) (hnot : isAsciiWhitespace b = false) :
    Prints cs before [' '] [] := by
  refine ⟨_, reads_space before rest h hb hnot, ?_⟩
  intro exprs span frames metadata _
  have hp : Boundary cs (bytePos before) := ⟨before, _, h, rfl⟩
  have hq : Boundary cs (bytePos (before ++ [' '])) := ⟨before ++ [' '], rest, by simp [h], rfl⟩
  refine ⟨[], metadata ++ [.whitespace (textOf cs (bytePos before) (bytePos (before ++ [' '])))
    (spanAt (encode cs) (bytePos before) (bytePos (before ++ [' '])))], ?_, rfl⟩
  rw [List.foldlM_cons]
  unfold pushLexeme pushToken
  simp only [textAt_eq hp hq (bytePos_le_append before [' ']), List.append_nil]
  rfl

/-- An atom before a space or a parenthesis is read. -/
theorem Prints.atom (h : cs = before ++ (w ++ rest)) (hw : StringBytes (encode w)) {d : UInt8}
    (hd : (encode rest)[0]? = some d) (hstart : isStart d = true) (hquote : d ≠ quote)
    (span : Span) : Prints cs before w [.atomNode (String.ofList w) span] := by
  -- the bytes of the source from here on are those of the atom, then those behind it
  have hpos : bytePos (before ++ w) = bytePos before + (encode w).length := bytePos_append _ _
  have hget : ∀ i, (encode cs)[bytePos before + i]? = (encode w ++ encode rest)[i]? := by
    intro i
    rw [h, getElem?_bytePos, encode_append]
  have hcopy : CopyAt (encode cs) (bytePos before) (encode w) := by
    intro i hi
    rw [hget, List.getElem?_append_left hi]
  have hbehind : (encode cs)[bytePos before + (encode w).length]? = some d := by
    rw [hget, List.getElem?_append_right (Nat.le_refl _), Nat.sub_self, hd]
  rcases tokenAfter_stringBytes hw hcopy hbehind hstart hquote with ⟨b, hb, ht⟩
  rw [← hpos] at ht
  refine ⟨_, reads_token hb (bytePos_le _ rest (by simp [h])) ht, ?_⟩
  intro exprs span' frames metadata _
  have hp : Boundary cs (bytePos before) := ⟨before, _, h, rfl⟩
  have hq : Boundary cs (bytePos (before ++ w)) := ⟨before ++ w, rest, by simp [h], rfl⟩
  refine ⟨[.atomNode (String.ofList w)
    (spanAt (encode cs) (bytePos before) (bytePos (before ++ w)))], metadata, ?_, rfl⟩
  rw [List.foldlM_cons]
  unfold pushLexeme pushToken
  simp only [textAt_eq hp hq (bytePos_le_append before w), textOf_between h]
  rfl

theorem pushLexeme_open (p q : Nat) (stack : List Frame) (metadata : List SExprMetaData) :
    pushLexeme cs ⟨stack, metadata⟩ ⟨.open, p, q⟩ =
      .ok ⟨([], spanAt (encode cs) p q) :: stack, metadata⟩ := rfl

theorem pushLexeme_close {i j p q : Nat} (hij : i ≤ j) (hjp : j ≤ p) (hpq : p ≤ q)
    (es exprs : List SExpr) (span : Span) (frames : List Frame) (metadata : List SExprMetaData) :
    pushLexeme cs ⟨(es, spanAt (encode cs) i j) :: (exprs, span) :: frames, metadata⟩
        ⟨.close, p, q⟩ =
      .ok ⟨(exprs ++ [.listNode es (spanAt (encode cs) i q)], span) :: frames, metadata⟩ := by
  unfold pushLexeme pushToken
  simp only [closeList, cover_spanAt hij hjp hpq]
  rfl

/-- A list is what is between its parentheses. -/
theorem Prints.list (h : cs = before ++ ('(' :: (w ++ ')' :: rest)))
    (hes : Prints cs (before ++ ['(']) w es) (span : Span) :
    Prints cs before ('(' :: (w ++ [')'])) [.listNode es span] := by
  rcases hes with ⟨ls, hreads, hbuilds⟩
  have hclose : cs = (before ++ ['('] ++ w) ++ ')' :: rest := by simp [h]
  have hall : before ++ '(' :: (w ++ [')']) = before ++ ['('] ++ w ++ [')'] := by simp
  have hread := ((reads_open before _ h).append hreads).append (reads_close _ _ hclose)
  rw [← hall] at hread
  refine ⟨_, hread, ?_⟩
  intro exprs span' frames metadata hframes
  have hle := bytePos_le_append before ['(']
  -- inside, the list that was opened is the one that grows
  have hinner : FramesOk (encode cs) (bytePos (before ++ ['(']))
      (([], spanAt (encode cs) (bytePos before) (bytePos (before ++ ['(']))) ::
        (exprs, span') :: frames) :=
    ⟨⟨_, _, rfl, hle, Nat.le_refl _⟩, hframes.later hle⟩
  rcases hbuilds _ _ _ metadata hinner with ⟨es', metadata', hfold, hshapes⟩
  refine ⟨[.listNode es' (spanAt (encode cs) (bytePos before)
    (bytePos (before ++ '(' :: (w ++ [')']))))], metadata', ?_, ?_⟩
  · rw [List.append_assoc, List.singleton_append, List.foldlM_cons, pushLexeme_open]
    simp only [ok_bind]
    rw [List.foldlM_append, hfold]
    simp only [ok_bind]
    rw [List.foldlM_cons, List.nil_append, hall, pushLexeme_close hle (bytePos_le_append _ w)
      (bytePos_le_append _ [')'])]
    rfl
  · simp only [SExpr.shapes, SExpr.shape, hshapes]

end Rules

/-! ## Printed trees -/

/-- The first tree, and the others. -/
theorem Readable.cons {e : SExpr} {es : List SExpr} (h : Readable (e :: es)) :
    Readable [e] ∧ Readable es := by
  refine ⟨fun t span hmem => h t span ?_, fun t span hmem => h t span ?_⟩
  · rw [SExpr.flattenAll, SExpr.flattenAll, List.append_nil] at hmem
    rw [SExpr.flattenAll]
    exact List.mem_append_left _ hmem
  · rw [SExpr.flattenAll]
    exact List.mem_append_right _ hmem

/-- The text of an atom is an atom. -/
theorem Readable.atom {t : String} {span : Span} (h : Readable [.atomNode t span]) :
    StringBytes (encode t.toList) := h t span (by simp [SExpr.flattenAll, SExpr.flatten])

/-- The elements of a list. -/
theorem Readable.list {es : List SExpr} {span : Span} (h : Readable [.listNode es span]) :
    Readable es := by
  intro t span' hmem
  refine h t span' ?_
  rw [SExpr.flattenAll, SExpr.flatten]
  simp [hmem]

/-- What is printed does not begin with white space. -/
theorem fmt_first {e : SExpr} (h : Readable [e]) (rest : List Char) :
    ∃ b, (encode (e.fmt ++ rest))[0]? = some b ∧ isAsciiWhitespace b = false := by
  cases e with
  | atomNode t span =>
    rcases h.atom.first with ⟨b, hb, hnot⟩
    refine ⟨b, ?_, hnot⟩
    rw [SExpr.fmt, encode_append, List.getElem?_append_left (List.getElem?_eq_some_iff.mp hb).1]
    exact hb
  | listNode es span => exact ⟨openParen, rfl, rfl⟩

mutual

/-- A tree that is printed before a byte that ends an atom. -/
theorem prints_fmt {cs : List Char} : ∀ {e : SExpr} (before rest : List Char) {d : UInt8},
    cs = before ++ (e.fmt ++ rest) → Readable [e] → (encode rest)[0]? = some d →
      isStart d = true → d ≠ quote → Prints cs before e.fmt [e]
  | .atomNode t span, before, rest, d, h, he, hd, hstart, hquote => by
    have hatom := Prints.atom h he.atom hd hstart hquote span
    rw [SExpr.fmt, String.ofList_toList] at hatom
    exact hatom
  | .listNode es span, before, rest, d, h, he, _, _, _ => by
    rw [SExpr.fmt] at h ⊢
    have hlist : cs = before ++ ('(' :: (Text.join ' ' (SExpr.fmts es) ++ ')' :: rest)) := by
      simp [h]
    exact Prints.list hlist (prints_fmts (before ++ ['(']) rest (by simp [h]) he.list) span

/-- The elements of a list, before its closing parenthesis. -/
theorem prints_fmts {cs : List Char} : ∀ {es : List SExpr} (before rest : List Char),
    cs = before ++ (Text.join ' ' (SExpr.fmts es) ++ ')' :: rest) → Readable es →
      Prints cs before (Text.join ' ' (SExpr.fmts es)) es
  | [], before, rest, _, _ => Prints.nil
  | [e], before, rest, h, he => prints_fmt before (')' :: rest) h he rfl rfl (by decide)
  | e :: e' :: es, before, rest, h, he => by
    rw [SExpr.fmts, SExpr.fmts, Text.join, ← SExpr.fmts] at h ⊢
    have hitem : cs = before ++ (e.fmt ++ ' ' ::
        (Text.join ' ' (SExpr.fmts (e' :: es)) ++ ')' :: rest)) := by simp [h]
    have hgap : cs = (before ++ e.fmt) ++ ' ' ::
        (Text.join ' ' (SExpr.fmts (e' :: es)) ++ ')' :: rest) := by simp [h]
    have hmore : cs = (before ++ e.fmt ++ [' ']) ++
        (Text.join ' ' (SExpr.fmts (e' :: es)) ++ ')' :: rest) := by simp [h]
    -- behind the space the next element begins, so the white space is over
    have hblank : ∃ b, (encode (Text.join ' ' (SExpr.fmts (e' :: es)) ++ ')' :: rest))[0]? =
        some b ∧ isAsciiWhitespace b = false := by
      cases es with
      | nil => exact fmt_first he.cons.2 _
      | cons e'' es =>
        rw [SExpr.fmts, SExpr.fmts, Text.join, ← SExpr.fmts, List.append_assoc]
        exact fmt_first he.cons.2.cons.1 _
    rcases hblank with ⟨b, hb, hnot⟩
    have hfirst := prints_fmt before _ hitem he.cons.1 rfl rfl (by decide)
    have hrest := prints_fmts _ rest hmore he.cons.2
    exact hfirst.append ((Prints.space hgap hb hnot).append hrest)

end

/-- At the end of the source there is no token left. -/
theorem Lexes.at_end {cs : List Char} {toks : List Lexeme} {fin : Option (String × Nat × Nat)}
    (h : Lexes cs (encode cs).length toks fin) : toks = [] ∧ fin = none := by
  have hnone : (encode cs)[(encode cs).length]? = none := List.getElem?_eq_none (Nat.le_refl _)
  generalize hp : (encode cs).length = p at h
  cases h with
  | done => exact ⟨rfl, rfl⟩
  | error hb =>
    rw [← hp, hnone] at hb
    cases hb
  | token hb =>
    rw [← hp, hnone] at hb
    cases hb

/-- A list whose atoms are atoms is read back. -/
theorem parse_fmt_of_readable {es : List SExpr} (h : Readable es) (span : Span) (ignore : Bool) :
    ∃ t metadata, parse (SExpr.listNode es span).fmt ignore = .ok ([t], metadata) ∧
      t.tree.shape = (SExpr.listNode es span).shape := by
  generalize hcs : (SExpr.listNode es span).fmt = cs
  have hwhole : cs = [] ++ ('(' :: (Text.join ' ' (SExpr.fmts es) ++ ')' :: [])) := by
    rw [← hcs, SExpr.fmt, List.nil_append]
  have hprints : Prints cs [] cs [.listNode es span] := by
    have hlist := Prints.list hwhole (prints_fmts ['('] [] hwhole h) span
    rw [← SExpr.fmt, hcs] at hlist
    exact hlist
  rcases hprints with ⟨ls, hreads, hbuilds⟩
  rcases exists_lexes (Nat.zero_le (encode cs).length) with ⟨toks, fin, hlex⟩
  rcases hreads toks fin hlex with ⟨toks', rfl, hend⟩
  rcases hend.at_end with ⟨rfl, rfl⟩
  rcases hbuilds [] default [] [] trivial with ⟨es', metadata, hfold, hshapes⟩
  -- what was built has the shape of one list
  rcases es' with _ | ⟨_ | ⟨es', span'⟩, _ | ⟨e, es''⟩⟩
  · cases hshapes
  · cases (List.cons.inj hshapes).1
  · cases (List.cons.inj hshapes).1
  · -- the tree is at the top level, and the mode does not matter for it
    have hparse : parseWith cs false = .ok ([(es', span')], metadata) := by
      rw [parseWith_eq hlex, kept_false, List.append_nil, hfold]
      rfl
    rcases parseWith_mode hparse ignore with ⟨metadata', hany⟩
    have hstrip : stripUtf8Bom cs = cs := by
      rw [hwhole]
      rfl
    refine ⟨(es', span'), metadata', parse_eq_ok.mpr (by rw [hstrip, hany]), ?_⟩
    exact (List.cons.inj hshapes).1
  · cases (List.cons.inj hshapes).2

/-! ## Trees of a source -/

/-- The atoms of a run of the lexer are atoms. -/
theorem readable_of_lexes {cs : List Char} {p : Nat} {toks : List Lexeme}
    {fin : Option (String × Nat × Nat)} (h : Lexes cs p toks fin) (hp : Boundary cs p) :
    ∀ t span, .atom t span ∈ toks.filterMap (treeToken cs) → StringBytes (encode t.toList) := by
  induction h with
  | done => exact fun t span hmem => by cases hmem
  | error => exact fun t span hmem => by cases hmem
  | @token p q b tok toks fin hb ht hlt hat rest ih =>
    intro t span hmem
    rw [List.filterMap_cons] at hmem
    have hlater := ih hat.1 t span
    cases tok with
    | stringTok =>
      rcases List.mem_cons.mp hmem with heq | hmem
      -- the text of the atom is what stands between its positions
      · rcases slice_of_boundary hp hat.1 (Nat.le_of_lt hlt) with ⟨text, htext, hbytes⟩
        have hq := rest.le_length
        have hword : t.toList = text := by
          cases heq
          rw [textOf, htext, Option.getD_some, String.toList_ofList]
        rw [hword, hbytes]
        refine stringBytes_of_token ⟨b, hb, ht⟩ hq ?_ ?_
        · intro i hi
          rw [List.length_take, List.length_drop] at hi
          rw [List.getElem?_take_of_lt (by omega), List.getElem?_drop]
        · rw [List.length_take, List.length_drop]
          omega
      · exact hlater hmem
    | «open» =>
      rcases List.mem_cons.mp hmem with heq | hmem
      · cases heq
      · exact hlater hmem
    | close =>
      rcases List.mem_cons.mp hmem with heq | hmem
      · cases heq
      · exact hlater hmem
    | blockComment => exact hlater hmem
    | lineComment => exact hlater hmem
    | whitespace => exact hlater hmem

theorem mem_flattenAll {e : SExpr} {es : List SExpr} {tok : TreeToken} (he : e ∈ es)
    (h : tok ∈ e.flatten) : tok ∈ SExpr.flattenAll es := by
  induction es with
  | nil => cases he
  | cons e' es ih =>
    rw [SExpr.flattenAll]
    rcases List.mem_cons.mp he with rfl | he
    · exact List.mem_append_left _ h
    · exact List.mem_append_right _ (ih he)

/-- A tree of a source, printed and parsed again, is one tree of the same shape. -/
theorem parse_fmt {cfg : List Char} {ignore : Bool} {trees : List TopLevel}
    {metadata : List SExprMetaData} (h : parse cfg ignore = .ok (trees, metadata)) {t : TopLevel}
    (ht : t ∈ trees) (ignore' : Bool) :
    ∃ t' metadata', parse t.tree.fmt ignore' = .ok ([t'], metadata') ∧
      t'.tree.shape = t.tree.shape := by
  rcases parse_trees h with ⟨toks, hlex, htrees⟩
  refine parse_fmt_of_readable ?_ t.2 ignore'
  intro text span hmem
  refine readable_of_lexes hlex (boundary_zero _) text span ?_
  rw [← htrees]
  refine mem_flattenAll (List.mem_map_of_mem ht) ?_
  rw [TopLevel.tree, SExpr.flatten]
  simp [hmem]

/-- `parse_fmt` for a list that begins with a space. -/
theorem parse_fmt_space :
    ∃ t' metadata',
      parse (SExpr.listNode [.atomNode "a" ⟨⟨2, 0, 0⟩, ⟨3, 0, 0⟩⟩] ⟨⟨0, 0, 0⟩, ⟨4, 0, 0⟩⟩).fmt
        false =
          .ok ([t'], metadata') ∧
        t'.tree.shape = .list [.atom "a"] :=
  parse_fmt (show parse ['(', ' ', 'a', ')'] true = .ok
    ([([.atomNode "a" ⟨⟨2, 0, 0⟩, ⟨3, 0, 0⟩⟩], ⟨⟨0, 0, 0⟩, ⟨4, 0, 0⟩⟩)], []) from rfl)
    (List.mem_singleton_self _) false

end Kanata.Lexer
