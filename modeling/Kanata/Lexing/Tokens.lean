import Kanata.Parser.Lexer
import Kanata.Lib.Fallible

/-!
# Kanata.Lexing.Tokens — the lexer is always at a position

The state of the lexer is a function of the byte position it has reached
(`iterAt`), so each of its operations is a step from one position to a later one.
`tokenAfter_spec`: from a character boundary, a token ends on a character
boundary.
-/

namespace Kanata

/-- The two tokens that the tree parser looks at. -/
def Token.isParen : Token → Bool
  | .open | .close => true
  | .stringTok | .blockComment | .lineComment | .whitespace => false

end Kanata

namespace Kanata.Lexer

open Fallible Utf8 PositionCountingBytesIterator

/-! ## Positions -/

/-- The line of a position: the newlines before it. -/
def lineAt (bs : List UInt8) (p : Nat) : Nat := (bs.take p).count newline

/-- The position after the last newline before `p`. -/
def lineStartAt (bs : List UInt8) : Nat → Nat
  | 0 => 0
  | p + 1 => if bs[p]? = some newline then p + 1 else lineStartAt bs p

/-- The position in all three counts. -/
def posAt (bs : List UInt8) (p : Nat) : Position := ⟨p, lineAt bs p, lineStartAt bs p⟩

/-- The span between two positions. -/
def spanAt (bs : List UInt8) (p q : Nat) : Span := ⟨posAt bs p, posAt bs q⟩

/-- The iterator with the bytes before `p` consumed. -/
def iterAt (bs : List UInt8) (p : Nat) : PositionCountingBytesIterator :=
  ⟨bs.drop p, bs.length, lineAt bs p, lineStartAt bs p⟩

section Positions

variable {bs : List UInt8} {p q : Nat}

/-- Each line takes a byte. -/
theorem lineAt_le : lineAt bs p ≤ p :=
  Nat.le_trans List.count_le_length (by rw [List.length_take]; exact Nat.min_le_left _ _)

/-- Lines only go up. -/
theorem lineAt_mono (h : p ≤ q) : lineAt bs p ≤ lineAt bs q :=
  (List.take_sublist_take_left h).count_le newline

/-- A line starts before the position. -/
theorem lineStartAt_le : ∀ {p : Nat}, lineStartAt bs p ≤ p
  | 0 => Nat.le_refl 0
  | p + 1 => by
    unfold lineStartAt
    split
    · exact Nat.le_refl _
    · exact Nat.le_succ_of_le lineStartAt_le

/-- The lexer starts at the first byte. -/
theorem new_eq_iterAt : PositionCountingBytesIterator.new bs = iterAt bs 0 := rfl

/-- No assertion on positions fails. -/
theorem pos_iterAt (h : p ≤ bs.length) : (iterAt bs p).pos = .ok (posAt bs p) := by
  have hlen : bs.length - (bs.drop p).length = p := by
    rw [List.length_drop]
    omega
  unfold pos iterAt Position.new
  simp only [hlen]
  simp only [decide_eq_true lineAt_le, decide_eq_true lineStartAt_le, assertThat_true, ok_bind]
  rfl

/-- Nor does one on spans. -/
theorem span_new (h : p ≤ q) : Span.new (posAt bs p) (posAt bs q) = .ok (spanAt bs p q) := by
  unfold Span.new posAt
  simp only [decide_eq_true h, decide_eq_true (lineAt_mono h), assertThat_true, ok_bind]
  rfl

/-- One byte further. -/
theorem next_iterAt {b : UInt8} (h : bs[p]? = some b) :
    (iterAt bs p).next = (some b, iterAt bs (p + 1)) := by
  rcases List.getElem?_eq_some_iff.mp h with ⟨hlt, hb⟩
  -- the next byte is the first one that is left
  have hdrop : bs.drop p = b :: bs.drop (p + 1) := by
    rw [List.drop_eq_getElem_cons hlt, hb]
  have hlen : bs.length - (bs.drop (p + 1)).length = p + 1 := by
    rw [List.length_drop]
    omega
  have hline : lineAt bs (p + 1) = lineAt bs p + if b = newline then 1 else 0 := by
    unfold lineAt
    rw [List.take_add_one, h, List.count_append]
    simp [List.count_singleton]
  unfold next iterAt
  simp only [hdrop, hlen, hline, lineStartAt, h, Option.some.injEq]
  by_cases hb : b = newline
  · simp [hb]
  · simp [hb]

/-- At the end the iterator stays where it is. -/
theorem next_iterAt_end (h : bs.length ≤ p) : (iterAt bs p).next = (none, iterAt bs p) := by
  unfold next iterAt
  simp only [List.drop_eq_nil_of_le h]

/-- `next_expect` does not panic where a byte is left. -/
theorem nextExpect_iterAt {b : UInt8} (h : bs[p]? = some b) :
    (iterAt bs p).nextExpect = .ok (b, iterAt bs (p + 1)) := by
  unfold nextExpect
  rw [next_iterAt h]
  rfl

/-- Going on one byte, or staying at the end. -/
theorem next_snd_iterAt (h : p ≤ bs.length) :
    ∃ q, (iterAt bs p).next.2 = iterAt bs q ∧ p ≤ q ∧ q ≤ bs.length := by
  cases hb : bs[p]? with
  | none =>
    have hlen := List.getElem?_eq_none_iff.mp hb
    exact ⟨p, by rw [next_iterAt_end hlen], Nat.le_refl p, h⟩
  | some b =>
    have hlt := (List.getElem?_eq_some_iff.mp hb).1
    exact ⟨p + 1, by rw [next_iterAt hb], Nat.le_succ p, hlt⟩

end Positions

/-! ## Loops over bytes -/

section Loops

variable {bs : List UInt8}

/-- `next_while` stops at the first byte that does not satisfy `f`. -/
theorem nextWhile_iterAt (f : UInt8 → Bool) {p : Nat} (hp : p ≤ bs.length) :
    ∃ q, nextWhile f (iterAt bs p) = .ok (iterAt bs q) ∧ p ≤ q ∧ q ≤ bs.length ∧
      (∀ r, p ≤ r → r < q → ∃ b, bs[r]? = some b ∧ f b = true) ∧
      ∀ b, bs[q]? = some b → f b = false := by
  have haux : ∀ n p, p ≤ bs.length → bs.length - p = n →
      ∃ q, nextWhileAux f (bs.drop p) (iterAt bs p) = .ok (iterAt bs q) ∧ p ≤ q ∧
        q ≤ bs.length ∧ (∀ r, p ≤ r → r < q → ∃ b, bs[r]? = some b ∧ f b = true) ∧
        ∀ b, bs[q]? = some b → f b = false := by
    intro n
    induction n with
    | zero =>
      intro p hp hn
      have hend : bs.length ≤ p := by omega
      refine ⟨p, ?_, Nat.le_refl p, hp, fun r h₁ h₂ => by omega, ?_⟩
      · rw [List.drop_eq_nil_of_le hend]
        rfl
      · intro b hb
        rw [List.getElem?_eq_none hend] at hb
        cases hb
    | succ n ih =>
      intro p hp hn
      have hlt : p < bs.length := by omega
      have hb : bs[p]? = some bs[p] := List.getElem?_eq_getElem hlt
      rw [List.drop_eq_getElem_cons hlt]
      unfold nextWhileAux
      by_cases hf : f bs[p] = true
      · rcases ih (p + 1) hlt (by omega) with ⟨q, hq, hle, hlen, hall, hstop⟩
        refine ⟨q, ?_, Nat.le_of_succ_le hle, hlen, ?_, hstop⟩
        · rw [if_pos hf, nextExpect_iterAt hb]
          exact hq
        -- the byte at `p`, or one after it
        · intro r hr hrq
          rcases Nat.lt_or_eq_of_le hr with hlt' | rfl
          · exact hall r hlt' hrq
          · exact ⟨_, hb, hf⟩
      · refine ⟨p, ?_, Nat.le_refl p, hp, fun r h₁ h₂ => by omega, ?_⟩
        · rw [if_neg hf]
          rfl
        · intro b hb'
          rw [hb] at hb'
          cases hb'
          simpa using hf
  -- the induction is on the number of bytes that are left
  exact haux (bs.length - p) p hp rfl

/-- The loops for multi-line strings and comments stop after their two bytes. -/
theorem readUntilAux_iterAt (end₁ end₂ : UInt8) (tok : Token) (err : String) {p : Nat}
    (hp : p ≤ bs.length) :
    ∃ res q, readUntilAux end₁ end₂ tok err (bs.drop (p + 1)) (iterAt bs p) =
        .ok (res, iterAt bs q) ∧ p ≤ q ∧ q ≤ bs.length ∧
      ∀ t, res = .ok t → t = tok ∧ ∃ r, q = r + 1 ∧ bs[r]? = some end₂ := by
  have haux : ∀ n p, p ≤ bs.length → bs.length - p = n →
      ∃ res q, readUntilAux end₁ end₂ tok err (bs.drop (p + 1)) (iterAt bs p) =
          .ok (res, iterAt bs q) ∧ p ≤ q ∧ q ≤ bs.length ∧
        ∀ t, res = .ok t → t = tok ∧ ∃ r, q = r + 1 ∧ bs[r]? = some end₂ := by
    intro n
    induction n with
    | zero =>
      intro p hp hn
      refine ⟨.error err, p, ?_, Nat.le_refl p, hp, fun t ht => by cases ht⟩
      rw [List.drop_eq_nil_of_le (by omega)]
      rfl
    | succ n ih =>
      intro p hp hn
      have hlt : p < bs.length := by omega
      have hb : bs[p]? = some bs[p] := List.getElem?_eq_getElem hlt
      by_cases hlt' : p + 1 < bs.length
      · rw [List.drop_eq_getElem_cons hlt']
        unfold readUntilAux
        rw [nextExpect_iterAt hb]
        simp only [ok_bind]
        have hb' : bs[p + 1]? = some bs[p + 1] := List.getElem?_eq_getElem hlt'
        -- the two bytes that end the token are read together
        by_cases hend : bs[p] = end₁ ∧ bs[p + 1] = end₂
        · refine ⟨.ok tok, p + 2, ?_, by omega, by omega, ?_⟩
          · rw [if_pos hend, next_iterAt hb']
            rfl
          · rintro t ⟨⟩
            exact ⟨rfl, p + 1, rfl, by rw [hb', hend.2]⟩
        · rcases ih (p + 1) hlt (by omega) with ⟨res, q, hq, hle, hlen, hres⟩
          refine ⟨res, q, ?_, Nat.le_of_succ_le hle, hlen, hres⟩
          rw [if_neg hend]
          exact hq
      · refine ⟨.error err, p, ?_, Nat.le_refl p, hp, fun t ht => by cases ht⟩
        rw [List.drop_eq_nil_of_le (by omega)]
        rfl
  exact haux (bs.length - p) p hp rfl

end Loops

/-! ## Tokens end on boundaries -/

section Boundaries

variable {cs : List Char}

/-- White space is one byte. -/
theorem ascii_of_isAsciiWhitespace {b : UInt8} (h : isAsciiWhitespace b = true) : b < 128 := by
  unfold isAsciiWhitespace at h
  simp only [Bool.or_eq_true] at h
  rcases h with (((h | h) | h) | h) | h
  all_goals
    have hb := of_decide_eq_true h
    rw [hb]
    decide

/-- So is every byte that ends a string. -/
theorem ascii_of_isStart {b : UInt8} (h : isStart b = true) : b < 128 := by
  unfold isStart at h
  simp only [Bool.or_eq_true] at h
  rcases h with ((h | h) | h) | h
  · rw [of_decide_eq_true h]
    decide
  · rw [of_decide_eq_true h]
    decide
  · rw [of_decide_eq_true h]
    decide
  · exact ascii_of_isAsciiWhitespace h

/-- What a token scanner that starts at `p` does: it ends at a later position of
the source, on a boundary if it found a token, which is no parenthesis. -/
def ScansFrom (cs : List Char) (p : Nat) (r : Rust (TokenRes × PositionCountingBytesIterator)) :
    Prop :=
  ∃ res q, r = .ok (res, iterAt (encode cs) q) ∧ p ≤ q ∧ q ≤ (encode cs).length ∧
    ∀ t, res = .ok t → t.isParen = false ∧ Boundary cs q

/-- A string without quotes stops before a byte of ASCII, or at the end. -/
theorem nextString_scans {p : Nat} (hp : p ≤ (encode cs).length) :
    ScansFrom cs p (nextString (iterAt (encode cs) p)) := by
  rcases nextWhile_iterAt (fun b => !isStart b) hp with ⟨q, hq, hle, hlen, _, hstop⟩
  refine ⟨.ok .stringTok, q, ?_, hle, hlen, ?_⟩
  · unfold nextString
    rw [hq]
    rfl
  · rintro t ⟨⟩
    refine ⟨rfl, ?_⟩
    cases hb : (encode cs)[q]? with
    | none =>
      -- the text ends here
      have hend : q = (encode cs).length :=
        Nat.le_antisymm hlen (List.getElem?_eq_none_iff.mp hb)
      rw [hend]
      exact boundary_length cs
    | some b =>
      have hstart : isStart b = true := by simpa using hstop b hb
      exact (boundary_of_ascii (ascii_of_isStart hstart) hb).1

/-- The white space behind one of its characters. -/
theorem nextWhitespace_scans {p : Nat} {b : UInt8} (hb : (encode cs)[p]? = some b)
    (hws : isAsciiWhitespace b = true) :
    ScansFrom cs (p + 1) (nextWhitespace (iterAt (encode cs) (p + 1))) := by
  have hp : p + 1 ≤ (encode cs).length := (List.getElem?_eq_some_iff.mp hb).1
  rcases nextWhile_iterAt isAsciiWhitespace hp with ⟨q, hq, hle, hlen, hall, _⟩
  refine ⟨.ok .whitespace, q, ?_, hle, hlen, ?_⟩
  · unfold nextWhitespace
    rw [hq]
    rfl
  · rintro t ⟨⟩
    refine ⟨rfl, ?_⟩
    -- the last byte of the token is white space
    rcases Nat.exists_eq_succ_of_ne_zero (Nat.pos_iff_ne_zero.mp (Nat.lt_of_lt_of_le
      (Nat.succ_pos p) hle)) with ⟨r, rfl⟩
    rcases Nat.lt_or_eq_of_le (Nat.le_of_succ_le_succ hle) with hlt | rfl
    · rcases hall r hlt (Nat.lt_succ_self r) with ⟨b', hb', hws'⟩
      exact (boundary_of_ascii (ascii_of_isAsciiWhitespace hws') hb').2
    · exact (boundary_of_ascii (ascii_of_isAsciiWhitespace hws) hb).2

/-- A string in quotes ends behind its quote, if it has one on the line. -/
theorem quotedString_scans {p : Nat} (hp : p ≤ (encode cs).length) :
    ScansFrom cs p (quotedString (iterAt (encode cs) p)) := by
  rcases nextWhile_iterAt (fun b => b ≠ quote && b ≠ newline) hp with ⟨q, hq, hle, hlen, _, _⟩
  unfold quotedString
  rw [hq]
  simp only [ok_bind]
  by_cases hquote : (iterAt (encode cs) q).next.1 = some quote
  · rw [if_pos hquote]
    cases hb : (encode cs)[q]? with
    | none =>
      rw [next_iterAt_end (List.getElem?_eq_none_iff.mp hb)] at hquote
      cases hquote
    | some b =>
      rw [next_iterAt hb] at hquote ⊢
      cases hquote
      refine ⟨.ok .stringTok, q + 1, rfl, Nat.le_succ_of_le hle,
        (List.getElem?_eq_some_iff.mp hb).1, ?_⟩
      rintro t ⟨⟩
      exact ⟨rfl, (boundary_of_ascii (by decide) hb).2⟩
  · rw [if_neg hquote]
    rcases next_snd_iterAt hlen with ⟨q', hq', hle', hlen'⟩
    refine ⟨_, q', by rw [hq']; rfl, Nat.le_trans hle hle', hlen', ?_⟩
    intro t ht
    cases ht

/-- A comment takes its newline along, if there is one. -/
theorem lineComment_scans {p : Nat} (hp : p ≤ (encode cs).length) :
    ScansFrom cs p (lineComment (iterAt (encode cs) p)) := by
  rcases nextWhile_iterAt (· ≠ newline) hp with ⟨q, hq, hle, hlen, _, hstop⟩
  unfold lineComment
  rw [hq]
  simp only [ok_bind]
  cases hb : (encode cs)[q]? with
  | none =>
    have hend : (encode cs).length ≤ q := List.getElem?_eq_none_iff.mp hb
    rw [next_iterAt_end hend]
    refine ⟨.ok .lineComment, q, rfl, hle, hlen, ?_⟩
    rintro t ⟨⟩
    refine ⟨rfl, ?_⟩
    rw [Nat.le_antisymm hlen hend]
    exact boundary_length cs
  | some b =>
    -- the loop has stopped at a newline
    have hnl : b = newline := by simpa using hstop b hb
    subst hnl
    rw [next_iterAt hb]
    refine ⟨.ok .lineComment, q + 1, rfl, Nat.le_succ_of_le hle,
      (List.getElem?_eq_some_iff.mp hb).1, ?_⟩
    rintro t ⟨⟩
    exact ⟨rfl, (boundary_of_ascii (by decide) hb).2⟩

/-- Both multi-line constructs end with a `#`. -/
theorem readUntil_scans {p : Nat} (end₁ : UInt8) {tok : Token} (err : String)
    (htok : tok.isParen = false) (hp : p ≤ (encode cs).length) :
    ScansFrom cs p (readUntilAux end₁ hash tok err ((iterAt (encode cs) p).bytes.drop 1)
      (iterAt (encode cs) p)) := by
  have hdrop : (iterAt (encode cs) p).bytes.drop 1 = (encode cs).drop (p + 1) := by
    unfold iterAt
    rw [List.drop_drop]
  rw [hdrop]
  rcases readUntilAux_iterAt end₁ hash tok err hp with ⟨res, q, hq, hle, hlen, hres⟩
  refine ⟨res, q, hq, hle, hlen, ?_⟩
  intro t ht
  rcases hres t ht with ⟨rfl, r, rfl, hr⟩
  exact ⟨htok, (boundary_of_ascii (by decide) hr).2⟩

/-- A token that begins at `p`, and where it ends. -/
def TokenAt (cs : List Char) (p : Nat) (t : Token) (q : Nat) : Prop :=
  Boundary cs q ∧ (t = .open → (encode cs)[p]? = some openParen ∧ q = p + 1) ∧
    (t = .close → (encode cs)[p]? = some closeParen ∧ q = p + 1)

/-- What a scanner finds is a token that is no parenthesis. -/
theorem ScansFrom.token {p q : Nat} {r : Rust (TokenRes × PositionCountingBytesIterator)}
    (h : ScansFrom cs q r) (hle : p + 1 ≤ q) :
    ∃ res q, r = .ok (res, iterAt (encode cs) q) ∧ p < q ∧ q ≤ (encode cs).length ∧
      ∀ t, res = .ok t → TokenAt cs p t q := by
  rcases h with ⟨res, q', hr, hle', hlen, hres⟩
  refine ⟨res, q', hr, Nat.lt_of_lt_of_le hle hle', hlen, ?_⟩
  intro t ht
  rcases hres t ht with ⟨hparen, hbound⟩
  refine ⟨hbound, ?_, ?_⟩
  · rintro rfl
    cases hparen
  · rintro rfl
    cases hparen

/-- The token that begins with a byte ends behind it. -/
theorem tokenAfter_spec {p : Nat} {b : UInt8} (hb : (encode cs)[p]? = some b) :
    ∃ res q, tokenAfter b (iterAt (encode cs) (p + 1)) = .ok (res, iterAt (encode cs) q) ∧
      p < q ∧ q ≤ (encode cs).length ∧ ∀ t, res = .ok t → TokenAt cs p t q := by
  have hp : p + 1 ≤ (encode cs).length := (List.getElem?_eq_some_iff.mp hb).1
  have hhead : ∀ i, (iterAt (encode cs) (p + 1)).bytes[i]? = (encode cs)[p + 1 + i]? := by
    intro i
    unfold iterAt
    rw [List.getElem?_drop]
  have hself : p + 1 ≤ p + 1 := Nat.le_refl _
  unfold tokenAfter
  by_cases hopen : b = openParen
  · rw [if_pos hopen]
    subst hopen
    refine ⟨.ok .open, p + 1, rfl, Nat.lt_succ_self p, hp, ?_⟩
    rintro t ⟨⟩
    refine ⟨(boundary_of_ascii (by decide) hb).2, ?_, ?_⟩
    · intro _
      exact ⟨hb, rfl⟩
    · rintro ⟨⟩
  rw [if_neg hopen]
  by_cases hclose : b = closeParen
  · rw [if_pos hclose]
    subst hclose
    refine ⟨.ok .close, p + 1, rfl, Nat.lt_succ_self p, hp, ?_⟩
    rintro t ⟨⟩
    refine ⟨(boundary_of_ascii (by decide) hb).2, ?_, ?_⟩
    · rintro ⟨⟩
    · intro _
      exact ⟨hb, rfl⟩
  rw [if_neg hclose]
  by_cases hquote : b = quote
  · rw [if_pos hquote]
    exact (quotedString_scans hp).token hself
  rw [if_neg hquote]
  by_cases hsemi : b = semicolon
  · rw [if_pos hsemi]
    split
    · exact (lineComment_scans hp).token hself
    · exact (nextString_scans hp).token hself
  rw [if_neg hsemi]
  by_cases hr : b = letterR
  · rw [if_pos hr]
    split
    · rename_i hraw
      rw [hhead, hhead] at hraw
      have h₁ : (encode cs)[p + 1]? = some hash := hraw.1
      have h₂ : (encode cs)[p + 2]? = some quote := hraw.2
      rw [next_iterAt h₁, next_iterAt h₂]
      have hp' : p + 3 ≤ (encode cs).length := (List.getElem?_eq_some_iff.mp h₂).1
      exact (readUntil_scans quote _ rfl hp').token (by omega)
    · exact (nextString_scans hp).token hself
  rw [if_neg hr]
  by_cases hhash : b = hash
  · rw [if_pos hhash]
    split
    · rename_i hbar
      rw [hhead] at hbar
      have h₁ : (encode cs)[p + 1]? = some bar := hbar
      rw [next_iterAt h₁]
      have hp' : p + 2 ≤ (encode cs).length := (List.getElem?_eq_some_iff.mp h₁).1
      exact (readUntil_scans bar _ rfl hp').token (by omega)
    · exact (nextString_scans hp).token hself
  rw [if_neg hhash]
  split
  · rename_i hws
    exact (nextWhitespace_scans hb hws).token hself
  · exact (nextString_scans hp).token hself

end Boundaries

end Kanata.Lexer
