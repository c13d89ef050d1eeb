import Kanata.Parser.SExpr
import Kanata.Lib.Utf8
import Mathlib.Data.List.Infix

/-!
# Kanata.Parser.Lexer — from a source text to S-expressions

The lexer of `parser/src/cfg/sexpr.rs` goes through the bytes of the source and
counts lines on the side; the parser puts its tokens on a stack of open lists.
White space and comments are dropped or recorded as metadata.

A position whose assertions fail, a span out of order and an index that is not on
a character boundary are panics.
-/

namespace Kanata

/-- `Position::new`. -/
def Position.new (absolute line lineBeginning : Nat) : Rust Position := do
  assertThat (line ≤ absolute) "assertion failed: line <= absolute"
  assertThat (lineBeginning ≤ absolute) "assertion failed: line_beginning <= absolute"
  pure { absolute, line, lineBeginning }

/-- `Span::new`. -/
def Span.new (start stop : Position) : Rust Span := do
  assertThat (start.absolute ≤ stop.absolute) "assertion failed: start.absolute <= end.absolute"
  assertThat (start.line ≤ stop.line) "assertion failed: start.line <= end.line"
  pure { start, stop }

/-- `Span::cover`. The spans of one parse have the same file name. -/
def Span.cover (s other : Span) : Rust Span :=
  Span.new (if s.start.absolute ≤ other.start.absolute then s.start else other.start)
    (if s.stop.absolute ≥ other.stop.absolute then s.stop else other.stop)

/-- An item of the source that is in no tree. -/
inductive SExprMetaData where
  | lineComment (t : String) (span : Span)
  | blockComment (t : String) (span : Span)
  | whitespace (t : String) (span : Span)
deriving DecidableEq, Repr

inductive Token where
  | open
  | close
  | stringTok
  | blockComment
  | lineComment
  | whitespace
deriving DecidableEq, Repr

/-- The token is white space or a comment. -/
def Token.isMeta : Token → Bool
  | .blockComment | .lineComment | .whitespace => true
  | .open | .close | .stringTok => false

namespace Lexer

/-! ## Bytes with positions -/

def newline : UInt8 := 10
def openParen : UInt8 := 40
def closeParen : UInt8 := 41
def quote : UInt8 := 34
def semicolon : UInt8 := 59
def hash : UInt8 := 35
def bar : UInt8 := 124
def letterR : UInt8 := 114

/-- `is_ascii_whitespace`. -/
def isAsciiWhitespace (b : UInt8) : Bool := b = 32 || b = 9 || b = newline || b = 12 || b = 13

/-- `is_start`. -/
def isStart (b : UInt8) : Bool :=
  b = openParen || b = closeParen || b = quote || isAsciiWhitespace b

structure PositionCountingBytesIterator where
  bytes : List UInt8
  sourceLength : Nat
  line : Nat
  lineBeginning : Nat
deriving DecidableEq, Repr

namespace PositionCountingBytesIterator

def new (s : List UInt8) : PositionCountingBytesIterator := ⟨s, s.length, 0, 0⟩

def pos (it : PositionCountingBytesIterator) : Rust Position :=
  Position.new (it.sourceLength - it.bytes.length) it.line it.lineBeginning

def next (it : PositionCountingBytesIterator) : Option UInt8 × PositionCountingBytesIterator :=
  match it.bytes with
  | [] => (none, it)
  | b :: bytes =>
    (some b,
      if b = newline then
        { it with bytes, line := it.line + 1, lineBeginning := it.sourceLength - bytes.length }
      else { it with bytes })

/-- `next().expect("iter lag")`. -/
def nextExpect (it : PositionCountingBytesIterator) :
    Rust (UInt8 × PositionCountingBytesIterator) :=
  match it.next with
  | (some b, it) => pure (b, it)
  | (none, _) => panicWith "iter lag"

end PositionCountingBytesIterator

open PositionCountingBytesIterator

/-! ## Tokens -/

/-- The loop of `next_while` over a clone of the iterator. -/
def nextWhileAux (f : UInt8 → Bool) : List UInt8 → PositionCountingBytesIterator →
    Rust PositionCountingBytesIterator
  | [], it => pure it
  | b :: bs, it =>
    if f b then do
      let (_, it) ← it.nextExpect
      nextWhileAux f bs it
    else pure it

def nextWhile (f : UInt8 → Bool) (it : PositionCountingBytesIterator) :
    Rust PositionCountingBytesIterator :=
  nextWhileAux f it.bytes it

abbrev TokenRes := Except String Token

/-- The loop of `read_until_multiline_string_end` and of
`read_until_multiline_comment_end` over a clone that is one item ahead. -/
def readUntilAux (end₁ end₂ : UInt8) (tok : Token) (err : String) :
    List UInt8 → PositionCountingBytesIterator → Rust (TokenRes × PositionCountingBytesIterator)
  | [], it => pure (.error err, it)
  | b₂ :: bs, it => do
    let (b₁, it) ← it.nextExpect
    if b₁ = end₁ ∧ b₂ = end₂ then pure (.ok tok, it.next.2)
    else readUntilAux end₁ end₂ tok err bs it

def readUntilMultilineStringEnd (it : PositionCountingBytesIterator) :
    Rust (TokenRes × PositionCountingBytesIterator) :=
  readUntilAux quote hash .stringTok
    "Unterminated multiline string. Add \"# after the end of your string." (it.bytes.drop 1) it

def readUntilMultilineCommentEnd (it : PositionCountingBytesIterator) :
    Rust (TokenRes × PositionCountingBytesIterator) :=
  readUntilAux bar hash .blockComment
    "Unterminated multiline comment. Add |# after the end of your comment." (it.bytes.drop 1) it

/-- `next_string`. -/
def nextString (it : PositionCountingBytesIterator) :
    Rust (TokenRes × PositionCountingBytesIterator) := do
  let it ← nextWhile (fun b => !isStart b) it
  pure (.ok .stringTok, it)

/-- `next_whitespace`. -/
def nextWhitespace (it : PositionCountingBytesIterator) :
    Rust (TokenRes × PositionCountingBytesIterator) := do
  let it ← nextWhile isAsciiWhitespace it
  pure (.ok .whitespace, it)

/-- A string in double quotes, after the first of them. -/
def quotedString (it : PositionCountingBytesIterator) :
    Rust (TokenRes × PositionCountingBytesIterator) := do
  let it ← nextWhile (fun b => b ≠ quote && b ≠ newline) it
  if it.next.1 = some quote then pure (.ok .stringTok, it.next.2)
  else pure (.error "Unterminated string", it.next.2)

/-- A comment from its second semicolon on. -/
def lineComment (it : PositionCountingBytesIterator) :
    Rust (TokenRes × PositionCountingBytesIterator) := do
  let it ← nextWhile (· ≠ newline) it
  -- possibly consume the newline
  pure (.ok .lineComment, it.next.2)

/-- The token that begins with the byte `b`, which is already consumed. -/
def tokenAfter (b : UInt8) (it : PositionCountingBytesIterator) :
    Rust (TokenRes × PositionCountingBytesIterator) :=
  if b = openParen then pure (.ok .open, it)
  else if b = closeParen then pure (.ok .close, it)
  else if b = quote then quotedString it
  else if b = semicolon then
    if it.bytes[0]? = some semicolon then lineComment it else nextString it
  else if b = letterR then
    if it.bytes[0]? = some hash ∧ it.bytes[1]? = some quote then
      -- consume the # and "
      readUntilMultilineStringEnd it.next.2.next.2
    else nextString it
  else if b = hash then
    if it.bytes[0]? = some bar then readUntilMultilineCommentEnd it.next.2 else nextString it
  else if isAsciiWhitespace b then nextWhitespace it
  else nextString it

/-- `next_token`. Each round of the loop consumes a byte. -/
def nextToken (ignoreWhitespaceAndComments : Bool) : Nat → PositionCountingBytesIterator →
    Rust (Option (Position × TokenRes) × PositionCountingBytesIterator)
  | 0, _ => panicWith "the lexer does not advance"
  | fuel + 1, it => do
    let start ← it.pos
    match it.next with
    | (none, it) => pure (none, it)
    | (some b, it) => do
      let (tok, it) ← tokenAfter b it
      match tok with
      | .ok t =>
        if t.isMeta && ignoreWhitespaceAndComments then
          nextToken ignoreWhitespaceAndComments fuel it
        else pure (some (start, .ok t), it)
      | .error e => pure (some (start, .error e), it)

/-- The iterator that `Lexer::new` returns. -/
def nextSpanned (ignoreWhitespaceAndComments : Bool) (it : PositionCountingBytesIterator) :
    Rust (Option (TokenRes × Span) × PositionCountingBytesIterator) := do
  let (tok, it) ← nextToken ignoreWhitespaceAndComments (it.bytes.length + 1) it
  match tok with
  | none => pure (none, it)
  | some (start, t) => do
    let stop ← it.pos
    let span ← Span.new start stop
    pure (some (t, span), it)

/-! ## Trees -/

/-- `s[span]`. -/
def textAt (s : List Char) (span : Span) : Rust String :=
  if span.start.absolute ≤ span.stop.absolute then
    match Utf8.slice s span.start.absolute span.stop.absolute with
    | some text => pure (String.ofList text)
    | none => panicWith "byte index is not a char boundary"
  else panicWith "slice index starts after its end"

/-- An open list: its elements and the span of its parenthesis. -/
abbrev Frame := List SExpr × Span

/-- The local variables of `parse_with`. The top of the stack is the head. -/
structure ParseState where
  stack : List Frame
  metadata : List SExprMetaData

/-- `stack.last_mut().expect("not empty").t.push(expr)`. -/
def pushExpr (expr : SExpr) : List Frame → Parse (List Frame)
  | [] => liftRust (panicWith "not empty")
  | (exprs, span) :: stack => pure ((exprs ++ [expr], span) :: stack)

/-- A closing parenthesis. -/
def closeList (span : Span) : List Frame → Parse (List Frame)
  -- there is a placeholder at the bottom of the stack
  | [] => liftRust (panicWith "placeholder unpopped")
  | [_] => .error (.error ⟨"Unexpected closing parenthesis", some span⟩)
  | (exprs, stackSpan) :: frame :: stack => do
    let covered ← stackSpan.cover span
    pushExpr (.listNode exprs covered) (frame :: stack)

/-- A round of the loop of `parse_with`. -/
def pushToken (s : List Char) (st : ParseState) (tok : Token) (span : Span) : Parse ParseState :=
  match tok with
  | .open => pure { st with stack := ([], span) :: st.stack }
  | .close => do
    let stack ← closeList span st.stack
    pure { st with stack }
  | .stringTok => do
    let t ← textAt s span
    let stack ← pushExpr (.atomNode t span) st.stack
    pure { st with stack }
  | .blockComment => do
    let t ← textAt s span
    pure { st with metadata := st.metadata ++ [.blockComment t span] }
  | .lineComment => do
    let t ← textAt s span
    pure { st with metadata := st.metadata ++ [.lineComment t span] }
  | .whitespace => do
    let t ← textAt s span
    pure { st with metadata := st.metadata ++ [.whitespace t span] }

/-- The loop of `parse_with`. Each round consumes a byte. -/
def parseLoop (s : List Char) (ignoreWhitespaceAndComments : Bool) :
    Nat → PositionCountingBytesIterator → ParseState → Parse ParseState
  | 0, _, _ => liftRust (panicWith "the lexer does not advance")
  | fuel + 1, it, st => do
    let (item, it) ← nextSpanned ignoreWhitespaceAndComments it
    match item with
    | none => pure st
    | some (.error msg, span) => .error (.error ⟨msg, some span⟩)
    | some (.ok tok, span) => do
      let st ← pushToken s st tok span
      parseLoop s ignoreWhitespaceAndComments fuel it st

/-- `TopLevel`. -/
abbrev TopLevel := List SExpr × Span

def topLevel : SExpr → Parse TopLevel
  | .listNode es span => pure (es, span)
  | .atomNode _ span => .error (.error ⟨"Everything must be in a list", some span⟩)

/-- The end of `parse_with`. -/
def finish (st : ParseState) : Parse (List TopLevel × List SExprMetaData) :=
  match st.stack with
  | [] => liftRust (panicWith "placeholder unpopped")
  | [(exprs, _)] => do
    let exprs ← exprs.mapM topLevel
    pure (exprs, st.metadata)
  | (_, span) :: _ :: _ => .error (.error ⟨"Unclosed opening parenthesis", some span⟩)

def parseWith (s : List Char) (ignoreWhitespaceAndComments : Bool) :
    Parse (List TopLevel × List SExprMetaData) := do
  let st ← parseLoop s ignoreWhitespaceAndComments ((Utf8.encode s).length + 1)
    (.new (Utf8.encode s)) ⟨[([], default)], []⟩
  finish st

/-- `strip_utf8_bom`. The three bytes are one character. -/
def stripUtf8Bom (s : List Char) : List Char :=
  match s with
  | c :: rest => if c.toNat = 0xfeff then rest else s
  | [] => []

/-- The two bytes at the start of a span. -/
def openingOf (span : Span) : Span :=
  { span with stop := { span.start with absolute := span.start.absolute + 2 } }

/-- The span of an unterminated comment is where it opens. -/
def atCommentStart (e : ParseError) : ParseError :=
  if "Unterminated multiline comment".toList <:+: e.msg.toList then
    { e with span := e.span.map openingOf }
  else e

/-- `parse_`. -/
def parse (cfg : List Char) (ignoreWhitespaceAndComments : Bool) :
    Parse (List TopLevel × List SExprMetaData) :=
  match parseWith (stripUtf8Bom cfg) ignoreWhitespaceAndComments with
  | .error (.error e) => .error (.error (atCommentStart e))
  | r => r

end Lexer

end Kanata
