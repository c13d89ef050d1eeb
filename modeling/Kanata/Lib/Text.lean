import Mathlib.Data.List.Basic

/-!
# Kanata.Lib.Text — lines and parts of a text

Functions of Rust's `str` on lists of characters.
-/

namespace Text

/-- `char::is_whitespace`: the characters with the property `White_Space`. -/
def isWhitespace (c : Char) : Bool :=
  (9 ≤ c.toNat && c.toNat ≤ 13) || c.toNat = 0x20 || c.toNat = 0x85 || c.toNat = 0xA0 ||
    c.toNat = 0x1680 || (0x2000 ≤ c.toNat && c.toNat ≤ 0x200A) || c.toNat = 0x2028 ||
    c.toNat = 0x2029 || c.toNat = 0x202F || c.toNat = 0x205F || c.toNat = 0x3000

/-- `str::trim_start`. -/
def trimStart (text : List Char) : List Char := text.dropWhile isWhitespace

/-- `str::trim`. -/
def trim (text : List Char) : List Char := (trimStart (trimStart text).reverse).reverse

/-- `str::split_once` at a character. -/
def splitOnce (sep : Char) : List Char → Option (List Char × List Char)
  | [] => none
  | c :: text =>
    if c = sep then some ([], text)
    else (splitOnce sep text).map fun parts => (c :: parts.1, parts.2)

/-- `str::split` at a character. -/
def split (sep : Char) : List Char → List (List Char)
  | [] => [[]]
  | c :: text =>
    if c = sep then [] :: split sep text
    else
      match split sep text with
      | [] => [[c]]
      | piece :: rest => (c :: piece) :: rest

/-- `join` with a character between the words. -/
def join (sep : Char) : List (List Char) → List Char
  | [] => []
  | [w] => w
  | w :: w' :: ws => w ++ sep :: join sep (w' :: ws)

/-- A carriage return before a line feed belongs to the line ending. -/
def stripCarriageReturn (piece : List Char) : List Char :=
  if piece.getLast? = some '\r' then piece.dropLast else piece

/-- `str::lines`. A text that ends with a line feed has no line after it, and the last
piece is not followed by a line feed. -/
def lines (text : List Char) : List (List Char) :=
  let all := split '\n' text
  let ended := all.dropLast.map stripCarriageReturn
  match all.getLast? with
  | some [] => ended
  | some last => ended ++ [last]
  | none => ended

/-- The lines that configuration files give a meaning: not blank, and no comment. -/
def isMeaningful (line : List Char) : Bool :=
  !(trim line).isEmpty && !(['/', '/'].isPrefixOf (trim line))

theorem length_splitOnce {sep : Char} {text before after : List Char}
    (h : splitOnce sep text = some (before, after)) : after.length < text.length := by
  induction text generalizing before with
  | nil => cases h
  | cons c text ih =>
    unfold splitOnce at h
    split at h
    · cases h
      exact Nat.lt_succ_self _
    · rcases Option.map_eq_some_iff.mp h with ⟨⟨before', after'⟩, hparts, heq⟩
      cases heq
      exact Nat.lt_succ_of_lt (ih hparts)

end Text
