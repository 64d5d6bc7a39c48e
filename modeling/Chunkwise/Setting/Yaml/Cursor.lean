import Chunkwise.Text.Blank

/-!
# Positions in a YAML text

A cursor is what is left of a text, with the line and the column it starts at and the number of characters before
it. Five characters or pairs end a line: the line feed, the carriage return (with a line feed behind it or not), the
next-line character and the two Unicode separators.

* `skip_skip`: skips add up.
-/

namespace Chunkwise
namespace Yaml

/-- Whether a character ends a line. -/
def isBreak (c : Char) : Bool :=
  c == '\n' || c == '\r' || c == '\u0085' || c == '\u2028' || c == '\u2029'

/-- Whether a character stands between words. -/
def isWhite (c : Char) : Bool := isGap c || isBreak c

/-- Whether a character may stand in a name. -/
def isWord (c : Char) : Bool := c.isAlphanum || c == '_' || c == '-'

/-- Whether a character may stand in a text at all. -/
def isLegal (c : Char) : Bool :=
  c == '\t' || c == '\n' || c == '\r' || c == '\u0085' || (32 ≤ c.toNat && c.toNat ≤ 126) ||
    (0xA0 ≤ c.toNat && c.toNat ≤ 0xFFFD) || 0x10000 ≤ c.toNat

/-- Whether a word ends here: white space follows, or nothing. -/
def endsWord : List Char → Bool
  | [] => true
  | c :: _ => isWhite c

/-- Whether a line ends here, or the text. -/
def endsLine : List Char → Bool
  | [] => true
  | c :: _ => isBreak c

/-- A position with what follows it. -/
structure Cursor where
  rest : List Char
  line : Nat := 0
  column : Nat := 0
  /-- The number of characters before it. -/
  index : Nat := 0

namespace Cursor

/-- The position some characters of the same line further. -/
def skip (c : Cursor) (n : Nat) : Cursor :=
  { c with rest := c.rest.drop n, column := c.column + n, index := c.index + n }

/-- The longest run of characters of a class on this line. -/
def span (p : Char → Bool) (c : Cursor) : List Char × Cursor :=
  let word := c.rest.takeWhile fun x => p x && !isBreak x
  (word, c.skip word.length)

/-- The start of the next line. -/
def nextLine (c : Cursor) (rest : List Char) : Cursor :=
  { rest, line := c.line + 1, column := 0, index := c.index + (c.rest.length - rest.length) }

/-- The end of a line, if it is here: what it stands for and what follows. -/
def breakLine (c : Cursor) : List Char × Cursor :=
  match c.rest with
  | '\r' :: '\n' :: rest => (['\n'], c.nextLine rest)
  | x :: rest =>
    if x == '\u2028' || x == '\u2029' then ([x], c.nextLine rest)
    else if isBreak x then (['\n'], c.nextLine rest)
    else ([], c)
  | [] => ([], c)

/-- What follows the blanks and the comment of a line that says no more. -/
def finishLine? (c : Cursor) : Option Cursor :=
  let (_, c) := c.span isGap
  let c := if c.rest.head? == some '#' then (c.span fun _ => true).2 else c
  if endsLine c.rest then some c.breakLine.2 else none

/-- Whether a line begins here with three dashes or three dots on their own. -/
def atMarker (c : Cursor) : Bool :=
  c.column == 0 &&
    match c.rest with
    | '-' :: '-' :: '-' :: rest => endsWord rest
    | '.' :: '.' :: '.' :: rest => endsWord rest
    | _ => false

/-- Skips add up. -/
theorem skip_skip (c : Cursor) (m n : Nat) : (c.skip m).skip n = c.skip (m + n) := by
  simp [skip, Nat.add_assoc]

end Cursor
end Yaml
end Chunkwise
