import Chunkwise.Setting.Yaml.Cursor
import Chunkwise.Text.Numeral

/-!
# The text of YAML scalars

A scalar is plain, quoted or a block. White space between its words is folded: a line break alone stands for a
blank, one of several line breaks is dropped, and blanks around line breaks are not kept. Inside a literal block
nothing is folded.
-/

namespace Chunkwise
namespace Yaml

/-- How a scalar is written. -/
inductive Style where
  | plain
  | quoted
  /-- A block whose lines are kept. -/
  | literal
  /-- A block whose lines are joined. -/
  | folded
deriving DecidableEq, Repr

/-! ## White space between words -/

/-- White space between two words. -/
structure Fold where
  /-- Blanks before the first line break. -/
  blanks : List Char := []
  /-- Whether there is a line break. -/
  broken : Bool := false
  /-- The first line break. -/
  first : List Char := []
  /-- The line breaks behind it. -/
  more : List Char := []

/-- What white space stands for. -/
def Fold.text (f : Fold) : List Char :=
  if !f.broken then f.blanks
  else if f.first = ['\n'] then (if f.more.isEmpty then [' '] else f.more)
  else f.first ++ f.more

/-- White space up to the next word, behind some that was read. Lines may not be indented by tabs to less than
`floor` columns. -/
def scanFold (floor : Nat) : Nat → Fold → Cursor → Option (Fold × Cursor)
  | 0, f, c => some (f, c)
  | fuel + 1, f, c =>
    match c.rest with
    | [] => some (f, c)
    | x :: _ =>
      if isGap x then
        if f.broken then
          if x == '\t' && c.column < floor then none else scanFold floor fuel f (c.skip 1)
        else scanFold floor fuel { f with blanks := f.blanks ++ [x] } (c.skip 1)
      else if isBreak x then
        let (text, after) := c.breakLine
        if f.broken then scanFold floor fuel { f with more := f.more ++ text } after
        else scanFold floor fuel { f with broken := true, first := text } after
      else some (f, c)

/-! ## Plain scalars -/

/-- Whether a character is a bracket or a comma. -/
def isFlowMark (c : Char) : Bool := c == ',' || c == '[' || c == ']' || c == '\x7b' || c == '\x7d'

/-- A word of a plain scalar; inside brackets, a colon may not stand before a bracket, a comma or a question mark. -/
def plainWord? (inFlow : Bool) : List Char → Option (List Char)
  | [] => some []
  | c :: rest =>
    if isWhite c then some []
    else if inFlow && c == ':' && rest.head?.any (fun d => isFlowMark d || d == '?') then none
    else if (c == ':' && endsWord rest) || (inFlow && isFlowMark c) then some []
    else (plainWord? inFlow rest).map (c :: ·)

/-- A plain scalar behind white space; also whether white space with a line break follows. A line indented to less
than `floor` columns does not belong to it. -/
def scanPlain (inFlow : Bool) (floor : Nat) : Nat → Fold → Cursor → Option ((List Char × Bool) × Cursor)
  | 0, _, _ => none
  | fuel + 1, f, c =>
    if c.atMarker || c.rest.head? == some '#' then some (([], f.broken), c)
    else
      match plainWord? inFlow c.rest with
      | none => none
      | some [] => some (([], f.broken), c)
      | some word =>
        let text := f.text ++ word
        let c := c.skip word.length
        if c.rest.head?.any isWhite then
          match scanFold floor c.rest.length {} c with
          | none => none
          | some (f, c) =>
            if !inFlow && c.column < floor then some ((text, f.broken), c)
            else (scanPlain inFlow floor fuel f c).map fun ((more, broken), c) => ((text ++ more, broken), c)
        else some ((text, false), c)

/-! ## Quoted scalars -/

/-- The characters that have a letter to escape them. -/
def escapes : List (Char × Nat) :=
  [('0', 0), ('a', 7), ('b', 8), ('t', 9), ('\t', 9), ('n', 10), ('v', 11), ('f', 12), ('r', 13), ('e', 27),
   (' ', 32), ('"', 34), ('/', 47), ('\\', 92), ('N', 0x85), ('_', 0xA0), ('L', 0x2028), ('P', 0x2029)]

/-- The number of hexadecimal digits behind a letter that asks for them. -/
def hexCount? : Char → Option Nat
  | 'x' => some 2
  | 'u' => some 4
  | 'U' => some 8
  | _ => none

/-- The character of an escape behind its backslash, with the length of the escape. -/
def escape? : List Char → Option (Char × Nat)
  | [] => none
  | c :: rest =>
    match escapes.lookup c with
    | some n => (charOf? n).map (·, 1)
    | none => (hexCount? c).bind fun count => (hexChar? count rest).map (·, count + 1)

/-- The text of a scalar up to its quote. Between double quotes a backslash escapes, between single quotes a doubled
quote stands for one. -/
def scanQuoted (quote : Char) : Nat → Cursor → Option (List Char × Cursor)
  | 0, _ => none
  | fuel + 1, c =>
    if c.atMarker then none
    else
      match c.rest with
      | [] => none
      | x :: rest =>
        let onward (text : List Char) (c : Cursor) : Option (List Char × Cursor) :=
          (scanQuoted quote fuel c).map fun (more, c) => (text ++ more, c)
        if x == quote then
          if x == '\'' && rest.head? == some '\'' then onward [x] (c.skip 2) else some ([], c.skip 1)
        else if isWhite x then (scanFold 0 c.rest.length {} c).bind fun (f, c) => onward f.text c
        else if x == '\\' && quote == '"' then
          if rest.head?.any isBreak then
            let (_, c) := (c.skip 1).breakLine
            (scanFold 0 c.rest.length { broken := true } c).bind fun (f, c) => onward f.text c
          else (escape? rest).bind fun (e, length) => onward [e] (c.skip (length + 1))
        else onward [x] (c.skip 1)

/-! ## Blocks -/

/-- What becomes of the line breaks at the end of a block. -/
inductive Chomp where
  | strip
  | clip
  | keep
deriving DecidableEq, Repr

/-- The mark for the line breaks at the end. -/
def chompOf? : Char → Option Chomp
  | '-' => some .strip
  | '+' => some .keep
  | _ => none

/-- The number of columns by which a block is indented, from 1 to 9. -/
def stepOf? (c : Char) : Option Nat := if c.isDigit && c != '0' then some (c.toNat - 48) else none

/-- The marks of a block in either order, and their number. -/
def blockMarks : List Char → Chomp × Option Nat × Nat
  | [] => (.clip, none, 0)
  | c :: rest =>
    match chompOf? c, stepOf? c with
    | some chomp, _ =>
      match rest.head?.bind stepOf? with
      | some step => (chomp, some step, 2)
      | none => (chomp, none, 1)
    | none, some step =>
      match rest.head?.bind chompOf? with
      | some chomp => (chomp, some step, 2)
      | none => (.clip, some step, 1)
    | none, none => (.clip, none, 0)

/-- Empty lines of a block: what they stand for, and the deepest column of a blank. The indentation may be unknown. -/
def scanEmptyLines (indent : Option Nat) : Nat → Nat → Cursor → Option ((List Char × Nat) × Cursor)
  | 0, deepest, c => some (([], deepest), c)
  | fuel + 1, deepest, c =>
    let blanks := (c.rest.takeWhile (· == ' ')).length
    let c := c.skip (match indent with
      | none => blanks
      | some n => min blanks (n - c.column))
    let deepest := max deepest c.column
    match c.rest with
    | [] => some (([], deepest), c)
    | x :: _ =>
      if x == '\t' && indent.all (c.column < ·) then none
      else if isBreak x then
        let (text, c) := c.breakLine
        (scanEmptyLines indent fuel deepest c).map fun ((more, deepest), c) => ((text ++ more, deepest), c)
      else some (([], deepest), c)

/-- The lines of a block, joined; then the line break and the empty lines behind them. `gap` is the line break
before a line, `empty` what the empty lines behind it stand for, and `shifted` says whether the line before it
begins with white space. -/
def scanLines (literal : Bool) (indent : Nat) :
    Nat → List Char → List Char → Bool → Cursor → Option ((List Char × List Char × List Char) × Cursor)
  | 0, gap, empty, _, c => some (([], gap, empty), c)
  | fuel + 1, gap, empty, shifted, c =>
    match c.rest with
    | [] => some (([], gap, empty), c)
    | x :: _ =>
      if c.column ≠ indent then some (([], gap, empty), c)
      else
        let joins := !literal && gap == ['\n'] && !shifted && !isGap x
        let lead := if joins then (if empty.isEmpty then [' '] else []) else gap
        let (line, c) := c.span fun _ => true
        let (gap, c) := c.breakLine
        match scanEmptyLines (some indent) (c.rest.length + 1) 0 c with
        | none => none
        | some ((below, _), c) =>
          (scanLines literal indent fuel gap below (isGap x) c).map fun ((text, ends), c) =>
            ((lead ++ empty ++ line ++ text, ends), c)

/-- The text of a block behind its mark, in a collection whose contents start at column `floor` or behind it. -/
def scanBlock (literal : Bool) (floor : Nat) (c : Cursor) : Option (List Char × Cursor) :=
  let (chomp, step, marks) := blockMarks c.rest
  match (c.skip marks).finishLine? with
  | none => none
  | some c =>
    let given := step.map (floor - 1 + ·)
    match scanEmptyLines given (c.rest.length + 1) 0 c with
    | none => none
    | some ((empty, deepest), c) =>
      let indent := given.getD (max (max deepest floor) 1)
      (scanLines literal indent (c.rest.length + 1) [] empty false c).map fun ((text, gap, empty), c) =>
        (text ++ (if chomp = .strip then [] else gap) ++ (if chomp = .keep then empty else []), c)

end Yaml
end Chunkwise
