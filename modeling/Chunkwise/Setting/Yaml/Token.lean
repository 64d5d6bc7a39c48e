import Chunkwise.Setting.Yaml.Scalar

/-!
# The tokens of a YAML text

A text is a list of tokens. Lines that are indented further open a block collection, and lines that are indented less
close it, so block collections have an opening and a closing token like those in brackets. What turns out to be a key
because a colon follows it gets a token in front of it afterwards: until then it is a candidate, on one line and of
at most 1024 characters.
-/

namespace Chunkwise
namespace Yaml

/-- A token. -/
inductive Token where
  /-- The version that a text says it is written in. -/
  | version (major minor : Nat)
  /-- What a tag handle stands for. -/
  | handle (name stands : String)
  | documentStart
  | documentEnd
  | blockList
  | blockTable
  | blockEnd
  | openList
  | closeList
  | openTable
  | closeTable
  | comma
  /-- The dash before an item. -/
  | dash
  | key
  | value
  | alias (name : String)
  | anchor (name : String)
  | tag (handle suffix : String)
  | scalar (style : Style) (text : String)
deriving DecidableEq, Repr

/-! ## Names, tags and directives -/

/-- The bytes of two hexadecimal digits behind percent signs. -/
def escapedBytes : List Char → List UInt8 × List Char
  | '%' :: a :: b :: rest =>
    match hexValue? a, hexValue? b with
    | some x, some y =>
      let (bytes, after) := escapedBytes rest
      (UInt8.ofNat (x * 16 + y) :: bytes, after)
    | _, _ => ([], '%' :: a :: b :: rest)
  | cs => ([], cs)

/-- Whether a character may stand in a tag; in brackets, three more may. -/
def isTagChar (verbatim : Bool) (c : Char) : Bool :=
  isWord c || ";/?:@&=+$.%!~*'()".toList.contains c || (verbatim && ",[]".toList.contains c)

/-- The text of a tag, with its escapes read. -/
def tagText? : Nat → List Char → Option (List Char)
  | 0, _ => none
  | _ + 1, [] => some []
  | fuel + 1, '%' :: rest =>
    match escapedBytes ('%' :: rest) with
    | ([], _) => none
    | (bytes, rest) => do
      let text ← String.fromUTF8? ⟨bytes.toArray⟩
      (tagText? fuel rest).map (text.toList ++ ·)
  | fuel + 1, c :: rest => (tagText? fuel rest).map (c :: ·)

/-- The text of a tag as far as it goes. -/
def scanTagText (verbatim : Bool) (c : Cursor) : Option (String × Cursor) :=
  let (text, c) := c.span (isTagChar verbatim)
  (tagText? (text.length + 1) text).map fun text => (String.ofList text, c)

/-- A handle: an exclamation mark, or two with a name between them. -/
def scanHandle (c : Cursor) : String × Cursor :=
  let (name, after) := (c.skip 1).span isWord
  match after.rest with
  | '!' :: _ => (String.ofList ('!' :: name ++ ['!']), after.skip 1)
  | _ => ("!", c.skip 1)

/-- A tag with its handle. What stands in angle brackets has none. -/
def scanTag (c : Cursor) : Option (Token × Cursor) :=
  match c.rest with
  | '!' :: '<' :: _ =>
    match scanTagText true (c.skip 2) with
    | some (text, c) => if text.isEmpty || c.rest.head? ≠ some '>' then none else some (.tag "" text, c.skip 1)
    | none => none
  | _ =>
    let (handle, c) := scanHandle c
    match scanTagText false c with
    | some (text, c) =>
      if text.isEmpty then (if handle = "!" then some (.tag "" "!", c) else none) else some (.tag handle text, c)
    | none => none

/-- The name behind an ampersand or an asterisk. -/
def scanName (c : Cursor) : Option (String × Cursor) :=
  let (name, c) := (c.skip 1).span isWord
  let ends := endsWord c.rest || c.rest.head?.any fun x => "?:,]%@\x7d\x60".toList.contains x
  if name.isEmpty || !ends then none else some (String.ofList name, c)

/-- A number of at most nine digits. -/
def scanVersionPart (c : Cursor) : Option (Nat × Cursor) :=
  let (digits, c) := c.span Char.isDigit
  if digits.isEmpty || 9 < digits.length then none
  else some (digits.foldl (fun n d => n * 10 + (d.toNat - 48)) 0, c)

/-- A version behind its name. -/
def scanVersion (c : Cursor) : Option (Token × Cursor) := do
  let (major, c) ← scanVersionPart (c.span isGap).2
  if c.rest.head? ≠ some '.' then none
  else do
    let (minor, c) ← scanVersionPart (c.skip 1)
    some (.version major minor, c)

/-- A handle and what it stands for. -/
def scanHandleMeaning (c : Cursor) : Option (Token × Cursor) := do
  let c := (c.span isGap).2
  if c.rest.head? ≠ some '!' then none
  else do
    let (handle, c) := scanHandle c
    if !c.rest.head?.any isGap then none
    else do
      let (text, c) ← scanTagText true (c.span isGap).2
      if text.isEmpty || !endsWord c.rest then none else some (.handle handle text, c)

/-- A directive with its line. -/
def scanDirective (c : Cursor) : Option (Token × Cursor) := do
  let (name, c) := (c.skip 1).span isWord
  let (token, c) ←
    if !endsWord c.rest then none
    else if name = "YAML".toList then scanVersion c
    else if name = "TAG".toList then scanHandleMeaning c
    else none
  (c.finishLine?).map (token, ·)

/-! ## The scanner -/

/-- What may turn out to be a key. -/
structure Candidate where
  /-- The number of tokens before it. -/
  place : Nat
  start : Cursor
  /-- Whether the text is wrong if it is no key. -/
  required : Bool

/-- What has been read, and what the next token depends on. -/
structure Scanner where
  cursor : Cursor
  tokens : Array Token := #[]
  /-- The least column of what belongs to the block that was opened last. -/
  floor : Nat := 0
  /-- Those of the blocks around it. -/
  floors : List Nat := []
  /-- The candidate of the collection that was opened last. -/
  candidate : Option Candidate := none
  /-- Those of the collections around it. -/
  outer : List (Option Candidate) := []
  /-- Whether a key may start here. -/
  keyAllowed : Bool := true

/-- Closes blocks with a floor above a limit. -/
def unwind (limit : Nat) : Nat → List Nat → Nat × List Nat × Nat
  | floor, [] => (floor, [], 0)
  | floor, outer :: floors =>
    if limit < floor then
      let (floor, floors, closed) := unwind limit outer floors
      (floor, floors, closed + 1)
    else (floor, outer :: floors, 0)

namespace Scanner

/-- Whether brackets are open. -/
def inFlow (s : Scanner) : Bool := !s.outer.isEmpty

/-- Adds a token behind those read. -/
def push (t : Token) (s : Scanner) : Scanner := { s with tokens := s.tokens.push t }

/-- Moves on. -/
def moved (c : Cursor) (s : Scanner) : Scanner := { s with cursor := c }

/-- Closes the blocks that lines at a column do not belong to; without a column, all of them. -/
def closeBlocks (column : Option Nat) (s : Scanner) : Scanner :=
  if s.inFlow then s
  else
    let (floor, floors, closed) := unwind (column.elim 0 (· + 1)) s.floor s.floors
    { s with floor, floors, tokens := s.tokens ++ Array.replicate closed .blockEnd }

/-- Puts a token in front of those from a place on. -/
def insert (place : Nat) (t : Token) (s : Scanner) : Scanner :=
  { s with tokens := s.tokens.extract 0 place ++ #[t] ++ s.tokens.extract place s.tokens.size }

/-- Opens a block with a token at a place, unless the column belongs to one. -/
def openBlock (column place : Nat) (t : Token) (s : Scanner) : Scanner :=
  if s.inFlow || column < s.floor then s
  else { s.insert place t with floor := column + 1, floors := s.floor :: s.floors }

/-- Gives up the candidate. -/
def dropCandidate? (s : Scanner) : Option Scanner :=
  if s.candidate.any (·.required) then none else some { s with candidate := none }

/-- Makes what starts here a candidate. -/
def propose? (s : Scanner) : Option Scanner :=
  if s.keyAllowed then
    (s.dropCandidate?).map fun s =>
      { s with candidate := some ⟨s.tokens.size, s.cursor, !s.inFlow && s.floor == s.cursor.column + 1⟩ }
  else some s

/-- Whether what started as a candidate has grown too long to be a key. -/
def expired (here : Cursor) (k : Candidate) : Bool :=
  k.start.line < here.line || k.start.index + 1024 < here.index

/-- Gives up a candidate that has grown too long. -/
def dropExpired? (here : Cursor) (k : Option Candidate) : Option (Option Candidate) :=
  match k.filter (expired here) with
  | none => some k
  | some k => if k.required then none else some none

/-- Gives up the candidates that have grown too long. -/
def dropAllExpired? (s : Scanner) : Option Scanner := do
  let candidate ← dropExpired? s.cursor s.candidate
  let outer ← s.outer.mapM (dropExpired? s.cursor)
  some { s with candidate, outer }

/-- Goes on to the next token, past blanks, comments and line breaks. -/
def seek : Nat → Scanner → Scanner
  | 0, s => s
  | fuel + 1, s =>
    let (_, c) := s.cursor.span fun x => x == ' ' || ((s.inFlow || !s.keyAllowed) && x == '\t')
    let c := if c.rest.head? == some '#' then (c.span fun _ => true).2 else c
    if c.rest.head?.any isBreak then
      seek fuel { s with cursor := c.breakLine.2, keyAllowed := s.keyAllowed || !s.inFlow }
    else { s with cursor := c }

/-! ## One token -/

/-- A token that stands for itself. -/
def mark? (t : Token) (length : Nat) (keyAllowed : Bool) (s : Scanner) : Option Scanner :=
  (s.dropCandidate?).map fun s => { s.push t with cursor := s.cursor.skip length, keyAllowed }

/-- What may be a key. -/
def content? (scan : Cursor → Option (Token × Cursor)) (s : Scanner) : Option Scanner := do
  let s ← s.propose?
  let (token, c) ← scan s.cursor
  some { s.push token with cursor := c, keyAllowed := false }

/-- An opening bracket. -/
def open? (t : Token) (s : Scanner) : Option Scanner :=
  (s.propose?).map fun s =>
    { s.push t with
      cursor := s.cursor.skip 1, keyAllowed := true, candidate := none, outer := s.candidate :: s.outer }

/-- A closing bracket. -/
def close? (t : Token) (s : Scanner) : Option Scanner :=
  (s.mark? t 1 false).map fun s =>
    match s.outer with
    | [] => s
    | candidate :: outer => { s with candidate, outer }

/-- The mark of an item, or of a key that is written out: in a block it opens the collection. -/
def blockMark? (t collection : Token) (keyAllowed : Bool) (s : Scanner) : Option Scanner :=
  if !s.inFlow && !s.keyAllowed then none
  else (s.openBlock s.cursor.column s.tokens.size collection).mark? t 1 keyAllowed

/-- A colon: the candidate before it is a key. -/
def colon? (s : Scanner) : Option Scanner :=
  match s.candidate with
  | some k =>
    let s := (s.insert k.place .key).openBlock k.start.column k.place .blockTable
    some { s.push .value with cursor := s.cursor.skip 1, candidate := none, keyAllowed := false }
  | none =>
    if !s.inFlow && !s.keyAllowed then none
    else
      let s := s.openBlock s.cursor.column s.tokens.size .blockTable
      some { s.push .value with cursor := s.cursor.skip 1, keyAllowed := !s.inFlow }

/-- A block scalar. -/
def block? (literal : Bool) (s : Scanner) : Option Scanner := do
  let s ← s.dropCandidate?
  let (text, c) ← scanBlock literal s.floor (s.cursor.skip 1)
  let style := if literal then Style.literal else .folded
  some { s.push (.scalar style (String.ofList text)) with cursor := c, keyAllowed := true }

/-- A plain scalar. -/
def plain? (s : Scanner) : Option Scanner := do
  let s ← s.propose?
  let ((text, broken), c) ← scanPlain s.inFlow s.floor (s.cursor.rest.length + 1) {} s.cursor
  some { s.push (.scalar .plain (String.ofList text)) with cursor := c, keyAllowed := broken }

/-- A scalar up to a quote. -/
def scanQuotedToken (quote : Char) (c : Cursor) : Option (Token × Cursor) :=
  (scanQuoted quote (c.rest.length + 1) (c.skip 1)).map fun (text, c) => (.scalar .quoted (String.ofList text), c)

/-- A tag with what must follow it. -/
def scanTagToken (inFlow : Bool) (c : Cursor) : Option (Token × Cursor) :=
  (scanTag c).filter fun (_, c) => endsWord c.rest || (inFlow && c.rest.head? == some ',')

/-- A name with the token it makes. -/
def scanNameToken (token : String → Token) (c : Cursor) : Option (Token × Cursor) :=
  (scanName c).map fun (name, c) => (token name, c)

/-- Whether a character begins a token of its own and no plain scalar. -/
def isIndicator (c : Char) : Bool := "-?:,[]#&*!|>'\"%@\x7b\x7d\x60".toList.contains c

/-- Whether a plain scalar begins here. -/
def startsPlain (inFlow : Bool) (c : Char) (rest : List Char) : Bool :=
  !(isWhite c || isIndicator c) || (c == '-' && !rest.head?.any isGap) ||
    (!inFlow && (c == '?' || c == ':') && !endsWord rest)

/-- A token at the start of a line: a directive, or the mark of a document. -/
def lineStart? (s : Scanner) : Option (Option Scanner) :=
  let ended := s.closeBlocks none
  if s.cursor.column ≠ 0 then none
  else if s.cursor.rest.head? == some '%' then
    some do
      let s ← ended.dropCandidate?
      let (token, c) ← scanDirective s.cursor
      some { s.push token with cursor := c, keyAllowed := false }
  else if s.cursor.atMarker then
    some (ended.mark? (if s.cursor.rest.head? == some '-' then .documentStart else .documentEnd) 3 false)
  else none

/-- A token that begins with a character. -/
def inLine? (c : Char) (rest : List Char) (s : Scanner) : Option Scanner :=
  let loose := s.inFlow || endsWord rest
  match c with
  | '[' => s.open? .openList
  | '\x7b' => s.open? .openTable
  | ']' => s.close? .closeList
  | '\x7d' => s.close? .closeTable
  | ',' => s.mark? .comma 1 true
  | '*' => s.content? (scanNameToken .alias)
  | '&' => s.content? (scanNameToken .anchor)
  | '!' => s.content? (scanTagToken s.inFlow)
  | '\'' => s.content? (scanQuotedToken c)
  | '"' => s.content? (scanQuotedToken c)
  | _ =>
    if c == '-' && endsWord rest then s.blockMark? .dash .blockList true
    else if c == '?' && loose then s.blockMark? .key .blockTable (!s.inFlow)
    else if c == ':' && loose then s.colon?
    else if (c == '|' || c == '>') && !s.inFlow then s.block? (c == '|')
    else if startsPlain s.inFlow c rest then s.plain?
    else none

/-- All tokens of a text. -/
def run : Nat → Scanner → Option (List Token)
  | 0, _ => none
  | fuel + 1, s => do
    let s ← (s.seek (s.cursor.rest.length + 1)).dropAllExpired?
    let s := s.closeBlocks (some s.cursor.column)
    match s.cursor.rest with
    | [] => ((s.closeBlocks none).dropCandidate?).map (·.tokens.toList)
    | c :: rest => run fuel (← (s.lineStart?).getD (s.inLine? c rest))

end Scanner

/-- The tokens of a text, if all of its characters are legal. A mark of the byte order may stand in front. -/
def Token.ofText? (text : List Char) : Option (List Token) :=
  let text := if text.head? == some '\uFEFF' then text.drop 1 else text
  if text.all isLegal then Scanner.run (text.length + 1) { cursor := { rest := text } } else none

end Yaml
end Chunkwise
