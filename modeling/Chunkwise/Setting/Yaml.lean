import Chunkwise.Decimal.Read
import Chunkwise.Setting.Basic
import Chunkwise.Setting.Yaml.Node

/-!
# Settings in YAML

What the node of a YAML text says. A plain scalar is read as a truth value, a number or nothing if it is spelled like
one; so is a literal block with the tag of that type. An empty scalar stands for a table without entries where a table
is expected. The keys of a table are scalars, and it is their text that counts.
-/

namespace Chunkwise
namespace Yaml

/-! ## Scalars -/

/-- The truth value of a word. -/
def boolOf? (text : String) : Option Bool :=
  if ["true", "True", "TRUE"].contains text then some true
  else if ["false", "False", "FALSE"].contains text then some false
  else none

/-- Whether a word stands for a value that is not there. -/
def isNull (text : String) : Bool := ["null", "Null", "NULL", "~"].contains text

/-- The number of digits of a base, if they are such digits and the number fits a word of 64 bits. -/
def countOfBase? (base : Nat) (digits : List Char) : Option Nat :=
  if digits.isEmpty then none else (numeral? base digits).filter (· < Nat.pow 2 64)

/-- The number of things a word stands for: with a plus sign before it or not, in one of four bases. Decimal digits
may not begin with a needless zero. -/
def countOf? (text : List Char) : Option Nat :=
  let digits := match text with
    | '+' :: rest => rest
    | rest => rest
  match digits with
  | '0' :: 'x' :: rest => countOfBase? 16 rest
  | '0' :: 'o' :: rest => countOfBase? 8 rest
  | '0' :: 'b' :: rest => countOfBase? 2 rest
  | '0' :: _ :: _ => none
  | rest => countOfBase? 10 rest

/-- The exponent of a number, if one is written. -/
def exponentOf? : List Char → Option Int
  | [] => some 0
  | _ :: '-' :: digits =>
    if digits.isEmpty || !digits.all Char.isDigit then none else some (-(Decimal.natOfDigits digits : Int))
  | _ :: '+' :: digits =>
    if digits.isEmpty || !digits.all Char.isDigit then none else some (Decimal.natOfDigits digits)
  | _ :: digits => if digits.isEmpty || !digits.all Char.isDigit then none else some (Decimal.natOfDigits digits)

/-- A decimal without its sign. Digits may be left out on one side of the point. -/
def decimalOf? (negative : Bool) (text : List Char) : Option Float :=
  let isMark (c : Char) : Bool := c == 'e' || c == 'E'
  let mantissa := text.takeWhile (!isMark ·)
  let whole := mantissa.takeWhile (· != '.')
  let fraction := (mantissa.dropWhile (· != '.')).drop 1
  if !(whole ++ fraction).all Char.isDigit || (whole ++ fraction).isEmpty then none
  else (exponentOf? (text.dropWhile (!isMark ·))).map (Decimal.ofParts negative whole fraction)

/-- The number a word stands for. One beyond all doubles is none. -/
def numberOf? (text : List Char) : Option Float :=
  let (negative, rest) := match text with
    | '-' :: rest => (true, rest)
    | '+' :: rest => (false, rest)
    | rest => (false, rest)
  let word := String.ofList rest
  if [".inf", ".Inf", ".INF"].contains word then some (if negative then -(1.0 / 0.0) else 1.0 / 0.0)
  else if [".nan", ".NaN", ".NAN"].contains (String.ofList text) then some (0.0 / 0.0)
  else (decimalOf? negative rest).filter (·.isFinite)

/-- The tag of a type that all texts know. -/
def coreTag (name : String) : String := "tag:yaml.org,2002:" ++ name

/-- What a scalar can be read as. -/
def readings (style : Style) (tag : Option String) (text : String) : Scalar :=
  let plain := style = .plain
  let isOf (type : String) : Bool := plain || (style = .literal && tag == some (coreTag type))
  { absent := plain && (match tag with
      | none => text.isEmpty || isNull text
      | some tag => tag = coreTag "null" && isNull text)
    empty := text.isEmpty
    bool := if isOf "bool" then boolOf? text else none
    count := if isOf "int" then countOf? text.toList else none
    number := if isOf "float" then numberOf? text.toList else none }

/-! ## Nodes -/

/-- The text of a key. -/
def keyOf? : Node → Option String
  | .scalar _ _ text => some text
  | _ => none

mutual

/-- What a node says. A table with a key that is no scalar says nothing that can be read. -/
def Node.toSetting : Node → Setting
  | .scalar style tag text => .scalar (readings style tag text)
  | .list items => .list true (settingsOf items)
  | .table entries =>
    match entriesOf? entries with
    | some entries => .table entries
    | none => .scalar {}
  | .cycle => .scalar {}

/-- What each item of a list says. -/
def settingsOf : List Node → List Setting
  | [] => []
  | node :: rest => node.toSetting :: settingsOf rest

/-- What each entry of a table says. -/
def entriesOf? : List (Node × Node) → Option (List (String × Setting))
  | [] => some []
  | (key, node) :: rest =>
    match keyOf? key, entriesOf? rest with
    | some key, some entries => some ((key, node.toSetting) :: entries)
    | _, _ => none

end

/-- What a text says; one without a document has no entries. -/
def parse? (text : List Char) : Option Setting :=
  (Token.ofText? text).bind fun tokens =>
    (Node.ofTokens? tokens).map fun node => (node.map Node.toSetting).getD (.table [])

end Yaml
end Chunkwise
