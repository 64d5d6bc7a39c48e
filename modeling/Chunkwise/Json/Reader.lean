import Chunkwise.Json.Number
import Chunkwise.Text.Numeral

/-!
# Reading JSON

A text is a value with blanks around it, or it is no JSON. Each part of the reader gives what it read and what
follows; `fuel` bounds the number of values, and a text has fewer values than characters. Fields keep their order,
and a name that stands twice is kept twice. Half of a pair of code units that stands alone is well written but no
character, so that what holds it can be left aside, and not read.

* `joinHalves?_of_whole`: without halves of pairs, each code number is a character.
-/

namespace Chunkwise
namespace Json

/-- Whether a character may stand between the parts of a value. -/
def isBlank (c : Char) : Bool := c == ' ' || c == '\n' || c == '\t' || c == '\r'

/-- What follows the blanks. -/
def skipBlanks (cs : List Char) : List Char := cs.dropWhile isBlank

/-- The character of an escape with one letter. -/
def simpleEscape? (c : Char) : Option Char :=
  if c = '"' || c = '\\' || c = '/' then some c
  else if c = 'b' then some (Char.ofNat 8)
  else if c = 'f' then some (Char.ofNat 12)
  else if c = 'n' then some '\n'
  else if c = 'r' then some '\r'
  else if c = 't' then some '\t'
  else none

/-- The code numbers of a string up to its closing quote, and what follows. An escape with four digits gives a
number that may be one half of a pair. -/
def stringBody : List Char → Option (List Nat × List Char)
  | [] => none
  | '"' :: rest => some ([], rest)
  | '\\' :: 'u' :: a :: b :: c :: d :: rest =>
    match numeral? 16 [a, b, c, d] with
    | none => none
    | some unit => (stringBody rest).map fun (units, after) => (unit :: units, after)
  | '\\' :: e :: rest =>
    match simpleEscape? e with
    | none => none
    | some c => (stringBody rest).map fun (units, after) => (c.toNat :: units, after)
  | c :: rest =>
    if c.toNat < 32 || c = '\\' then none
    else (stringBody rest).map fun (units, after) => (c.toNat :: units, after)

/-- Whether a number is the first half of a pair. -/
def isHighHalf (n : Nat) : Bool := 0xD800 ≤ n && n < 0xDC00

/-- Whether a number is the second half of a pair. -/
def isLowHalf (n : Nat) : Bool := 0xDC00 ≤ n && n < 0xE000

/-- The characters of code numbers, the halves of pairs joined. A half that stands alone is no character. -/
def joinHalves? : List Nat → Option (List Char)
  | [] => some []
  | [n] => if isHighHalf n || isLowHalf n then none else some [Char.ofNat n]
  | high :: low :: rest =>
    if isHighHalf high && isLowHalf low then
      (joinHalves? rest).map (Char.ofNat (0x10000 + (high - 0xD800) * 0x400 + (low - 0xDC00)) :: ·)
    else if isHighHalf high || isLowHalf high then none
    else (joinHalves? (low :: rest)).map (Char.ofNat high :: ·)

/-- Without halves of pairs, each code number is a character. -/
theorem joinHalves?_of_whole : ∀ {units : List Nat}, (∀ n ∈ units, isHighHalf n = false ∧ isLowHalf n = false) →
    joinHalves? units = some (units.map Char.ofNat)
  | [], _ => rfl
  | [n], h => by
    obtain ⟨hn, hn'⟩ := h n List.mem_cons_self
    simp [joinHalves?, hn, hn']
  | n :: m :: rest, h => by
    obtain ⟨hn, hn'⟩ := h n List.mem_cons_self
    have ih : joinHalves? (m :: rest) = some ((m :: rest).map Char.ofNat) :=
      joinHalves?_of_whole fun k hk => h k (List.mem_cons_of_mem _ hk)
    simp [joinHalves?, hn, hn', ih]

/-- A string behind its opening quote, with what follows; there is no text if a half of a pair stands alone. -/
def scanString (cs : List Char) : Option (Option String × List Char) :=
  (stringBody cs).map fun (units, rest) => ((joinHalves? units).map String.ofList, rest)

/-- What stands for a value without a text of its own. It may be left aside, and is no record. -/
def unreadable : Json := .str "\uFFFD"

/-- The value of fields, if all of them have a name. -/
def objOf (fields : List (Option String × Json)) : Json :=
  match fields.mapM fun (k, v) => k.map (·, v) with
  | some fields => obj fields
  | none => unreadable

mutual

/-- A value and what follows it. -/
def scanValue : Nat → List Char → Option (Json × List Char)
  | 0, _ => none
  | fuel + 1, cs =>
    match skipBlanks cs with
    | 'n' :: 'u' :: 'l' :: 'l' :: rest => some (null, rest)
    | 't' :: 'r' :: 'u' :: 'e' :: rest => some (bool true, rest)
    | 'f' :: 'a' :: 'l' :: 's' :: 'e' :: rest => some (bool false, rest)
    | '"' :: rest => (scanString rest).map fun (s, rest) => ((s.map str).getD unreadable, rest)
    | '[' :: rest =>
      match skipBlanks rest with
      | ']' :: rest => some (arr [], rest)
      | rest => (scanItems fuel rest).map fun (items, rest) => (arr items, rest)
    | '\x7b' :: rest =>
      match skipBlanks rest with
      | '\x7d' :: rest => some (obj [], rest)
      | rest => (scanFields fuel rest).map fun (fields, rest) => (objOf fields, rest)
    | rest => scan rest

/-- One value or more up to the closing bracket, and what follows. -/
def scanItems : Nat → List Char → Option (List Json × List Char)
  | 0, _ => none
  | fuel + 1, cs =>
    match scanValue fuel cs with
    | none => none
    | some (v, rest) =>
      match skipBlanks rest with
      | ']' :: rest => some ([v], rest)
      | ',' :: rest => (scanItems fuel rest).map fun (vs, rest) => (v :: vs, rest)
      | _ => none

/-- One field or more up to the closing brace, and what follows. -/
def scanFields : Nat → List Char → Option (List (Option String × Json) × List Char)
  | 0, _ => none
  | fuel + 1, cs =>
    match skipBlanks cs with
    | '"' :: rest =>
      match scanString rest with
      | none => none
      | some (k, rest) =>
        match skipBlanks rest with
        | ':' :: rest =>
          match scanValue fuel rest with
          | none => none
          | some (v, rest) =>
            match skipBlanks rest with
            | '\x7d' :: rest => some ([(k, v)], rest)
            | ',' :: rest => (scanFields fuel rest).map fun (fs, rest) => ((k, v) :: fs, rest)
            | _ => none
        | _ => none
    | _ => none

end

/-- The value of a text. -/
def parse? (text : List Char) : Option Json :=
  match scanValue (2 * text.length + 2) text with
  | some (v, rest) => if skipBlanks rest = [] then some v else none
  | none => none

end Json
end Chunkwise
