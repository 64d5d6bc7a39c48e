import Chunkwise.Decimal.Read
import Chunkwise.Setting.Basic
import Chunkwise.Setting.Toml.Text

/-!
# Words in TOML

A value without quotes or brackets is a word: a truth value, a whole number in one of four bases, a number with a
point or an exponent, or a date or time. Single underscores may stand between digits.
-/

namespace Chunkwise
namespace Toml

/-! ## Numbers -/

/-- The digits of a number in which single underscores may stand between digits. -/
def plainDigits? (isDigit : Char → Bool) : List Char → Option (List Char)
  | [] => none
  | [c] => if isDigit c then some [c] else none
  | c :: '_' :: rest => if isDigit c then (plainDigits? isDigit rest).map (c :: ·) else none
  | c :: rest => if isDigit c then (plainDigits? isDigit rest).map (c :: ·) else none

/-- The number that digits of a base stand for, if it fits a word of 63 bits. -/
def ofBase? (base : Nat) (digits : List Char) : Option Nat :=
  ((plainDigits? (fun c => (digitValue? base c).isSome) digits).bind (numeral? base)).filter (· < Nat.pow 2 63)

/-- A sign and what it stands before. -/
def splitSign : List Char → Bool × List Char
  | '-' :: rest => (true, rest)
  | '+' :: rest => (false, rest)
  | cs => (false, cs)

/-- Digits of a whole number without a needless zero in front. -/
def wholeDigits? (cs : List Char) : Option (List Char) :=
  match plainDigits? Char.isDigit cs with
  | some ('0' :: _ :: _) => none
  | found => found

/-- A whole number. -/
def integer? (cs : List Char) : Option Int :=
  match cs with
  | '0' :: 'x' :: rest => (ofBase? 16 rest).map Int.ofNat
  | '0' :: 'o' :: rest => (ofBase? 8 rest).map Int.ofNat
  | '0' :: 'b' :: rest => (ofBase? 2 rest).map Int.ofNat
  | _ =>
    let (negative, rest) := splitSign cs
    match wholeDigits? rest with
    | none => none
    | some digits =>
      let n := Decimal.natOfDigits digits
      if negative then (if n ≤ Nat.pow 2 63 then some (-n) else none)
      else if n < Nat.pow 2 63 then some (Int.ofNat n) else none

/-- An exponent: a sign and digits. -/
def exponent? (cs : List Char) : Option Int :=
  let (negative, rest) := splitSign cs
  (plainDigits? Char.isDigit rest).map fun digits =>
    let n := Decimal.natOfDigits digits
    if negative then -n else n

/-- A number with a point or an exponent. -/
def float? (cs : List Char) : Option Float :=
  let (negative, rest) := splitSign cs
  if rest = ['i', 'n', 'f'] then some (if negative then -(1.0 / 0.0) else 1.0 / 0.0)
  else if rest = ['n', 'a', 'n'] then some (if negative then -(0.0 / 0.0) else 0.0 / 0.0)
  else
    let isMark (c : Char) : Bool := c == 'e' || c == 'E'
    let mantissa := rest.takeWhile (!isMark ·)
    let power := rest.dropWhile (!isMark ·)
    let whole := mantissa.takeWhile (· != '.')
    let point := mantissa.dropWhile (· != '.')
    let fraction := match point with
      | [] => some []
      | _ :: digits => plainDigits? Char.isDigit digits
    let exponent := match power with
      | [] => some 0
      | _ :: digits => exponent? digits
    if point.isEmpty && power.isEmpty then none
    else match wholeDigits? whole, fraction, exponent with
      | some whole, some fraction, some exponent =>
        let x := Decimal.ofParts negative whole fraction exponent
        if x.isInf && !negative then none else some x
      | _, _, _ => none

/-! ## Dates and times -/

/-- A number of two digits in a range. -/
def twoDigits? (least greatest : Nat) : List Char → Scan Nat
  | a :: b :: rest =>
    let n := (a.toNat - 48) * 10 + (b.toNat - 48)
    if a.isDigit && b.isDigit && least ≤ n && n ≤ greatest then some (n, rest) else none
  | _ => none

/-- Number of days of a month. -/
def daysOf (year month : Nat) : Nat :=
  if month = 2 then (if year % 4 = 0 && (year % 100 ≠ 0 || year % 400 = 0) then 29 else 28)
  else if month = 4 || month = 6 || month = 9 || month = 11 then 30
  else 31

/-- What follows a date. -/
def skipDate? (cs : List Char) : Option (List Char) := do
  if !(cs.take 4).all Char.isDigit || cs.length < 10 then none
  let year := Decimal.natOfDigits (cs.take 4)
  match cs.drop 4 with
  | '-' :: rest =>
    let (month, rest) ← twoDigits? 1 12 rest
    match rest with
    | '-' :: rest =>
      let (_, rest) ← twoDigits? 1 (daysOf year month) rest
      some rest
    | _ => none
  | _ => none

/-- What follows a time of day. -/
def skipTime? (cs : List Char) : Option (List Char) := do
  let (_, rest) ← twoDigits? 0 23 cs
  match rest with
  | ':' :: rest =>
    let (_, rest) ← twoDigits? 0 59 rest
    match rest with
    | ':' :: rest =>
      let (_, rest) ← twoDigits? 0 60 rest
      match rest with
      | '.' :: rest =>
        if (rest.takeWhile Char.isDigit).isEmpty then none else some (rest.dropWhile Char.isDigit)
      | rest => some rest
    | _ => none
  | _ => none

/-- Whether a text is an offset from universal time, or nothing. -/
def isOffset : List Char → Bool
  | [] => true
  | ['Z'] | ['z'] => true
  | sign :: rest =>
    (sign == '+' || sign == '-') &&
      match twoDigits? 0 23 rest with
      | some (_, ':' :: rest) =>
        match twoDigits? 0 59 rest with
        | some (_, []) => true
        | _ => false
      | _ => false

/-- Whether a text is a date, a time, or both. -/
def isMoment (cs : List Char) : Bool :=
  match skipDate? cs with
  | none => skipTime? cs == some []
  | some [] => true
  | some (sep :: rest) =>
    (sep == 'T' || sep == 't' || sep == ' ') && (skipTime? rest).any isOffset

/-! ## Words -/

/-- Whether a character may stand in a number or date. -/
def isWord (c : Char) : Bool := c.isAlphanum || c == '+' || c == '-' || c == '.' || c == '_' || c == ':'

/-- A word, and behind a date a blank and the time. -/
def scanWord (cs : List Char) : List Char × List Char :=
  let word := cs.takeWhile isWord
  let rest := cs.dropWhile isWord
  match rest with
  | ' ' :: c :: more =>
    if skipDate? word == some [] && c.isDigit then
      (word ++ ' ' :: (c :: more).takeWhile isWord, (c :: more).dropWhile isWord)
    else (word, rest)
  | _ => (word, rest)

/-- What a date or time says: where a record is expected, it is one with an entry of an unknown name. -/
def momentSetting : Setting := .table [("moment", .scalar {})]

/-- What a word says. -/
def ofWord? (word : List Char) : Option Setting :=
  if word = ['t', 'r', 'u', 'e'] then some (.scalar { bool := some true })
  else if word = ['f', 'a', 'l', 's', 'e'] then some (.scalar { bool := some false })
  else
    match integer? word with
    | some n => some (.scalar (Json.intReadings n))
    | none =>
      match float? word with
      | some x => some (.scalar { number := some x })
      | none => if isMoment word then some momentSetting else none

end Toml
end Chunkwise
